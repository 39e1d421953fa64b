import LambdaCalculus.Term.Free
import LambdaCalculus.Proofs.Name.Numbering
import Mathlib.Data.List.Nodup
import Mathlib.Data.List.Perm.Subperm
import Mathlib.Tactic.Push

/-!
# Fresh names are fresh

`firstUnused` looks at as many numbers as there are used names before it settles on the next. If it
had found all of them taken, and that next one too, the used names would hold one name more than
they have entries. So what it settles on is not used, whatever the used names are, and a name made
by `fresh` never is.
-/

namespace LambdaCalculus.Name

/-- The search settles on a number at most `fuel` above the first, and has found all numbers in
front of it taken. It has not looked at the last one only. -/
theorem firstUnused_spec (base : String) (used : List String) (fuel k : Nat) :
    ∃ i ≤ fuel, firstUnused base used fuel k = k + i ∧ (∀ j < i, subscript base (k + j) ∈ used)
      ∧ (i = fuel ∨ subscript base (k + i) ∉ used) := by
  induction fuel generalizing k with
  | zero => exact ⟨0, Nat.le_refl 0, rfl, by simp, Or.inl rfl⟩
  | succ fuel ih =>
      by_cases htaken : subscript base k ∈ used
      · obtain ⟨i, hle, heq, hbelow, hlast⟩ := ih (k + 1)
        have hshift : ∀ j, k + 1 + j = k + (j + 1) := by omega
        refine ⟨i + 1, by omega, ?_, ?_, ?_⟩
        · rw [firstUnused, if_pos htaken, heq, hshift]
        · intro j hj
          cases j with
          | zero => exact htaken
          | succ j =>
              rw [← hshift]
              exact hbelow j (by omega)
        · rw [← hshift]
          exact hlast.imp_left (congrArg (· + 1))
      · refine ⟨0, by omega, ?_, by simp, Or.inr htaken⟩
        rw [firstUnused, if_neg htaken]
        rfl

/-- More numbered names than there are used names cannot all be used. -/
theorem exists_unused (base : String) (used : List String) (k : Nat) :
    ∃ i ≤ used.length, subscript base (k + i) ∉ used := by
  by_contra hall
  push Not at hall
  have hnodup : ((List.range (used.length + 1)).map fun i => subscript base (k + i)).Nodup :=
    List.nodup_range.map fun i j hij => Nat.add_left_cancel (subscript_inj hij)
  have hsubset : ((List.range (used.length + 1)).map fun i => subscript base (k + i)) ⊆ used := by
    intro name hname
    obtain ⟨i, hi, rfl⟩ := List.mem_map.mp hname
    exact hall i (Nat.lt_succ_iff.mp (List.mem_range.mp hi))
  have hlength := (hnodup.subperm hsubset).length_le
  simp only [List.length_map, List.length_range] at hlength
  omega

theorem subscript_firstUnused_not_mem (base : String) (used : List String) (k : Nat) :
    subscript base (firstUnused base used used.length k) ∉ used := by
  obtain ⟨i, _, heq, hbelow, hlast⟩ := firstUnused_spec base used used.length k
  rw [heq]
  rcases hlast with hfuel | hunused
  · -- all numbers before the last are taken, so the one that is not is the last
    obtain ⟨j, hj, hfree⟩ := exists_unused base used k
    have hij : ¬ j < i := fun hlt => hfree (hbelow j hlt)
    have hlastNumber : j = i := by omega
    rwa [← hlastNumber]
  · exact hunused

theorem fresh_not_mem (seed : String) (used : List String) : fresh seed used ∉ used := by
  by_cases hseed : seed ∈ used
  · simp only [fresh, if_pos hseed]
    exact subscript_firstUnused_not_mem _ _ _
  · rwa [fresh_of_not_mem hseed]

end LambdaCalculus.Name

namespace LambdaCalculus.Tree

variable {α : Type}

theorem freshName_not_mem_freeNames {seed : String} {terms : List (Tree α)} {t : Tree α}
    (h : t ∈ terms) :
    freshName seed terms ∉ t.freeNames := by
  intro hfree
  exact Name.fresh_not_mem seed (terms.flatMap freeNames) (List.mem_flatMap.mpr ⟨t, h, hfree⟩)

end LambdaCalculus.Tree
