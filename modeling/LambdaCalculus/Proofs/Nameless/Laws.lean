import LambdaCalculus.Proofs.Nameless.Alpha
import LambdaCalculus.Proofs.Nameless.Substitution
import Mathlib.Data.Finset.Basic

/-!
# Laws of substitution

Substituting changes what one name is interpreted by (`interpret_substitute`), and so laws of
substitution are laws of such changes. Binders need no attention any more, though the sides of a law
may have renamed them at different moments and to different names.

* Two substitutions can be done in the other order if the first replacement undergoes the second
substitution, and the name replaced first is not free in the second replacement. * The free names of
a term are the names that its nameless form mentions, and so those of a substitution are seen in
what the names of its target are interpreted by.
-/

namespace LambdaCalculus

/-! ### Two substitutions -/

namespace Tree

theorem interpret_update_of_not_mem {x : String} {t : Term} (h : x ∉ t.freeNames) (n : Nameless)
    (σ : String → Nameless) : t.interpret (Function.update σ x n) = t.interpret σ := by
  apply interpret_congr
  intro y hy
  have hyx : y ≠ x := by
    rintro rfl
    exact h hy
  exact Function.update_of_ne hyx n σ

/-- The substitution lemma. -/
theorem alphaEq_substitute_substitute {x y : String} (hxy : x ≠ y) (M N : Term) {P : Term}
    (hx : x ∉ P.freeNames) :
    (substitute y P (substitute x N M)).alphaEq
      (substitute x (substitute y P N) (substitute y P M)) = true := by
  have hinterpret (σ : String → Nameless) : (substitute y P (substitute x N M)).interpret σ
      = (substitute x (substitute y P N) (substitute y P M)).interpret σ := by
    simp only [interpret_substitute]
    rw [interpret_update_of_not_mem hx, Function.update_comm hxy]
  rw [alphaEq_iff, nameless_eq_interpret, nameless_eq_interpret]
  exact hinterpret _

/-- The binder of `λz.x` has to give way to both replacements in one order, and to the first one
only in the other. -/
theorem alphaEq_substitute_substitute_renamed :
    "x" ≠ "y" ∧ "x" ∉ (var "z₀" : Term).freeNames ∧
      (substitute "y" (var "z₀") (substitute "x" (var "z") (lam "z" (var "x"))) : Term).alphaEq
        (substitute "x" (substitute "y" (var "z₀") (var "z"))
          (substitute "y" (var "z₀") (lam "z" (var "x")))) = true ∧
      (substitute "y" (var "z₀") (substitute "x" (var "z") (lam "z" (var "x"))) : Term) =
        lam "z₁" (var "z") ∧
      (substitute "x" (substitute "y" (var "z₀") (var "z"))
        (substitute "y" (var "z₀") (lam "z" (var "x"))) : Term)
        = lam "z₀" (var "z") := by
  have hxy : "x" ≠ "y" := by decide
  have hx : "x" ∉ (var "z₀" : Term).freeNames := by decide
  refine ⟨hxy, hx, alphaEq_substitute_substitute hxy (lam "z" (var "x")) (var "z") hx, ?_, ?_⟩
  · decide +kernel
  · decide +kernel

end Tree

/-! ### Mentioned references -/

namespace Nameless

/-- Whether a reference to a place outside of a term occurs in it. -/
def Mentions (r : Ref) : Nameless → Prop
  | ref s => s = r
  | lam b => b.Mentions r.shift
  | app f a => f.Mentions r ∨ a.Mentions r

theorem mentions_rename {ξ : Ref → Ref} {t : Nameless} {r : Ref} :
    (t.rename ξ).Mentions r ↔ ∃ s, t.Mentions s ∧ ξ s = r := by
  induction t generalizing ξ r with
  | ref s => simp [rename, Mentions]
  | lam b ih =>
      simp only [rename, Mentions, ih]
      constructor
      · rintro ⟨s, hs, hsr⟩
        rcases Ref.innermost_or_shift s with rfl | ⟨s, rfl⟩
        · -- the variable of the abstraction itself stays where it is
          exact (Ref.shift_ne_innermost r hsr.symm).elim
        · refine ⟨s, hs, Ref.shift_inj ?_⟩
          simpa only [Ref.lift, Ref.elim_shift] using hsr
      · rintro ⟨s, hs, rfl⟩
        refine ⟨s.shift, hs, ?_⟩
        simp only [Ref.lift, Ref.elim_shift]
  | app f a ihf iha => simp only [rename, Mentions, ihf, iha, or_and_right, exists_or]

theorem mentions_shift {t : Nameless} {r : Ref} : t.shift.Mentions r.shift ↔ t.Mentions r := by
  rw [shift, mentions_rename]
  constructor
  · rintro ⟨s, hs, hsr⟩
    rwa [← Ref.shift_inj hsr]
  · intro h
    exact ⟨r, h, rfl⟩

end Nameless

namespace Tree

open Nameless (Mentions mentions_shift)

/-! ### Free names -/

/-- Below a binder, only the values of other names mention anything outside. -/
theorem mentions_under {x y : String} {σ : String → Nameless} {r : Ref} :
    (under x σ y).Mentions r.shift ↔ y ≠ x ∧ (σ y).Mentions r := by
  by_cases hy : y = x
  · have hinnermost := (Ref.shift_ne_innermost r).symm
    simp [under, hy, Mentions, hinnermost]
  · simp [under, hy, mentions_shift]

theorem mentions_interpret {σ : String → Nameless} {t : Term} {r : Ref} :
    (t.interpret σ).Mentions r ↔ ∃ y ∈ t.freeNames, (σ y).Mentions r := by
  induction t generalizing σ r with
  | var x => simp [interpret]
  | lam x b ih => simp only [interpret, Mentions, ih, mentions_under, mem_freeNames_lam, and_assoc]
  | app f a ihf iha =>
      simp only [interpret, Mentions, ihf, iha, mem_freeNames_app, or_and_right, exists_or]
  | foreign v => exact v.elim

/-- What is mentioned by name when bound variables have none is what is free. -/
theorem mentions_nameless {x : String} {t : Term} :
    t.nameless.Mentions (.free x) ↔ x ∈ t.freeNames := by
  simp [nameless_eq_interpret, mentions_interpret, Mentions]

theorem mem_freeNames_substitute {x z : String} {N M : Term} :
    z ∈ (substitute x N M).freeNames ↔ z ∈ M.freeNames ∧ z ≠ x ∨ x ∈ M.freeNames ∧
    z ∈ N.freeNames := by
  rw [← mentions_nameless, nameless_eq_interpret, interpret_substitute, mentions_interpret,
    ← nameless_eq_interpret]
  constructor
  · rintro ⟨y, hy, hz⟩
    by_cases hyx : y = x
    · rw [hyx, Function.update_self, mentions_nameless] at hz
      exact Or.inr ⟨hyx ▸ hy, hz⟩
    · rw [Function.update_of_ne hyx, Mentions] at hz
      obtain rfl := Ref.free.inj hz
      exact Or.inl ⟨hy, hyx⟩
  · rintro (⟨hz, hzx⟩ | ⟨hx, hz⟩)
    · refine ⟨z, hz, ?_⟩
      rw [Function.update_of_ne hzx]
      rfl
    · refine ⟨x, hx, ?_⟩
      rwa [Function.update_self, mentions_nameless]

/-- The free names of a substitution: the replacement brings its own in if the name that it replaces
is free, and otherwise nothing changes. -/
theorem toFinset_freeNames_substitute (x : String) (N M : Term) :
    (substitute x N M).freeNames.toFinset =
      if x ∈ M.freeNames then M.freeNames.toFinset.erase x ∪ N.freeNames.toFinset
        else M.freeNames.toFinset := by
  ext z
  by_cases hx : x ∈ M.freeNames
  · rw [if_pos hx]
    simp [mem_freeNames_substitute, hx, and_comm]
  · rw [if_neg hx]
    have hzx : z ∈ M.freeNames → z ≠ x := by
      rintro hz rfl
      exact hx hz
    simpa [mem_freeNames_substitute, hx] using hzx

end Tree

end LambdaCalculus
