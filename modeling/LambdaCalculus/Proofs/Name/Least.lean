import LambdaCalculus.Proofs.Name.Fresh
import LambdaCalculus.Proofs.Name.Variant
import Mathlib.Data.Finset.Card
import Mathlib.Data.Nat.Find
import Mathlib.Order.Bounds.Basic

/-!
# A fresh name has the least number

A name that is taken is exchanged for its base with a number behind it, the least one above its own
that makes a name which is not taken. The search for this number ends by itself: the name that it
begins with is taken and is none of those that it tries, so among as many numbers as there are used
names one is left (`exists_unused_of_mem`). How many trials the search may make is of no importance
as long as it may make that many (`firstUnused_eq`).
-/

namespace LambdaCalculus

namespace Name

variable {base seed : String} {used : List String}

/-- The number of a name as it is compared with other numbers; -1 stands for a name without one. -/
def ordinal (number : Option Nat) : Int := number.elim (-1) (↑)

theorem nextNumber_eq (number : Option Nat) : (nextNumber number : Int) = ordinal number + 1 := by
  cases number with
  | none => rfl
  | some n => exact Int.natCast_succ n

theorem fresh_of_mem (h : seed ∈ used) :
    fresh seed used =
      subscript (split seed).1
        (firstUnused (split seed).1 used used.length (nextNumber (split seed).2)) := by
  rw [fresh, if_pos h]

/-- A search that finds an unused name behind used ones ends there, whatever more it might look
at. -/
theorem firstUnused_eq {fuel k i : Nat} (hbelow : ∀ j < i, subscript base (k + j) ∈ used)
    (hunused : subscript base (k + i) ∉ used) (hle : i ≤ fuel) :
    firstUnused base used fuel k = k + i := by
  obtain ⟨j, hj, heq, hbelow', hlast⟩ := firstUnused_spec base used fuel k
  rcases Nat.lt_trichotomy i j with hlt | rfl | hlt
  · exact absurd (hbelow' i hlt) hunused
  · exact heq
  · rcases hlast with rfl | hfree
    · omega
    · exact absurd (hbelow j hlt) hfree

/-- A number greater than that of a name makes another name. -/
theorem ne_subscript_of_ordinal_lt {n : Nat} (h : ordinal (split seed).2 < n) :
    seed ≠ subscript (split seed).1 n := by
  intro heq
  have hnumber : (split seed).2 = some n := by
    conv_lhs => rw [heq, split_subscript (isBase_split seed)]
  rw [hnumber] at h
  exact Int.lt_irrefl _ h

/-- Among the numbers above that of a used name, as many as there are used names cannot all be
taken. -/
theorem exists_unused_of_mem (hseed : seed ∈ used) :
    ∃ i < used.toFinset.card, subscript (split seed).1 (nextNumber (split seed).2 + i) ∉ used := by
  by_contra hall
  push Not at hall
  have hseedOther : seed ∉ (Finset.range used.toFinset.card).image
      fun i => subscript (split seed).1 (nextNumber (split seed).2 + i) := by
    intro hmem
    obtain ⟨i, _, heq⟩ := Finset.mem_image.mp hmem
    have hnext := nextNumber_eq (split seed).2
    exact ne_subscript_of_ordinal_lt (by omega) heq.symm
  have hsubset : insert seed ((Finset.range used.toFinset.card).image
      fun i => subscript (split seed).1 (nextNumber (split seed).2 + i)) ⊆ used.toFinset := by
    intro name hname
    rw [List.mem_toFinset]
    rcases Finset.mem_insert.mp hname with rfl | hnumbered
    · exact hseed
    · obtain ⟨i, hi, rfl⟩ := Finset.mem_image.mp hnumbered
      exact hall i (Finset.mem_range.mp hi)
  have hcard := Finset.card_le_card hsubset
  rw [Finset.card_insert_of_notMem hseedOther,
    Finset.card_image_of_injective _ fun i j hij =>
      Nat.add_left_cancel (subscript_inj hij), Finset.card_range] at hcard
  omega

/-- The first number above that of a used name that makes an unused one. -/
theorem exists_first_unused (hseed : seed ∈ used) :
    ∃ i < used.toFinset.card, subscript (split seed).1 (nextNumber (split seed).2 + i) ∉ used
      ∧ ∀ j < i, subscript (split seed).1 (nextNumber (split seed).2 + j) ∈ used := by
  obtain ⟨i, hi, hunused⟩ := exists_unused_of_mem hseed
  have hex : ∃ i, subscript (split seed).1 (nextNumber (split seed).2 + i) ∉ used := ⟨i, hunused⟩
  refine ⟨Nat.find hex, ?_, Nat.find_spec hex, ?_⟩
  · exact Nat.lt_of_le_of_lt (Nat.find_min' hex hunused) hi
  · intro j hj
    exact not_not.mp (Nat.find_min hex hj)

end Name

namespace Tree

open LambdaCalculus.Name

/-- The names that are free in one term or another. -/
def freeInSome {α : Type} (terms : List (Tree α)) : Finset String :=
  (terms.flatMap freeNames).toFinset

/-- A fresh name is free in none of the terms. It is the seed if that is free in none of them, and
otherwise the base of the seed with the least number above that of the seed that makes such a name.
This number lies no further above than there are free names, and the search for it ends there
however long it may go on. -/
theorem freshName_isLeast (seed : String) (terms : List Term) :
    freshName seed terms ∉ freeInSome terms ∧
      (seed ∉ freeInSome terms → freshName seed terms = seed) ∧
      (seed ∈ freeInSome terms → ∃ k : Nat,
        freshName seed terms = subscript (split seed).1 k ∧
          IsLeast {n : Nat | ordinal (split seed).2 < n ∧
            subscript (split seed).1 n ∉ freeInSome terms} k ∧
          (k : Int) ≤ ordinal (split seed).2 + (freeInSome terms).card ∧
          ∀ fuel, (freeInSome terms).card ≤ fuel →
            firstUnused (split seed).1 (terms.flatMap freeNames) fuel
              (nextNumber (split seed).2) = k) := by
  simp only [freeInSome, List.mem_toFinset, freshName]
  refine ⟨fresh_not_mem seed _, fresh_of_not_mem, ?_⟩
  intro hseed
  obtain ⟨i, hi, hunused, hbelow⟩ := exists_first_unused hseed
  have hnext := nextNumber_eq (split seed).2
  refine ⟨nextNumber (split seed).2 + i, ?_, ⟨⟨?_, hunused⟩, ?_⟩, ?_, ?_⟩
  · have hlength := (terms.flatMap freeNames).toFinset_card_le
    rw [fresh_of_mem hseed, firstUnused_eq hbelow hunused (by omega)]
  · omega
  · rintro n ⟨hn, hfree⟩
    by_contra hless
    -- a number between that of the seed and the one found is one of those that were tried before
    obtain ⟨j, rfl⟩ : ∃ j, n = nextNumber (split seed).2 + j :=
      ⟨n - nextNumber (split seed).2, by omega⟩
    exact hfree (hbelow j (by omega))
  · omega
  · intro fuel hfuel
    exact firstUnused_eq hbelow hunused (by omega)

/-- `x₀` is not free in the term, but the number has to lie above that of the seed. -/
example :
    freshName "x₁" [(app (var "x₁") (app (var "x₂") (var "x")) : Term)] = "x₃" := by decide +kernel

end Tree

end LambdaCalculus
