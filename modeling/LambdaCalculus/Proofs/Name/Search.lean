import LambdaCalculus.Proofs.Name.Least

/-!
# The search for a fresh name without fuel

A number is searched for by trying one after the other as long as the names that they make are
taken. `Finds` and `Freshens` are the rules of this search; they set no limit to it, so nothing in
them says that it ends. It does (`exists_finds`), and what it finds is what `fresh` makes with as
many trials as it allows itself (`freshens_iff`).
-/

namespace LambdaCalculus.Name

/-- Whether the search that begins at the first number ends at the second. -/
inductive Finds (base : String) (used : List String) : Nat → Nat → Prop where
  | unused {k : Nat} (h : subscript base k ∉ used) : Finds base used k k
  | taken {k n : Nat} (h : subscript base k ∈ used) (hnext : Finds base used (k + 1) n) :
      Finds base used k n

/-- Whether the search for a name that is made from `seed` and is not in `used` ends at `name`. -/
inductive Freshens (seed : String) (used : List String) : String → Prop where
  | seed (h : seed ∉ used) : Freshens seed used seed
  | numbered {n : Nat} (h : seed ∈ used)
        (hn : Finds (split seed).1 used (nextNumber (split seed).2) n) :
      Freshens seed used (subscript (split seed).1 n)

variable {base seed name : String} {used : List String}

theorem exists_finds_of_not_mem {i k : Nat} (h : subscript base (k + i) ∉ used) :
    ∃ n, Finds base used k n := by
  induction i generalizing k with
  | zero => exact ⟨k, .unused h⟩
  | succ i ih =>
      by_cases htaken : subscript base k ∈ used
      · have hshift : k + (i + 1) = k + 1 + i := by omega
        rw [hshift] at h
        obtain ⟨n, hn⟩ := ih h
        exact ⟨n, .taken htaken hn⟩
      · exact ⟨k, .unused htaken⟩

theorem exists_finds (base : String) (used : List String) (k : Nat) : ∃ n, Finds base used k n := by
  obtain ⟨i, _, hunused⟩ := exists_unused base used k
  exact exists_finds_of_not_mem hunused

theorem Finds.le {k n : Nat} (h : Finds base used k n) : k ≤ n := by
  induction h with
  | unused _ => exact Nat.le_refl _
  | taken _ _ ih => exact Nat.le_of_succ_le ih

/-- A search does not go past a number whose name is not taken. -/
theorem Finds.le_of_not_mem {k n m : Nat} (h : Finds base used k n) (hle : k ≤ m)
    (hunused : subscript base m ∉ used) :
    n ≤ m := by
  induction h with
  | unused _ => exact hle
  | taken htaken _ ih =>
      apply ih
      rcases Nat.eq_or_lt_of_le hle with rfl | hlt
      · exact absurd htaken hunused
      · exact hlt

theorem Finds.firstUnused_eq {k n fuel : Nat} (h : Finds base used k n) (hle : n ≤ k + fuel) :
    firstUnused base used fuel k = n := by
  induction h generalizing fuel with
  | unused hunused =>
      cases fuel with
      | zero => rfl
      | succ fuel => rw [firstUnused, if_neg hunused]
  | taken htaken hnext ih =>
      have hlater := hnext.le
      cases fuel with
      | zero => omega
      | succ fuel =>
          rw [firstUnused, if_pos htaken]
          exact ih (by omega)

/-- As many trials as there are used names are enough for any search. -/
theorem Finds.firstUnused_length_eq {k n : Nat} (h : Finds base used k n) :
    firstUnused base used used.length k = n := by
  obtain ⟨i, hi, hunused⟩ := exists_unused base used k
  have hle : n ≤ k + i := h.le_of_not_mem (by omega) hunused
  exact h.firstUnused_eq (by omega)

theorem freshens_iff : Freshens seed used name ↔ name = fresh seed used := by
  by_cases hseed : seed ∈ used
  · rw [fresh_of_mem hseed]
    constructor
    · intro h
      cases h with
      | seed hfree => exact absurd hseed hfree
      | numbered _ hn => rw [hn.firstUnused_length_eq]
    · rintro rfl
      obtain ⟨n, hn⟩ := exists_finds (split seed).1 used (nextNumber (split seed).2)
      rw [hn.firstUnused_length_eq]
      exact .numbered hseed hn
  · rw [fresh_of_not_mem hseed]
    constructor
    · intro h
      cases h with
      | seed => rfl
      | numbered htaken _ => exact absurd htaken hseed
    · rintro rfl
      exact .seed hseed

end LambdaCalculus.Name
