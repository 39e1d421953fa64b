import LambdaCalculus.Proofs.Name.Numbering

/-!
# Variants of a name

A fresh name is the name that it is made from, or the base of this name with a number behind it. A
base ends in no subscript digit, so the number is split off from it again as a whole
(`split_subscript`). A variant of a variant therefore has the base of the first name, however often
fresh names are made from fresh names.
-/

namespace LambdaCalculus.Name

/-! ### Bases -/

/-- Whether a name ends in no subscript digit. -/
def IsBase (name : String) : Prop := ∀ c ∈ name.toList.getLast?, isSubscriptDigit c = false

theorem isBase_split (name : String) : IsBase (split name).1 := by
  intro c hc
  simp only [split, String.toList_ofList, List.getLast?_reverse] at hc
  have hstop := List.head?_dropWhile_not isSubscriptDigit name.toList.reverse
  rw [Option.mem_def.mp hc] at hstop
  simpa using hstop

/-- From behind, a base with digits at its end is taken apart just where the base ends. -/
theorem takeWhile_reverse_append {base : String} (h : IsBase base) {digits : List Char}
    (hdigits : ∀ c ∈ digits, isSubscriptDigit c = true) :
    (base.toList ++ digits).reverse.takeWhile isSubscriptDigit = digits.reverse
      ∧ (base.toList ++ digits).reverse.dropWhile isSubscriptDigit = base.toList.reverse := by
  have hreverse : ∀ c ∈ digits.reverse, isSubscriptDigit c = true :=
    fun c hc => hdigits c (List.mem_reverse.mp hc)
  have hbase : ∀ c ∈ base.toList.reverse.head?, isSubscriptDigit c = false := by
    rw [List.head?_reverse]
    exact h
  rw [List.reverse_append, List.takeWhile_append_of_pos hreverse,
    List.dropWhile_append_of_pos hreverse]
  cases hchars : base.toList.reverse with
  | nil => simp
  | cons c rest =>
      rw [hchars] at hbase
      simp [hbase c rfl]

theorem split_subscript {base : String} (h : IsBase base) (n : Nat) :
    split (subscript base n) = (base, some n) := by
  have hdigits : ∀ c ∈ (Text.decimalDigits n).map subscriptDigit, isSubscriptDigit c = true :=
    fun _ => isSubscriptDigit_of_mem_map
  obtain ⟨htake, hdrop⟩ := takeWhile_reverse_append h hdigits
  have hvalues : ((Text.decimalDigits n).map subscriptDigit).map subscriptValue =
      Text.decimalDigits n :=
    map_subscriptValue_map_subscriptDigit fun _ => Text.lt_ten_of_mem_decimalDigits
  simp only [split, toList_subscript, htake, hdrop, List.reverse_reverse, String.ofList_toList,
    hvalues, Text.ofDecimalDigits_decimalDigits]
  simp [Text.decimalDigits_ne_nil]

/-! ### Variants -/

/-- Whether `x` is `y`, or the base of `y` with a number behind it. -/
def IsVariant (y x : String) : Prop := x = y ∨ ∃ k, x = subscript (split y).1 k

theorem IsVariant.refl (x : String) : IsVariant x x := Or.inl rfl

theorem isVariant_fresh (seed : String) (used : List String) :
    IsVariant seed (fresh seed used) := by
  unfold fresh
  split
  · exact Or.inr ⟨_, rfl⟩
  · exact .refl seed

theorem IsVariant.split_eq {y x : String} (h : IsVariant y x) : (split x).1 = (split y).1 := by
  rcases h with rfl | ⟨k, rfl⟩
  · rfl
  · rw [split_subscript (isBase_split y)]

theorem IsVariant.trans {x y z : String} (hy : IsVariant x y) (hz : IsVariant y z) :
    IsVariant x z := by
  rcases hz with rfl | ⟨k, rfl⟩
  · exact hy
  · rw [hy.split_eq]
    exact Or.inr ⟨k, rfl⟩

end LambdaCalculus.Name
