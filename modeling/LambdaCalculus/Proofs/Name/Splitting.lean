import LambdaCalculus.Name.Bounded
import LambdaCalculus.Proofs.Name.Least
import Mathlib.Data.List.TakeWhile

/-!
# Names are split where they were put together

Splitting takes a number off again that was written behind a base, and under a bound on numbers it
is refused only if the writing is. A name that was not made in this way is split too, into a base
and a run of subscript digits, but the run may have zeros in front of its number. These are lost:
writing the number behind the base again gives the name back exactly if the run has none of them.
-/

namespace LambdaCalculus.Name

/-! ### The run of digits -/

/-- A name is its base with subscript digits behind it, and they spell its number. -/
theorem exists_digits_of_split (name : String) :
    ∃ digits : List Nat, (∀ d ∈ digits, d < 10) ∧
      name = (split name).1 ++ String.ofList (digits.map subscriptDigit) ∧
      (split name).2 = if digits.isEmpty then none else some (Text.ofDecimalDigits digits) := by
  have hrun : ∀ c ∈ (name.toList.reverse.takeWhile isSubscriptDigit).reverse,
      isSubscriptDigit c = true := by
    intro c hc
    exact List.mem_takeWhile_imp (List.mem_reverse.mp hc)
  obtain ⟨digits, hdigits, hchars⟩ := exists_digits_of_isSubscriptDigit hrun
  refine ⟨digits, hdigits, ?_, ?_⟩
  · apply String.toList_inj.mp
    rw [← hchars, String.toList_append, String.toList_ofList]
    simp only [split, String.toList_ofList]
    rw [← List.reverse_append, List.takeWhile_append_dropWhile, List.reverse_reverse]
  · simp only [split]
    rw [hchars, map_subscriptValue_map_subscriptDigit hdigits, List.isEmpty_map]

theorem subscript_eq_append_iff {base : String} {n : Nat} {digits : List Nat}
    (hdigits : ∀ d ∈ digits, d < 10) :
    subscript base n = base ++ String.ofList (digits.map subscriptDigit) ↔
      Text.decimalDigits n = digits := by
  rw [← map_subscriptDigit_inj (fun _ => Text.lt_ten_of_mem_decimalDigits) hdigits,
    ← String.toList_inj, toList_subscript, String.toList_append, String.toList_ofList,
    List.append_cancel_left_eq]

theorem head?_map_subscriptDigit {digits : List Nat} (hdigits : ∀ d ∈ digits, d < 10) :
    (digits.map subscriptDigit).head? = some '₀' ↔ digits.head? = some 0 := by
  cases digits with
  | nil => simp
  | cons d digits =>
      have hd : subscriptDigit d = '₀' ↔ d = 0 := by
        constructor
        · intro hzero
          have hcode := toNat_subscriptDigit (hdigits d List.mem_cons_self)
          rw [hzero] at hcode
          have hzeroCode : '₀'.toNat = 0x2080 := rfl
          omega
        · rintro rfl
          rfl
      simpa using hd

/-- Digits come back when the number that they spell is written, unless zeros stand in front of
it. -/
theorem subscript_ofDecimalDigits_iff (base : String) {digits : List Nat} (hne : digits ≠ [])
    (hdigits : ∀ d ∈ digits, d < 10) :
    subscript base (Text.ofDecimalDigits digits) =
      base ++ String.ofList (digits.map subscriptDigit) ↔
      String.ofList (digits.map subscriptDigit) = "₀" ∨
        (String.ofList (digits.map subscriptDigit)).toList.head? ≠ some '₀' := by
  have hzero : String.ofList (digits.map subscriptDigit) = "₀" ↔ digits = [0] := by
    have hsingle : ∀ d ∈ [0], d < 10 := by simp
    rw [← String.toList_inj, String.toList_ofList]
    exact map_subscriptDigit_inj hdigits hsingle
  rw [subscript_eq_append_iff hdigits, Text.decimalDigits_ofDecimalDigits_iff hne hdigits, hzero,
    String.toList_ofList, ne_eq, ne_eq, head?_map_subscriptDigit hdigits]

/-! ### Numbers read back -/

theorem subscriptLength_subscript {base : String} (h : IsBase base) (n : Nat) :
    subscriptLength (subscript base n) = (Text.decimalDigits n).length := by
  obtain ⟨htake, _⟩ := takeWhile_reverse_append h fun _ => isSubscriptDigit_of_mem_map (n := n)
  rw [subscriptLength, toList_subscript, htake, List.length_reverse, List.length_map]

/-- A number that can be written behind a base can be read from the name, whatever the bound on
numbers. -/
theorem splitFault?_subscript {base : String} (h : IsBase base) (bound : Bound) (n : Nat) :
    splitFault? bound (subscript base n) = none ↔ writingFault? bound n = none := by
  rw [splitFault?, writingFault?, subscriptLength_subscript h]
  split <;> simp

/-- Writing a number behind a base and splitting a name are inverse to each other, but for zeros in
front of the number. What is written behind a base is split off from it again as a whole, so
different numbers make different names. Every name is a base with a run of subscript digits behind
it, which is empty if the name has no number. If it is not empty, writing its number behind the base
gives the name back exactly if the run is a single zero or begins with another digit. -/
theorem split_inverts_subscript :
    (∀ (base : String), IsBase base → ∀ n : Nat, split (subscript base n) = (base, some n) ∧
      ∀ bound, splitFault? bound (subscript base n) = none ↔ writingFault? bound n = none) ∧
    (∀ base : String, Function.Injective (subscript base)) ∧
    ∀ name : String, IsBase (split name).1 ∧ ∃ run : String,
      name = (split name).1 ++ run ∧ (∀ c ∈ run.toList, isSubscriptDigit c = true) ∧
      (run = "" ↔ ordinal (split name).2 = -1) ∧
      (run ≠ "" → ∃ n : Nat, (split name).2 = some n ∧
        (subscript (split name).1 n = name ↔ run = "₀" ∨ run.toList.head? ≠ some '₀')) := by
  refine ⟨?_, ?_, ?_⟩
  · intro base hbase n
    exact ⟨split_subscript hbase n, fun bound => splitFault?_subscript hbase bound n⟩
  · intro base m n hname
    exact subscript_inj hname
  · intro name
    obtain ⟨digits, hdigits, hname, hnumber⟩ := exists_digits_of_split name
    refine ⟨isBase_split name, String.ofList (digits.map subscriptDigit), hname, ?_, ?_, ?_⟩
    · intro c hc
      rw [String.toList_ofList] at hc
      obtain ⟨d, hd, rfl⟩ := List.mem_map.mp hc
      exact isSubscriptDigit_subscriptDigit (hdigits d hd)
    · rw [hnumber]
      cases digits with
      | nil => simp [ordinal]
      | cons d digits => simp [ordinal]
    · intro hrun
      have hne : digits ≠ [] := by
        rintro rfl
        exact hrun rfl
      refine ⟨Text.ofDecimalDigits digits, ?_, ?_⟩
      · rw [hnumber, if_neg (by simpa using hne)]
      · rw [← subscript_ofDecimalDigits_iff (split name).1 hne hdigits, ← hname]

/-- The digit inside `x₁y` stays where it is. The number of `x₀₇` is 7, but it is written without
the zero. -/
theorem split_inverts_subscript_zero_in_front :
    (IsBase "x₁y" ∧ split (subscript "x₁y" 30) = ("x₁y", some 30) ∧
      (splitFault? (some 2) (subscript "x₁y" 30) = none ↔ writingFault? (some 2) 30 = none)) ∧
    ∃ run : String, "x₀₇" = (split "x₀₇").1 ++ run ∧ run = "₀₇" ∧ run ≠ "" ∧
      (split "x₀₇").2 = some 7 ∧
      (subscript (split "x₀₇").1 7 = "x₀₇" ↔ run = "₀" ∨ run.toList.head? ≠ some '₀') := by
  obtain ⟨hwritten, _, hsplit⟩ := split_inverts_subscript
  have hbase : IsBase "x₁y" := by
    have hlast : "x₁y".toList.getLast? = some 'y' := by decide
    intro c hc
    rw [hlast, Option.mem_some] at hc
    rw [← hc]
    decide
  refine ⟨⟨hbase, (hwritten "x₁y" hbase 30).1, (hwritten "x₁y" hbase 30).2 (some 2)⟩, ?_⟩
  obtain ⟨_, run, hname, _, _, hnumber⟩ := hsplit "x₀₇"
  have hparts : split "x₀₇" = ("x", some 7) := by decide
  have hrun : run = "₀₇" := by
    rw [hparts] at hname
    exact (String.append_right_inj "x").mp hname.symm
  have hne : run ≠ "" := by
    rw [hrun]
    decide
  obtain ⟨n, hn, hback⟩ := hnumber hne
  have hseven : n = 7 := by
    rw [hparts] at hn
    exact (Option.some.inj hn).symm
  rw [hseven] at hback
  exact ⟨run, hname, hrun, hne, congrArg Prod.snd hparts, hback⟩

end LambdaCalculus.Name
