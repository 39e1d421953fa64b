import LambdaCalculus.Name.Basic
import Mathlib.Data.List.Basic
import Mathlib.Data.List.Induction

/-!
# Numbers behind names

A number is written behind a base one decimal digit at a time, and can be read back from these
digits. So a base with two different numbers behind it gives two different names, which is what the
search for a fresh name rests on. The other way round, digits are those of the number that they
spell unless zeros stand in front of it.
-/

namespace LambdaCalculus

namespace Text

/-! ### Decimal digits -/

theorem ofDecimalDigits_append (digits : List Nat) (d : Nat) :
    ofDecimalDigits (digits ++ [d]) = 10 * ofDecimalDigits digits + d := by
  simp only [ofDecimalDigits, List.foldl_append, List.foldl_cons, List.foldl_nil]

theorem ofDecimalDigits_decimalDigits (n : Nat) : ofDecimalDigits (decimalDigits n) = n := by
  fun_induction decimalDigits n with
  | case1 n hn => simp [ofDecimalDigits]
  | case2 n hn ih =>
      rw [ofDecimalDigits_append, ih]
      omega

theorem lt_ten_of_mem_decimalDigits {n d : Nat} (h : d ∈ decimalDigits n) : d < 10 := by
  fun_induction decimalDigits n with
  | case1 n hn =>
      rw [List.mem_singleton.mp h]
      exact hn
  | case2 n hn ih =>
      rcases List.mem_append.mp h with hfront | hlast
      · exact ih hfront
      · rw [List.mem_singleton.mp hlast]
        exact Nat.mod_lt n (by omega)

theorem decimalDigits_ne_nil (n : Nat) : decimalDigits n ≠ [] := by
  rw [decimalDigits]
  split <;> simp

theorem decimalDigits_of_lt {d : Nat} (h : d < 10) : decimalDigits d = [d] := by
  rw [decimalDigits, if_pos h]

theorem decimalDigits_mul_add {n d : Nat} (hn : 0 < n) (hd : d < 10) :
    decimalDigits (10 * n + d) = decimalDigits n ++ [d] := by
  have hfront : (10 * n + d) / 10 = n := by omega
  have hlast : (10 * n + d) % 10 = d := by omega
  rw [decimalDigits, if_neg (by omega), hfront, hlast]

theorem head?_decimalDigits_ne_zero {n : Nat} (hn : 0 < n) : (decimalDigits n).head? ≠ some 0 := by
  fun_induction decimalDigits n with
  | case1 n hlt =>
      intro hzero
      rw [List.head?_cons, Option.some.injEq] at hzero
      omega
  | case2 n hge ih =>
      rw [List.head?_append_of_ne_nil _ (decimalDigits_ne_nil _)]
      exact ih (by omega)

/-- Digits are those of the number that they spell, with zeros in front of them. -/
theorem exists_leading_zeros {digits : List Nat} (hne : digits ≠ [])
    (hdigits : ∀ d ∈ digits, d < 10) :
    ∃ k, digits = List.replicate k 0 ++ decimalDigits (ofDecimalDigits digits) := by
  induction digits using List.reverseRecOn with
  | nil => exact absurd rfl hne
  | append_singleton front d ih =>
      have hd : d < 10 := hdigits d (by simp)
      rw [ofDecimalDigits_append]
      by_cases hfront : front = []
      · refine ⟨0, ?_⟩
        have hvalue : 10 * ofDecimalDigits ([] : List Nat) + d = d := by simp [ofDecimalDigits]
        rw [hfront, hvalue, decimalDigits_of_lt hd]
        rfl
      · obtain ⟨k, hk⟩ := ih hfront fun e he => hdigits e (List.mem_append_left _ he)
        by_cases hvalue : ofDecimalDigits front = 0
        · -- the digits in front are zeros, and the last one is the only digit of the number
          refine ⟨k + 1, ?_⟩
          rw [hvalue, decimalDigits_of_lt (by omega), ← List.replicate_succ'] at hk
          rw [hvalue, hk, Nat.mul_zero, Nat.zero_add, decimalDigits_of_lt hd]
        · refine ⟨k, ?_⟩
          rw [decimalDigits_mul_add (by omega) hd, ← List.append_assoc, ← hk]

/-- Only zeros in front of a number are lost when its digits are read; the number zero has one
itself. -/
theorem decimalDigits_ofDecimalDigits_iff {digits : List Nat} (hne : digits ≠ [])
    (hdigits : ∀ d ∈ digits, d < 10) :
    decimalDigits (ofDecimalDigits digits) = digits ↔ digits = [0] ∨ digits.head? ≠ some 0 := by
  constructor
  · intro hsame
    rcases Nat.eq_zero_or_pos (ofDecimalDigits digits) with hzero | hpos
    · left
      rw [← hsame, hzero, decimalDigits_of_lt (by omega)]
    · right
      rw [← hsame]
      exact head?_decimalDigits_ne_zero hpos
  · rintro (rfl | hhead)
    · exact decimalDigits_of_lt (d := 0) (by omega)
    · obtain ⟨k, hk⟩ := exists_leading_zeros hne hdigits
      cases k with
      | zero => exact hk.symm
      | succ k =>
          rw [hk] at hhead
          exact absurd rfl hhead

end Text

namespace Name

/-! ### Subscript digits -/

theorem toNat_subscriptDigit {d : Nat} (h : d < 10) : (subscriptDigit d).toNat = 0x2080 + d := by
  have hvalid : (0x2080 + d).isValidChar := Or.inl (by omega)
  rw [subscriptDigit, Char.ofNat, dif_pos hvalid]
  rfl

theorem isSubscriptDigit_subscriptDigit {d : Nat} (h : d < 10) :
    isSubscriptDigit (subscriptDigit d) = true := by
  rw [isSubscriptDigit, toNat_subscriptDigit h]
  simp only [Bool.and_eq_true, decide_eq_true_eq]
  omega

theorem subscriptValue_subscriptDigit {d : Nat} (h : d < 10) :
    subscriptValue (subscriptDigit d) = d := by
  have hcode := toNat_subscriptDigit h
  unfold subscriptValue
  omega

theorem exists_digit_of_isSubscriptDigit {c : Char} (h : isSubscriptDigit c = true) :
    ∃ d < 10, c = subscriptDigit d := by
  simp only [isSubscriptDigit, Bool.and_eq_true, decide_eq_true_eq] at h
  have hd : c.toNat - 0x2080 < 10 := by omega
  refine ⟨c.toNat - 0x2080, hd, ?_⟩
  apply Char.toNat_inj.mp
  rw [toNat_subscriptDigit hd]
  omega

theorem map_subscriptValue_map_subscriptDigit {digits : List Nat} (h : ∀ d ∈ digits, d < 10) :
    (digits.map subscriptDigit).map subscriptValue = digits := by
  induction digits with
  | nil => rfl
  | cons d digits ih =>
      have hd := subscriptValue_subscriptDigit (h d List.mem_cons_self)
      have htail := ih fun e he => h e (List.mem_cons_of_mem d he)
      rw [List.map_cons, List.map_cons, hd, htail]

theorem map_subscriptDigit_inj {digits others : List Nat} (hdigits : ∀ d ∈ digits, d < 10)
    (hothers : ∀ d ∈ others, d < 10) :
    digits.map subscriptDigit = others.map subscriptDigit ↔ digits = others := by
  constructor
  · intro hchars
    have hvalues := congrArg (List.map subscriptValue) hchars
    rwa [map_subscriptValue_map_subscriptDigit hdigits,
      map_subscriptValue_map_subscriptDigit hothers] at hvalues
  · exact congrArg (List.map subscriptDigit)

/-- A run of subscript digits is written with decimal digits. -/
theorem exists_digits_of_isSubscriptDigit {run : List Char}
    (h : ∀ c ∈ run, isSubscriptDigit c = true) :
    ∃ digits : List Nat, (∀ d ∈ digits, d < 10) ∧ run = digits.map subscriptDigit := by
  induction run with
  | nil => exact ⟨[], by simp, rfl⟩
  | cons c run ih =>
      obtain ⟨digits, hdigits, hrun⟩ := ih fun e he => h e (List.mem_cons_of_mem c he)
      obtain ⟨d, hd, hc⟩ := exists_digit_of_isSubscriptDigit (h c List.mem_cons_self)
      refine ⟨d :: digits, ?_, ?_⟩
      · exact List.forall_mem_cons.mpr ⟨hd, hdigits⟩
      · rw [List.map_cons, ← hc, ← hrun]

/-! ### Numbers behind a base -/

theorem toList_subscript (base : String) (n : Nat) :
    (subscript base n).toList = base.toList ++ (Text.decimalDigits n).map subscriptDigit := by
  rw [subscript, String.toList_append, String.toList_ofList]

theorem isSubscriptDigit_of_mem_map {n : Nat} {c : Char}
    (h : c ∈ (Text.decimalDigits n).map subscriptDigit) :
    isSubscriptDigit c = true := by
  obtain ⟨d, hd, rfl⟩ := List.mem_map.mp h
  exact isSubscriptDigit_subscriptDigit (Text.lt_ten_of_mem_decimalDigits hd)

theorem subscript_inj {base : String} {m n : Nat} (h : subscript base m = subscript base n) :
    m = n := by
  have hchars : (Text.decimalDigits m).map subscriptDigit =
      (Text.decimalDigits n).map subscriptDigit := by
    have hlist := congrArg String.toList h
    simpa only [toList_subscript, List.append_cancel_left_eq] using hlist
  have hdigits : Text.decimalDigits m = Text.decimalDigits n :=
    (map_subscriptDigit_inj (fun _ => Text.lt_ten_of_mem_decimalDigits) fun _ =>
      Text.lt_ten_of_mem_decimalDigits).mp
      hchars
  rw [← Text.ofDecimalDigits_decimalDigits m, hdigits, Text.ofDecimalDigits_decimalDigits]

end Name

end LambdaCalculus
