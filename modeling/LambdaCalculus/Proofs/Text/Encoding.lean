import LambdaCalculus.Text.Encoding
import Mathlib.Tactic.IntervalCases

/-!
# Encoded texts are decoded

A text is encoded character by character. The decoder reads the bytes of one character without
looking at what stands behind them (`decodeFrom_utf8EncodeChar`), so it gives every text back
(`decode_encode`). The bounds that it puts on the second byte of three or four exclude no character:
they are those of the code points that need as many bytes and are no surrogates.
-/

namespace LambdaCalculus.Utf8

def encode (text : List Char) : List UInt8 := text.flatMap String.utf8EncodeChar

variable {position n : Nat} {p : Pending} {rest : List UInt8}

/-! ### Single bytes -/

theorem toNat_ofNat (h : n < 0x100) : (UInt8.ofNat n).toNat = n := by
  rw [UInt8.toNat_ofNat', Nat.mod_eq_of_lt h]

theorem decodeFrom_single (h : n < 0x80) :
    decodeFrom position none (UInt8.ofNat n :: rest)
      = (decodeFrom (position + 1) none rest).map (Char.ofNat n :: ·) := by
  have hbyte : UInt8.ofNat n < 0x80 := by
    rw [UInt8.lt_iff_toNat_lt, toNat_ofNat (by omega)]
    exact h
  rw [decodeFrom, if_pos hbyte, toNat_ofNat (by omega)]

theorem decodeFrom_lead {b : UInt8} (h : Pending.ofLead? position b = some p) :
    decodeFrom position none (b :: rest) = decodeFrom (position + 1) (some p) rest := by
  have hbyte : ¬ b < 0x80 := by
    intro hlt
    have hsmall : b < 0xC2 := by
      rw [UInt8.lt_iff_toNat_lt] at hlt ⊢
      exact Nat.lt_trans hlt (by decide)
    simp [Pending.ofLead?, hsmall] at h
  rw [decodeFrom, if_neg hbyte, h]

/-- A continuation byte in front of the last one. -/
theorem decodeFrom_middle (hn : n < 0x40) (hlow : p.low.toNat ≤ n + 0x80)
    (hhigh : n + 0x80 ≤ p.high.toNat)
    (hmissing : p.missing ≠ 1) :
    decodeFrom position (some p) (UInt8.ofNat (n + 0x80) :: rest) =
      decodeFrom (position + 1)
        (some { p with
          bits := p.bits * 0x40 + n
          missing := p.missing - 1
          low := 0x80
          high := 0xBF }) rest := by
  have hbounds : p.low ≤ UInt8.ofNat (n + 0x80) ∧ UInt8.ofNat (n + 0x80) ≤ p.high := by
    simp only [UInt8.le_iff_toNat_le, toNat_ofNat (show n + 0x80 < 0x100 by omega)]
    exact ⟨hlow, hhigh⟩
  have hbits : (n + 0x80) % 0x40 = n := by omega
  rw [decodeFrom, if_pos hbounds, toNat_ofNat (by omega), hbits, if_neg hmissing]

theorem decodeFrom_last (hn : n < 0x40) (hlow : p.low.toNat ≤ n + 0x80)
    (hhigh : n + 0x80 ≤ p.high.toNat)
    (hmissing : p.missing = 1) :
    decodeFrom position (some p) (UInt8.ofNat (n + 0x80) :: rest) =
      (decodeFrom (position + 1) none rest).map (Char.ofNat (p.bits * 0x40 + n) :: ·) := by
  have hbounds : p.low ≤ UInt8.ofNat (n + 0x80) ∧ UInt8.ofNat (n + 0x80) ≤ p.high := by
    simp only [UInt8.le_iff_toNat_le, toNat_ofNat (show n + 0x80 < 0x100 by omega)]
    exact ⟨hlow, hhigh⟩
  have hbits : (n + 0x80) % 0x40 = n := by omega
  rw [decodeFrom, if_pos hbounds, toNat_ofNat (by omega), hbits, if_pos hmissing]

/-! ### Leading bytes -/

theorem ofLead?_two (hlow : 2 ≤ n) (hhigh : n < 0x20) :
    Pending.ofLead? position (UInt8.ofNat (n + 0xC0))
      = some { start := position, lead := UInt8.ofNat (n + 0xC0), bits := n, missing := 1 } := by
  have hbits : (n + 0xC0) % 0x20 = n := by omega
  simp only [Pending.ofLead?, UInt8.lt_iff_toNat_lt, toNat_ofNat (show n + 0xC0 < 0x100 by omega),
    hbits]
  rw [if_neg (by simp; omega), if_pos (by simp; omega)]

/-- The first byte of three. Its bounds on the second one leave out the code points below `0x800`
and the surrogates. -/
theorem ofLead?_three (h : n < 0x10) :
    Pending.ofLead? position (UInt8.ofNat (n + 0xE0))
      = some { start := position, lead := UInt8.ofNat (n + 0xE0), bits := n, missing := 2,
               low := if n = 0 then 0xA0 else 0x80, high := if n = 0xD then 0x9F else 0xBF } := by
  interval_cases n <;> rfl

/-- The first byte of four. Its bounds on the second one leave out the numbers below `0x10000` and
above `0x10FFFF`. -/
theorem ofLead?_four (h : n < 0x05) :
    Pending.ofLead? position (UInt8.ofNat (n + 0xF0))
      = some { start := position, lead := UInt8.ofNat (n + 0xF0), bits := n, missing := 3,
               low := if n = 0 then 0x90 else 0x80, high := if n = 4 then 0x8F else 0xBF } := by
  interval_cases n <;> rfl

/-! ### Characters -/

/-- The bytes of a character are read as this character, whatever stands behind them. -/
theorem decodeFrom_utf8EncodeChar (position : Nat) (c : Char) (rest : List UInt8) :
    decodeFrom position none (String.utf8EncodeChar c ++ rest)
      = (decodeFrom (position + (String.utf8EncodeChar c).length) none rest).map (c :: ·) := by
  have hvalid : c.toNat < 0xD800 ∨ 0xDFFF < c.toNat ∧ c.toNat < 0x110000 := c.valid
  generalize hv : c.toNat = v at hvalid
  have hchar : Char.ofNat v = c := by rw [← hv, Char.ofNat_toNat]
  have hval : c.val.toNat = v := hv
  simp only [String.utf8EncodeChar, hval]
  split
  · rw [List.singleton_append, decodeFrom_single (by omega), hchar]
    rfl
  · split
    · have hbits : v / 64 % 0x20 * 0x40 + v % 0x40 = v := by omega
      rw [List.cons_append, List.singleton_append,
        decodeFrom_lead (ofLead?_two (by omega) (by omega)),
        decodeFrom_last (by omega) (by simp) (by simp; omega) rfl, hbits, hchar]
      rfl
    · split
      · have hlow : (if v / 4096 % 0x10 = 0 then 0xA0 else 0x80 : UInt8).toNat ≤
          v / 64 % 0x40 + 0x80 := by
          split <;> simp; omega
        have hhigh : v / 64 % 0x40 + 0x80 ≤
            (if v / 4096 % 0x10 = 0xD then 0x9F else 0xBF : UInt8).toNat := by
          split <;> simp <;> omega
        have hbits : (v / 4096 % 0x10 * 0x40 + v / 64 % 0x40) * 0x40 + v % 0x40 = v := by omega
        rw [List.cons_append, List.cons_append, List.singleton_append,
          decodeFrom_lead (ofLead?_three (by omega)),
          decodeFrom_middle (by omega) hlow hhigh (by simp),
            decodeFrom_last (by omega) (by simp) (by simp; omega) rfl, hbits, hchar]
        rfl
      · have hlow : (if v / 262144 % 0x08 = 0 then 0x90 else 0x80 : UInt8).toNat
            ≤ v / 4096 % 0x40 + 0x80 := by
          split <;> simp; omega
        have hhigh : v / 4096 % 0x40 + 0x80 ≤
            (if v / 262144 % 0x08 = 4 then 0x8F else 0xBF : UInt8).toNat := by
          split <;> simp <;> omega
        have hbits : ((v / 262144 % 0x08 * 0x40 + v / 4096 % 0x40) * 0x40 + v / 64 % 0x40) * 0x40 +
            v % 0x40 = v := by
          omega
        rw [List.cons_append, List.cons_append, List.cons_append, List.singleton_append,
          decodeFrom_lead (ofLead?_four (by omega)),
          decodeFrom_middle (by omega) hlow hhigh (by simp),
          decodeFrom_middle (by omega) (by simp) (by simp; omega) (by simp),
          decodeFrom_last (by omega) (by simp) (by simp; omega) rfl, hbits, hchar]
        rfl

/-! ### Texts -/

theorem decodeFrom_encode (position : Nat) (text : List Char) :
    decodeFrom position none (encode text) = .ok text := by
  induction text generalizing position with
  | nil => rfl
  | cons c text ih =>
      rw [encode, List.flatMap_cons, decodeFrom_utf8EncodeChar]
      exact congrArg (Except.map (c :: ·)) (ih _)

theorem decode_encode (text : List Char) : decode (encode text) = .ok text :=
  decodeFrom_encode 0 text

end LambdaCalculus.Utf8
