import LambdaCalculus.Text.Quoted
import Mathlib.Tactic.IntervalCases

/-!
# Quoted text is read back

Each character of a quoted text can be read back on its own, whatever stands behind it
(`readChar_escapeChar`): behind a backslash a letter tells how many digits belong to the character,
and no character is written so that it begins with the quote. So a quoted text ends by itself, and
what stands between its quotes is determined by it, whatever the text has in it and whichever quote
it is written with.
-/

namespace LambdaCalculus.Text

/-! ### Hexadecimal digits -/

def hexValue (c : Char) : Nat := if c.toNat < 0x61 then c.toNat - 0x30 else c.toNat - 0x57

/-- The number that hexadecimal digits spell, most significant first. -/
def ofHexDigits (digits : List Char) : Nat := digits.foldl (fun n c => 16 * n + hexValue c) 0

theorem hexValue_hexDigit {d : Nat} (h : d < 16) : hexValue (hexDigit d) = d := by
  interval_cases d <;> rfl

theorem length_hexDigits (width n : Nat) : (hexDigits width n).length = width := by
  induction width generalizing n with
  | zero => rfl
  | succ width ih => rw [hexDigits, List.length_append, ih, List.length_singleton]

theorem ofHexDigits_hexDigits (width : Nat) {n : Nat} (h : n < 16 ^ width) :
    ofHexDigits (hexDigits width n) = n := by
  induction width generalizing n with
  | zero =>
      obtain rfl : n = 0 := Nat.lt_one_iff.mp h
      rfl
  | succ width ih =>
      have hfront : n / 16 < 16 ^ width := by omega
      have hlast : n % 16 < 16 := Nat.mod_lt n (by omega)
      rw [hexDigits, ofHexDigits, List.foldl_append, ← ofHexDigits, ih hfront]
      simp only [List.foldl_cons, List.foldl_nil, hexValue_hexDigit hlast]
      omega

/-! ### Single characters -/

/-- The character whose code point is spelled by the first digits of a text. -/
def readCodePoint (width : Nat) (cs : List Char) : Option (Char × List Char) :=
  some (Char.ofNat (ofHexDigits (cs.take width)), cs.drop width)

/-- The first character that stands written in a text between quotes, and what stands behind it. -/
def readChar : List Char → Option (Char × List Char)
  | [] => none
  | '\\' :: 'n' :: rest => some ('\n', rest)
  | '\\' :: 'r' :: rest => some ('\r', rest)
  | '\\' :: 't' :: rest => some ('\t', rest)
  | '\\' :: 'x' :: rest => readCodePoint 2 rest
  | '\\' :: 'u' :: rest => readCodePoint 4 rest
  | '\\' :: 'U' :: rest => readCodePoint 8 rest
  | '\\' :: c :: rest => some (c, rest)
  | c :: rest => some (c, rest)

theorem readCodePoint_hexDigits {width : Nat} {c : Char} (h : c.toNat < 16 ^ width)
    (rest : List Char) :
    readCodePoint width (hexDigits width c.toNat ++ rest) = some (c, rest) := by
  rw [readCodePoint, List.take_left' (length_hexDigits _ _), List.drop_left' (length_hexDigits _ _),
    ofHexDigits_hexDigits width h, Char.ofNat_toNat]

theorem codePointEscape_cases (c : Char) :
    ∃ marker width, (marker, width) ∈ [('x', 2), ('u', 4), ('U', 8)] ∧ c.toNat < 16 ^ width ∧
      codePointEscape c = '\\' :: marker :: hexDigits width c.toNat := by
  have hvalid : c.toNat < 0xD800 ∨ 0xDFFF < c.toNat ∧ c.toNat < 0x110000 := c.valid
  unfold codePointEscape
  split
  · exact ⟨'x', 2, by simp, by omega, rfl⟩
  · split
    · exact ⟨'u', 4, by simp, by omega, rfl⟩
    · exact ⟨'U', 8, by simp, by omega, rfl⟩

theorem readChar_codePointEscape (c : Char) (rest : List Char) :
    readChar (codePointEscape c ++ rest) = some (c, rest) := by
  obtain ⟨marker, width, hmarker, hwidth, hwritten⟩ := codePointEscape_cases c
  rw [hwritten]
  simp only [List.mem_cons, Prod.mk.injEq, List.not_mem_nil, or_false] at hmarker
  rcases hmarker with ⟨rfl, rfl⟩ | ⟨rfl, rfl⟩ | ⟨rfl, rfl⟩
    <;> exact readCodePoint_hexDigits hwidth rest

/-- The two characters that a quoted text may begin with. -/
def IsQuote (c : Char) : Prop := c = '\'' ∨ c = '"'

theorem isQuote_quoteFor (s : List Char) : IsQuote (quoteFor s) := by
  unfold quoteFor
  split
  · exact Or.inr rfl
  · exact Or.inl rfl

/-- The ways to write a character. -/
theorem escapeChar_cases (quote c : Char) :
    (c = quote ∨ c = '\\') ∧ escapeChar quote c = ['\\', c] ∨
    (∃ letter, (c, letter) ∈ [('\n', 'n'), ('\r', 'r'), ('\t', 't')] ∧
      escapeChar quote c = ['\\', letter]) ∨
    escapeChar quote c = codePointEscape c ∨
    c ≠ quote ∧ c ≠ '\\' ∧ isUnprintable c = false ∧ escapeChar quote c = [c] := by
  by_cases hmarked : c = quote ∨ c = '\\'
  · exact Or.inl ⟨hmarked, if_pos hmarked⟩
  · obtain ⟨hquote, hbackslash⟩ := not_or.mp hmarked
    simp only [escapeChar, if_neg hmarked]
    split
    · rename_i h
      exact Or.inr (Or.inl ⟨'n', by simp [h], rfl⟩)
    · split
      · rename_i h
        exact Or.inr (Or.inl ⟨'r', by simp [h], rfl⟩)
      · split
        · rename_i h
          exact Or.inr (Or.inl ⟨'t', by simp [h], rfl⟩)
        · split
          · exact Or.inr (Or.inr (Or.inl rfl))
          · rename_i hprintable
            exact Or.inr (Or.inr (Or.inr ⟨hquote, hbackslash, by simpa using hprintable, rfl⟩))

/-- A character is read back from how it is written. -/
theorem readChar_escapeChar {quote : Char} (hquote : IsQuote quote) (c : Char) (rest : List Char) :
    readChar (escapeChar quote c ++ rest) = some (c, rest) := by
  rcases escapeChar_cases quote c with ⟨hc, hwritten⟩ | ⟨letter, hletter, hwritten⟩ | hwritten
    | ⟨-, hbackslash, -, hwritten⟩
  · rw [hwritten]
    rcases hc with rfl | rfl
    · rcases hquote with rfl | rfl <;> rfl
    · rfl
  · rw [hwritten]
    simp only [List.mem_cons, Prod.mk.injEq, List.not_mem_nil, or_false] at hletter
    rcases hletter with ⟨rfl, rfl⟩ | ⟨rfl, rfl⟩ | ⟨rfl, rfl⟩ <;> rfl
  · rw [hwritten]
    exact readChar_codePointEscape c rest
  · rw [hwritten, List.singleton_append]
    unfold readChar
    split <;> simp_all

theorem escapeChar_append_inj {quote : Char} (hquote : IsQuote quote) {c d : Char}
    {rest rest' : List Char}
    (h : escapeChar quote c ++ rest = escapeChar quote d ++ rest') : c = d ∧ rest = rest' := by
  have hread := congrArg readChar h
  rw [readChar_escapeChar hquote, readChar_escapeChar hquote] at hread
  exact Prod.mk.inj (Option.some.inj hread)

theorem escapeChar_append_ne {quote : Char} (hquote : IsQuote quote) (c : Char)
    (rest rest' : List Char) :
    escapeChar quote c ++ rest ≠ quote :: rest' := by
  have hbackslash : '\\' ≠ quote := by
    rintro rfl
    rcases hquote with h | h <;> contradiction
  intro h
  rcases escapeChar_cases quote c with
    ⟨-, hwritten⟩ | ⟨letter, -, hwritten⟩ | hwritten | ⟨hc, -, -, hwritten⟩
  · rw [hwritten] at h
    exact hbackslash (List.cons.inj h).1
  · rw [hwritten] at h
    exact hbackslash (List.cons.inj h).1
  · obtain ⟨marker, width, -, -, hescape⟩ := codePointEscape_cases c
    rw [hwritten, hescape] at h
    exact hbackslash (List.cons.inj h).1
  · rw [hwritten] at h
    exact hc (List.cons.inj h).1

/-! ### Texts -/

/-- What is written between quotes ends in front of the first quote that does not belong to a
character. -/
theorem flatMap_escapeChar_append_inj {quote : Char} (hquote : IsQuote quote)
    {s s' rest rest' : List Char}
    (h : s.flatMap (escapeChar quote) ++ quote :: rest =
      s'.flatMap (escapeChar quote) ++ quote :: rest') :
    s = s' ∧ rest = rest' := by
  induction s generalizing s' with
  | nil =>
      cases s' with
      | nil => exact ⟨rfl, (List.cons.inj h).2⟩
      | cons d s' =>
          rw [List.flatMap_cons, List.append_assoc] at h
          exact (escapeChar_append_ne hquote d _ _ h.symm).elim
  | cons c s ih =>
      cases s' with
      | nil =>
          rw [List.flatMap_cons, List.append_assoc] at h
          exact (escapeChar_append_ne hquote c _ _ h).elim
      | cons d s' =>
          rw [List.flatMap_cons, List.flatMap_cons, List.append_assoc, List.append_assoc] at h
          obtain ⟨rfl, hbehind⟩ := escapeChar_append_inj hquote h
          obtain ⟨rfl, hrest⟩ := ih hbehind
          exact ⟨rfl, hrest⟩

/-- A quoted text determines what is quoted, and where it ends in a longer text. -/
theorem quotedChars_append_inj {s s' rest rest' : List Char}
    (h : quotedChars s ++ rest = quotedChars s' ++ rest') :
    s = s' ∧ rest = rest' := by
  simp only [quotedChars, List.cons_append, List.append_assoc, List.cons.injEq,
    List.nil_append] at h
  obtain ⟨hquote, hbehind⟩ := h
  rw [← hquote] at hbehind
  exact flatMap_escapeChar_append_inj (isQuote_quoteFor s) hbehind

theorem quoted_append_inj {x y : String} {rest rest' : List Char}
    (h : (quoted x).toList ++ rest = (quoted y).toList ++ rest') : x = y ∧ rest = rest' := by
  rw [quoted, quoted, String.toList_ofList, String.toList_ofList] at h
  obtain ⟨hchars, hrest⟩ := quotedChars_append_inj h
  exact ⟨String.toList_inj.mp hchars, hrest⟩

/-! ### Printable characters -/

theorem isUnprintable_of_mem_hexDigits {width n : Nat} {c : Char} (h : c ∈ hexDigits width n) :
    isUnprintable c = false := by
  induction width generalizing n with
  | zero => contradiction
  | succ width ih =>
      rcases List.mem_append.mp h with hfront | hlast
      · exact ih hfront
      · obtain rfl := List.mem_singleton.mp hlast
        have hdigit : n % 16 < 16 := Nat.mod_lt n (by omega)
        generalize n % 16 = d at hdigit ⊢
        interval_cases d <;> rfl

theorem isUnprintable_of_isQuote {quote : Char} (hquote : IsQuote quote) :
    isUnprintable quote = false := by
  rcases hquote with rfl | rfl <;> rfl

theorem isUnprintable_of_mem_escapeChar {quote c d : Char} (hquote : IsQuote quote)
    (h : d ∈ escapeChar quote c) :
    isUnprintable d = false := by
  rcases escapeChar_cases quote c with ⟨hc, hwritten⟩ | ⟨letter, hletter, hwritten⟩ | hwritten | ⟨-,
    -, hc, hwritten⟩
  · rw [hwritten] at h
    simp only [List.mem_cons, List.not_mem_nil, or_false] at h
    rcases h with rfl | rfl
    · rfl
    · rcases hc with rfl | rfl
      · exact isUnprintable_of_isQuote hquote
      · rfl
  · rw [hwritten] at h
    simp only [List.mem_cons, Prod.mk.injEq, List.not_mem_nil, or_false] at h hletter
    rcases h with rfl | rfl
    · rfl
    · rcases hletter with ⟨-, rfl⟩ | ⟨-, rfl⟩ | ⟨-, rfl⟩ <;> rfl
  · obtain ⟨marker, width, hmarker, -, hescape⟩ := codePointEscape_cases c
    rw [hwritten, hescape] at h
    simp only [List.mem_cons, Prod.mk.injEq, List.not_mem_nil, or_false] at h hmarker
    rcases h with rfl | rfl | hdigit
    · rfl
    · rcases hmarker with ⟨rfl, -⟩ | ⟨rfl, -⟩ | ⟨rfl, -⟩ <;> rfl
    · exact isUnprintable_of_mem_hexDigits hdigit
  · rw [hwritten] at h
    obtain rfl := List.mem_singleton.mp h
    exact hc

/-- A quoted text fits on one line and has printable characters only, whatever is quoted. -/
theorem isUnprintable_of_mem_quoted {s : String} {c : Char} (h : c ∈ (quoted s).toList) :
    isUnprintable c = false := by
  rw [quoted, String.toList_ofList, quotedChars] at h
  have hquote := isQuote_quoteFor s.toList
  rcases List.mem_append.mp h with hfront | hlast
  · rcases List.mem_cons.mp hfront with rfl | hwritten
    · exact isUnprintable_of_isQuote hquote
    · obtain ⟨d, -, hc⟩ := List.mem_flatMap.mp hwritten
      exact isUnprintable_of_mem_escapeChar hquote hc
  · obtain rfl := List.mem_singleton.mp hlast
    exact isUnprintable_of_isQuote hquote

end LambdaCalculus.Text
