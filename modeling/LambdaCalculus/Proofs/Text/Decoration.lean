import LambdaCalculus.Text.Styled
import LambdaCalculus.Proofs.Text.Quoted

/-!
# Control sequences are decoration

A control sequence begins with an escape character. Where no span of a styled text has that
character in it, the sequences that `render` puts around the spans can be found again in the text
that is sent out. Deleting them there leaves what is sent out without colour
(`eraseSequences_render`).

Quoted texts and numbers never have an escape character in them.
-/

namespace LambdaCalculus

namespace Text

/-! ### Bare texts -/

/-- Whether a text has no escape character in it, so that no control sequence begins in it. -/
def IsBare (s : String) : Prop := '\x1b' ∉ s.toList

@[simp] theorem isBare_append {s t : String} : IsBare (s ++ t) ↔ IsBare s ∧ IsBare t := by
  simp [IsBare]

@[simp] theorem isBare_ofList {cs : List Char} : IsBare (String.ofList cs) ↔ '\x1b' ∉ cs := by
  rw [IsBare, String.toList_ofList]

/-- A fixed text is bare if its characters are listed without an escape character. -/
theorem isBare_literal {cs : List Char} (h : '\x1b' ∉ cs) : IsBare (String.ofList cs) :=
  isBare_ofList.mpr h

theorem isBare_between {front behind : List Char} {s : String} (hfront : '\x1b' ∉ front)
    (h : IsBare s)
    (hbehind : '\x1b' ∉ behind) : IsBare (String.ofList front ++ s ++ String.ofList behind) :=
  isBare_append.mpr ⟨isBare_append.mpr ⟨isBare_literal hfront, h⟩, isBare_literal hbehind⟩

theorem isUnprintable_escape : isUnprintable '\x1b' = true := rfl

/-- Printable characters are no escape characters. -/
theorem escape_not_mem {cs : List Char} (h : ∀ c ∈ cs, isUnprintable c = false) : '\x1b' ∉ cs := by
  intro hmem
  have hprintable := h _ hmem
  rw [isUnprintable_escape] at hprintable
  contradiction

@[simp] theorem isBare_quoted (s : String) : IsBare (quoted s) :=
  escape_not_mem fun _ => isUnprintable_of_mem_quoted

@[simp] theorem isBare_natRepr (n : Nat) : IsBare n.repr := by
  intro h
  rw [Nat.toList_repr] at h
  have hdigit := Nat.isDigit_of_mem_toDigits (by decide) (by decide) h
  contradiction

@[simp] theorem isBare_intRepr (n : Int) : IsBare n.repr := by
  cases n with
  | ofNat n => exact isBare_natRepr n
  | negSucc n =>
      have hsign : IsBare "-" := isBare_literal (by decide)
      exact isBare_append.mpr ⟨hsign, isBare_natRepr (n + 1)⟩

theorem isBare_ite {p : Prop} [Decidable p] {s t : String} (hs : IsBare s) (ht : IsBare t) :
    IsBare (if p then s else t) := by
  split
  · exact hs
  · exact ht

theorem isBare_join {texts : List String} (h : ∀ s ∈ texts, IsBare s) :
    IsBare (String.join texts) := by
  intro hmem
  rw [String.toList_join] at hmem
  obtain ⟨s, hs, hc⟩ := List.mem_flatMap.mp hmem
  exact h s hs hc

theorem isBare_intercalate {separator : String} (hseparator : IsBare separator)
    {texts : List String}
    (h : ∀ s ∈ texts, IsBare s) : IsBare (String.intercalate separator texts) := by
  induction texts with
  | nil => exact isBare_literal (by decide)
  | cons s rest ih =>
      obtain ⟨hs, hrest⟩ := List.forall_mem_cons.mp h
      cases rest with
      | nil => simpa using hs
      | cons t rest =>
          rw [String.intercalate_cons_cons]
          exact isBare_append.mpr ⟨isBare_append.mpr ⟨hs, hseparator⟩, ih hrest⟩

/-! ### Deleting control sequences -/

/-- Deletes the control sequences that texts are styled with, from left to right. -/
def eraseSequences : List Char → List Char
  | [] => []
  | '\x1b' :: '[' :: '1' :: 'm' :: rest => eraseSequences rest
  | '\x1b' :: '[' :: '3' :: '1' :: 'm' :: rest => eraseSequences rest
  | '\x1b' :: '[' :: '3' :: '5' :: 'm' :: rest => eraseSequences rest
  | '\x1b' :: '[' :: '3' :: '6' :: 'm' :: rest => eraseSequences rest
  | '\x1b' :: '[' :: '0' :: 'm' :: rest => eraseSequences rest
  | c :: rest => c :: eraseSequences rest

theorem eraseSequences_append {cs : List Char} (h : '\x1b' ∉ cs) (rest : List Char) :
    eraseSequences (cs ++ rest) = cs ++ eraseSequences rest := by
  induction cs with
  | nil => rfl
  | cons c cs ih =>
      obtain ⟨hc, hcs⟩ := not_or.mp (mt List.mem_cons.mpr h)
      rw [List.cons_append, List.cons_append, ← ih hcs, eraseSequences]
      all_goals
        rintro _ rfl
        exact (hc rfl).elim

theorem eraseSequences_opening (style : Style) (rest : List Char) :
    eraseSequences (style.opening.toList ++ rest) = eraseSequences rest := by
  cases style with
  | plain => rfl
  | bold colour =>
      cases colour with
      | none => rfl
      | some colour => cases colour <;> rfl

theorem eraseSequences_closing (style : Style) (rest : List Char) :
    eraseSequences (style.closing.toList ++ rest) = eraseSequences rest := by
  cases style with
  | plain => rfl
  | bold colour => simp [Style.closing, controlSequence, eraseSequences]

end Text

/-! ### Styled texts -/

namespace Styled

/-- Whether no span of a text has an escape character in it. -/
def IsBare (s : Styled) : Prop := ∀ span ∈ s, Text.IsBare span.text

@[simp] theorem isBare_nil : IsBare [] := by simp [IsBare]

@[simp] theorem isBare_append {s t : Styled} : IsBare (s ++ t) ↔ IsBare s ∧ IsBare t := by
  simp only [IsBare, List.forall_mem_append]

@[simp] theorem isBare_plain {text : String} : IsBare (plain text) ↔ Text.IsBare text := by
  simp [IsBare, plain]

@[simp] theorem isBare_bold {text : String} : IsBare (bold text) ↔ Text.IsBare text := by
  simp [IsBare, bold]

@[simp] theorem isBare_coloured {colour : Colour} {text : String} :
    IsBare (coloured colour text) ↔ Text.IsBare text := by
  simp [IsBare, coloured]

@[simp] theorem isBare_line {s : Styled} : IsBare (line s) ↔ IsBare s := by
  have hend : Text.IsBare "\n" := Text.isBare_literal (by decide)
  simp [line, hend]

theorem render_cons (colour : Bool) (span : Span) (s : Styled) :
    render colour (span :: s) = render colour [span] ++ render colour s :=
      render_append colour [span] s

/-- What is sent out in colour becomes what is sent out without, when the control sequences are
deleted. -/
theorem eraseSequences_render {s : Styled} (h : s.IsBare) :
    Text.eraseSequences (s.render true).toList = (s.render false).toList := by
  induction s with
  | nil => rfl
  | cons span s ih =>
      obtain ⟨hspan, hs⟩ := List.forall_mem_cons.mp h
      have hdecorated : (render true [span]).toList
          = span.style.opening.toList ++ (span.text.toList ++ span.style.closing.toList) := by
        simp [render]
      have hplain : (render false [span]).toList = span.text.toList := by simp [render]
      rw [render_cons true span s, render_cons false span s, String.toList_append,
        String.toList_append, hdecorated, hplain, List.append_assoc, List.append_assoc,
        Text.eraseSequences_opening,
          Text.eraseSequences_append hspan,
        Text.eraseSequences_closing, ih hs]

/-- What is left of a text that was sent out when its control sequences are deleted. -/
def erased (s : Styled) : Styled :=
  plain (String.ofList (Text.eraseSequences (s.render false).toList))

@[simp] theorem render_sent (colour colour' : Bool) (s : Styled) :
    (s.sent colour).render colour' = s.render colour :=
  render_plain colour' _

theorem sent_eq_iff {colour : Bool} {s t : Styled} :
    s.sent colour = t.sent colour ↔ s.render colour = t.render colour := by
  simp [sent, plain]

theorem erased_sent {s : Styled} (h : s.IsBare) : (s.sent true).erased = s.sent false := by
  rw [erased, render_sent, eraseSequences_render h, String.ofList_toList, sent]

end Styled

end LambdaCalculus
