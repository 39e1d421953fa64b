import LambdaCalculus.Text.Lines

/-!
# Texts that list others

A listing holds texts one a line, each in a line of its own, with empty lines among them. A line
ends with a line feed, alone or behind a carriage return, and the last one need not end so. The
lines of a listing are these texts and the empty ones, and a text stands in the line that the
listing numbers it with.
-/

namespace LambdaCalculus.Text

/-- How a line of a listing may end. -/
def lineEnds : List (List Char) := [['\n'], ['\r', '\n']]

/-- Whether a text can stand in a line, and tells this line from an empty one. -/
def IsLine (source : String) : Prop := source ≠ "" ∧ ∀ c ∈ source.toList, isLineBreak c = false

/-- `Listing n rows text` says that `text` lists the texts in `rows`, which come with the numbers of
their lines. The first line has the number `n`. -/
inductive Listing : Nat → List (Nat × String) → List Char → Prop where
  | nil (number : Nat) : Listing number [] []
  | blank {number : Nat} {rows : List (Nat × String)} {text ending : List Char}
        (hending : ending ∈ lineEnds)
      (h : Listing (number + 1) rows text) : Listing number rows (ending ++ text)
  | line {number : Nat} {rows : List (Nat × String)} {text ending : List Char} {source : String}
      (hsource : IsLine source) (hending : ending ∈ lineEnds) (h : Listing (number + 1) rows text) :
      Listing number ((number, source) :: rows) (source.toList ++ ending ++ text)
  /-- The last line, without an end. -/
  | last {number : Nat} {source : String} (hsource : IsLine source) :
      Listing number [(number, source)] source.toList

/-! ### The lines of a text -/

theorem lines_cons {c : Char} (hc : isLineBreak c = false) (rest : List Char) :
    lines (c :: rest) = consLine c (lines rest) := by
  have hreturn : c ≠ '\r' := by
    rintro rfl
    contradiction
  rw [lines]
  · rw [hc, if_neg Bool.false_ne_true]
  · rintro _ rfl
    exact (hreturn rfl).elim

theorem lines_lineEnd {ending : List Char} (h : ending ∈ lineEnds) (rest : List Char) :
    lines (ending ++ rest) = [] :: lines rest := by
  simp only [lineEnds, List.mem_cons, List.not_mem_nil, or_false] at h
  rcases h with rfl | rfl
  · rfl
  · rfl

/-- Characters that break no line stand in front of the first line. -/
theorem lines_append {cs first : List Char} {others : List (List Char)}
    (hcs : ∀ c ∈ cs, isLineBreak c = false)
    {rest : List Char} (hrest : lines rest = first :: others) :
    lines (cs ++ rest) = (cs ++ first) :: others := by
  induction cs with
  | nil => exact hrest
  | cons c cs ih =>
      obtain ⟨hc, hcs⟩ := List.forall_mem_cons.mp hcs
      rw [List.cons_append, lines_cons hc, ih hcs, consLine, List.cons_append]

theorem lines_line {cs : List Char} (hcs : ∀ c ∈ cs, isLineBreak c = false) (hne : cs ≠ []) :
    lines cs = [cs] := by
  induction cs with
  | nil => exact (hne rfl).elim
  | cons c cs ih =>
      obtain ⟨hc, hcs⟩ := List.forall_mem_cons.mp hcs
      rw [lines_cons hc]
      cases cs with
      | nil => rfl
      | cons d cs => rw [ih hcs (List.cons_ne_nil d cs), consLine]

/-- The lines of a text have no other characters than the text. -/
theorem not_mem_of_mem_lines {c : Char} {text : List Char} (h : c ∉ text) :
    ∀ line ∈ lines text, c ∉ line := by
  fun_induction lines text with
  | case1 => simp
  | case2 rest ih =>
      have hrest : c ∉ rest :=
        mt (fun hmem => List.mem_cons_of_mem _ (List.mem_cons_of_mem _ hmem)) h
      exact List.forall_mem_cons.mpr ⟨List.not_mem_nil, ih hrest⟩
  | case3 d rest _ _ ih =>
      exact List.forall_mem_cons.mpr ⟨List.not_mem_nil, ih (mt (List.mem_cons_of_mem d) h)⟩
  | case4 d rest _ _ ih =>
      have hlines := ih (mt (List.mem_cons_of_mem d) h)
      have hd : c ≠ d := List.ne_of_not_mem_cons h
      cases hbehind : lines rest with
      | nil => simpa [consLine] using hd
      | cons first others =>
          rw [hbehind] at hlines
          obtain ⟨hfirst, hothers⟩ := List.forall_mem_cons.mp hlines
          exact List.forall_mem_cons.mpr ⟨List.not_mem_cons_of_ne_of_not_mem hd hfirst, hothers⟩

end LambdaCalculus.Text
