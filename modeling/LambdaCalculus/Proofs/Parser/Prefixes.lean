import LambdaCalculus.Proofs.Parser.Reading
import Mathlib.Order.Bounds.Basic

/-!
# Where reading stops

The machine stops in front of the first character that cannot be right, and a source text that is no
term is given up there. Both halves of this can be seen from single states:

* whatever the machine has shifted, a few characters more lead it to the end of a term
(`isRead_completion`), so what it has read can still become one; * where it does not shift, it stops
at the same place whatever stands behind the character (`snd_run_of_not_shift`), so no term goes on
with that character.

A run is cut at its last shift (`exists_stop`), and what stands behind the cut can be exchanged,
because the machine never looks further than at one character.
-/

namespace LambdaCalculus.Parser

variable {α : Type} {goal : Goal} {before : Option (Tree α)} {frames : List (Frame α)}

/-! ### Source texts -/

/-- Whether a text is the beginning of a source text that is a term. -/
def IsViable (cs : List Char) : Prop :=
  ∃ (source : String) (t : Term), parse source = .ok t ∧ cs <+: source.toList

/-- Whether the machine reads a term from a state on, and needs all of the characters for it. -/
def IsRead (position : Nat) (state : State α) (cs : List Char) : Prop :=
  ∃ (t : Tree α) (stop : Nat), run .term position state cs = (.ok t, ⟨stop, []⟩)

theorem exists_parse_eq_ok_iff {source : String} :
    (∃ t : Tree α, parse source = .ok t) ↔ IsRead 0 (⟨.atom none, []⟩ : State α) source.toList := by
  simp only [parse, Reader.parse, Reader.term, Reader.runFrom, Reader.ofSource, IsRead]
  by_cases hsource : source = ""
  · subst hsource
    simp [run, atEnd]
  · rw [if_neg (by simpa using hsource)]
    rcases run .term 0 (⟨.atom none, []⟩ : State α) source.toList with ⟨fault | t, position, rest⟩
    · simp
    · cases rest <;> simp

theorem cursor_parse (source : String) :
    ((Reader.ofSource source).parse : Except Fault (Tree α) × Reader).2.cursor
      = (run .term 0 (⟨.atom none, []⟩ : State α) source.toList).2 := by
  simp only [Reader.parse, Reader.term, Reader.runFrom, Reader.ofSource]
  by_cases hsource : source = ""
  · subst hsource
    rfl
  · rw [if_neg (by simpa using hsource)]
    rcases run .term 0 (⟨.atom none, []⟩ : State α) source.toList with ⟨fault | t, position, rest⟩
    · rfl
    · cases rest <;> rfl

/-! ### Completions -/

/-- The parentheses that close all open groups. -/
def closing : List (Frame α) → List Char
  | [] => []
  | ⟨.group _, _⟩ :: frames => ')' :: closing frames
  | ⟨.binder _, _⟩ :: frames => closing frames

theorem eq_parenthesis_of_mem_head?_closing : ∀ c ∈ (closing frames).head?, c = ')' := by
  induction frames with
  | nil => simp [closing]
  | cons frame frames ih =>
      obtain ⟨opening, before⟩ := frame
      cases opening with
      | group start => simp [closing]
      | binder name => exact ih

/-- Behind an atom, the parentheses end the term. -/
theorem isRead_closing (position : Nat) (row : Tree α) (frames : List (Frame α)) :
    IsRead position ⟨.complete row, frames⟩ (closing frames) := by
  induction frames generalizing position row with
  | nil => exact ⟨row, position, rfl⟩
  | cons frame frames ih =>
      obtain ⟨opening, before⟩ := frame
      cases opening with
      | group start =>
          rw [IsRead, closing, run_group]
          exact ih (position + 1) (extend before row)
      | binder x =>
          have hblank : (closing frames).head? ≠ some ' ' := by
            intro hhead
            have hparenthesis := eq_parenthesis_of_mem_head?_closing ' ' hhead
            contradiction
          rw [IsRead, closing, run_binder _ _ _ hblank]
          exact ih position (extend before (.lam x row))

theorem isRead_of_shift {position : Nat} {state state' : State α} {c : Char} {cs : List Char}
    (hmove : move .term position state c = .shift state') (h : IsRead (position + 1) state' cs) :
    IsRead position state (c :: cs) := by
  rw [IsRead, run, hmove]
  exact h

theorem isRead_name (position : Nat) (before : Option (Tree α)) (reversed : List Char)
    (frames : List (Frame α)) :
    IsRead position ⟨.name before reversed, frames⟩ (closing frames) := by
  have hend : ∀ c ∈ (closing frames).head?, isNameChar c = false := by
    intro c hc
    rw [eq_parenthesis_of_mem_head?_closing c hc]
    decide
  rw [IsRead, run_name_end position reversed hend]
  exact isRead_closing position _ frames

theorem isRead_atom (position : Nat) (before : Option (Tree α)) (frames : List (Frame α)) :
    IsRead position ⟨.atom before, frames⟩ ('x' :: closing frames) :=
  isRead_of_shift rfl (isRead_name (position + 1) before ['x'] frames)

theorem isRead_boundName (position : Nat) (before : Option (Tree α)) (reversed : List Char)
    (frames : List (Frame α)) :
    IsRead position ⟨.boundName before reversed, frames⟩ ('.' :: 'x' :: closing frames) :=
  isRead_of_shift rfl
    (isRead_atom (position + 1) none (⟨.binder (String.ofList reversed.reverse), before⟩ :: frames))

/-- Characters that lead the machine from a state to the end of a term. -/
def State.completion (state : State α) : List Char :=
  match state.mode with
  | .atom _ => 'x' :: closing state.frames
  | .name _ _ => closing state.frames
  | .lambda _ _ => 'x' :: '.' :: 'x' :: closing state.frames
  | .boundName _ _ => '.' :: 'x' :: closing state.frames
  | .complete _ => closing state.frames

/-- No state is a dead end. -/
theorem isRead_completion (position : Nat) (state : State α) :
    IsRead position state state.completion := by
  obtain ⟨mode, frames⟩ := state
  cases mode with
  | atom before => exact isRead_atom position before frames
  | name before reversed => exact isRead_name position before reversed frames
  | lambda before start =>
      exact isRead_of_shift rfl (isRead_boundName (position + 1) before ['x'] frames)
  | boundName before reversed => exact isRead_boundName position before reversed frames
  | complete row => exact isRead_closing position row frames

/-! ### Stops -/

theorem snd_run_of_not_shift {position : Nat} {state : State α} {c : Char}
    (h : ∀ state', move goal position state c ≠ .shift state') (rest : List Char) :
    (run goal position state (c :: rest)).2 = ⟨position, c :: rest⟩ := by
  rw [run]
  cases hmove : move goal position state c with
  | shift state' => exact (h state' hmove).elim
  | accept t => rfl
  | reject fault => rfl

/-- A run reads its text up to a state from which it does not shift, and comes to the same state
with any text behind what it has read. -/
theorem exists_stop (goal : Goal) (position : Nat) (state : State α) (cs : List Char) :
    ∃ (read rest : List Char) (state' : State α), cs = read ++ rest
      ∧ (run goal position state cs).2 = ⟨position + read.length, rest⟩
      ∧ (∀ more, run goal position state (read ++ more) =
        run goal (position + read.length) state' more)
      ∧ ∀ c ∈ rest.head?, ∀ state'',
        move goal (position + read.length) state' c ≠ .shift state'' := by
  induction cs generalizing position state with
  | nil => exact ⟨[], [], state, rfl, rfl, fun _ => rfl, by simp⟩
  | cons c cs ih =>
      by_cases hshift : ∃ state', move goal position state c = .shift state'
      · obtain ⟨state₁, hmove⟩ := hshift
        obtain ⟨read, rest, state', rfl, hstop, hsame, hend⟩ := ih (position + 1) state₁
        rw [position_cons position c read] at hstop hsame hend
        refine ⟨c :: read, rest, state', rfl, ?_, ?_, hend⟩
        · rw [run, hmove]
          exact hstop
        · intro more
          rw [List.cons_append, run, hmove]
          exact hsame more
      · have hnot : ∀ state', move goal position state c ≠ .shift state' := not_exists.mp hshift
        refine ⟨[], c :: cs, state, rfl, snd_run_of_not_shift hnot cs, fun _ => rfl, ?_⟩
        intro d hd
        obtain rfl := Option.some.inj hd
        exact hnot

/-! ### The longest beginning of a term -/

theorem isViable_of_run_append {read : List Char} {position : Nat} {state : State Empty}
    (hsame : ∀ more, run .term 0 ⟨.atom none, []⟩ (read ++ more) = run .term position state more) :
    IsViable read := by
  have hread : IsRead 0 (⟨.atom none, []⟩ : State Empty)
      (String.ofList (read ++ state.completion)).toList := by
    rw [String.toList_ofList, IsRead, hsame]
    exact isRead_completion position state
  obtain ⟨t, ht⟩ := exists_parse_eq_ok_iff.mpr hread
  exact ⟨_, t, ht, by simp⟩

theorem not_isViable_of_not_shift {read : List Char} {position : Nat} {state : State Empty}
    {c : Char}
    (hsame : ∀ more, run .term 0 ⟨.atom none, []⟩ (read ++ more) = run .term position state more)
    (hend : ∀ state', move .term position state c ≠ .shift state') (more : List Char) :
    ¬ IsViable (read ++ c :: more) := by
  rintro ⟨source, t, ht, rest, hsource⟩
  obtain ⟨u, stop, hrun⟩ := exists_parse_eq_ok_iff.mp ⟨t, ht⟩
  rw [← hsource, List.append_assoc, hsame, List.cons_append] at hrun
  have hcursor := snd_run_of_not_shift hend (more ++ rest)
  rw [hrun] at hcursor
  simp at hcursor

/-- Reading a source text stops behind the longest beginning that it has in common with any source
text of a term, whether it is such a text itself or not. -/
theorem isGreatest_position_parse (source : String) :
    IsGreatest {n | n ≤ source.length ∧ IsViable (source.toList.take n)}
      ((Reader.ofSource source).parse : Except Fault Term × Reader).2.cursor.position := by
  obtain ⟨read, rest, state, hsource, hstop, hsame, hend⟩ :=
    exists_stop .term 0 (⟨.atom none, []⟩ : State Empty) source.toList
  rw [cursor_parse, hstop, ← String.length_toList, hsource]
  simp only [Nat.zero_add] at hsame hend ⊢
  constructor
  · refine ⟨by simp, ?_⟩
    rw [List.take_left]
    exact isViable_of_run_append hsame
  · rintro n ⟨hn, hviable⟩
    by_contra hlonger
    -- a longer beginning has the character in it in front of which the machine stops
    obtain ⟨k, rfl⟩ : ∃ k, n = read.length + (k + 1) := ⟨n - read.length - 1, by omega⟩
    cases rest with
    | nil =>
        rw [List.append_nil] at hn
        omega
    | cons c rest =>
        rw [List.take_length_add_append, List.take_succ_cons] at hviable
        exact not_isViable_of_not_shift hsame (hend c rfl) (rest.take k) hviable

/-- Behind the second blank no term goes on, and in front of it one can. -/
example : ((Reader.ofSource "(λx.a  b").parse : Except Fault Term × Reader).2.cursor.position = 6 :=
  rfl

end LambdaCalculus.Parser
