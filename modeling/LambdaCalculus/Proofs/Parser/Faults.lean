import LambdaCalculus.Proofs.Parser.Prefixes
import LambdaCalculus.Proofs.Report.Diagnosis

/-!
# Where faults point

A fault points at the character that the machine does not read, at the place behind the end, or back
at the beginning of a construct that is open. The machine keeps these beginnings in its states, and
puts none into them but the places that it passes (`within_move`). So a fault of the machine points
at one character of the source text, or at the place just behind it (`span_of_run`). Only input
behind a complete term is underlined as a whole.
-/

namespace LambdaCalculus.Parser

variable {α : Type} {goal : Goal} {fault : Fault}

/-! ### Beginnings of open constructs -/

/-- Where a group begins. Nothing is said any more of an abstraction whose dot has been read. -/
def Frame.start? (frame : Frame α) : Option Nat :=
  match frame.opening with
  | .group start => some start
  | .binder _ => none

/-- Where an abstraction begins whose bound name has to follow. -/
def Mode.start? : Mode α → Option Nat
  | .lambda _ start => some start
  | _ => none

/-- The places that a fault may point back at. -/
def State.starts (state : State α) : List Nat :=
  state.mode.start?.toList ++ state.frames.filterMap Frame.start?

/-- Whether a move keeps none but the given places, and points at one of them if it is a refusal. -/
def Move.Within (places : List Nat) : Move α → Prop
  | .shift state => state.starts ⊆ places
  | .accept _ => True
  | .reject fault => ∃ cause, ∃ start ∈ places, fault = .here cause start

theorem Move.Within.mono {places places' : List Nat} {m : Move α} (h : m.Within places)
    (hsubset : places ⊆ places') :
    m.Within places' := by
  cases m with
  | shift state => exact List.Subset.trans h hsubset
  | accept t => trivial
  | reject fault =>
      obtain ⟨cause, start, hstart, rfl⟩ := h
      exact ⟨cause, start, hsubset hstart, rfl⟩

/-! ### Single moves -/

theorem closeBinders_suffix (row : Tree α) (frames : List (Frame α)) :
    (closeBinders row frames).2 <:+ frames := by
  fun_induction closeBinders row frames with
  | case1 row name before frames ih => exact ih.trans (List.suffix_cons _ _)
  | case2 row frames hne => exact List.suffix_refl frames

theorem starts_subset_of_closeBinders {row t : Tree α} {frames outer : List (Frame α)}
    (h : closeBinders row frames = (t, outer)) :
    outer.filterMap Frame.start? ⊆ frames.filterMap Frame.start? := by
  have hsuffix := closeBinders_suffix row frames
  rw [h] at hsuffix
  exact (hsuffix.sublist.filterMap Frame.start?).subset

theorem within_moveBehindAtom (goal : Goal) (row : Tree α) (frames : List (Frame α)) (c : Char) :
    (moveBehindAtom goal row frames c).Within (frames.filterMap Frame.start?) := by
  unfold moveBehindAtom
  split
  · exact List.Subset.refl _
  · split
    · rename_i t start before outer hclose
      have hsubset := starts_subset_of_closeBinders hclose
      split
      · exact fun _ hstart => hsubset (List.mem_cons_of_mem start hstart)
      · exact ⟨_, start, hsubset List.mem_cons_self, rfl⟩
    · trivial

/-- A move adds no place but its own to those that a fault may point back at, and points at one of
all these if it is a refusal. -/
theorem within_move (goal : Goal) (position : Nat) (state : State α) (c : Char) :
    (move goal position state c).Within (position :: state.starts) := by
  obtain ⟨mode, frames⟩ := state
  cases mode with
  | atom before =>
      simp only [move]
      split
      · exact List.Subset.refl _
      · split
        · exact List.Subset.refl _
        · split
          · exact List.subset_cons_self _ _
          · exact ⟨_, position, List.mem_cons_self, rfl⟩
  | name before reversed =>
      simp only [move]
      split
      · exact List.subset_cons_self _ _
      · exact (within_moveBehindAtom goal _ frames c).mono (List.subset_cons_self _ _)
  | lambda before start =>
      simp only [move]
      split
      · exact fun _ hplace => List.mem_cons_of_mem position (List.mem_cons_of_mem start hplace)
      · exact ⟨_, start, List.mem_cons_of_mem position List.mem_cons_self, rfl⟩
  | boundName before reversed =>
      simp only [move]
      split
      · exact List.subset_cons_self _ _
      · split
        · exact List.subset_cons_self _ _
        · exact ⟨_, position, List.mem_cons_self, rfl⟩
  | complete row => exact (within_moveBehindAtom goal row frames c).mono (List.subset_cons_self _ _)

theorem exists_start_of_endBehindAtom {row : Tree α} {frames : List (Frame α)}
    (h : endBehindAtom row frames = .error fault) :
    ∃ cause, ∃ start ∈ frames.filterMap Frame.start?, fault = .here cause start := by
  unfold endBehindAtom at h
  split at h
  · rename_i t start before outer hclose
    exact ⟨_, start, starts_subset_of_closeBinders hclose List.mem_cons_self,
      (Except.error.inj h).symm⟩
  · contradiction

/-- The end of a text is refused like a character. -/
theorem exists_start_of_atEnd {position : Nat} {state : State α}
    (h : atEnd position state = .error fault) :
    ∃ cause, ∃ start ∈ position :: state.starts, fault = .here cause start := by
  obtain ⟨mode, frames⟩ := state
  cases mode with
  | atom before => exact ⟨_, position, List.mem_cons_self, (Except.error.inj h).symm⟩
  | name before reversed =>
      obtain ⟨cause, start, hstart, rfl⟩ := exists_start_of_endBehindAtom h
      exact ⟨cause, start, List.mem_cons_of_mem position hstart, rfl⟩
  | lambda before start =>
      exact ⟨_, start, List.mem_cons_of_mem position List.mem_cons_self, (Except.error.inj h).symm⟩
  | boundName before reversed => exact ⟨_, position, List.mem_cons_self, (Except.error.inj h).symm⟩
  | complete row =>
      obtain ⟨cause, start, hstart, rfl⟩ := exists_start_of_endBehindAtom h
      exact ⟨cause, start, List.mem_cons_of_mem position hstart, rfl⟩

/-! ### Runs -/

/-- The fault of a run points at one character, or at the place behind the end, and begins at a
place that was kept before or at one that the run comes to. -/
theorem span_of_run {position : Nat} {state : State α} {cs : List Char}
    (hstarts : ∀ start ∈ state.starts, start ≤ position)
    (h : (run goal position state cs).1 = .error fault) :
    fault.stop = fault.start + 1 ∧ fault.start ≤ position + cs.length := by
  induction cs generalizing position state with
  | nil =>
      obtain ⟨cause, start, hstart, rfl⟩ := exists_start_of_atEnd h
      refine ⟨rfl, ?_⟩
      rcases List.mem_cons.mp hstart with rfl | hkept
      · exact Nat.le_refl _
      · exact hstarts start hkept
  | cons c cs ih =>
      have hwithin := within_move goal position state c
      rw [run] at h
      cases hmove : move goal position state c with
      | shift state' =>
          rw [hmove] at h hwithin
          rw [← position_cons position c]
          refine ih (fun start hstart => ?_) h
          rcases List.mem_cons.mp (hwithin hstart) with rfl | hkept
          · exact Nat.le_succ _
          · exact Nat.le_succ_of_le (hstarts start hkept)
      | accept t =>
          rw [hmove] at h
          contradiction
      | reject fault' =>
          rw [hmove] at h hwithin
          obtain ⟨cause, start, hstart, rfl⟩ := hwithin
          obtain rfl := Except.error.inj h
          refine ⟨rfl, ?_⟩
          rcases List.mem_cons.mp hstart with rfl | hkept
          · exact Nat.le_add_right _ _
          · exact Nat.le_add_right_of_le (hstarts start hkept)

/-! ### Stray characters -/

theorem not_isNameChar_of_moveBehindAtom {row : Tree α} {frames : List (Frame α)} {c d : Char}
    (h : moveBehindAtom goal row frames c = .reject fault)
    (hcause : fault.cause = .strayCharacter d) :
    isNameChar d = false := by
  unfold moveBehindAtom at h
  split at h
  · contradiction
  · split at h
    · split at h
      · contradiction
      · obtain rfl := Move.reject.inj h
        contradiction
    · contradiction

/-- A character is stray only if it has a meaning of its own. -/
theorem not_isNameChar_of_move {position : Nat} {state : State α} {c d : Char}
    (h : move goal position state c = .reject fault) (hcause : fault.cause = .strayCharacter d) :
    isNameChar d = false := by
  obtain ⟨mode, frames⟩ := state
  cases mode with
  | atom before =>
      simp only [move] at h
      split at h
      · contradiction
      · split at h
        · contradiction
        · split at h
          · contradiction
          · rename_i hc
            obtain rfl := Move.reject.inj h
            obtain rfl := Cause.strayCharacter.inj hcause
            simpa using hc
  | name before reversed =>
      simp only [move] at h
      split at h
      · contradiction
      · exact not_isNameChar_of_moveBehindAtom h hcause
  | lambda before start =>
      simp only [move] at h
      split at h
      · contradiction
      · obtain rfl := Move.reject.inj h
        contradiction
  | boundName before reversed =>
      simp only [move] at h
      split at h
      · contradiction
      · split at h
        · contradiction
        · obtain rfl := Move.reject.inj h
          contradiction
  | complete row => exact not_isNameChar_of_moveBehindAtom h hcause

theorem cause_ne_strayCharacter_of_endBehindAtom {row : Tree α} {frames : List (Frame α)}
    (h : endBehindAtom row frames = .error fault) (d : Char) : fault.cause ≠ .strayCharacter d := by
  unfold endBehindAtom at h
  split at h
  · obtain rfl := Except.error.inj h
    simp [Fault.here]
  · contradiction

theorem cause_ne_strayCharacter_of_atEnd {position : Nat} {state : State α}
    (h : atEnd position state = .error fault)
    (d : Char) : fault.cause ≠ .strayCharacter d := by
  obtain ⟨mode, frames⟩ := state
  cases mode with
  | name before reversed => exact cause_ne_strayCharacter_of_endBehindAtom h d
  | complete row => exact cause_ne_strayCharacter_of_endBehindAtom h d
  | _ =>
      obtain rfl := Except.error.inj h
      simp [Fault.here]

theorem not_isNameChar_of_run {position : Nat} {state : State α} {cs : List Char} {d : Char}
    (h : (run goal position state cs).1 = .error fault) (hcause : fault.cause = .strayCharacter d) :
    isNameChar d = false := by
  induction cs generalizing position state with
  | nil => exact (cause_ne_strayCharacter_of_atEnd h d hcause).elim
  | cons c cs ih =>
      rw [run] at h
      cases hmove : move goal position state c with
      | shift state' =>
          rw [hmove] at h
          exact ih h
      | accept t =>
          rw [hmove] at h
          contradiction
      | reject fault' =>
          rw [hmove] at h
          obtain rfl := Except.error.inj h
          exact not_isNameChar_of_move hmove hcause

/-! ### Source texts -/

/-- Either the machine finds a fault, or it leaves something behind a complete term. -/
theorem run_of_parse_eq_error {source : String} (hsource : source ≠ "")
    (h : (parse source : Except Fault (Tree α)) = .error fault) :
    (run .term 0 (⟨.atom none, []⟩ : State α) source.toList).1 = .error fault ∨
      ∃ (start : Nat) (rest : List Char),
        (run .term 0 (⟨.atom none, []⟩ : State α) source.toList).2 = ⟨start, rest⟩ ∧ rest ≠ []
          ∧ fault = ⟨.trailingInput, start, start + rest.length⟩ := by
  simp only [parse, Reader.parse, Reader.term, Reader.runFrom, Reader.ofSource] at h
  rw [if_neg (by simpa using hsource)] at h
  generalize run .term 0 (⟨.atom none, []⟩ : State α) source.toList = outcome at h ⊢
  obtain ⟨fault' | t, start, rest⟩ := outcome
  · exact Or.inl h
  · right
    cases rest with
    | nil => contradiction
    | cons c rest =>
        exact ⟨start, c :: rest, rfl, List.cons_ne_nil c rest, (Except.error.inj h).symm⟩

theorem not_isNameChar_of_parse {source : String} {d : Char}
    (h : (parse source : Except Fault (Tree α)) = .error fault)
    (hcause : fault.cause = .strayCharacter d) : isNameChar d = false := by
  by_cases hsource : source = ""
  · subst hsource
    obtain rfl := Except.error.inj h
    contradiction
  · rcases run_of_parse_eq_error hsource h with hrun | ⟨start, rest, -, -, rfl⟩
    · exact not_isNameChar_of_run hrun hcause
    · contradiction

/-- A fault points into its source text, or at the place behind the end. -/
theorem span_of_parse {source : String} (hsource : source ≠ "")
    (h : (parse source : Except Fault (Tree α)) = .error fault) :
    fault.start < fault.stop ∧
      (fault.stop ≤ source.length ∨ fault.start = source.length ∧
        fault.stop = source.length + 1) := by
  rcases run_of_parse_eq_error hsource h with hrun | ⟨start, rest, hcursor, hrest, rfl⟩
  · obtain ⟨hstop, hstart⟩ := span_of_run (by simp [State.starts, Mode.start?]) hrun
    rw [Nat.zero_add, String.length_toList] at hstart
    omega
  · obtain ⟨read, rest', state', hsplit, hstop, -, -⟩ :=
      exists_stop .term 0 (⟨.atom none, []⟩ : State α) source.toList
    rw [hcursor, Cursor.mk.injEq] at hstop
    obtain ⟨rfl, rfl⟩ := hstop
    have hlength : source.length = read.length + rest.length := by
      rw [← String.length_toList, hsplit, List.length_append]
    have hpositive := List.length_pos_iff.mpr hrest
    simp only
    omega

/-- A source text that is no term is reported together with a span in it. Only the span of what is
missing at the end lies behind the text. The report shows the text as it stands and the span
underlined below it, which makes two lines if the text is one. An empty source text has an empty
span. -/
theorem malformed_of_parse (source : String) :
    (source = "" → ∃ fault, (parse source : Except Fault Term) = .error fault ∧
      (Report.malformed source fault).kind = .malformed ∧
      (Report.malformed source fault).expr = "" ∧
      (Report.malformed source fault).start = 0 ∧ (Report.malformed source fault).stop = 0) ∧
    (source ≠ "" → ∀ fault, (parse source : Except Fault Term) = .error fault →
      (Report.malformed source fault).kind = .malformed ∧
      (Report.malformed source fault).expr = source ∧
      ∃ start stop : Nat,
        (Report.malformed source fault).start = start ∧ (Report.malformed source fault).stop =
          stop ∧ start < stop ∧
        (stop ≤ source.length ∨ start = source.length ∧ stop = source.length + 1) ∧
        ∀ colour,
          ((Report.malformed source fault).diagnosis colour).render false =
            "\n".intercalate ["  " ++ source, Report.underline start stop] ∧
          ('\n' ∉ source.toList →
            (((Report.malformed source fault).diagnosis colour).render false).toList.splitOn '\n' =
              [("  " ++ source).toList, (Report.underline start stop).toList])) := by
  constructor
  · rintro rfl
    exact ⟨⟨.emptySource, 0, 0⟩, rfl, rfl, rfl, rfl, rfl⟩
  · intro hsource fault h
    obtain ⟨hlt, hend⟩ := span_of_parse hsource h
    refine ⟨rfl, rfl, fault.start, fault.stop, rfl, rfl, hlt, hend, ?_⟩
    intro colour
    have htext := Report.render_diagnosis (r := Report.malformed source fault) rfl rfl hlt colour
    refine ⟨htext, ?_⟩
    intro hline
    rw [htext]
    exact Report.splitOn_intercalate_underline hline fault.start fault.stop

/-- A bound name is missing at the end of the text, and the `λ` is pointed at. -/
example : (parse "a (λ" : Except Fault Term) = .error ⟨.missingBoundName, 3, 4⟩ := rfl

end LambdaCalculus.Parser
