import LambdaCalculus.Proofs.Session.Reduction

/-!
# Sessions that cannot be told apart

A session carries over from one piece of work to the next what it has recorded: the steps of the
last reduction, their count, and the paths that came up. None of this is shown by what follows. A
reduction depends on the settings alone, and a report on the settings and the lines in progress, so
sessions that agree in these print the same.

A path that was worked on keeps its place in the backtrace. As long as no line is in progress this
makes no difference: the line that is set next is the only one that is shown, wherever its path
stands.
-/

namespace LambdaCalculus

/-- What is reported of a failure. Leaving the program is not reported. -/
def Failure.report? : Failure → Option Report
  | .interrupt => some Report.interrupted
  | .exit _ => none
  | .nesting => some Report.nestedTooDeep
  | .reported r => some r
  | .unforeseen failure => some failure.report

theorem Failure.exists_report?_inColour {failure : Failure} {r : Report}
    (h : failure.report? = some r) (colour : Bool) :
    ∃ r', (failure.inColour colour).report? = some r' := by
  cases failure with
  | exit code => contradiction
  | _ => exact ⟨_, rfl⟩

/-! ### The lines in progress -/

namespace Backtrace

theorem live_cons (place : Place) (trace : Backtrace) :
    live (place :: trace) = live [place] ++ live trace :=
  List.filterMap_append (l := [place])

/-- If no line is in progress, the line set for a path is the only one. -/
theorem live_set {trace : Backtrace} (h : trace.live = []) (path : String)
    (line : Option SourceLine) :
    (trace.set path line).live = live [⟨path, line⟩] := by
  induction trace with
  | nil => rfl
  | cons place rest ih =>
      rw [live_cons, List.append_eq_nil_iff] at h
      rw [set]
      split
      · rw [live_cons, h.2, List.append_nil]
      · rw [live_cons, h.1, ih h.2, List.nil_append]

theorem set_set (trace : Backtrace) (path : String) (line line' : Option SourceLine) :
    (trace.set path line).set path line' = trace.set path line' := by
  induction trace with
  | nil => simp [set]
  | cons place rest ih =>
      by_cases h : place.path = path
      · simp [set, h]
      · simp [set, h, ih]

end Backtrace

namespace Session

variable {α : Type} {s s' : Session α}

/-- Sessions with the same settings. -/
structure SameSettings (s s' : Session α) : Prop where
  fatal : s.fatal = s'.fatal
  verbose : s.verbose = s'.verbose
  limit : s.limit = s'.limit
  bound : s.bound = s'.bound
  nesting : s.nesting = s'.nesting

/-- Sessions with the same settings and the same lines in progress. -/
structure Alike (s s' : Session α) : Prop extends SameSettings s s' where
  live : s.backtrace.live = s'.backtrace.live

def IsIdle (s : Session α) : Prop := s.backtrace.live = []

theorem Alike.refl (s : Session α) : s.Alike s := ⟨⟨rfl, rfl, rfl, rfl, rfl⟩, rfl⟩

theorem SameSettings.allows (h : s.SameSettings s') : s.allows = s'.allows := by
  funext calls
  rw [Session.allows, Session.allows, h.nesting]

theorem SameSettings.parse (h : s.SameSettings s') (source : String) :
    s.parse source = s'.parse source := by
  rw [Session.parse, Session.parse, h.allows]

theorem Alike.isIdle (h : s.Alike s') (hidle : s'.IsIdle) : s.IsIdle := h.live.trans hidle

/-! ### Lines -/

theorem Alike.registerLine (h : s.Alike s') (hidle : s'.IsIdle) (path : String)
    (line : SourceLine) :
    (s.registerLine path line).Alike (s'.registerLine path line) := by
  refine ⟨⟨h.fatal, h.verbose, h.limit, h.bound, h.nesting⟩, ?_⟩
  exact (Backtrace.live_set (h.isIdle hidle) path _).trans (Backtrace.live_set hidle path _).symm

/-- A line that is done leaves a session with no line in progress as it was, whatever has been
recorded in between. -/
theorem Alike.removeLine (h : s.Alike s') (hidle : s'.IsIdle) (path : String) (line : SourceLine)
    (steps : List (String × Tree α)) (begun : Nat) :
    ({ s.registerLine path line with steps, begun }.removeLine path).Alike s' := by
  refine ⟨⟨h.fatal, h.verbose, h.limit, h.bound, h.nesting⟩, ?_⟩
  calc ((s.backtrace.set path (some line)).set path none).live
      = (s.backtrace.set path none).live := by rw [Backtrace.set_set]
    _ = [] := Backtrace.live_set (h.isIdle hidle) path none
    _ = s'.backtrace.live := hidle.symm

/-! ### Reports -/

theorem Alike.warning (h : s.Alike s') (r : Report) : s.warning r = s'.warning r := by
  simp only [Session.warning, warningLine, location, h.live]

theorem Alike.errorOutput (h : s.Alike s') (r : Report) : s.errorOutput r = s'.errorOutput r := by
  simp only [Session.errorOutput, errorLines, lineBlocks, h.live]

/-- A failure that has a report is reported. -/
theorem exists_handle_eq_throw {failure : Failure} {r : Report} (h : failure.report? = some r) :
    ∃ otherwise, ∀ s : Session α, s.handle failure = s.throw r otherwise := by
  cases failure with
  | exit code => contradiction
  | _ =>
      obtain rfl := Option.some.inj h
      exact ⟨_, fun _ => rfl⟩

/-- A source text is parsed as without a bound, or there is no room for that. -/
theorem parse_cases (s : Session α) (source : String) :
    (∃ t : Tree α, Parser.parse source = .ok t ∧ s.parse source = .ok t) ∨
    (∃ fault, (Parser.parse source : Except Parser.Fault (Tree α)) = .error fault ∧
      s.parse source = .error (.reported (Report.malformed source fault))) ∨
    s.parse source = .error .nesting := by
  rw [Session.parse]
  split
  · cases hparse : (Parser.parse source : Except Parser.Fault (Tree α)) with
    | ok t => exact .inl ⟨t, rfl, rfl⟩
    | error fault => exact .inr (.inl ⟨fault, rfl, rfl⟩)
  · exact .inr (.inr rfl)

/-- Whatever keeps a source text from being parsed is reported. -/
theorem exists_report?_of_parse {source : String} {failure : Failure}
    (h : s.parse source = .error failure) : ∃ r, failure.report? = some r := by
  rcases s.parse_cases source with ⟨t, -, hok⟩ | ⟨fault, -, hmalformed⟩ | hnesting
  · rw [hok] at h
    contradiction
  · rw [hmalformed] at h
    obtain rfl := Except.error.inj h
    exact ⟨_, rfl⟩
  · rw [hnesting] at h
    obtain rfl := Except.error.inj h
    exact ⟨_, rfl⟩

theorem parse_eq_ok {source : String} {t : Tree α} (h : s.parse source = .ok t) :
    Parser.parse source = .ok t := by
  rcases s.parse_cases source with ⟨u, hparse, hok⟩ | ⟨fault, -, hmalformed⟩ | hnesting
  · rw [hok] at h
    rw [hparse, Except.ok.inj h]
  · rw [hmalformed] at h
    contradiction
  · rw [hnesting] at h
    contradiction

theorem throw_of_fatal (hfatal : s.fatal = true) (r : Report) (otherwise : Outcome α) :
    s.throw r otherwise = ⟨s, s.errorOutput r, .exit (.int 1)⟩ := by
  rw [throw, if_pos hfatal]

/-! ### Reductions -/

variable [Foreign α]

/-- A reduction depends on the settings, and keeps all of the session but what it records. -/
theorem SameSettings.reduce (h : s.SameSettings s') (fuel : Nat) (t : Tree α) :
    s.reduce fuel t = (s'.reduce fuel t).map fun reduction =>
      { reduction with
        session :=
          { s with steps := reduction.session.steps, begun := reduction.session.begun } } := by
  have houtput : s.stepOutput "β" = s'.stepOutput "β" := by
    funext t
    simp only [stepOutput, h.verbose]
  have hroom := room_congr h.nesting (Or.inr h.verbose)
  simp only [Session.reduce, hroom, h.limit, h.bound, houtput, verdict_congr h.nesting h.limit,
    Option.map_map]
  rfl

end Session

end LambdaCalculus
