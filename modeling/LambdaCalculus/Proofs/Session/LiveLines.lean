import LambdaCalculus.Proofs.Session.History
import Mathlib.Data.List.Dedup

/-!
# Reports show the live lines

A backtrace keeps one place for each path, and a line that is set or done changes it in place. What
it holds after any history of a session can be said without it, from the changes of lines since the
last error that cleared them: the paths in the order in which they came up first, each with its
latest line (`History.backtrace_eq`). So the lines that an error shows, and the one that a warning
names, are known from the history.
-/

namespace LambdaCalculus

variable {α : Type}

/-! ### Backtraces from their changes -/

namespace Backtrace

/-- The lines set for paths, the latest first, with `none` for a line that is done. -/
abbrev Changes := List (String × Option SourceLine)

namespace Changes

/-- The paths in the order in which they came up first. Of equal elements `dedup` keeps the last
one, here the earliest. -/
def paths (changes : Changes) : List String := (changes.map Prod.fst).dedup.reverse

/-- What the latest change of a path has set. -/
def latest (changes : Changes) (path : String) : Option SourceLine := (changes.lookup path).join

/-- The paths whose latest change has set a line that is not empty, with this line. -/
def live (changes : Changes) : List (String × SourceLine) :=
  changes.paths.filterMap fun path =>
    match changes.latest path with
    | some line => if line.text = "" then none else some (path, line)
    | none => none

variable {changes : Changes} {path : String} {line : Option SourceLine}

theorem mem_paths : path ∈ changes.paths ↔ path ∈ changes.map Prod.fst := by
  rw [paths, List.mem_reverse, List.mem_dedup]

theorem nodup_paths (changes : Changes) : changes.paths.Nodup :=
  List.nodup_reverse.mpr (List.nodup_dedup _)

theorem paths_cons_of_mem (h : path ∈ changes.paths) :
    paths ((path, line) :: changes) = changes.paths := by
  rw [paths, List.map_cons, List.dedup_cons_of_mem (mem_paths.mp h), paths]

theorem paths_cons_of_not_mem (h : path ∉ changes.paths) :
    paths ((path, line) :: changes) = changes.paths ++ [path] := by
  rw [paths, List.map_cons, List.dedup_cons_of_notMem (mt mem_paths.mpr h), List.reverse_cons,
    paths]

theorem latest_cons (changes : Changes) (path other : String) (line : Option SourceLine) :
    latest ((path, line) :: changes) other =
      if other = path then line else changes.latest other := by
  by_cases h : other = path
  · rw [if_pos h, latest, List.lookup_cons, h, beq_self_eq_true]
    rfl
  · rw [if_neg h, latest, List.lookup_cons, beq_false_of_ne h, latest]

end Changes

/-- The backtrace that changes lead to. -/
def ofChanges (changes : Changes) : Backtrace :=
  changes.paths.map fun path => ⟨path, changes.latest path⟩

theorem set_of_not_mem {trace : Backtrace} {path : String} (h : path ∉ trace.map Place.path)
    (line : Option SourceLine) : trace.set path line = trace ++ [⟨path, line⟩] := by
  induction trace with
  | nil => rfl
  | cons place rest ih =>
      rw [List.map_cons, List.mem_cons, not_or] at h
      rw [set, if_neg (Ne.symm h.1), ih h.2, List.cons_append]

theorem set_map_of_mem {paths : List String} {path : String} (h : path ∈ paths)
    (hnodup : paths.Nodup)
    (latest : String → Option SourceLine) (line : Option SourceLine) :
    set path line (paths.map fun p => ⟨p, latest p⟩) =
      paths.map fun p => ⟨p, if p = path then line else latest p⟩ := by
  induction paths with
  | nil => exact absurd h List.not_mem_nil
  | cons p rest ih =>
      rw [List.nodup_cons] at hnodup
      rw [List.map_cons, List.map_cons, set]
      by_cases hp : p = path
      · -- the path does not come again
        have hrest : ∀ q ∈ rest, (⟨q, latest q⟩ : Place) =
            ⟨q, if q = path then line else latest q⟩ := by
          intro q hq
          have hne : q ≠ path := by
            rintro rfl
            exact hnodup.1 (hp ▸ hq)
          rw [if_neg hne]
        rw [if_pos hp, if_pos hp, hp, List.map_congr_left hrest]
      · have hmem : path ∈ rest := (List.mem_cons.mp h).resolve_left (Ne.symm hp)
        rw [if_neg hp, if_neg hp, ih hmem hnodup.2]

/-- A path that came up before keeps its place, and a new one comes last. -/
theorem set_ofChanges (changes : Changes) (path : String) (line : Option SourceLine) :
    (ofChanges changes).set path line = ofChanges ((path, line) :: changes) := by
  simp only [ofChanges, Changes.latest_cons]
  by_cases h : path ∈ changes.paths
  · rw [set_map_of_mem h changes.nodup_paths, Changes.paths_cons_of_mem h]
  · have hold : ∀ p ∈ changes.paths,
        (⟨p, changes.latest p⟩ : Place) = ⟨p, if p = path then line else changes.latest p⟩ := by
      intro p hp
      have hne : p ≠ path := by
        rintro rfl
        exact h hp
      rw [if_neg hne]
    rw [set_of_not_mem (by simpa using h), Changes.paths_cons_of_not_mem h, List.map_append,
      List.map_congr_left hold, List.map_singleton, if_pos rfl]

theorem live_ofChanges (changes : Changes) : (ofChanges changes).live = changes.live := by
  rw [ofChanges, live, List.filterMap_map, Changes.live]
  refine List.filterMap_congr fun path _ => ?_
  cases hlatest : changes.latest path with
  | none => simp [hlatest]
  | some line => simp [hlatest]

end Backtrace

/-! ### The changes in a history -/

variable [Foreign α]

/-- The lines that were set since the last error that cleared them. -/
def lineChanges : List (Event α) → Backtrace.Changes
  | [] => []
  | event :: earlier =>
      match event.effect with
      | .sets path line => (path, line) :: lineChanges earlier
      | .clears => []
      | .keeps => lineChanges earlier

theorem ofChanges_lineChanges_cons (event : Event α) (earlier : List (Event α)) :
    Backtrace.ofChanges (lineChanges (event :: earlier))
      = event.effect.apply (Backtrace.ofChanges (lineChanges earlier)) := by
  rw [lineChanges]
  cases event.effect with
  | sets path line => exact (Backtrace.set_ofChanges _ path line).symm
  | clears => rfl
  | keeps => rfl

namespace Session

variable {s₀ s : Session α} {events : List (Event α)}

theorem History.backtrace_eq (hnew : s₀.backtrace = []) (h : History s₀ events s) :
    s.backtrace = .ofChanges (lineChanges events) := by
  induction h with
  | nil => exact hnew
  | cons h hrequest ih =>
      obtain ⟨steps, begun, hsession⟩ := session_request hrequest
      rw [hsession, ofChanges_lineChanges_cons, ← ih]
  | abandon _ _ _ _ _ ih => exact ih

theorem History.live_eq (hnew : s₀.backtrace = []) (h : History s₀ events s) :
    s.backtrace.live = (lineChanges events).live := by
  rw [h.backtrace_eq hnew, Backtrace.live_ofChanges]

/-! ### What reports show -/

/-- The text of an error behind the live lines. -/
def errorText (live : List (String × SourceLine)) (r : Report) : String :=
  (if 2 ≤ live.length then "Traceback:\n" else "")
    ++ String.join (live.map fun (path, line) =>
        "  File '" ++ path ++ "', line " ++ toString line.number ++ ":\n    " ++ line.text ++ "\n")
    ++ (if r.internal then "[internal] " else "") ++ "error: " ++ r.message.render false ++ "\n"
    ++ (pointer r .red).render false

/-- The text of a warning behind the place of the first live line. -/
def warningText (live : List (String × SourceLine)) (r : Report) : String :=
  (match live with
    | [] => ""
    | (path, line) :: _ =>
        path ++ ":" ++ toString line.number ++ ":" ++ toString (column line r) ++ ": ")
    ++ "warning: " ++ r.message.render false ++ "\n" ++ (pointer r .magenta).render false

omit [Foreign α] in
theorem render_errorOutput (s : Session α) (r : Report) :
    (s.errorOutput r).render false = errorText s.backtrace.live r := by
  have hinternal : (if r.internal then Styled.coloured .red "[internal] " else []).render false
      = if r.internal then "[internal] " else "" := by
    split
    · exact Styled.render_coloured _ _
    · rfl
  simp only [errorOutput, errorLines, lineBlocks, lineBlock, errorText, Styled.render_append,
    Styled.render_line, Styled.render_plain, Styled.render_coloured, hinternal, String.append_assoc]
  rfl

omit [Foreign α] in
theorem render_warning (s : Session α) (r : Report) :
    (s.warning r).render false = warningText s.backtrace.live r := by
  simp only [warning, warningLine, location, warningText, Styled.render_append, Styled.render_line]
  cases s.backtrace.live with
  | nil => simp
  | cons place rest => simp

theorem session_request_warn {fuel : Nat} {r : Report} {reply : Reply α}
    (h : s.request fuel (.warn r) = some reply) :
    reply.session = s := by
  rw [request] at h
  split at h
  all_goals
    obtain rfl := Option.some.inj h
    rfl

/-- After any history of a session that began without lines, its reports show the live lines of this
history. An error shows all of them, under a heading if there are several, and a warning names the
first one. An error that is not fatal leaves no lines in progress, a fatal one ends the session with
code 1 and leaves them as they are, and so do warnings and reductions. What is requested is done
unless a number or a span is too long to be written. -/
theorem reports_of_history (hnew : s₀.backtrace = []) (h : History s₀ events s) :
    (∀ (r : Report) (otherwise : Outcome α),
      (s.throw r otherwise).printed.render false = errorText (lineChanges events).live r ∧
      (s.fatal = false →
        (s.throw r otherwise).outcome = otherwise ∧ (s.throw r otherwise).session.backtrace = []) ∧
      (s.fatal = true →
        (s.throw r otherwise).outcome = .exit (.int 1) ∧ (s.throw r otherwise).session = s)) ∧
    (∀ r : Report, (s.warning r).render false = warningText (lineChanges events).live r) ∧
    (∀ (fuel : Nat) (r : Report), pointerFault? r = none →
      s.request fuel (.throw r) = some (s.throw r .nothing) ∧
      (s.locationFault? r = none → s.request fuel (.warn r) = some ⟨s, s.warning r, .nothing⟩)) ∧
    (∀ (fuel : Nat) (r : Report) (reply : Reply α), s.request fuel (.warn r) = some reply →
      reply.session = s) ∧
    (∀ (fuel : Nat) (t : Tree α) (reply : Reply α), s.request fuel (.reduce t) = some reply →
      reply.session.backtrace = s.backtrace) := by
  have hlive := h.live_eq hnew
  refine ⟨?_, ?_, ?_, ?_, ?_⟩
  · intro r otherwise
    rw [← hlive, ← render_errorOutput]
    cases hfatal : s.fatal with
    | false =>
        rw [throw_of_not_fatal hfatal]
        exact ⟨rfl, fun _ => ⟨rfl, rfl⟩, nofun⟩
    | true =>
        rw [throw_of_fatal hfatal]
        exact ⟨rfl, nofun, fun _ => ⟨rfl, rfl⟩⟩
  · intro r
    rw [← hlive, render_warning]
  · intro fuel r hpointer
    constructor
    · exact request_of_stop?_eq_none (by rw [stop?, hpointer, Option.map_none])
    · intro hlocation
      exact request_of_stop?_eq_none (by rw [stop?, hlocation, hpointer]; rfl)
  · intro fuel r reply hreply
    exact session_request_warn hreply
  · intro fuel t reply hreply
    obtain ⟨steps, begun, hsession⟩ := session_request hreply
    rw [hsession]
    rfl

/-- An error clears the line of `o`, that of `b` is empty, and `a` has its first place again when
its next line is set. -/
theorem reports_of_history_line_again :
    ∃ (s : Session Empty) (events : List (Event Empty)),
      History { fatal := false } events s ∧
      (lineChanges events).live = [("a", ⟨"y z", 4⟩), ("c", ⟨"x", 3⟩)] ∧
        (s.throw (Report.about "z" (Styled.plain "m")) .nothing).printed.render false =
        "Traceback:\n  File 'a', line 4:\n    y z\n  File 'c', line 3:\n    x\nerror: m\n  z\n  ^\n" ∧
        (s.throw (Report.about "z" (Styled.plain "m")) .nothing).session.backtrace = [] ∧
        (s.warning (Report.about "z" (Styled.plain "m"))).render false =
          "a:4:2: warning: m\n  z\n  ^\n" := by
  have h : History ({ fatal := false } : Session Empty)
      [⟨_, 0, .registerLine "a" ⟨"y z", 4⟩⟩, ⟨_, 0, .removeLine "a"⟩,
        ⟨_, 0, .registerLine "c" ⟨"x", 3⟩⟩,
        ⟨_, 0, .registerLine "b" ⟨"", 2⟩⟩, ⟨_, 0, .registerLine "a" ⟨"z", 1⟩⟩,
        ⟨_, 0, .throw (Report.about "" [])⟩, ⟨_, 0, .registerLine "o" ⟨"y", 1⟩⟩] _ :=
    ((((((History.nil.cons rfl).cons rfl).cons rfl).cons rfl).cons rfl).cons rfl).cons rfl
  obtain ⟨herror, hwarning, -⟩ := reports_of_history rfl h
  obtain ⟨hprinted, hgoes, -⟩ := herror (Report.about "z" (Styled.plain "m")) .nothing
  have hlive : [("a", (⟨"y z", 4⟩ : SourceLine)), ("c", ⟨"x", 3⟩)] = (lineChanges _).live :=
    h.live_eq rfl
  rw [← hlive] at hprinted hwarning
  refine ⟨_, _, h, hlive.symm, hprinted.trans ?_, (hgoes rfl).2, (hwarning _).trans ?_⟩
  · decide +kernel
  · decide +kernel

end Session

end LambdaCalculus
