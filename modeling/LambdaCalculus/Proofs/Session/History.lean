import LambdaCalculus.Proofs.Reduction.Contraction
import LambdaCalculus.Proofs.Session.Alike
import LambdaCalculus.Proofs.Session.InPlace
import LambdaCalculus.Session.Request

/-!
# The history of a session

A history is what was done to a session from some state on, action by action, the latest first. All
that one action can do to a session is said once (`session_request`): it changes a setting, or the
lines in progress, or what the last reduction has recorded. What holds of a session after any
history follows from it by induction.

Nothing of a history comes back in a reduction, only the limit that was set last. A reduction begins
to count and to record anew, even if the one before it was cut short.
-/

namespace LambdaCalculus

variable {α : Type}

/-! ### What an action does -/

/-- What an action does to the lines in progress. -/
inductive Effect where
  | sets (path : String) (line : Option SourceLine)
  | clears
  | keeps

/-- An error that was reported clears the lines in progress if the session goes on. -/
def Effect.ofReport (report : Option Report) (fatal : Bool) : Effect :=
  match report, fatal with
  | some _, false => clears
  | _, _ => keeps

def Effect.apply (trace : Backtrace) : Effect → Backtrace
  | sets path line => trace.set path line
  | clears => []
  | keeps => trace

/-- A session with the setting that an action changes. -/
def Action.settle (s : Session α) : Action α → Session α
  | setFatal value => { s with fatal := value }
  | setVerbose value => { s with verbose := value }
  | setLimit value => { s with limit := value }
  | _ => s

namespace Session

variable [Foreign α]

/-- The report of the error that an action throws, if it throws one. -/
def thrown? (fuel : Nat) (s : Session α) : Action α → Option Report
  | .throw r => some r
  | .guardedParse source =>
      match s.parse source with
      | .ok _ => none
      | .error failure => failure.report?
  | .guardedReduce t =>
      (s.reduce fuel t).bind fun reduction =>
        match reduction.result with
        | .ok _ => none
        | .error failure => failure.report?
  | .guardedFailure failure => failure.report?
  | _ => none

/-- What an action does to the lines in progress of a session. -/
def effect (fuel : Nat) (s : Session α) : Action α → Effect
  | .registerLine path line => .sets path (some line)
  | .removeLine path => .sets path none
  | action => .ofReport (s.thrown? fuel action) s.fatal

omit [Foreign α] in
theorem throw_of_not_fatal {s : Session α} (hfatal : s.fatal = false) (r : Report)
    (otherwise : Outcome α) :
    s.throw r otherwise = ⟨{ s with backtrace := [] }, s.errorOutput r, otherwise⟩ := by
  rw [throw, hfatal, if_neg Bool.false_ne_true]

omit [Foreign α] in
theorem session_throw (s : Session α) (r : Report) (otherwise : Outcome α) :
    (s.throw r otherwise).session =
      { s with backtrace := (Effect.ofReport (some r) s.fatal).apply s.backtrace } := by
  rcases Bool.eq_false_or_eq_true s.fatal with hfatal | hfatal
  · have hkeeps : Effect.ofReport (some r) s.fatal = .keeps := by
      rw [hfatal]
      rfl
    rw [throw_of_fatal hfatal, hkeeps]
    rfl
  · have hclears : Effect.ofReport (some r) s.fatal = .clears := by
      rw [hfatal]
      rfl
    rw [throw_of_not_fatal hfatal, hclears]
    rfl

omit [Foreign α] in
theorem session_handle (s : Session α) (failure : Failure) :
    (s.handle failure).session =
      { s with backtrace := (Effect.ofReport failure.report? s.fatal).apply s.backtrace } := by
  cases failure with
  | exit code => rfl
  | _ => exact session_throw s _ _

theorem session_reduce {fuel : Nat} {s : Session α} {t : Tree α} {reduction : Reduction α}
    (h : s.reduce fuel t = some reduction) :
    reduction.session =
      { s with steps := reduction.session.steps, begun := reduction.session.begun } := by
  rw [Session.reduce, Option.map_eq_some_iff] at h
  obtain ⟨run, -, rfl⟩ := h
  rfl

/-- All that an action does to a session. -/
theorem session_perform {fuel : Nat} {s : Session α} {action : Action α} {reply : Reply α}
    (h : s.perform fuel action = some reply) :
    ∃ steps begun, reply.session =
      { action.settle s with
        backtrace := (s.effect fuel action).apply s.backtrace, steps, begun } := by
  cases action with
  | throw r =>
      obtain rfl := Option.some.inj h
      exact ⟨s.steps, s.begun, session_throw s r .nothing⟩
  | guardedParse source =>
      rw [perform] at h
      cases hparse : s.parse source with
      | ok t =>
          rw [hparse] at h
          obtain rfl := Option.some.inj h
          refine ⟨s.steps, s.begun, ?_⟩
          simp only [effect, thrown?, hparse]
          rfl
      | error failure =>
          rw [hparse] at h
          obtain rfl := Option.some.inj h
          refine ⟨s.steps, s.begun, ?_⟩
          simp only [effect, thrown?, hparse]
          exact session_handle s failure
  | reduce t =>
      obtain ⟨reduction, hreduce, rfl⟩ := Option.map_eq_some_iff.mp h
      refine ⟨reduction.session.steps, reduction.session.begun, ?_⟩
      cases hresult : reduction.result with
      | ok u => exact session_reduce hreduce
      | error failure => exact session_reduce hreduce
  | guardedReduce t =>
      obtain ⟨reduction, hreduce, rfl⟩ := Option.map_eq_some_iff.mp h
      refine ⟨reduction.session.steps, reduction.session.begun, ?_⟩
      simp only [effect, thrown?, hreduce, Option.bind_some]
      cases hresult : reduction.result with
      | ok u => exact session_reduce hreduce
      | error failure =>
          simp only [Reply.after, session_handle]
          rw [session_reduce hreduce]
          rfl
  | guardedFailure failure =>
      obtain rfl := Option.some.inj h
      exact ⟨s.steps, s.begun, session_handle s failure⟩
  | _ =>
      obtain rfl := Option.some.inj h
      exact ⟨_, _, rfl⟩

end Session

/-! ### Histories -/

/-- An action with the session that it was done to. -/
structure Event (α : Type) where
  session : Session α
  fuel : Nat
  action : Action α

/-- The limit that was set last. -/
def lastLimit (initial : Option Int) : List (Event α) → Option Int
  | [] => initial
  | event :: earlier =>
      match event.action with
      | .setLimit value => value
      | _ => lastLimit initial earlier

variable [Foreign α]

/-- What an action did to the lines in progress. An action that came to a stop did nothing. -/
def Event.effect (event : Event α) : Effect :=
  match event.session.stop? event.action with
  | some _ => .keeps
  | none => event.session.effect event.fuel event.action

namespace Session

open LambdaCalculus.Tree

/-- Whether actions lead from one session to another. The latest action comes first. -/
inductive History (s₀ : Session α) : List (Event α) → Session α → Prop where
  | nil : History s₀ [] s₀
  | cons {s : Session α} {earlier : List (Event α)} {fuel : Nat} {action : Action α}
        {reply : Reply α}
      (h : History s₀ earlier s) (hrequest : s.request fuel action = some reply) :
      History s₀ (⟨s, fuel, action⟩ :: earlier) reply.session
  /-- A reduction that something outside of it has stopped, wherever it was then. It may have
  recorded anything. -/
  | abandon {s : Session α} {earlier : List (Event α)} (fuel : Nat) (t : Tree α)
        (steps : List (String × Tree α))
      (begun : Nat) (h : History s₀ earlier s) :
      History s₀ (⟨s, fuel, .reduce t⟩ :: earlier) { s with steps, begun }

/-- All that a requested action does to a session. -/
theorem session_request {fuel : Nat} {s : Session α} {action : Action α} {reply : Reply α}
    (h : s.request fuel action = some reply) :
    ∃ steps begun, reply.session =
      { action.settle s with
        backtrace := (Event.effect ⟨s, fuel, action⟩).apply s.backtrace, steps, begun } := by
  rw [request] at h
  cases hstop : s.stop? action with
  | none =>
      rw [hstop] at h
      simp only [Event.effect, hstop]
      exact session_perform h
  | some stop =>
      rw [hstop] at h
      obtain rfl := Option.some.inj h
      -- actions that change a setting do not come to a stop
      have hsettle : action.settle s = s := by
        cases action with
        | setFatal value => contradiction
        | setVerbose value => contradiction
        | setLimit value => contradiction
        | _ => rfl
      refine ⟨s.steps, s.begun, ?_⟩
      simp only [Event.effect, hstop, hsettle]
      rfl

variable {s₀ s : Session α} {events : List (Event α)}

theorem History.limit_eq (h : History s₀ events s) : s.limit = lastLimit s₀.limit events := by
  induction h with
  | nil => rfl
  | @cons s earlier fuel action reply h hrequest ih =>
      obtain ⟨steps, begun, hsession⟩ := session_request hrequest
      rw [hsession]
      cases action with
      | setLimit value => rfl
      | _ => exact ih
  | abandon _ _ _ _ _ ih => exact ih

theorem History.bound_eq (h : History s₀ events s) : s.bound = s₀.bound := by
  induction h with
  | nil => rfl
  | @cons s earlier fuel action reply h hrequest ih =>
      obtain ⟨steps, begun, hsession⟩ := session_request hrequest
      rw [hsession, ← ih]
      cases action <;> rfl
  | abandon _ _ _ _ _ ih => exact ih

theorem History.nesting_eq (h : History s₀ events s) : s.nesting = s₀.nesting := by
  induction h with
  | nil => rfl
  | @cons s earlier fuel action reply h hrequest ih =>
      obtain ⟨steps, begun, hsession⟩ := session_request hrequest
      rw [hsession, ← ih]
      cases action <;> rfl
  | abandon _ _ _ _ _ ih => exact ih

/-- After any history a session reduces a term as a new one does with the limit that was set last
and the same bounds. Whether the new one prints its steps matters only where nested calls are
bounded. The result and the count of steps are the same, and so are the recorded steps, the
contracta of this reduction and no others. All else in the session stays as it was. Where nested
calls are not bounded, the reduction may work in place, on the session as the history has left it,
once the records are cleared. A failure has begun one step more than it has recorded, or as many if
it comes of a lack of room. -/
theorem reduce_of_history (h : History s₀ events s) (fuel : Nat) (t : Tree α) :
    (∀ verbose, s₀.nesting = none ∨ verbose = s.verbose →
      ((s.reduce fuel t).map fun reduction => (reduction.result, reduction.session)) =
        ((({ verbose, limit := lastLimit s₀.limit events, bound := s₀.bound,
              nesting := s₀.nesting } : Session α).reduce fuel t).map fun alone =>
          (alone.result, { s with steps := alone.session.steps, begun := alone.session.begun }))) ∧
    (s₀.nesting = none → s.reduce fuel t = s.restart.resume t (stepsAllowed s.limit fuel) t) ∧
    ∀ reduction, s.reduce fuel t = some reduction →
      ∃ contracta last, Contractions t contracta last ∧
        reduction.session.steps = contracta.map (("β", ·)) ∧
        (∀ r, reduction.result = .ok r → r = last ∧ reduction.session.begun = contracta.length) ∧
        (∀ failure, reduction.result = .error failure →
          reduction.session.begun = contracta.length + 1
            ∨ reduction.session.begun = contracta.length ∧ reduction.LacksRoom s t) := by
  refine ⟨?_, ?_, ?_⟩
  · intro verbose hverbose
    rw [← h.nesting_eq] at hverbose
    refine map_reduce_congr ?_ ?_ ?_ ?_ fuel t
    · exact h.limit_eq
    · exact h.bound_eq
    · exact h.nesting_eq
    · exact hverbose.imp_right Eq.symm
  · intro hnesting
    exact reduce_eq_resume (h.nesting_eq.trans hnesting) fuel t
  · intro reduction hreduce
    have hkeeps := s.keepsTo_course fuel t
    rw [reduce_eq_answer, Option.ite_none_left_eq_some] at hreduce
    obtain rfl := Option.some.inj hreduce.2
    refine ⟨_, _, hkeeps.contractions, rfl, ?_, ?_⟩
    · intro r hr
      obtain ⟨hending, hlast⟩ := verdict_eq_ok hr
      exact ⟨hlast, by simp only [answer, Run.begun, hending]⟩
    · intro failure hfailure
      rcases verdict_eq_error hfailure (ending_course_ne_tooDeep · fuel t) with
        ⟨hending, _⟩ | ⟨hnesting, hlacks, _⟩ | ⟨o, hending, _⟩
      · exact Or.inl (by simp only [answer, Run.begun, hending])
      · rcases hkeeps.begun_cases with hbegun | ⟨hbegun, _⟩
        · exact Or.inr ⟨hbegun, hnesting, hfailure.trans (congrArg _ hlacks)⟩
        · exact Or.inl hbegun
      · exact Or.inl (by simp only [answer, Run.begun, hending])

/-- The reduction of `(λx.λy.x) a b` is cut short in a session that allows one step, and leaves its
step and its count behind. When the limit is raised to two steps, `(λx.x) y` becomes `y` in one of
them. -/
theorem reduce_of_history_cut_short :
    ∃ (s : Session Empty) (events : List (Event Empty)) (reduction : Reduction Empty),
      History { limit := some 1 } events s ∧ s.steps = [("β", lam "y" (var "a"))] ∧ s.begun = 2 ∧
        s.reduce 0 (app (lam "x" (var "x")) (var "y")) = some reduction ∧
          reduction.result = .ok (var "y") ∧
        reduction.session.steps = [("β", var "y")] ∧ reduction.session.begun = 1 := by
  have hcut : ({ limit := some 1 } : Session Empty).request 0
      (.reduce (app (app (lam "x" (lam "y" (var "x"))) (var "a")) (var "b"))) =
        some {
          session := { limit := some 1, steps := [("β", lam "y" (var "a"))], begun := 2 }
          printed := []
          outcome := .failed (.reported
            (Report.stepLimit
              (app (app (lam "x" (lam "y" (var "x"))) (var "a")) (var "b") : Term) 1)) } := by
    simp [request, stop?, perform, Session.reduce, room, reduce_unlimited, stepsAllowed, runFor,
      step, contractRedex, obstacle_term, substitute_lam, Step.within, Run.cons, Run.begun,
      Run.shown,
      isNormal, Session.stepOutput, Session.verdict, allowsRefusal, allows]
  have hraised :
      ({ limit := some 1, steps := [("β", lam "y" (var "a"))], begun := 2 }
        : Session Empty).request 0
      (.setLimit (some 2)) =
        some { session := { limit := some 2, steps := [("β", lam "y" (var "a"))], begun := 2 }
               printed := []
               outcome := .nothing } := rfl
  have halone : ({ limit := some 2 } : Session Empty).reduce 0 (app (lam "x" (var "x")) (var "y")) =
      some {
        session := { limit := some 2, steps := [("β", var "y")], begun := 1 }
        printed := []
        result := .ok (var "y") } := by
    simp [Session.reduce, room, reduce_unlimited, stepsAllowed, runFor, step, contractRedex,
      obstacle_term, Step.within, Run.cons, Run.begun, Run.shown, Session.stepOutput,
      Session.verdict]
  have hhistory := (History.nil.cons hcut).cons hraised
  have hsame := (reduce_of_history hhistory 0 (app (lam "x" (var "x")) (var "y"))).1 false
    (Or.inl rfl)
  simp only [lastLimit, halone, Option.map_some, Option.map_eq_some_iff, Prod.mk.injEq] at hsame
  obtain ⟨reduction, hreduce, hresult, hsession⟩ := hsame
  refine ⟨_, _, reduction, hhistory, rfl, rfl, hreduce, hresult, ?_, ?_⟩
  · rw [hsession]
  · rw [hsession]

end Session

end LambdaCalculus
