import LambdaCalculus.Session.Basic
import LambdaCalculus.Proofs.Reduction.Room

/-!
# What a session answers to a reduction

A session reduces a term by one evaluation, under its limit and its bound and in its room, and makes
its answer from this: the recorded steps, the count, what is printed, and the result. There is no
answer only if the session has no limit and the evaluation is not finished; more fuel changes
nothing about an answer. Where nested calls are not bounded, the evaluation is a run. A bound that
is large enough makes no difference (`exists_enough_nesting`).
-/

namespace LambdaCalculus

open LambdaCalculus.Tree

variable {α : Type} [Foreign α]

/-- Whether a reduction in a session failed for lack of room, with as many steps begun as its count
says. -/
def Reduction.LacksRoom (s : Session α) (t : Tree α) (reduction : Reduction α) : Prop :=
  s.nesting ≠ none ∧ reduction.result = .error (s.nestingFailure t reduction.session.begun)

namespace Session

omit [Foreign α] in
/-- The room in a session depends on its bound on nested calls, and if there is one, on whether it
prints steps. -/
theorem room_congr {s s' : Session α} (hnesting : s.nesting = s'.nesting)
    (hverbose : s.nesting = none ∨ s.verbose = s'.verbose) : s.room = s'.room := by
  rw [room, room, ← hnesting]
  rcases hverbose with hnone | hverbose
  · rw [hnone]
  · rw [hverbose]

theorem verdict_congr {s s' : Session α} (hnesting : s.nesting = s'.nesting)
    (hlimit : s.limit = s'.limit) (t : Tree α) (run : Run α) :
    s.verdict t run = s'.verdict t run := by
  have hallows : s.allows = s'.allows := by
    funext calls
    rw [allows, allows, hnesting]
  simp only [verdict, allowsRefusal, nestingFailure, hallows, hlimit]
  rfl

/-- The result of a reduction and what it records depend on its limit and its bounds, and it keeps
all else of the session. -/
theorem map_reduce_congr {s s' : Session α} (hlimit : s.limit = s'.limit)
    (hbound : s.bound = s'.bound) (hnesting : s.nesting = s'.nesting)
    (hverbose : s.nesting = none ∨ s.verbose = s'.verbose) (fuel : Nat) (t : Tree α) :
    (s.reduce fuel t).map (fun reduction => (reduction.result, reduction.session)) =
      (s'.reduce fuel t).map fun alone =>
        (alone.result,
          { s with steps := alone.session.steps, begun := alone.session.begun }) := by
  have hroom := room_congr hnesting hverbose
  simp only [Session.reduce, hroom, hlimit, hbound, verdict_congr hnesting hlimit, Option.map_map]
  rfl

omit [Foreign α] in
theorem allows_of_nesting_eq_none {s : Session α} (h : s.nesting = none) (calls : Nat) :
    s.allows calls = true := by
  rw [allows, h, Option.all_none]

omit [Foreign α] in
theorem parse_of_nesting_eq_none {s : Session α} (h : s.nesting = none) (source : String) :
    s.parse source =
      (Parser.parse source).mapError fun fault => .reported (Report.malformed source fault) := by
  rw [parse, allows_of_nesting_eq_none h, if_pos rfl]

/-- The evaluation behind a reduction. -/
def course (s : Session α) (fuel : Nat) (t : Tree α) : Run α :=
  evaluate s.room s.bound 0 (stepsAllowed s.limit fuel) t

/-- What a session makes of a run from `t`. -/
def answer (s : Session α) (t : Tree α) (run : Run α) : Reduction α :=
  { session := { s with steps := run.contracta.map (("β", ·)), begun := run.begun }
    printed := run.shown.flatMap (s.stepOutput "β")
    result := s.verdict t run }

theorem reduce_eq_answer (s : Session α) (fuel : Nat) (t : Tree α) :
    s.reduce fuel t =
      if s.limit = none ∧ (s.course fuel t).isFinished = false then none
      else some (s.answer t (s.course fuel t)) := by
  rw [Session.reduce, reduce_eq_evaluate, course]
  split <;> rfl

omit [Foreign α] in
theorem keepsTo_course (s : Session α) (fuel : Nat) (t : Tree α) :
    KeepsTo s.bound (stepsAllowed s.limit fuel) t (s.course fuel t) :=
  keepsTo_evaluate ..

omit [Foreign α] in
theorem course_of_nesting_eq_none {s : Session α} (h : s.nesting = none) (fuel : Nat) (t : Tree α) :
    s.course fuel t = runFor s.bound (stepsAllowed s.limit fuel) t := by
  rw [course, room, h]
  exact evaluate_unlimited ..

theorem reduce_of_isFinished {s : Session α} {fuel : Nat} {t : Tree α}
    (h : (s.course fuel t).isFinished = true) :
    s.reduce fuel t = some (s.answer t (s.course fuel t)) := by
  rw [reduce_eq_answer, if_neg]
  rintro ⟨_, hunfinished⟩
  rw [h] at hunfinished
  contradiction

theorem reduce_mono {s : Session α} {n more : Nat} {t : Tree α} {reduction : Reduction α}
    (h : s.reduce n t = some reduction) (hle : n ≤ more) : s.reduce more t = some reduction := by
  rw [reduce_eq_answer, Option.ite_none_left_eq_some] at h
  obtain ⟨hanswer, h⟩ := h
  have hcourse : s.course more t = s.course n t := by
    cases hlimit : s.limit with
    | some m => simp only [course, hlimit, stepsAllowed]
    | none =>
        have hfinished : (s.course n t).isFinished = true := by simpa [hlimit] using hanswer
        simp only [course, hlimit, stepsAllowed] at hfinished ⊢
        exact evaluate_of_isFinished hfinished hle
  rw [reduce_eq_answer, hcourse, if_neg hanswer, h]

/-- Without a limit and in an unlimited room, a finished run gives the answer for all fuel from
there on. -/
theorem reduce_of_le_fuel (s : Session α) {n more : Nat} {t : Tree α}
    (h : (runFor s.bound n t).isFinished = true) (hle : n ≤ more) :
    { s with limit := none, nesting := none }.reduce more t =
      some ({ s with limit := none, nesting := none }.answer t (runFor s.bound n t)) := by
  have hcourse : { s with limit := none, nesting := none }.course more t = runFor s.bound n t :=
    (course_of_nesting_eq_none rfl more t).trans (runFor_of_isFinished h hle)
  rw [← hcourse] at h ⊢
  exact reduce_of_isFinished h

/-! ### Results -/

variable {s : Session α} {t : Tree α} {run : Run α}

theorem verdict_of_normal (h : run.ending = .normal) : s.verdict t run = .ok run.last := by
  simp only [verdict, h]

theorem verdict_of_blocked {o : Obstacle α} (h : run.ending = .blocked o) :
    s.verdict t run = .error (.unforeseen (.ofObstacle o)) := by
  simp only [verdict, h]

theorem verdict_of_tooDeep {lack : Lack} (h : run.ending = .tooDeep lack) :
    s.verdict t run = .error (s.nestingFailure t run.begun) := by
  simp only [verdict, h]

/-- A run whose steps are used up is reported, unless there is no room for this. -/
theorem verdict_of_unfinished (h : run.ending = .unfinished) :
    s.verdict t run = .error (.reported (Report.stepLimit t (s.limit.getD 0))) ∨
      s.nesting ≠ none ∧ s.verdict t run = .error (s.nestingFailure t run.begun) := by
  simp only [verdict, h]
  cases hrefusal : s.allowsRefusal t run.last with
  | true => exact Or.inl rfl
  | false =>
      refine Or.inr ⟨?_, rfl⟩
      intro hnesting
      simp [allowsRefusal, allows, hnesting] at hrefusal

/-- Where the next redex stands there is room for the report on the limit, or there is not. -/
theorem verdict_of_unfinished_at {C : SpineContext α} {x : String} {b a : Tree α}
    (h : run.ending = .unfinished) (hlast : run.last = C.fill (app (lam x b) a))
    (hdeepest : ¬ HasSpineRedex (lam x b)) :
    s.verdict t run = .error
      (if s.allows (openCalls C.depth + 1 + t.writingDepth)
        then .reported (Report.stepLimit t (s.limit.getD 0))
        else s.nestingFailure t run.begun) := by
  simp only [verdict, h, allowsRefusal, hlast, redexDepth?_fill C hdeepest a, Option.getD_some]

/-- A failure for lack of room is reported with the number of steps begun. -/
theorem eq_depthLimit_of_nestingFailure {report : Report} {begun : Nat}
    (h : .reported report = s.nestingFailure t begun) : report = Report.depthLimit t begun := by
  rw [nestingFailure] at h
  split at h
  · exact Failure.reported.inj h
  · contradiction

/-- Only a run that ends in a normal term gives a term. -/
theorem verdict_eq_ok {r : Tree α} (h : s.verdict t run = .ok r) :
    run.ending = .normal ∧ r = run.last := by
  cases hending : run.ending with
  | normal =>
      rw [verdict_of_normal hending] at h
      exact ⟨rfl, (Except.ok.inj h).symm⟩
  | unfinished =>
      rcases verdict_of_unfinished (s := s) (t := t) hending with hv | ⟨_, hv⟩
      · simp [hv] at h
      · simp [hv] at h
  | blocked o => simp [verdict_of_blocked hending] at h
  | tooDeep lack => simp [verdict_of_tooDeep hending] at h

/-- A report is the one on the limit, when the steps are used up, or comes of a lack of room. -/
theorem verdict_eq_error {failure : Failure} (h : s.verdict t run = .error failure)
    (hkeeps : s.nesting = none → ∀ lack, run.ending ≠ .tooDeep lack) :
    (run.ending = .unfinished ∧ failure = .reported (Report.stepLimit t (s.limit.getD 0))) ∨
      (s.nesting ≠ none ∧ failure = s.nestingFailure t run.begun ∧
        (run.ending = .unfinished ∨ ∃ lack, run.ending = .tooDeep lack)) ∨
      ∃ o, run.ending = .blocked o ∧ failure = .unforeseen (.ofObstacle o) := by
  cases hending : run.ending with
  | normal => simp [verdict_of_normal hending] at h
  | unfinished =>
      rcases verdict_of_unfinished (s := s) (t := t) hending with hv | ⟨hnesting, hv⟩
      · exact Or.inl ⟨rfl, (Except.error.inj (hv.symm.trans h)).symm⟩
      · exact Or.inr (Or.inl ⟨hnesting, (Except.error.inj (hv.symm.trans h)).symm, Or.inl rfl⟩)
  | blocked o =>
      rw [verdict_of_blocked hending] at h
      exact Or.inr (Or.inr ⟨o, rfl, (Except.error.inj h).symm⟩)
  | tooDeep lack =>
      rw [verdict_of_tooDeep hending] at h
      have hnesting : s.nesting ≠ none := fun hnone => hkeeps hnone lack hending
      exact Or.inr (Or.inl ⟨hnesting, (Except.error.inj h).symm, Or.inr ⟨lack, rfl⟩⟩)

omit [Foreign α] in
/-- Only a limit uses up the steps of a reduction that has an answer. -/
theorem exists_limit (hanswer : ¬ (s.limit = none ∧ run.isFinished = false))
    (h : run.ending = .unfinished) : ∃ m, s.limit = some m := by
  cases hlimit : s.limit with
  | none => exact (hanswer ⟨hlimit, by rw [Run.isFinished, h]⟩).elim
  | some m => exact ⟨m, rfl⟩

omit [Foreign α] in
theorem ending_course_ne_tooDeep (h : s.nesting = none) (fuel : Nat) (t : Tree α) (lack : Lack) :
    (s.course fuel t).ending ≠ .tooDeep lack := by
  have hroom : s.room = .unlimited := by rw [room, h]
  rw [course, hroom]
  exact ending_evaluate_unlimited s.bound 0 _ t lack

/-- A reduction that has an answer needs only so much room. With as much, or more, it has the same
answer as without a bound on nested calls. -/
theorem exists_enough_nesting {fuel : Nat} {reduction : Reduction α}
    (h : { s with nesting := none }.reduce fuel t = some reduction) :
    ∃ enough, ∀ deepest, enough ≤ deepest →
      { s with nesting := some deepest }.reduce fuel t =
        some { reduction with session := { reduction.session with nesting := some deepest } } := by
  obtain ⟨enough, hcourse⟩ :=
    exists_evaluate_within s.bound s.verbose 0 (stepsAllowed s.limit fuel) t
  rw [reduce_eq_answer, Option.ite_none_left_eq_some] at h
  obtain ⟨hanswer, h⟩ := h
  obtain rfl := Option.some.inj h
  let run := { s with nesting := none }.course fuel t
  refine ⟨max enough (openCalls (run.last.redexDepth?.getD 0) + 1 + t.writingDepth), ?_⟩
  intro deepest hdeepest
  obtain ⟨henough, hwritten⟩ := Nat.max_le.mp hdeepest
  have hsame : { s with nesting := some deepest }.course fuel t = run := hcourse deepest henough
  have hverdict : { s with nesting := some deepest }.verdict t run =
      { s with nesting := none }.verdict t run := by
    cases hending : run.ending with
    | unfinished =>
        have hallows : { s with nesting := some deepest }.allowsRefusal t run.last = true :=
          decide_eq_true hwritten
        simp only [verdict, hending, if_pos hallows]
        rfl
    | tooDeep lack => exact (ending_course_ne_tooDeep rfl fuel t lack hending).elim
    | _ => simp only [verdict, hending]
  rw [reduce_eq_answer, hsame, if_neg hanswer, answer, hverdict]
  rfl

/-- A reduction answers a term, or reports that it was cut short, or lacks room, or has come to a
stop. -/
theorem result_cases {fuel : Nat} {reduction : Reduction α} (h : s.reduce fuel t = some reduction) :
    (∃ r, reduction.result = .ok r)
      ∨ (∃ m, s.limit = some m ∧ reduction.result = .error (.reported (Report.stepLimit t m)))
      ∨ reduction.LacksRoom s t
      ∨ ∃ o, (s.course fuel t).ending = .blocked o
        ∧ reduction.result = .error (.unforeseen (.ofObstacle o)) := by
  rw [reduce_eq_answer, Option.ite_none_left_eq_some] at h
  obtain ⟨hanswer, h⟩ := h
  obtain rfl := Option.some.inj h
  cases hresult : s.verdict t (s.course fuel t) with
  | ok r => exact Or.inl ⟨r, hresult⟩
  | error failure =>
      rcases verdict_eq_error hresult (ending_course_ne_tooDeep · fuel t) with
        ⟨hending, rfl⟩ | ⟨hnesting, rfl, _⟩ | ⟨o, hending, rfl⟩
      · obtain ⟨m, hlimit⟩ := exists_limit hanswer hending
        rw [hlimit, Option.getD_some] at hresult
        exact Or.inr (Or.inl ⟨m, hlimit, hresult⟩)
      · exact Or.inr (Or.inr (Or.inl ⟨hnesting, hresult⟩))
      · exact Or.inr (Or.inr (Or.inr ⟨o, hending, hresult⟩))

/-- A reduction that answers a term is made from a run to a normal term. -/
theorem eq_answer_of_ok {fuel : Nat} {r : Tree α} {reduction : Reduction α}
    (h : s.reduce fuel t = some reduction) (hr : reduction.result = .ok r) :
    (s.course fuel t).ending = .normal
      ∧ s.course fuel t = runFor s.bound (stepsAllowed s.limit fuel) t
      ∧ reduction = s.answer t (s.course fuel t)
      ∧ r = (s.course fuel t).last := by
  rw [reduce_eq_answer, Option.ite_none_left_eq_some] at h
  obtain rfl := Option.some.inj h.2
  obtain ⟨hending, hlast⟩ := verdict_eq_ok hr
  exact ⟨hending, evaluate_eq_runFor_of_normal hending, rfl, hlast⟩

end LambdaCalculus.Session
