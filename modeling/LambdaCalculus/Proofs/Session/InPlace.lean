import LambdaCalculus.Proofs.Session.Reduction

/-!
# A reduction in place

`Session.reduce` makes its answer from a run that knows nothing of the session. Here a reduction
works on the session, as far as nested calls are not bounded. It counts each step as it begins, asks
this count whether the limit allows the step, and registers each contractum as it comes up, behind
whatever the session has recorded before (`resume_eq_answerBehind`). A count that was left over
would take its steps away from the next reduction. None is, because count and steps are cleared
first (`reduce_eq_resume`).
-/

namespace LambdaCalculus

variable {α : Type}

def Reduction.after (printed : Styled) (reduction : Reduction α) : Reduction α :=
  { reduction with printed := printed ++ reduction.printed }

theorem Run.begun_cons (contractum : Tree α) (run : Run α) :
    (run.cons contractum).begun = run.begun + 1 := by
  simp only [begun, cons]
  split <;> rfl

namespace Session

open LambdaCalculus.Tree

def restart (s : Session α) : Session α := { s with steps := [], begun := 0 }

def beginStep (s : Session α) : Session α := { s with begun := s.begun + 1 }

/-- Begins a step and goes on with it, unless the limit of the session does not allow as many. -/
def attemptStep [Foreign α] (s : Session α) (original : Tree α)
    (next : Session α → Option (Reduction α)) :
    Option (Reduction α) :=
  match s.beginStep.limit with
  | some m =>
      if m < s.beginStep.begun then
        some ⟨s.beginStep, [], .error (.reported (Report.stepLimit original m))⟩
      else next s.beginStep
  | none => next s.beginStep

/-- Goes on with the reduction of `original`, which has come to another term. There is no answer if
the session has no limit and as many steps as given do not end it. -/
def resume [Foreign α] (original : Tree α) : Nat → Session α → Tree α → Option (Reduction α)
  | 0, s, t =>
      match t.step s.bound with
      | .normal => some ⟨s, [], .ok t⟩
      | _ => s.attemptStep original fun _ => none
  | fuel + 1, s, t =>
      match t.step s.bound with
      | .normal => some ⟨s, [], .ok t⟩
      | .blocked o =>
          s.attemptStep original fun begun => some ⟨begun, [], .error (.unforeseen (.ofObstacle o))⟩
      | .contract contractum whole =>
          s.attemptStep original fun begun =>
            (resume original fuel (begun.registerStep "β" contractum) whole).map
              (·.after (begun.stepOutput "β" contractum))

variable [Foreign α] {s : Session α} {original : Tree α} {next : Session α → Option (Reduction α)}

theorem attemptStep_of_none (h : s.limit = none) :
    s.attemptStep original next = next s.beginStep := by
  have hlimit : s.beginStep.limit = none := h
  rw [attemptStep, hlimit]

theorem attemptStep_of_eq_zero {m : Int} (h : s.limit = some m) (hleft : (m - s.begun).toNat = 0) :
    s.attemptStep original next =
      some ⟨s.beginStep, [], .error (.reported (Report.stepLimit original m))⟩ := by
  have hlimit : s.beginStep.limit = some m := h
  have hlt : m < ↑(s.begun + 1) := by omega
  simp only [attemptStep, hlimit]
  exact if_pos hlt

theorem attemptStep_of_eq_succ {n : Nat}
    (hleft : ∀ m, s.limit = some m → (m - s.begun).toNat = n + 1) :
    s.attemptStep original next = next s.beginStep := by
  cases hlimit : s.limit with
  | none => exact attemptStep_of_none hlimit
  | some m =>
      have hsome : s.beginStep.limit = some m := hlimit
      have hle : ¬ m < ↑(s.begun + 1) := by
        have hm := hleft m hlimit
        omega
      simp only [attemptStep, hsome]
      exact if_neg hle

/-- What a session makes of a run from `original`, behind what it has recorded. -/
def answerBehind (s : Session α) (original : Tree α) (run : Run α) : Reduction α :=
  { session :=
      { s with steps := s.steps ++ run.contracta.map (("β", ·)), begun := s.begun + run.begun }
    printed := run.contracta.flatMap (s.stepOutput "β")
    result := s.verdict original run }

/-- Where nested calls are not bounded, the number of steps makes no difference to the result. -/
theorem verdict_cons (hnesting : s.nesting = none) (contractum : Tree α) {run : Run α}
    (hroom : ∀ lack, run.ending ≠ .tooDeep lack) :
    s.verdict original (run.cons contractum) = s.verdict original run := by
  cases hending : run.ending with
  | tooDeep lack => exact (hroom lack hending).elim
  | _ => simp [verdict, hending, allowsRefusal, allows, hnesting, Run.cons]

theorem answerBehind_cons (hnesting : s.nesting = none) (original contractum : Tree α)
    {run : Run α} (hroom : ∀ lack, run.ending ≠ .tooDeep lack) :
    s.answerBehind original (run.cons contractum) =
      ((s.beginStep.registerStep "β" contractum).answerBehind original run).after
        (s.beginStep.stepOutput "β" contractum) := by
  have hbegun : s.begun + (run.cons contractum).begun = s.begun + 1 + run.begun := by
    rw [Run.begun_cons]
    omega
  have hsteps : s.steps ++ (run.cons contractum).contracta.map (("β", ·)) =
      s.steps ++ [("β", contractum)] ++ run.contracta.map (("β", ·)) := by
    rw [List.append_assoc]
    rfl
  rw [answerBehind, hbegun, hsteps, verdict_cons hnesting contractum hroom]
  rfl

/-- A reduction that goes on is a run from there, with the steps that the limit still allows, and
its records stand behind those that were there. -/
theorem resume_eq_answerBehind (hnesting : s.nesting = none) {n : Nat} {t : Tree α}
    (hleft : ∀ m, s.limit = some m → (m - s.begun).toNat = n) :
    s.resume original n t =
      if s.limit = none ∧ (runFor s.bound n t).isFinished = false then none
      else some (s.answerBehind original (runFor s.bound n t)) := by
  generalize hbound : s.bound = bound
  induction n, t using runFor_induction bound generalizing s with
  | normal n t hredex hrun =>
      have hstep : t.step s.bound = .normal := (step_eq_normal_iff s.bound t).mpr hredex
      have hresume : s.resume original n t = some ⟨s, [], .ok t⟩ := by
        cases n <;> rw [resume, hstep]
      rw [hresume, hrun, if_neg (by simp [Run.isFinished])]
      simp [answerBehind, verdict, Run.begun]
  | unfinished t hredex hrun =>
      have hresume : s.resume original 0 t = s.attemptStep original fun _ => none := by
        cases hstep : t.step s.bound with
        | normal => exact ((step_eq_normal_iff s.bound t).mp hstep hredex).elim
        | _ => rw [resume, hstep]
      rw [hresume, hrun]
      cases hlimit : s.limit with
      | none => rw [attemptStep_of_none hlimit, if_pos ⟨rfl, rfl⟩]
      | some m =>
          rw [attemptStep_of_eq_zero hlimit (hleft m hlimit), if_neg (by simp)]
          simp [answerBehind, verdict, Run.begun, beginStep, hlimit, allowsRefusal, allows,
            hnesting]
  | blocked n t o hstep hrun =>
      rw [resume, hbound, hstep, hrun, if_neg (by simp [Run.isFinished])]
      simp only
      rw [attemptStep_of_eq_succ hleft]
      simp [answerBehind, verdict, Run.begun, beginStep]
  | contract n t contractum whole hstep hrun ih =>
      -- one step more was begun, and the run may take one step less
      have hrest : ∀ m, (s.beginStep.registerStep "β" contractum).limit = some m →
          (m - (s.beginStep.registerStep "β" contractum).begun).toNat = n := by
        intro m hm
        have hm' := hleft m hm
        simp only [beginStep, registerStep]
        omega
      rw [resume, hbound, hstep, hrun]
      simp only
      rw [attemptStep_of_eq_succ hleft,
        ih (s := s.beginStep.registerStep "β" contractum) hnesting hrest hbound,
        answerBehind_cons hnesting original contractum (ending_runFor_ne_tooDeep n whole)]
      exact apply_ite (Option.map _) _ _ _

theorem answerBehind_restart (s : Session α) (t : Tree α) {run : Run α}
    (hroom : ∀ lack, run.ending ≠ .tooDeep lack) :
    s.restart.answerBehind t run = s.answer t run := by
  rw [answerBehind, answer, Run.shown_of_ne_tooDeep hroom, restart, List.nil_append, Nat.zero_add]
  rfl

/-- Where nested calls are not bounded, a reduction works in place, on the session without its
records. -/
theorem reduce_eq_resume {s : Session α} (hnesting : s.nesting = none) (fuel : Nat) (t : Tree α) :
    s.reduce fuel t = s.restart.resume t (stepsAllowed s.limit fuel) t := by
  have hleft : ∀ m, s.restart.limit = some m →
      (m - s.restart.begun).toNat = stepsAllowed s.limit fuel := by
    intro m hm
    have hlimit : s.limit = some m := hm
    rw [hlimit]
    simp [stepsAllowed, restart]
  rw [resume_eq_answerBehind (s := s.restart) hnesting hleft, reduce_eq_answer,
    course_of_nesting_eq_none hnesting, answerBehind_restart s t (ending_runFor_ne_tooDeep _ t)]
  rfl

end Session

end LambdaCalculus
