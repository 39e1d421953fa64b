import LambdaCalculus.Proofs.Reduction.Contraction
import LambdaCalculus.Proofs.Reduction.Evaluation

/-!
# A limit on steps cuts a reduction short

A limit on the steps of a reduction has no other effect than to end it. Of two runs from a term, the
one that may take fewer steps makes the first contractions of the other. If a run ends by itself,
every limit that allows as many steps as it took gives the same answer, and every other limit cuts
it short just there. If none ends by itself, every limit cuts the reduction short.
-/

namespace LambdaCalculus

namespace Tree

variable {α : Type} {bound : Name.Bound}

/-- A run ends in a normal term, or because its steps are used up, or at a number that is too long
for the bound. -/
theorem ending_runFor_cases (bound : Name.Bound) (n : Nat) (t : Term) :
    (runFor bound n t).ending = .normal ∨ (runFor bound n t).ending = .unfinished
      ∨ ∃ fault, bound ≠ none ∧ (runFor bound n t).ending = .blocked (.number fault) := by
  rcases runFor_bound_cases bound n t with hsame | hblocked
  · rw [hsame]
    cases hending : (runFor none n t).ending with
    | normal => exact Or.inl rfl
    | unfinished => exact Or.inr (Or.inl rfl)
    | blocked o => exact (ending_runFor_none_ne_blocked n t o hending).elim
    | tooDeep lack => exact (ending_runFor_ne_tooDeep n t lack hending).elim
  · exact Or.inr (Or.inr hblocked)

theorem ending_evaluate_cases (room : Room Empty) (bound : Name.Bound) (depth n : Nat) (t : Term) :
    (evaluate room bound depth n t).ending = .normal
      ∨ (evaluate room bound depth n t).ending = .unfinished
      ∨ (∃ lack, (evaluate room bound depth n t).ending = .tooDeep lack)
      ∨ ∃ fault, bound ≠ none ∧ (evaluate room bound depth n t).ending =
        .blocked (.number fault) := by
  rcases keepsTo_evaluate room bound depth n t with hrun | ⟨k, lack, hstops⟩
  · rw [hrun]
    rcases ending_runFor_cases bound n t with hending | hending | hending
    · exact Or.inl hending
    · exact Or.inr (Or.inl hending)
    · exact Or.inr (Or.inr (Or.inr hending))
  · exact Or.inr (Or.inr (Or.inl ⟨lack, hstops.ending⟩))

/-! ### A term without a result -/

/-- `(λx.x x) (λx.x x)`, which is its own contractum. -/
def selfApplication : Term :=
  app (lam "x" (app (var "x") (var "x"))) (lam "x" (app (var "x") (var "x")))

theorem not_evaluates_selfApplication (r : Term) : ¬ Evaluates selfApplication r := by
  have hstep : selfApplication.step none = .contract selfApplication selfApplication := by
    simp [selfApplication, step, contractRedex_none, Step.within]
  have hrun (n : Nat) : (runFor none n selfApplication).ending = .unfinished := by
    induction n with
    | zero =>
        have hredex : HasSpineRedex selfApplication := hasSpineRedex_app.mpr (Or.inr ⟨_, _, rfl⟩)
        rw [runFor_zero_of_hasSpineRedex none hredex]
    | succ n ih =>
        rw [runFor_of_contract hstep]
        exact ih
  intro h
  obtain ⟨n, hending, _⟩ := h.exists_runFor
  rw [hrun n] at hending
  contradiction

end Tree

open LambdaCalculus.Tree

/-- A reduction of `t` that a limit of `m` steps has cut short. It has taken all steps that the
limit allows, none if the limit is negative, and has begun one more. It reports the limit from where
the next redex stands. If there is no room to write `t` from there, it reports a lack of room
instead, as far as there is room for this. -/
structure Reduction.IsCutShort (s : Session Empty) (t : Term) (m : Int)
    (reduction : Reduction Empty) : Prop where
  length : reduction.session.steps.length = m.toNat
  begun : reduction.session.begun = m.toNat + 1
  refused : ∃ (contracta : List Term) (C : SpineContext Empty) (x : String) (b a : Term)
      (failure : Failure),
    Contractions t contracta (C.fill (app (lam x b) a)) ∧ ¬ HasSpineRedex (lam x b) ∧
      reduction.session.steps = contracta.map (("β", ·)) ∧ reduction.result = .error failure ∧
      (s.allows (openCalls C.depth + 1 + t.writingDepth) = true →
        failure = .reported (Report.stepLimit t m)) ∧
      (s.allows (openCalls C.depth + 1 + t.writingDepth) = false →
        s.allows (1 + t.writingDepth) = true →
          failure = .reported (Report.depthLimit t reduction.session.begun))

namespace Session

theorem course_of_limit (s : Session Empty) (m : Int) (fuel : Nat) (t : Term) :
    { s with limit := some m }.course fuel t = evaluate s.room s.bound 0 m.toNat t := rfl

theorem course_of_no_limit (s : Session Empty) (fuel : Nat) (t : Term) :
    { s with limit := none }.course fuel t = evaluate s.room s.bound 0 fuel t := rfl

theorem reduce_of_limit (s : Session Empty) (m : Int) (fuel : Nat) (t : Term) :
    { s with limit := some m }.reduce fuel t
      = some ({ s with limit := some m }.answer t (evaluate s.room s.bound 0 m.toNat t)) := by
  rw [reduce_eq_answer, if_neg (by simp), course_of_limit]

theorem isCutShort_answer {s : Session Empty} {m : Int} {t : Term}
    (h : (evaluate s.room s.bound 0 m.toNat t).ending = .unfinished) :
    ({ s with limit := some m }.answer t
      (evaluate s.room s.bound 0 m.toNat t)).IsCutShort s t m := by
  have hkeeps := keepsTo_evaluate s.room s.bound 0 m.toNat t
  have hrun := hkeeps.eq_runFor (by simp [h])
  have hlength : (evaluate s.room s.bound 0 m.toNat t).contracta.length = m.toNat := by
    rw [hrun] at h ⊢
    exact length_contracta_of_unfinished h
  have hredex : HasSpineRedex (evaluate s.room s.bound 0 m.toNat t).last := by
    rw [hrun] at h ⊢
    exact hasSpineRedex_last (by simp [h])
  refine ⟨?_, ?_, ?_⟩
  · simp only [answer, List.length_map, hlength]
  · simp only [answer, Run.begun, h, hlength]
  · rcases step_cases (evaluate s.room s.bound 0 m.toNat t).last with
      ⟨hnone, _⟩ | ⟨C, x, b, a, hlast, hdeepest, _⟩
    · exact (hnone hredex).elim
    · refine ⟨_, C, x, b, a, _, hlast ▸ hkeeps.contractions, hdeepest, rfl,
        verdict_of_unfinished_at h hlast hdeepest, fun hroom => if_pos hroom, ?_⟩
      intro hnone houtside
      exact (if_neg (Bool.eq_false_iff.mp hnone)).trans (if_pos houtside)

theorem lacksRoom_answer {s : Session Empty} {m : Int} {t : Term} {lack : Lack}
    (h : (evaluate s.room s.bound 0 m.toNat t).ending = .tooDeep lack) :
    ({ s with limit := some m }.answer t (evaluate s.room s.bound 0 m.toNat t)).LacksRoom s t := by
  rw [← s.course_of_limit m 0] at h ⊢
  exact ⟨fun hnesting => ending_course_ne_tooDeep (by exact hnesting) 0 t lack h,
    verdict_of_tooDeep h⟩

/-- With a limit, or for a term that has a result, a reduction has an answer. -/
theorem exists_reduce (s : Session Empty) (t : Term) (h : s.limit = none → ∃ r, Evaluates t r) :
    ∃ (fuel : Nat) (reduction : Reduction Empty),
      ∀ more, fuel ≤ more → s.reduce more t = some reduction := by
  cases hlimit : s.limit with
  | some m =>
      have hs : { s with limit := some m } = s := by rw [← hlimit]
      have hreduce (fuel : Nat) := s.reduce_of_limit m fuel t
      rw [hs] at hreduce
      exact ⟨0, _, fun more _ => hreduce more⟩
  | none =>
      obtain ⟨r, hr⟩ := h hlimit
      obtain ⟨n, hending, -⟩ := hr.exists_runFor
      have hfinished : (s.course n t).isFinished = true := by
        rw [course, hlimit]
        rcases keepsTo_evaluate s.room s.bound 0 n t with hrun | ⟨k, lack, hstops⟩
        · rw [stepsAllowed, hrun]
          rcases runFor_bound_cases s.bound n t with hsame | ⟨fault, _, hblocked⟩
          · rw [hsame, Run.isFinished, hending]
          · rw [Run.isFinished, hblocked]
        · rw [stepsAllowed, Run.isFinished, hstops.ending]
      exact ⟨n, _, fun more => reduce_mono (reduce_of_isFinished hfinished)⟩

/-- A reduction of a term of the calculus comes to a term or to the limit, unless it lacks room or
comes to a number in a name that is too long for the bound on such numbers. -/
theorem result_cases_term {s : Session Empty} {fuel : Nat} {t : Term} {reduction : Reduction Empty}
    (h : s.reduce fuel t = some reduction) :
    (∃ r, reduction.result = .ok r)
      ∨ (∃ m, s.limit = some m ∧ reduction.result = .error (.reported (Report.stepLimit t m)))
      ∨ reduction.LacksRoom s t
      ∨ s.bound ≠ none
        ∧ ∃ fault, reduction.result = .error (.unforeseen (.longNumber fault)) := by
  rcases result_cases h with hr | hm | hlacks | ⟨o, hending, ho⟩
  · exact Or.inl hr
  · exact Or.inr (Or.inl hm)
  · exact Or.inr (Or.inr (Or.inl hlacks))
  · rcases ending_evaluate_cases s.room s.bound 0 (stepsAllowed s.limit fuel) t with
      h' | h' | ⟨lack, h'⟩ | ⟨fault, hbound, h'⟩
    all_goals
      rw [course, h'] at hending
      cases hending
    exact Or.inr (Or.inr (Or.inr ⟨hbound, fault, ho⟩))

/-- A limit on steps cuts a reduction short and does nothing else. If the reduction without a limit
answers a term, those under a limit give the same answer with the same steps as soon as the limit
allows them all, and are cut short otherwise, with the first of these steps. If it answers no term,
every limit cuts it short, unless it lacks room or a number in a name is too long for the bound
before that. In any case the steps under a limit are the first ones of those under a higher
limit. -/
theorem reduce_limit (s : Session Empty) (t : Term) :
    (∀ (fuel : Nat) (whole : Reduction Empty) (r : Term),
      { s with limit := none }.reduce fuel t = some whole → whole.result = .ok r →
        ∀ (m : Int) (any : Nat), ∃ part : Reduction Empty,
          { s with limit := some m }.reduce any t = some part ∧
          (whole.session.steps.length ≤ m.toNat →
            part.result = .ok r ∧ part.session.steps = whole.session.steps
              ∧ part.session.begun = whole.session.steps.length) ∧
          (m.toNat < whole.session.steps.length →
            part.IsCutShort s t m
              ∧ part.session.steps = whole.session.steps.take m.toNat)) ∧
    ((∀ r, ¬ { s with limit := none }.Answers t r) →
      ∀ (m : Int) (any : Nat), ∃ part : Reduction Empty,
        { s with limit := some m }.reduce any t = some part ∧
        (part.IsCutShort s t m ∨ part.LacksRoom s t
          ∨ s.bound ≠ none ∧ ∃ fault, part.result = .error (.unforeseen (.longNumber fault)))) ∧
    (∀ (m m' : Int) (any any' : Nat) (part part' : Reduction Empty), m ≤ m' →
      { s with limit := some m }.reduce any t = some part →
        { s with limit := some m' }.reduce any' t = some part' →
          part.session.steps = part'.session.steps.take m.toNat) := by
  refine ⟨?_, ?_, ?_⟩
  · intro fuel whole r hwhole hresult m any
    obtain ⟨hending, -, rfl, rfl⟩ := eq_answer_of_ok hwhole hresult
    rw [course_of_no_limit] at hending ⊢
    simp only [answer, List.length_map]
    refine ⟨_, s.reduce_of_limit m any t, ?_, ?_⟩
    · intro hle
      rw [evaluate_of_length_le hending hle]
      refine ⟨verdict_of_normal hending, rfl, ?_⟩
      simp only [answer, Run.begun, hending]
    · intro hlt
      obtain ⟨hunfinished, hcontracta⟩ := evaluate_of_lt_length hlt
      refine ⟨isCutShort_answer hunfinished, ?_⟩
      simp only [answer, hcontracta, List.map_take]
  · intro hnone m any
    refine ⟨_, s.reduce_of_limit m any t, ?_⟩
    rcases ending_evaluate_cases s.room s.bound 0 m.toNat t with
      hending | hending | ⟨lack, hending⟩ | ⟨fault, hbound, hending⟩
    · have hfinished : ({ s with limit := none }.course m.toNat t).isFinished = true := by
        rw [course_of_no_limit, Run.isFinished, hending]
      exact (hnone _ ⟨m.toNat, _, reduce_of_isFinished hfinished, verdict_of_normal hending⟩).elim
    · exact Or.inl (isCutShort_answer hending)
    · exact Or.inr (Or.inl (lacksRoom_answer hending))
    · exact Or.inr (Or.inr ⟨hbound, fault, verdict_of_blocked hending⟩)
  · intro m m' any any' part part' hle hpart hpart'
    rw [reduce_of_limit] at hpart hpart'
    obtain rfl := Option.some.inj hpart
    obtain rfl := Option.some.inj hpart'
    have hsteps : m.toNat ≤ m'.toNat := Int.toNat_le_toNat hle
    simp only [answer, contracta_evaluate_of_le s.room s.bound 0 t hsteps, List.map_take]

/-- `(λx.λy.x) a b` takes two steps. One step is too few for it, and a negative limit allows none.
The self-application of `λx.x x` is cut short by every limit. -/
theorem reduce_limit_two_steps :
    (∃ whole : Reduction Empty,
      ({ limit := none } : Session Empty).reduce 2
          (app (app (lam "x" (lam "y" (var "x"))) (var "a")) (var "b")) = some whole ∧
        whole.result = .ok (var "a") ∧
        whole.session.steps = [("β", lam "y" (var "a")), ("β", var "a")] ∧
        (∃ part : Reduction Empty,
          ({ limit := some 2 } : Session Empty).reduce 0
              (app (app (lam "x" (lam "y" (var "x"))) (var "a")) (var "b")) = some part ∧
            part.result = .ok (var "a")) ∧
        (∃ part : Reduction Empty,
          ({ limit := some 1 } : Session Empty).reduce 0
              (app (app (lam "x" (lam "y" (var "x"))) (var "a")) (var "b")) = some part ∧
            part.IsCutShort {} (app (app (lam "x" (lam "y" (var "x"))) (var "a")) (var "b")) 1) ∧
        ∃ part : Reduction Empty,
          ({ limit := some (-3) } : Session Empty).reduce 0
              (app (app (lam "x" (lam "y" (var "x"))) (var "a")) (var "b")) = some part ∧
            part.IsCutShort {} (app (app (lam "x" (lam "y" (var "x"))) (var "a")) (var "b")) (-3)) ∧
    (∀ r, ¬ ({ limit := none } : Session Empty).Answers selfApplication r) ∧
    ∃ part : Reduction Empty,
      ({ limit := some 5 } : Session Empty).reduce 0 selfApplication = some part
        ∧ part.IsCutShort {} selfApplication 5 := by
  have hwhole : ({ limit := none } : Session Empty).reduce 2
      (app (app (lam "x" (lam "y" (var "x"))) (var "a")) (var "b")) =
        some {
          session := {
            limit := none
            steps := [("β", lam "y" (var "a")), ("β", var "a")]
            begun := 2 }
          printed := []
          result := .ok (var "a") } := by
    simp [Session.reduce, room, reduce_unlimited, stepsAllowed, runFor, step, contractRedex_none,
      substitute_lam, Step.within, Run.cons, Run.begun, Run.shown, Run.isFinished, isNormal,
      Session.stepOutput, Session.verdict]
  have hnone (r : Term) : ¬ ({ limit := none } : Session Empty).Answers selfApplication r :=
    fun h => not_evaluates_selfApplication r h.evaluates
  have hlimit := (reduce_limit {} (app (app (lam "x" (lam "y" (var "x"))) (var "a")) (var "b"))).1
    2 _ _ hwhole rfl
  obtain ⟨two, htwo, hallowed, _⟩ := hlimit 2 0
  obtain ⟨one, hone, _, hcut⟩ := hlimit 1 0
  obtain ⟨negative, hnegative, _, hcut'⟩ := hlimit (-3) 0
  obtain ⟨self, hself, hcut''⟩ := (reduce_limit {} selfApplication).2.1 hnone 5 0
  refine ⟨⟨_, hwhole, rfl, rfl, ⟨two, htwo, (hallowed (by decide)).1⟩,
    ⟨one, hone, (hcut (by decide)).1⟩, negative, hnegative, (hcut' (by decide)).1⟩, hnone, self,
    hself, ?_⟩
  rcases hcut'' with hcut'' | ⟨hnesting, _⟩ | ⟨hbound, _⟩
  · exact hcut''
  · exact (hnesting rfl).elim
  · exact (hbound rfl).elim

/-- Where at most 12 calls may be open at a time, `(λx.y) z` becomes `y` in one step. If no step is
allowed, there is no room for the report on the limit, and the error counts one step. -/
theorem reduce_limit_no_room :
    (∃ whole : Reduction Empty,
      ({ limit := none, nesting := some 12 } : Session Empty).reduce 1
          (app (lam "x" (var "y")) (var "z")) = some whole ∧
        whole.result = .ok (var "y") ∧ whole.session.steps.length = 1) ∧
    ∃ part : Reduction Empty,
      ({ limit := some 0, nesting := some 12 } : Session Empty).reduce 0
          (app (lam "x" (var "y")) (var "z")) = some part ∧
        part.result = .error (.reported
          (Report.depthLimit (app (lam "x" (var "y")) (var "z") : Term) 1)) := by
  have hwhole : ({ limit := none, nesting := some 12 } : Session Empty).course 1
      (app (lam "x" (var "y")) (var "z")) = ⟨[var "y"], var "y", .normal⟩ := by
    simp [course, room, stepsAllowed, evaluate, Room.within, openCalls, substitutionDepth,
      obstacle_term, Run.within, Run.after]
  have hpart : ({ limit := some 0, nesting := some 12 } : Session Empty).course 0
      (app (lam "x" (var "y")) (var "z")) =
        ⟨[], app (lam "x" (var "y")) (var "z"), .unfinished⟩ := by
    simp [course, room, stepsAllowed, evaluate, Room.within, openCalls, Run.within]
  refine ⟨⟨_, reduce_of_isFinished (by rw [hwhole]; rfl), ?_, ?_⟩, _,
    (reduce_eq_answer ..).trans (if_neg (by simp)), ?_⟩
  · rw [hwhole]
    rfl
  · rw [hwhole]
    rfl
  · rw [hpart]
    simp [answer, verdict, allowsRefusal, nestingFailure, allows, redexDepth?, openCalls,
      writingDepth, Tree.depth, Run.begun]

end Session

end LambdaCalculus
