import LambdaCalculus.Proofs.Session.Reduction

/-!
# What a session records of a reduction

A session records contracta only, the terms that take the place of redexes somewhere inside the term
that is reduced. They are enough to follow the reduction: the recorded terms are the contracta of a
sequence of contractions of the whole term, each of the deepest redex on its spine, in surroundings
that stay as they are. No argument is ever entered.

`reduce_contractions` says this of every reduction, whether it has an answer or is cut short.
-/

namespace LambdaCalculus

variable {α : Type}

namespace Tree

/-- Contracting the deepest redex on the spine of `t` gives `u`, with the contractum `e` in place of
the redex. The function side of this redex has no redex on its own spine, and all around the redex
stays as it is. -/
def Contraction (t e u : Tree α) : Prop :=
  ∃ (C : SpineContext α) (x : String) (b a : Tree α),
    t = C.fill (app (lam x b) a) ∧ e = substitute x a b ∧ u = C.fill e ∧ ¬ HasSpineRedex (lam x b)

/-- A sequence of contractions from a term to another, with their contracta in order. -/
inductive Contractions : Tree α → List (Tree α) → Tree α → Prop where
  | nil (t : Tree α) : Contractions t [] t
  | cons {t e u r : Tree α} {contracta : List (Tree α)} (h : Contraction t e u)
        (hrest : Contractions u contracta r) :
      Contractions t (e :: contracta) r

variable {bound : Name.Bound}

theorem Contraction.of_step {t e u : Tree α} (h : t.step bound = .contract e u) :
    Contraction t e u := by
  rcases step_cases t with ⟨_, hnormal⟩ | ⟨C, x, b, a, rfl, hdeepest, hstep⟩
  · simp [hnormal bound] at h
  · rw [hstep, contractRedex] at h
    split at h
    · simp [Step.within] at h
    · simp only [Step.within, Step.contract.injEq] at h
      obtain ⟨rfl, rfl⟩ := h
      exact ⟨C, x, b, a, rfl, rfl, rfl, hdeepest⟩

theorem contractions_runFor (n : Nat) (t : Tree α) :
    Contractions t (runFor bound n t).contracta (runFor bound n t).last := by
  induction n, t using runFor_induction bound with
  | normal n t _ hrun =>
      rw [hrun]
      exact .nil t
  | unfinished t _ hrun =>
      rw [hrun]
      exact .nil t
  | blocked n t o _ hrun =>
      rw [hrun]
      exact .nil t
  | contract n t contractum whole hstep hrun ih =>
      rw [hrun]
      exact .cons (.of_step hstep) ih

theorem KeepsTo.contractions {n : Nat} {t : Tree α} {run : Run α} (h : KeepsTo bound n t run) :
    Contractions t run.contracta run.last := by
  rcases h with rfl | ⟨k, lack, hstops⟩
  · exact contractions_runFor n t
  · rw [hstops.eq]
    exact contractions_runFor k t

/-! Contractions are those of steps, so that the contracta tell which terms they lead through. -/

theorem Contraction.step_eq {t e u : Term} (h : Contraction t e u) :
    t.step none = .contract e u := by
  obtain ⟨C, x, b, a, rfl, rfl, rfl, hdeepest⟩ := h
  have hstep := step_fill none C ((step_eq_normal_iff none _).mpr hdeepest) a
  rwa [contractRedex, obstacle_term] at hstep

theorem Contractions.unique {t r r' : Term} {contracta : List Term} (h : Contractions t contracta r)
    (h' : Contractions t contracta r') : r = r' := by
  induction h with
  | nil t =>
      cases h'
      rfl
  | cons hstep _ ih =>
      cases h' with
      | cons hstep' hrest' =>
          obtain ⟨_, rfl⟩ := Step.contract.inj (hstep.step_eq.symm.trans hstep'.step_eq)
          exact ih hrest'

/-! ### Steps begun -/

/-- A step that was begun and not taken would have contracted a redex. -/
theorem KeepsTo.begun_cases {n : Nat} {t : Tree α} {run : Run α} (h : KeepsTo bound n t run) :
    run.begun = run.contracta.length
      ∨ run.begun = run.contracta.length + 1 ∧ HasSpineRedex run.last := by
  rcases h with rfl | ⟨k, lack, hstops⟩
  · have hredex (h : (runFor bound n t).ending ≠ .normal) : HasSpineRedex (runFor bound n t).last :=
      hasSpineRedex_last h
    cases hending : (runFor bound n t).ending with
    | normal => exact Or.inl (by rw [Run.begun, hending])
    | tooDeep lack => exact (ending_runFor_ne_tooDeep n t lack hending).elim
    | _ => exact Or.inr ⟨by rw [Run.begun, hending], hredex (by simp [hending])⟩
  · rw [hstops.eq]
    cases lack with
    | contracting => exact Or.inr ⟨rfl, (hstops.redex rfl).2⟩
    | entering => exact Or.inl rfl
    | showing => exact Or.inl rfl

end Tree

open LambdaCalculus.Tree

/-- The recorded terms of a reduction are the contracta of a sequence of contractions from the term
that is reduced. If the reduction answers a term, it is the last one of the sequence, a head normal
form, and as many steps were begun as recorded. If the limit on steps cuts it short, all steps that
the limit allows were taken, and the last term of the sequence has a redex left on its spine. If it
is cut short for lack of room, it has taken all the steps that it began, or it was to contract a
redex on the spine of the last term. -/
theorem Session.reduce_contractions {s : Session Empty} {fuel : Nat} {t : Term}
    {reduction : Reduction Empty} (h : s.reduce fuel t = some reduction) :
    ∃ (contracta : List Term) (last : Term),
      Contractions t contracta last ∧
      reduction.session.steps = contracta.map (("β", ·)) ∧
      (∀ r, reduction.result = .ok r →
        r = last ∧ reduction.session.begun = contracta.length ∧ r.IsHeadNormal) ∧
      (∀ report, reduction.result = .error (.reported report) →
        (HasSpineRedex last ∧ reduction.session.begun = contracta.length + 1 ∧
          ∃ m, s.limit = some m ∧ report = Report.stepLimit t m ∧ contracta.length = m.toNat) ∨
        (s.nesting ≠ none ∧ report = Report.depthLimit t reduction.session.begun ∧
          (reduction.session.begun = contracta.length ∨
            reduction.session.begun = contracta.length + 1 ∧ HasSpineRedex last))) := by
  have hkeeps := s.keepsTo_course fuel t
  rw [Session.reduce_eq_answer, Option.ite_none_left_eq_some] at h
  obtain ⟨hfinished, h⟩ := h
  obtain rfl := Option.some.inj h
  refine ⟨_, _, hkeeps.contractions, rfl, ?_, ?_⟩
  · intro r hresult
    obtain ⟨hending, rfl⟩ := Session.verdict_eq_ok hresult
    have hrun : s.course fuel t = runFor s.bound (stepsAllowed s.limit fuel) t :=
      evaluate_eq_runFor_of_normal hending
    have hnormal : ¬ HasSpineRedex (s.course fuel t).last := by
      rw [hrun] at hending ⊢
      exact not_hasSpineRedex_last hending
    refine ⟨rfl, ?_, isHeadNormal_of_not_hasSpineRedex hnormal⟩
    simp only [Session.answer, Run.begun, hending]
  · intro report hresult
    rcases Session.verdict_eq_error hresult (s.ending_course_ne_tooDeep · fuel t) with
      ⟨hending, hreport⟩ | ⟨hnesting, hfailure, _⟩ | ⟨o, _, hfailure⟩
    · have hrun := hkeeps.eq_runFor (by simp [hending])
      obtain ⟨m, hm⟩ := Session.exists_limit hfinished hending
      obtain rfl := Failure.reported.inj hreport
      refine Or.inl ⟨?_, ?_, m, hm, by rw [hm, Option.getD_some], ?_⟩
      · rw [hrun] at hending ⊢
        exact hasSpineRedex_last (by simp [hending])
      · simp only [Session.answer, Run.begun, hending]
      · rw [hrun] at hending ⊢
        rw [length_contracta_of_unfinished hending, hm]
        rfl
    · refine Or.inr ⟨hnesting, ?_, hkeeps.begun_cases⟩
      exact Session.eq_depthLimit_of_nestingFailure hfailure
    · contradiction

/-- In `(λf.λy.f y) (λx.y) a` the inner redex comes first, `y` is renamed for it, and the redex that
this makes below the new binder is contracted before the outer one. -/
theorem Session.reduce_contractions_below_binder :
    ∃ reduction : Reduction Empty,
      ({ limit := some 3 } : Session Empty).reduce 0
          (app (app (lam "f" (lam "y" (app (var "f") (var "y")))) (lam "x" (var "y"))) (var "a"))
            = some reduction ∧
        reduction.result = .ok (var "y") ∧
        ∃ contracta : List Term,
          Contractions
            (app (app (lam "f" (lam "y" (app (var "f") (var "y")))) (lam "x" (var "y"))) (var "a"))
            contracta (var "y") ∧
          reduction.session.steps = contracta.map (("β", ·)) ∧ contracta.length = 3 := by
  have hreduce : ({ limit := some 3 } : Session Empty).reduce 0
      (app (app (lam "f" (lam "y" (app (var "f") (var "y")))) (lam "x" (var "y"))) (var "a")) =
        some {
          session := {
            limit := some 3
            steps := [("β", lam "y₀" (app (lam "x" (var "y")) (var "y₀"))), ("β", var "y"),
              ("β", var "y")]
            begun := 3 }
          printed := []
          result := .ok (var "y") } := by
    have hbinder :
        binderFor "f" (lam "x" (var "y")) "y" (app (var "f") (var "y") : Term) = "y₀" := by
      decide +kernel
    simp [Session.reduce, room, reduce_unlimited, stepsAllowed, runFor, step, contractRedex,
      obstacle_term, substitute_lam, hbinder, Step.within, Run.cons, Run.begun, Run.shown, isNormal,
      Session.stepOutput, Session.verdict]
  obtain ⟨contracta, last, hcontractions, hsteps, hok, _⟩ := Session.reduce_contractions hreduce
  obtain ⟨rfl, hbegun, _⟩ := hok (var "y") rfl
  exact ⟨_, hreduce, rfl, contracta, hcontractions, hsteps, hbegun.symm⟩

/-- `(λp.p (p (p (p t)))) (λk.k a … a)`, which leads to `t` with four times as many arguments as the
abstraction has. -/
def Tree.outgrowing (width : Nat) (t : Term) : Term :=
  app (lam "p" (app (var "p") (app (var "p") (app (var "p") (app (var "p") t)))))
    (lam "k" ((var "k").applyAll (List.replicate width (var "a"))))

/-- Where at most 32 calls may be open at a time, five steps lead to `y` with 31 arguments. This is
a head normal form, but there is no room to go down to its head. -/
theorem Session.reduce_contractions_outgrown :
    ∃ (reduction : Reduction Empty) (report : Report),
      ({ nesting := some 32 } : Session Empty).reduce 0
          (outgrowing 7 ((var "y").applyAll [var "a", var "a", var "a"])) = some reduction ∧
        reduction.result = .error (.reported report) ∧
        ∀ contracta last,
          Contractions (outgrowing 7 ((var "y").applyAll [var "a", var "a", var "a"])) contracta
              last →
            reduction.session.steps = contracta.map (("β", ·)) → ¬ HasSpineRedex last := by
  have hcourse : ∃ contracta, ({ nesting := some 32 } : Session Empty).course 0
      (outgrowing 7 ((var "y").applyAll [var "a", var "a", var "a"])) =
        ⟨contracta, (var "y").applyAll (List.replicate 31 (var "a")), .tooDeep .entering⟩ := by
    simp [course, room, stepsAllowed, Tree.defaultLimit, evaluate, outgrowing, Room.within,
      openCalls, substitutionDepth, obstacle_term, Run.within, Run.after, List.replicate]
  obtain ⟨contracta, hcourse⟩ := hcourse
  have hreduce : ({ nesting := some 32 } : Session Empty).reduce 0
      (outgrowing 7 ((var "y").applyAll [var "a", var "a", var "a"])) = some _ :=
    Session.reduce_of_isFinished (by rw [hcourse]; rfl)
  have hcontractions := (({ nesting := some 32 } : Session Empty).keepsTo_course 0
    (outgrowing 7 ((var "y").applyAll [var "a", var "a", var "a"]))).contractions
  rw [hcourse] at hreduce hcontractions
  refine ⟨_, Report.depthLimit (outgrowing 7 ((var "y").applyAll [var "a", var "a", var "a"]))
    contracta.length, hreduce, ?_, ?_⟩
  · simp [answer, verdict, nestingFailure, allows, Run.begun, writingDepth, outgrowing, Tree.depth,
      List.replicate]
  · intro contracta' last hcontractions' hsteps
    obtain rfl : contracta = contracta' :=
      (List.map_inj_right fun _ _ h => congrArg Prod.snd h).mp hsteps
    rw [hcontractions'.unique hcontractions]
    exact not_hasSpineRedex_applyAll (not_hasSpineRedex_var "y") (by simp) _

end LambdaCalculus
