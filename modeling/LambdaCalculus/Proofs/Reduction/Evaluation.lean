import LambdaCalculus.Proofs.Reduction.AlphaInvariance

/-!
# Evaluation in big steps

`Evaluates t r` is the strategy as rules on whole terms, from a term to what is left of it in the
end. It holds as soon as a run of some length leads there, and its derivations can be put together
from those of parts, with no count of steps.

Without the names of bound variables an evaluation is any way along the spine to a term without a
redex there. So a term has a result as soon as another one has to which it leads along the spine,
and conversely, and the results differ in bound names only.

A session answers the result of an evaluation and nothing else. If it has no limit and no bound on
nested calls, only a bound on the numbers in names can keep it from an answer.
-/

namespace LambdaCalculus

namespace Tree

/-- What is left of a term in the end. The function side of an application is evaluated first. If it
becomes an abstraction, the contractum of the redex takes the place of the application; otherwise
the argument stays as it is. -/
inductive Evaluates : Term → Term → Prop where
  | var (x : String) : Evaluates (var x) (var x)
  | lam (x : String) {b b' : Term} (h : Evaluates b b') : Evaluates (lam x b) (lam x b')
  | stuck {f f' : Term} (a : Term) (h : Evaluates f f') (hlam : ∀ x b, f' ≠ lam x b) :
      Evaluates (app f a) (app f' a)
  | contract {f b r : Term} {x : String} (a : Term) (hf : Evaluates f (lam x b))
        (hr : Evaluates (substitute x a b) r) :
      Evaluates (app f a) r

variable {t u r r' : Term}

theorem Evaluates.not_hasSpineRedex (h : Evaluates t r) : ¬ HasSpineRedex r := by
  induction h with
  | var x => exact not_hasSpineRedex_var x
  | lam x _ ih => rwa [hasSpineRedex_lam]
  | stuck a _ hlam ih =>
      rw [hasSpineRedex_app]
      rintro (hredex | ⟨x, b, heq⟩)
      · exact ih hredex
      · exact hlam x b heq
  | contract a _ _ _ ih => exact ih

theorem evaluates_self (h : ¬ HasSpineRedex t) : Evaluates t t := by
  induction t with
  | var x => exact .var x
  | lam x b ih =>
      rw [hasSpineRedex_lam] at h
      exact .lam x (ih h)
  | app f a ihf _ =>
      rw [hasSpineRedex_app, not_or] at h
      refine .stuck a (ihf h.1) ?_
      intro x b hlam
      exact h.2 ⟨x, b, hlam⟩
  | foreign v => exact v.elim

theorem Evaluates.unique (h : Evaluates t r) (h' : Evaluates t r') : r = r' := by
  induction h generalizing r' with
  | var x =>
      cases h' with
      | var => rfl
  | lam x _ ih =>
      cases h' with
      | lam _ hb => rw [ih hb]
  | stuck a _ hlam ih =>
      cases h' with
      | stuck _ hf _ => rw [ih hf]
      | contract _ hf _ => exact (hlam _ _ (ih hf)).elim
  | contract a _ _ ihf ihr =>
      cases h' with
      | stuck _ hf hlam => exact (hlam _ _ (ihf hf).symm).elim
      | contract _ hf hr =>
          obtain ⟨rfl, rfl⟩ := lam.inj (ihf hf)
          exact ihr hr

/-! ### Runs -/

theorem evaluates_of_evaluate {depth n : Nat}
    (h : (evaluate .unlimited none depth n t).ending = .normal) :
    Evaluates t (evaluate .unlimited none depth n t).last := by
  fun_induction evaluate .unlimited none depth n t with
  | case1 depth n _ x => exact .var x
  | case2 depth n _ v => exact v.elim
  | case3 depth n _ x b ih => exact .lam x (ih h)
  | case5 depth n _ f a function x b hlast hending _ _ _ contractum contracta _ ihf ihr =>
      have hf : Evaluates f (lam x b) := by
        rw [← hlast]
        exact ihf hending
      exact .contract a hf (ihr h)
  | case9 depth n _ f a function hne ih =>
      refine .stuck a (ih h) ?_
      intro x b hlam
      exact hne x b h hlam
  | case4 | case6 | case7 | case8 | case10 => simp at h

/-- A run of the function side to an abstraction, the contraction of the redex that this makes, and
what comes of it are a run of the application. -/
theorem exists_runFor_app {n m : Nat} {f b : Term} {x : String} (a : Term)
    (hending : (runFor none n f).ending = .normal) (hlast : (runFor none n f).last = lam x b)
    (hfinished : (runFor none m (substitute x a b)).isFinished = true) :
    ∃ k contracta,
      runFor none k (app f a) = (runFor none m (substitute x a b)).after contracta := by
  have hnormal : ¬ HasSpineRedex (lam x b) := hlast ▸ not_hasSpineRedex_last hending
  have hstep : (app (lam x b) a).step none = .contract (substitute x a b) (substitute x a b) := by
    rw [step_app_lam ((step_eq_normal_iff none _).mpr hnormal), contractRedex_none]
  -- as many steps as the function side has taken are left for the redex and what comes of it
  have hfunction : runFor none (n + (runFor none n f).contracta.length + 1 + m) f =
      runFor none n f :=
    runFor_of_isFinished (by rw [Run.isFinished, hending]) (by omega)
  have hleft :
      n + (runFor none n f).contracta.length + 1 + m - (runFor none n f).contracta.length
        = n + m + 1 := by
    omega
  have hrest : runFor none (n + m) (substitute x a b) = runFor none m (substitute x a b) :=
    runFor_of_isFinished hfinished (by omega)
  refine ⟨n + (runFor none n f).contracta.length + 1 + m, (runFor none n f).contracta ++
    [substitute x a b], ?_⟩
  rw [runFor_app_of_normal (by rw [hfunction, hending]), hfunction, hlast, hleft,
    runFor_of_contract hstep, hrest, Run.after_cons]

theorem Evaluates.exists_runFor (h : Evaluates t r) :
    ∃ n, (runFor none n t).ending = .normal ∧ (runFor none n t).last = r := by
  induction h with
  | var x => exact ⟨0, by simp [runFor_of_not_hasSpineRedex]⟩
  | lam x _ ih =>
      obtain ⟨n, hending, rfl⟩ := ih
      exact ⟨n, by rw [runFor_lam]; exact ⟨hending, rfl⟩⟩
  | @stuck f f' a hf hlam ih =>
      obtain ⟨n, hending, rfl⟩ := ih
      have hredex : ¬ HasSpineRedex (app (runFor none n f).last a) :=
        (hf.stuck a hlam).not_hasSpineRedex
      refine ⟨n, ?_⟩
      rw [runFor_app_of_normal hending, runFor_of_not_hasSpineRedex none hredex]
      exact ⟨rfl, rfl⟩
  | contract a _ _ ihf ihr =>
      obtain ⟨n, hending, hlast⟩ := ihf
      obtain ⟨m, hm, rfl⟩ := ihr
      obtain ⟨k, contracta, hrun⟩ := exists_runFor_app a hending hlast (by rw [Run.isFinished, hm])
      refine ⟨k, ?_⟩
      rw [hrun]
      exact ⟨hm, rfl⟩

theorem evaluates_iff_runFor :
    Evaluates t r ↔ ∃ n, (runFor none n t).ending = .normal ∧ (runFor none n t).last = r := by
  refine ⟨Evaluates.exists_runFor, ?_⟩
  rintro ⟨n, hending, rfl⟩
  rw [← evaluate_unlimited none 0] at hending ⊢
  exact evaluates_of_evaluate hending

/-! ### Without names -/

open Nameless (SpineSteps SpineStep)

theorem Evaluates.spineSteps_namelessUnder (h : Evaluates t r) (binders : List String) :
    SpineSteps (t.namelessUnder binders) (r.namelessUnder binders) := by
  induction h generalizing binders with
  | var x => exact .refl _
  | lam x _ ih => exact (ih (x :: binders)).lam
  | stuck a _ _ ih => exact (ih binders).function _
  | contract a _ _ ihf ihr =>
      refine ((ihf binders).function _).trans (.trans (.single (.redex _ _)) ?_)
      rw [← namelessUnder_substitute]
      exact ihr binders

theorem Evaluates.not_spineStep (h : Evaluates t r) (v : Nameless) : ¬ SpineStep r.nameless v :=
  Nameless.not_spineStep_of_eq_none (spineStep_nameless_eq_none_iff.mpr h.not_hasSpineRedex) v

/-- A term evaluates to one that is `v` without names if it leads to `v` along the spine, and `v`
has no redex there. -/
theorem exists_evaluates_iff {v : Nameless} :
    (∃ r, Evaluates t r ∧ r.nameless = v) ↔ SpineSteps t.nameless v ∧ ∀ w, ¬ SpineStep v w := by
  constructor
  · rintro ⟨r, h, rfl⟩
    exact ⟨h.spineSteps_namelessUnder [], h.not_spineStep⟩
  · rintro ⟨hsteps, hv⟩
    obtain ⟨n, hn⟩ := Nameless.SpineNormalizes.of_steps hsteps (.normal hv)
    have hr : Evaluates t (runFor none n t).last :=
      evaluates_iff_runFor.mpr ⟨n, ending_runFor_of_spineNormalizes hn, rfl⟩
    -- both are ends of ways from the same term
    have hend := (SpineSteps.iff_of_steps (hr.spineSteps_namelessUnder []) hv).mp hsteps
    rcases Relation.ReflTransGen.cases_head hend with heq | ⟨w, hw, _⟩
    · exact ⟨_, hr, heq⟩
    · exact (hr.not_spineStep w hw).elim

/-- A term that leads to another along the spine has the same results, up to bound names. -/
theorem exists_evaluates_congr (h : SpineSteps t.nameless u.nameless) (v : Nameless) :
    (∃ r, Evaluates t r ∧ r.nameless = v) ↔ ∃ r, Evaluates u r ∧ r.nameless = v := by
  rw [exists_evaluates_iff, exists_evaluates_iff]
  exact and_congr_left fun hv => SpineSteps.iff_of_steps h hv

theorem Evaluates.exists_of_spineSteps (h : SpineSteps t.nameless u.nameless) (hr : Evaluates u r) :
    ∃ r', Evaluates t r' ∧ r'.nameless = r.nameless :=
  (exists_evaluates_congr h r.nameless).mpr ⟨r, hr, rfl⟩

end Tree

/-! ### Sessions -/

namespace Session

open LambdaCalculus.Tree

variable {s : Session Empty} {t u r : Term}

/-- The reduction of a term answers a term, under the limit of the session or with enough fuel. -/
def Answers (s : Session Empty) (t r : Term) : Prop :=
  ∃ (fuel : Nat) (reduction : Reduction Empty), s.reduce fuel t = some reduction ∧
    reduction.result = .ok r

/-- With no limit on its steps and no bound on nested calls, the reduction of a term answers a
term. -/
def Returns (s : Session Empty) (t r : Term) : Prop :=
  ∃ (fuel : Nat) (reduction : Reduction Empty),
    (∀ more, fuel ≤ more →
      { s with limit := none, nesting := none }.reduce more t = some reduction) ∧
      reduction.result = .ok r

/-- With no limit on its steps and no bound on nested calls, the reduction of a term comes to a
number in a name that is too long for the bound on such numbers. -/
def StopsAtNumber (s : Session Empty) (t : Term) : Prop :=
  s.bound ≠ none ∧
    ∃ fuel, Reduction.StopsAtNumber ({ s with limit := none, nesting := none }.reduce fuel t)

theorem Answers.evaluates (h : s.Answers t r) : Evaluates t r := by
  obtain ⟨fuel, reduction, hreduce, hresult⟩ := h
  obtain ⟨hending, hrun, -, rfl⟩ := eq_answer_of_ok hreduce hresult
  rw [hrun] at hending ⊢
  rcases runFor_bound_cases s.bound (stepsAllowed s.limit fuel) t with hsame | ⟨fault, _, hblocked⟩
  · rw [hsame] at hending ⊢
    exact evaluates_iff_runFor.mpr ⟨stepsAllowed s.limit fuel, hending, rfl⟩
  · rw [hblocked] at hending
    contradiction

theorem Returns.answers (h : s.Returns t r) :
    { s with limit := none, nesting := none }.Answers t r := by
  obtain ⟨fuel, reduction, hanswer, hresult⟩ := h
  exact ⟨fuel, reduction, hanswer fuel (Nat.le_refl fuel), hresult⟩

theorem Returns.evaluates (h : s.Returns t r) : Evaluates t r := h.answers.evaluates

theorem returns_of_evaluates (s : Session Empty) (h : Evaluates t r) :
    s.Returns t r ∨ s.StopsAtNumber t := by
  obtain ⟨n, hending, rfl⟩ := h.exists_runFor
  rcases runFor_bound_cases s.bound n t with hsame | ⟨fault, hbound, hblocked⟩
  · left
    have hfinished : (runFor s.bound n t).isFinished = true := by
      rw [hsame, Run.isFinished, hending]
    refine ⟨n, _, fun _ => s.reduce_of_le_fuel hfinished, ?_⟩
    rw [← hsame] at hending ⊢
    exact verdict_of_normal hending
  · right
    have hcourse : { s with limit := none, nesting := none }.course n t = runFor s.bound n t :=
      course_of_nesting_eq_none rfl n t
    rw [← hcourse] at hblocked
    exact ⟨hbound, n, Reduction.stopsAtNumber_of_blocked hblocked⟩

theorem returns_iff_evaluates (h : ¬ s.StopsAtNumber t) (r : Term) :
    s.Returns t r ↔ Evaluates t r := by
  refine ⟨Returns.evaluates, ?_⟩
  intro hr
  exact (s.returns_of_evaluates hr).resolve_right h

end Session

end LambdaCalculus
