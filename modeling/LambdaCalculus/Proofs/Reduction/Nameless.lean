import LambdaCalculus.Proofs.Nameless.Alpha
import LambdaCalculus.Proofs.Nameless.Spine
import LambdaCalculus.Proofs.Nameless.Substitution
import LambdaCalculus.Proofs.Reduction.Stepwise

/-!
# Steps and runs without names

A step on a term is the step on the same term without the names of its bound variables. So what a
run comes to depends on the names of bound variables only as far as these names reappear in its
terms, and how long it is does not depend on them at all.

A bound on the numbers in names can stop a run, but it changes nothing else: a run under a bound is
the run without one or is blocked by a number that is too long.
-/

namespace LambdaCalculus.Tree

/-! ### The bound on numbers in names -/

theorem contractRedex_none (x : String) (b a : Term) :
    contractRedex none x b a = .contract (substitute x a b) (substitute x a b) := by
  rw [contractRedex, obstacle_term]

/-- A step on a term of the calculus is the one without a bound, or is blocked by a number that is
too long. -/
theorem step_bound_cases (bound : Name.Bound) (t : Term) :
    t.step bound = t.step none ∨ ∃ fault, bound ≠ none ∧
    t.step bound = .blocked (.number fault) := by
  rcases step_cases t with ⟨_, hstep⟩ | ⟨C, x, b, a, rfl, _, hstep⟩
  · exact Or.inl (by rw [hstep, hstep])
  · rw [hstep, hstep, contractRedex_none, contractRedex]
    cases hobstacle : obstacle bound x a b with
    | none => exact Or.inl rfl
    | some o =>
        cases o with
        | foreign v _ => exact v.elim
        | number fault =>
            refine Or.inr ⟨fault, ?_, rfl⟩
            rintro rfl
            simp [obstacle_term] at hobstacle

theorem step_none_ne_blocked (t : Term) (o : Obstacle Empty) : t.step none ≠ .blocked o := by
  rcases step_cases t with ⟨_, hstep⟩ | ⟨C, x, b, a, rfl, _, hstep⟩
  · simp [hstep]
  · simp [hstep, contractRedex_none, Step.within]

/-- A run under a bound is the one without, or is blocked by a number that is too long. -/
theorem runFor_bound_cases (bound : Name.Bound) (n : Nat) (t : Term) :
    runFor bound n t = runFor none n t
      ∨ ∃ fault, bound ≠ none ∧ (runFor bound n t).ending = .blocked (.number fault) := by
  induction n, t using runFor_induction none with
  | normal n t hredex hrun => exact Or.inl (by rw [hrun, runFor_of_not_hasSpineRedex bound hredex])
  | unfinished t hredex hrun =>
      exact Or.inl (by rw [hrun, runFor_zero_of_hasSpineRedex bound hredex])
  | blocked n t o hstep _ => exact (step_none_ne_blocked t o hstep).elim
  | contract n t contractum whole hstep hrun ih =>
      rcases step_bound_cases bound t with hsame | ⟨fault, hbound, hblocked⟩
      · rw [hstep] at hsame
        rw [hrun, runFor_of_contract hsame]
        exact ih.imp_left (congrArg (Run.cons contractum))
      · exact Or.inr ⟨fault, hbound, by rw [runFor_of_blocked hblocked]⟩

/-! ### Steps -/

/-- A step commutes with leaving out the names of bound variables. -/
theorem spineStep_namelessUnder (binders : List String) (t : Term) :
    (t.namelessUnder binders).spineStep =
      match t.step none with
      | .contract _ whole => some (whole.namelessUnder binders)
      | _ => none := by
  induction t generalizing binders with
  | var x => rfl
  | lam x b ih =>
      simp only [namelessUnder, Nameless.spineStep, ih, step]
      cases b.step none <;> rfl
  | app f a ihf _ =>
      simp only [namelessUnder, Nameless.spineStep, ihf]
      cases hstep : f.step none with
      | normal =>
          cases f with
          | lam x b =>
              rw [step_app_lam hstep, contractRedex_none]
              simp only [namelessUnder, namelessUnder_substitute]
          | foreign v => exact v.elim
          | _ =>
              rw [step_app_of_normal hstep (by simp)]
              rfl
      | contract contractum whole =>
          rw [step_app_of_contract hstep]
          rfl
      | blocked o => exact (step_none_ne_blocked f o hstep).elim
  | foreign v => exact v.elim

theorem spineStep_nameless_of_contract {t contractum whole : Term}
    (h : t.step none = .contract contractum whole) :
    t.nameless.spineStep = some whole.nameless := by
  rw [nameless, spineStep_namelessUnder, h]
  rfl

theorem spineStep_nameless_eq_none_iff {t : Term} :
    t.nameless.spineStep = none ↔ ¬ HasSpineRedex t := by
  rw [nameless, spineStep_namelessUnder, ← step_eq_normal_iff none]
  cases hstep : t.step none with
  | normal => simp
  | contract contractum whole => simp
  | blocked o => exact (step_none_ne_blocked t o hstep).elim

theorem ending_runFor_none_ne_blocked (n : Nat) (t : Term) (o : Obstacle Empty) :
    (runFor none n t).ending ≠ .blocked o := by
  induction n, t using runFor_induction none with
  | normal n t _ hrun => simp [hrun]
  | unfinished t _ hrun => simp [hrun]
  | blocked n t o' hstep _ => exact (step_none_ne_blocked t o' hstep).elim
  | contract n t contractum whole _ hrun ih =>
      rw [hrun]
      exact ih

/-- A run of as many steps as some contractions on the spine take to a term without a redex there
ends in such a term. -/
theorem ending_runFor_of_spineNormalizes {n : Nat} {t : Term} (h : t.nameless.SpineNormalizes n) :
    (runFor none n t).ending = .normal := by
  induction n, t using runFor_induction none with
  | normal n t _ hrun => rw [hrun]
  | unfinished t hredex hrun =>
      exact (spineStep_nameless_eq_none_iff.mp h.spineStep_eq_none hredex).elim
  | blocked n t o hstep _ => exact (step_none_ne_blocked t o hstep).elim
  | contract n t contractum whole hstep hrun ih =>
      have hspine := Nameless.SpineStep.of_spineStep (spineStep_nameless_of_contract hstep)
      obtain ⟨m, hm, hwhole⟩ := h.of_step hspine
      obtain rfl : n = m := Nat.succ.inj hm
      rw [hrun]
      exact ih hwhole

end LambdaCalculus.Tree
