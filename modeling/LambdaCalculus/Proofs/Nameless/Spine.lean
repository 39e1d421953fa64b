import LambdaCalculus.Proofs.Nameless.Basic
import Mathlib.Logic.Relation

/-!
# Reduction along the spine

The spine of a term is what can be reached through abstraction bodies and function sides.
`SpineStep` contracts any redex on it, and `spineStep` the deepest one.

No step makes a copy of another redex on the spine, or removes one. So two steps from a term that
differ can be joined by one step on either side, and all ways to a term without a redex on the spine
are equally long: it does not matter which redex is contracted first.
-/

namespace LambdaCalculus.Nameless

inductive SpineStep : Nameless → Nameless → Prop where
  | redex (b a : Nameless) : SpineStep (app (lam b) a) (b.instantiate a)
  | lam {b b' : Nameless} (h : SpineStep b b') : SpineStep (lam b) (lam b')
  | function {f f' : Nameless} (a : Nameless) (h : SpineStep f f') : SpineStep (app f a) (app f' a)

/-- Contracts the deepest redex on the spine, if there is one. -/
def spineStep : Nameless → Option Nameless
  | ref _ => none
  | lam b => b.spineStep.map lam
  | app f a =>
      match f.spineStep with
      | some f' => some (app f' a)
      | none =>
          match f with
          | lam b => some (b.instantiate a)
          | _ => none

theorem SpineStep.of_spineStep {t u : Nameless} (h : t.spineStep = some u) : SpineStep t u := by
  induction t generalizing u with
  | ref r => simp [spineStep] at h
  | lam b ih =>
      simp only [spineStep, Option.map_eq_some_iff] at h
      obtain ⟨b', hb', rfl⟩ := h
      exact .lam (ih hb')
  | app f a ihf _ =>
      simp only [spineStep] at h
      split at h
      · rename_i f' hf'
        simp only [Option.some.injEq] at h
        subst h
        exact .function a (ihf hf')
      · split at h
        · rename_i b _
          simp only [Option.some.injEq] at h
          subst h
          exact .redex b a
        · simp at h

theorem not_spineStep_of_eq_none {t : Nameless} (h : t.spineStep = none) (u : Nameless) :
    ¬ SpineStep t u := by
  intro hstep
  induction hstep with
  | redex b a => simp only [spineStep] at h; split at h <;> simp at h
  | lam _ ih =>
      simp only [spineStep, Option.map_eq_none_iff] at h
      exact ih h
  | function a _ ih =>
      simp only [spineStep] at h
      split at h
      · simp at h
      · rename_i hf
        exact ih hf

/-! ### Substitution -/

theorem SpineStep.bind {t u : Nameless} (h : SpineStep t u) (σ : Ref → Nameless) :
    SpineStep (t.bind σ) (u.bind σ) := by
  induction h generalizing σ with
  | redex b a =>
      rw [bind_instantiate]
      exact .redex _ _
  | lam _ ih => exact .lam (ih _)
  | function a _ ih => exact .function _ (ih σ)

theorem SpineStep.rename {t u : Nameless} (h : SpineStep t u) (ξ : Ref → Ref) :
    SpineStep (t.rename ξ) (u.rename ξ) := by
  rw [rename_eq_bind, rename_eq_bind]
  exact h.bind _

/-! ### The order of steps -/

/-- Two different steps from a term can be joined by one step on either side. -/
theorem SpineStep.diamond {t u v : Nameless} (hu : SpineStep t u) (hv : SpineStep t v) :
    u = v ∨ ∃ w, SpineStep u w ∧ SpineStep v w := by
  induction hu generalizing v with
  | redex b a =>
      cases hv with
      | redex => exact Or.inl rfl
      | function _ hf =>
          cases hf with
          | lam hb => exact Or.inr ⟨_, hb.bind _, .redex _ a⟩
  | lam hb ih =>
      cases hv with
      | lam hb' =>
          rcases ih hb' with rfl | ⟨w, hw, hw'⟩
          · exact Or.inl rfl
          · exact Or.inr ⟨_, .lam hw, .lam hw'⟩
  | function a hf ih =>
      cases hv with
      | redex b _ =>
          cases hf with
          | lam hb => exact Or.inr ⟨_, .redex _ a, hb.bind _⟩
      | function _ hf' =>
          rcases ih hf' with rfl | ⟨w, hw, hw'⟩
          · exact Or.inl rfl
          · exact Or.inr ⟨_, .function a hw, .function a hw'⟩

/-- Some way of contracting redexes on the spine leads to a term without one in this many steps. -/
inductive SpineNormalizes : Nat → Nameless → Prop where
  | normal {t : Nameless} (h : ∀ u, ¬ SpineStep t u) : SpineNormalizes 0 t
  | step {n : Nat} {t u : Nameless} (h : SpineStep t u) (hn : SpineNormalizes n u) :
      SpineNormalizes (n + 1) t

theorem SpineNormalizes.spineStep_eq_none {t : Nameless} (h : SpineNormalizes 0 t) :
    t.spineStep = none := by
  cases h with
  | normal hnormal =>
      cases hstep : t.spineStep with
      | none => rfl
      | some u => exact (hnormal u (.of_spineStep hstep)).elim

/-- Every step brings the end nearer, whichever redex it contracts. -/
theorem SpineNormalizes.of_step {n : Nat} {t u : Nameless} (h : SpineNormalizes n t)
    (hu : SpineStep t u) :
    ∃ m, n = m + 1 ∧ SpineNormalizes m u := by
  induction h generalizing u with
  | normal hnormal => exact (hnormal u hu).elim
  | @step n t v hv hn ih =>
      refine ⟨n, rfl, ?_⟩
      rcases hu.diamond hv with rfl | ⟨w, huw, hvw⟩
      · exact hn
      · obtain ⟨m, rfl, hw⟩ := ih hvw
        exact .step huw hw

theorem SpineNormalizes.of_steps {n : Nat} {t u : Nameless}
    (h : Relation.ReflTransGen SpineStep t u)
    (hn : SpineNormalizes n u) : ∃ m, SpineNormalizes m t := by
  induction h using Relation.ReflTransGen.head_induction_on with
  | refl => exact ⟨n, hn⟩
  | head hstep _ ih =>
      obtain ⟨m, hm⟩ := ih
      exact ⟨m + 1, .step hstep hm⟩

/-! ### Several steps -/

/-- Leads to a term by contractions on the spine, of any redexes there. -/
def SpineSteps : Nameless → Nameless → Prop := Relation.ReflTransGen SpineStep

theorem SpineSteps.refl (t : Nameless) : SpineSteps t t := Relation.ReflTransGen.refl

theorem SpineSteps.single {t u : Nameless} (h : SpineStep t u) : SpineSteps t u :=
  Relation.ReflTransGen.single h

theorem SpineSteps.trans {t u v : Nameless} (h : SpineSteps t u) (h' : SpineSteps u v) :
    SpineSteps t v :=
  Relation.ReflTransGen.trans h h'

theorem SpineSteps.lam {b b' : Nameless} (h : SpineSteps b b') : SpineSteps (lam b) (lam b') :=
  Relation.ReflTransGen.lift Nameless.lam (fun _ _ => SpineStep.lam) _ _ h

theorem SpineSteps.function {f f' : Nameless} (h : SpineSteps f f') (a : Nameless) :
    SpineSteps (app f a) (app f' a) :=
  Relation.ReflTransGen.lift (Nameless.app · a) (fun _ _ => SpineStep.function a) _ _ h

theorem SpineSteps.shift {t u : Nameless} (h : SpineSteps t u) : SpineSteps t.shift u.shift :=
  Relation.ReflTransGen.lift Nameless.shift (fun _ _ hstep => hstep.rename Ref.shift) _ _ h

/-- On the way to a term without a redex on the spine no step is a detour. -/
theorem SpineSteps.iff_of_steps {t u v : Nameless} (h : SpineSteps t u)
    (hv : ∀ w, ¬ SpineStep v w) :
    SpineSteps t v ↔ SpineSteps u v := by
  refine ⟨fun hnormal => ?_, h.trans⟩
  have hjoin (t u v : Nameless) (hu : SpineStep t u) (hv : SpineStep t v) :
      ∃ w, Relation.ReflGen SpineStep u w ∧ SpineSteps v w := by
    rcases hu.diamond hv with rfl | ⟨w, hw, hw'⟩
    · exact ⟨u, .refl, .refl u⟩
    · exact ⟨w, .single hw, .single hw'⟩
  obtain ⟨w, huw, hvw⟩ := Relation.church_rosser hjoin h hnormal
  rcases Relation.ReflTransGen.cases_head hvw with rfl | ⟨w', hw', _⟩
  · exact huw
  · exact (hv w' hw').elim

end LambdaCalculus.Nameless
