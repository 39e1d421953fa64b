import LambdaCalculus.Proofs.Nameless.Parallel

/-!
# Confluence

Whatever redexes are contracted, in whatever order, the terms that this leads to can be brought
together again. A parallel step is always part of the *complete development*, the one that contracts
all redexes that a term has, so two parallel steps from a term meet there; and a parallel step is
some contractions one after the other.

So terms that are connected by contractions and expansions have a term in common to which both lead,
and if both lead to terms without any redex, these are the same.
-/

namespace LambdaCalculus.Nameless

open Relation (ReflTransGen ReflGen Join EqvGen)

/-! ### Complete development -/

/-- Contracts all redexes that a term has, at once. -/
def develop : Nameless → Nameless
  | ref r => ref r
  | lam b => lam b.develop
  | app (lam b) a => b.develop.instantiate a.develop
  | app f a => app f.develop a.develop

theorem Parallel.exists_of_lam {b u : Nameless} (h : Parallel (.lam b) u) :
    ∃ b', u = .lam b' ∧ Parallel b b' := by
  cases h with
  | lam hb => exact ⟨_, rfl, hb⟩

/-- What a parallel step leaves uncontracted can be contracted by another one. -/
theorem Parallel.develop {t u : Nameless} (h : Parallel t u) : Parallel u t.develop := by
  induction h with
  | ref r => exact .ref r
  | lam _ ih => exact .lam ih
  | @app f f' a a' hf _ ihf iha =>
      cases f with
      | lam b =>
          -- the redex is still there, and the development contracts it
          obtain ⟨b', rfl, _⟩ := hf.exists_of_lam
          obtain ⟨c, hc, hb'⟩ := ihf.exists_of_lam
          obtain rfl : b.develop = c := Nameless.lam.inj hc
          exact .redex hb' iha
      | ref r => exact .app ihf iha
      | app g c => exact .app ihf iha
  | redex _ _ ihb iha => exact ihb.bind iha.elim

theorem Parallel.diamond {t u v : Nameless} (hu : Parallel t u) (hv : Parallel t v) :
    ∃ w, Parallel u w ∧ Parallel v w :=
  ⟨t.develop, hu.develop, hv.develop⟩

/-! ### Contractions one after the other -/

theorem betas_lam {b b' : Nameless} (h : ReflTransGen Beta b b') :
    ReflTransGen Beta (lam b) (lam b') :=
  ReflTransGen.lift Nameless.lam (fun _ _ => Beta.lam) _ _ h

theorem betas_app {f f' a a' : Nameless} (hf : ReflTransGen Beta f f')
    (ha : ReflTransGen Beta a a') :
    ReflTransGen Beta (app f a) (app f' a') := by
  have hfunction : ReflTransGen Beta (app f a) (app f' a) :=
    ReflTransGen.lift (Nameless.app · a) (fun _ _ => Beta.function a) _ _ hf
  have hargument : ReflTransGen Beta (app f' a) (app f' a') :=
    ReflTransGen.lift (Nameless.app f') (fun _ _ => Beta.argument f') _ _ ha
  exact hfunction.trans hargument

theorem Parallel.betas {t u : Nameless} (h : Parallel t u) : ReflTransGen Beta t u := by
  induction h with
  | ref r => exact .refl
  | lam _ ih => exact betas_lam ih
  | app _ _ ihf iha => exact betas_app ihf iha
  | redex _ _ ihb iha => exact (betas_app (betas_lam ihb) iha).tail (.redex _ _)

theorem betas_iff_parallels {t u : Nameless} :
    ReflTransGen Beta t u ↔ ReflTransGen Parallel t u := by
  constructor
  · intro h
    exact ReflTransGen.mono (fun _ _ => Beta.parallel) _ _ h
  · intro h
    exact Relation.reflTransGen_closed (fun _ _ => Parallel.betas) _ _ h

/-! ### Common reducts -/

theorem Beta.confluent {t u v : Nameless} (hu : ReflTransGen Beta t u)
    (hv : ReflTransGen Beta t v) :
    Join (ReflTransGen Beta) u v := by
  have hjoin (t u v : Nameless) (hu : Parallel t u) (hv : Parallel t v) :
      ∃ w, ReflGen Parallel u w ∧ ReflTransGen Parallel v w := by
    obtain ⟨w, huw, hvw⟩ := hu.diamond hv
    exact ⟨w, .single huw, .single hvw⟩
  rw [betas_iff_parallels] at hu hv
  obtain ⟨w, huw, hvw⟩ := Relation.church_rosser hjoin hu hv
  exact ⟨w, betas_iff_parallels.mpr huw, betas_iff_parallels.mpr hvw⟩

/-- Terms that are connected by contractions and expansions lead to a common term. -/
theorem join_of_eqvGen {t u : Nameless} (h : EqvGen Beta t u) : Join (ReflTransGen Beta) t u := by
  have hequivalence : Equivalence (Join (ReflTransGen Beta)) :=
    Relation.equivalence_join fun _ _ _ => Beta.confluent
  have hstep (t u : Nameless) (h : Beta t u) : Join (ReflTransGen Beta) t u := ⟨u, .single h, .refl⟩
  exact hequivalence.eqvGen_iff.mp (EqvGen.mono hstep _ _ h)

/-! ### Normal terms -/

/-- Whether a term has no redex at all, be it on the spine or not. -/
def IsNormal (t : Nameless) : Prop := ∀ u, ¬ Beta t u

theorem isNormal_ref (r : Ref) : IsNormal (ref r) := by
  intro u h
  cases h

theorem IsNormal.lam {b : Nameless} (h : IsNormal b) : IsNormal (.lam b) := by
  intro u hstep
  cases hstep with
  | lam hb => exact h _ hb

theorem IsNormal.app_ref {a : Nameless} (h : IsNormal a) (r : Ref) :
    IsNormal (.app (.ref r) a) := by
  intro u hstep
  cases hstep with
  | function _ hf => exact isNormal_ref r _ hf
  | argument _ ha => exact h _ ha

theorem IsNormal.eq_of_betas {t u : Nameless} (h : IsNormal t) (hsteps : ReflTransGen Beta t u) :
    t = u := by
  rcases ReflTransGen.cases_head hsteps with heq | ⟨v, hv, _⟩
  · exact heq
  · exact (h v hv).elim

/-- A term has no more than one normal form, however it is written. -/
theorem IsNormal.eq_of_eqvGen {t u r r' : Nameless} (hr : IsNormal r) (hr' : IsNormal r')
    (h : EqvGen Beta t u)
    (ht : ReflTransGen Beta t r) (hu : ReflTransGen Beta u r') : r = r' := by
  have hrt : EqvGen Beta r t := .symm _ _ (EqvGen.reflTransGen_le_eqvGen _ _ _ ht)
  have hur : EqvGen Beta u r' := EqvGen.reflTransGen_le_eqvGen _ _ _ hu
  obtain ⟨w, hw, hw'⟩ := join_of_eqvGen (.trans _ _ _ hrt (.trans _ _ _ h hur))
  rw [hr.eq_of_betas hw, hr'.eq_of_betas hw']

end LambdaCalculus.Nameless
