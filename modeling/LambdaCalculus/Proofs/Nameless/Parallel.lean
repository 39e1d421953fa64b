import LambdaCalculus.Proofs.Nameless.Spine

/-!
# Steps on the spine come first

`Beta` contracts any redex of a term, `Parallel` any number of those that a term has. A parallel
step can be split into steps on the spine and an *internal* step after them, which contracts redexes
inside of arguments only. An internal step neither makes nor removes a redex on the spine, so a
spine step after it can be taken before it.

So if a term has no redex left on its spine after any contractions whatever, contractions on the
spine alone lead to such a term too.
-/

namespace LambdaCalculus.Nameless

/-- Contracts one redex, anywhere in a term. -/
inductive Beta : Nameless → Nameless → Prop where
  | redex (b a : Nameless) : Beta (app (lam b) a) (b.instantiate a)
  | lam {b b' : Nameless} (h : Beta b b') : Beta (lam b) (lam b')
  | function {f f' : Nameless} (a : Nameless) (h : Beta f f') : Beta (app f a) (app f' a)
  | argument (f : Nameless) {a a' : Nameless} (h : Beta a a') : Beta (app f a) (app f a')

/-- Contracts any number of the redexes of a term at once. -/
inductive Parallel : Nameless → Nameless → Prop where
  | ref (r : Ref) : Parallel (ref r) (ref r)
  | lam {b b' : Nameless} (h : Parallel b b') : Parallel (lam b) (lam b')
  | app {f f' a a' : Nameless} (hf : Parallel f f') (ha : Parallel a a') :
      Parallel (app f a) (app f' a')
  | redex {b b' a a' : Nameless} (hb : Parallel b b') (ha : Parallel a a') :
      Parallel (app (lam b) a) (b'.instantiate a')

/-- Contracts any number of redexes at once, none of them on the spine. -/
inductive Internal : Nameless → Nameless → Prop where
  | ref (r : Ref) : Internal (ref r) (ref r)
  | lam {b b' : Nameless} (h : Internal b b') : Internal (lam b) (lam b')
  | app {f f' a a' : Nameless} (hf : Internal f f') (ha : Parallel a a') :
      Internal (app f a) (app f' a')

theorem Parallel.refl (t : Nameless) : Parallel t t := by
  induction t with
  | ref r => exact .ref r
  | lam _ ih => exact .lam ih
  | app _ _ ihf iha => exact .app ihf iha

theorem Beta.parallel {t u : Nameless} (h : Beta t u) : Parallel t u := by
  induction h with
  | redex b a => exact .redex (.refl b) (.refl a)
  | lam _ ih => exact .lam ih
  | function a _ ih => exact .app ih (.refl a)
  | argument f _ ih => exact .app (.refl f) ih

theorem Internal.parallel {t u : Nameless} (h : Internal t u) : Parallel t u := by
  induction h with
  | ref r => exact .ref r
  | lam _ ih => exact .lam ih
  | app _ ha ih => exact .app ih ha

/-! ### Substitution -/

theorem Parallel.rename {t u : Nameless} (h : Parallel t u) (ξ : Ref → Ref) :
    Parallel (t.rename ξ) (u.rename ξ) := by
  induction h generalizing ξ with
  | ref r => exact .ref _
  | lam _ ih => exact .lam (ih _)
  | app _ _ ihf iha => exact .app (ihf ξ) (iha ξ)
  | @redex b b' a a' _ _ ihb iha =>
      have hlift : Nameless.lift (fun r => .ref (ξ r)) = fun r => .ref (Ref.lift ξ r) :=
        Ref.funext_elim rfl fun r => by simp [Nameless.lift, Ref.lift]
      have hcontractum : (b'.instantiate a').rename ξ =
          (b'.rename (Ref.lift ξ)).instantiate (a'.rename ξ) := by
        simp only [rename_eq_bind, bind_instantiate, hlift]
      rw [hcontractum]
      exact .redex (ihb _) (iha ξ)

theorem Parallel.lift {σ τ : Ref → Nameless} (h : ∀ r, Parallel (σ r) (τ r)) (r : Ref) :
    Parallel (Nameless.lift σ r) (Nameless.lift τ r) := by
  rcases Ref.innermost_or_shift r with rfl | ⟨s, rfl⟩
  · exact .ref _
  · simp only [Nameless.lift, Ref.elim_shift]
    exact (h s).rename _

theorem Parallel.bind {t u : Nameless} (h : Parallel t u) {σ τ : Ref → Nameless}
    (hvalues : ∀ r, Parallel (σ r) (τ r)) : Parallel (t.bind σ) (u.bind τ) := by
  induction h generalizing σ τ with
  | ref r => exact hvalues r
  | lam _ ih => exact .lam (ih (Parallel.lift hvalues))
  | app _ _ ihf iha => exact .app (ihf hvalues) (iha hvalues)
  | redex _ _ ihb iha =>
      rw [bind_instantiate]
      exact .redex (ihb (Parallel.lift hvalues)) (iha hvalues)

theorem Parallel.elim {a a' : Nameless} (h : Parallel a a') (r : Ref) :
    Parallel (Ref.elim a .ref r) (Ref.elim a' .ref r) := by
  rcases Ref.innermost_or_shift r with rfl | ⟨s, rfl⟩
  · exact h
  · simp only [Ref.elim_shift]
    exact .refl _

/-! ### Splitting a parallel step -/

/-- Leads to a term by steps on the spine and one internal step after them. -/
def SpineFirst (t u : Nameless) : Prop := ∃ s, Relation.ReflTransGen SpineStep t s ∧ Internal s u

theorem SpineFirst.lam {b b' : Nameless} (h : SpineFirst b b') : SpineFirst (lam b) (lam b') := by
  obtain ⟨s, hs, hb'⟩ := h
  exact ⟨.lam s, hs.lift Nameless.lam fun _ _ => .lam, .lam hb'⟩

theorem SpineFirst.app {f f' a a' : Nameless} (h : SpineFirst f f') (ha : Parallel a a') :
    SpineFirst (app f a) (app f' a') := by
  obtain ⟨s, hs, hf'⟩ := h
  exact ⟨.app s a, hs.lift (Nameless.app · a) fun _ _ => .function a, .app hf' ha⟩

theorem SpineFirst.of_steps {t u v : Nameless} (h : Relation.ReflTransGen SpineStep t u)
    (hv : SpineFirst u v) :
    SpineFirst t v := by
  obtain ⟨s, hs, hsv⟩ := hv
  exact ⟨s, h.trans hs, hsv⟩

theorem Internal.rename {t u : Nameless} (h : Internal t u) (ξ : Ref → Ref) :
    Internal (t.rename ξ) (u.rename ξ) := by
  induction h generalizing ξ with
  | ref r => exact .ref _
  | lam _ ih => exact .lam (ih _)
  | app _ ha ih => exact .app (ih ξ) (ha.rename ξ)

theorem SpineFirst.rename {t u : Nameless} (h : SpineFirst t u) (ξ : Ref → Ref) :
    SpineFirst (t.rename ξ) (u.rename ξ) := by
  obtain ⟨s, hs, hsu⟩ := h
  exact ⟨s.rename ξ, hs.lift (Nameless.rename ξ) fun _ _ hstep => hstep.rename ξ, hsu.rename ξ⟩

/-- An internal step followed by a substitution splits: only the value at the end of the spine can
bring redexes there. -/
theorem Internal.bind {t u : Nameless} (h : Internal t u) {σ τ : Ref → Nameless}
    (hvalues : ∀ r, Parallel (σ r) (τ r)) (hfirst : ∀ r, SpineFirst (σ r) (τ r)) :
    SpineFirst (t.bind σ) (u.bind τ) := by
  induction h generalizing σ τ with
  | ref r => exact hfirst r
  | lam _ ih =>
      apply SpineFirst.lam
      apply ih (Parallel.lift hvalues)
      intro r
      rcases Ref.innermost_or_shift r with rfl | ⟨s, rfl⟩
      · exact ⟨_, .refl, .ref _⟩
      · simp only [Nameless.lift, Ref.elim_shift]
        exact (hfirst s).rename _
  | app _ ha ih => exact (ih hvalues hfirst).app (ha.bind hvalues)

theorem Parallel.spineFirst {t u : Nameless} (h : Parallel t u) : SpineFirst t u := by
  induction h with
  | ref r => exact ⟨_, .refl, .ref r⟩
  | lam _ ih => exact ih.lam
  | app _ ha ihf _ => exact ihf.app ha
  | @redex b b' a a' _ ha ihb iha =>
      obtain ⟨s, hs, hsb'⟩ := ihb
      have hcontract : Relation.ReflTransGen SpineStep (.app (.lam b) a) (b.instantiate a) :=
        .single (.redex b a)
      have hbody : Relation.ReflTransGen SpineStep (b.instantiate a) (s.instantiate a) :=
        hs.lift (Nameless.instantiate · a) fun _ _ hstep => hstep.bind _
      apply SpineFirst.of_steps (hcontract.trans hbody)
      apply hsb'.bind ha.elim
      intro r
      rcases Ref.innermost_or_shift r with rfl | ⟨q, rfl⟩
      · exact iha
      · simp only [Ref.elim_shift]
        exact ⟨_, .refl, .ref q⟩

/-! ### Internal steps and the spine -/

/-- An internal step removes no redex from the spine. -/
theorem Internal.exists_spineStep {t u : Nameless} (h : Internal t u) {t' : Nameless}
    (ht : SpineStep t t') :
    ∃ u', SpineStep u u' := by
  induction ht generalizing u with
  | redex b a =>
      cases h with
      | app hf _ =>
          cases hf with
          | lam _ => exact ⟨_, .redex _ _⟩
  | lam _ ih =>
      cases h with
      | lam hb =>
          obtain ⟨b', hb'⟩ := ih hb
          exact ⟨_, .lam hb'⟩
  | function a _ ih =>
      cases h with
      | app hf _ =>
          obtain ⟨f', hf'⟩ := ih hf
          exact ⟨_, .function _ hf'⟩

theorem Internal.spineStep_first {t u v : Nameless} (h : Internal t u) (hu : SpineStep u v) :
    ∃ t', SpineStep t t' ∧ Parallel t' v := by
  induction hu generalizing t with
  | redex b a =>
      cases h with
      | app hf ha =>
          cases hf with
          | lam hb => exact ⟨_, .redex _ _, hb.parallel.bind ha.elim⟩
  | lam _ ih =>
      cases h with
      | lam hb =>
          obtain ⟨s, hs, hsb'⟩ := ih hb
          exact ⟨_, .lam hs, .lam hsb'⟩
  | function a _ ih =>
      cases h with
      | app hf ha =>
          obtain ⟨s, hs, hsf'⟩ := ih hf
          exact ⟨_, .function _ hs, .app hsf' ha⟩

/-! ### Normalization -/

theorem Parallel.spineNormalizes {n : Nat} {t u : Nameless} (hn : SpineNormalizes n u)
    (h : Parallel t u) :
    ∃ m, SpineNormalizes m t := by
  induction hn generalizing t with
  | normal hnormal =>
      obtain ⟨s, hs, hsu⟩ := h.spineFirst
      have hsnormal : ∀ s', ¬ SpineStep s s' := by
        intro s' hs'
        obtain ⟨u', hu'⟩ := hsu.exists_spineStep hs'
        exact hnormal u' hu'
      exact SpineNormalizes.of_steps hs (.normal hsnormal)
  | step hstep _ ih =>
      obtain ⟨s, hs, hsu⟩ := h.spineFirst
      obtain ⟨s', hs', hpar⟩ := hsu.spineStep_first hstep
      obtain ⟨m, hm⟩ := ih hpar
      exact SpineNormalizes.of_steps hs (.step hs' hm)

/-- If contractions of any redexes lead to a term from which the spine can be normalized, it can be
normalized at once. -/
theorem Beta.spineNormalizes {t u : Nameless} (h : Relation.ReflTransGen Beta t u) {n : Nat}
    (hn : SpineNormalizes n u) : ∃ m, SpineNormalizes m t := by
  induction h using Relation.ReflTransGen.head_induction_on with
  | refl => exact ⟨n, hn⟩
  | head hstep _ ih =>
      obtain ⟨m, hm⟩ := ih
      exact hstep.parallel.spineNormalizes hm

end LambdaCalculus.Nameless
