import LambdaCalculus.Reduction.Step

/-!
# The spine of a term

A `SpineContext` is a way down the spine of a term: through abstraction bodies and function sides,
to a hole. A term has a redex on its spine if it is a redex in the hole of such a context.

`step_cases` says all that a step can do. Either there is no redex on the spine, or the step is that
of one redex in its context, and then the function side of this redex has no redex on its own spine:
the redex is the deepest one. A term of the calculus without a redex on its spine is a head normal
form.
-/

namespace LambdaCalculus

variable {α : Type}

/-- A way down the spine of a term to a hole. -/
inductive SpineContext (α : Type) where
  | hole
  | lam (name : String) (inner : SpineContext α)
  | function (inner : SpineContext α) (argument : Tree α)

def SpineContext.fill : SpineContext α → Tree α → Tree α
  | hole, t => t
  | lam x C, t => .lam x (C.fill t)
  | function C a, t => .app (C.fill t) a

namespace Tree

/-! ### Redexes on the spine -/

def HasSpineRedex (t : Tree α) : Prop :=
  ∃ (C : SpineContext α) (x : String) (b a : Tree α), t = C.fill (app (lam x b) a)

@[simp] theorem not_hasSpineRedex_var (x : String) : ¬ HasSpineRedex (var x : Tree α) := by
  rintro ⟨C, y, b, a, h⟩
  cases C <;> simp [SpineContext.fill] at h

@[simp] theorem not_hasSpineRedex_foreign (v : α) : ¬ HasSpineRedex (foreign v) := by
  rintro ⟨C, y, b, a, h⟩
  cases C <;> simp [SpineContext.fill] at h

@[simp] theorem hasSpineRedex_lam {x : String} {b : Tree α} :
    HasSpineRedex (lam x b) ↔ HasSpineRedex b := by
  constructor
  · rintro ⟨C, y, c, a, h⟩
    cases C with
    | lam _ C =>
        simp only [SpineContext.fill, lam.injEq] at h
        exact ⟨C, y, c, a, h.2⟩
    | _ => simp [SpineContext.fill] at h
  · rintro ⟨C, y, c, a, rfl⟩
    exact ⟨.lam x C, y, c, a, rfl⟩

@[simp] theorem hasSpineRedex_app {f a : Tree α} :
    HasSpineRedex (app f a) ↔ HasSpineRedex f ∨ ∃ x b, f = lam x b := by
  constructor
  · rintro ⟨C, y, c, d, h⟩
    cases C with
    | hole =>
        simp only [SpineContext.fill, app.injEq] at h
        exact Or.inr ⟨y, c, h.1⟩
    | function C _ =>
        simp only [SpineContext.fill, app.injEq] at h
        exact Or.inl ⟨C, y, c, d, h.1⟩
    | lam _ _ => simp [SpineContext.fill] at h
  · rintro (⟨C, y, c, d, rfl⟩ | ⟨x, b, rfl⟩)
    · exact ⟨.function C a, y, c, d, rfl⟩
    · exact ⟨.hole, x, b, a, rfl⟩

/-! ### Head normal forms -/

/-- A term below abstractions, the first name outermost. -/
def abstractAll (names : List String) (body : Tree α) : Tree α := names.foldr lam body

/-- Whether a term is a variable that is applied to arguments of any form, below any number of
abstractions. -/
def IsHeadNormal (t : Tree α) : Prop :=
  ∃ (names : List String) (head : String) (arguments : List (Tree α)),
    t = abstractAll names ((var head).applyAll arguments)

theorem applyAll_concat (f : Tree α) (arguments : List (Tree α)) (a : Tree α) :
    f.applyAll (arguments ++ [a]) = app (f.applyAll arguments) a := by
  simp only [applyAll, List.foldl_append, List.foldl_cons, List.foldl_nil]

theorem not_hasSpineRedex_applyAll {f : Tree α} (hf : ¬ HasSpineRedex f) (hlam : ∀ x b, f ≠ lam x b)
    (arguments : List (Tree α)) : ¬ HasSpineRedex (f.applyAll arguments) := by
  induction arguments generalizing f with
  | nil => exact hf
  | cons a arguments ih =>
      refine ih ?_ (by simp)
      rw [hasSpineRedex_app]
      rintro (hredex | ⟨x, b, heq⟩)
      · exact hf hredex
      · exact hlam x b heq

theorem IsHeadNormal.not_hasSpineRedex {t : Tree α} (h : t.IsHeadNormal) : ¬ HasSpineRedex t := by
  obtain ⟨names, head, arguments, rfl⟩ := h
  induction names with
  | nil => exact not_hasSpineRedex_applyAll (by simp) (by simp) arguments
  | cons x names ih => simpa [abstractAll] using ih

theorem isHeadNormal_of_not_hasSpineRedex {t : Term} (h : ¬ HasSpineRedex t) : t.IsHeadNormal := by
  induction t with
  | var x => exact ⟨[], x, [], rfl⟩
  | lam x b ih =>
      rw [hasSpineRedex_lam] at h
      obtain ⟨names, head, arguments, rfl⟩ := ih h
      exact ⟨x :: names, head, arguments, rfl⟩
  | app f a ihf _ =>
      rw [hasSpineRedex_app, not_or] at h
      obtain ⟨hf, hlam⟩ := h
      obtain ⟨names, head, arguments, rfl⟩ := ihf hf
      cases names with
      | nil => exact ⟨[], head, arguments ++ [a], (applyAll_concat _ arguments a).symm⟩
      | cons x names => exact (hlam ⟨x, _, rfl⟩).elim
  | foreign v => exact v.elim

/-! ### What a step does -/

theorem Step.within_within (outer inner : Tree α → Tree α) (s : Step α) :
    (s.within inner).within outer = s.within fun t => outer (inner t) := by
  cases s <;> rfl

theorem Step.within_hole (s : Step α) : s.within SpineContext.hole.fill = s := by
  cases s <;> rfl

theorem step_app_lam {bound : Name.Bound} {x : String} {b : Tree α}
    (h : (lam x b).step bound = .normal)
    (a : Tree α) : (app (lam x b) a).step bound = contractRedex bound x b a := by
  rw [step, h]

theorem step_app_of_normal {bound : Name.Bound} {f : Tree α} (h : f.step bound = .normal)
    (hlam : ∀ x b, f ≠ lam x b) (a : Tree α) : (app f a).step bound = .normal := by
  rw [step, h]
  exact hlam

theorem step_app_of_ne_normal {bound : Name.Bound} {f : Tree α} (h : f.step bound ≠ .normal)
    (a : Tree α) :
    (app f a).step bound = (f.step bound).within (app · a) := by
  conv => lhs; unfold step
  cases hf : f.step bound with
  | normal => exact (h hf).elim
  | _ => rfl

theorem step_app_of_contract {bound : Name.Bound} {f contractum whole : Tree α}
    (h : f.step bound = .contract contractum whole) (a : Tree α) :
    (app f a).step bound = .contract contractum (app whole a) := by
  rw [step_app_of_ne_normal (by simp [h]), h]
  rfl

theorem contractRedex_ne_normal (bound : Name.Bound) (x : String) (b a : Tree α)
    (surround : Tree α → Tree α) :
    (contractRedex bound x b a).within surround ≠ .normal := by
  unfold contractRedex
  split <;> simp [Step.within]

/-- The step of a redex whose function side has none is the step of all that is around it. -/
theorem step_fill (bound : Name.Bound) (C : SpineContext α) {x : String} {b : Tree α}
    (h : (lam x b).step bound = .normal) (a : Tree α) :
    (C.fill (app (lam x b) a)).step bound = (contractRedex bound x b a).within C.fill := by
  induction C with
  | hole => rw [Step.within_hole, SpineContext.fill, step_app_lam h]
  | lam y C ih =>
      rw [SpineContext.fill, step, ih, Step.within_within]
      rfl
  | function C c ih =>
      have hne : (C.fill (app (lam x b) a)).step bound ≠ .normal := by
        rw [ih]
        exact contractRedex_ne_normal bound x b a C.fill
      rw [SpineContext.fill, step_app_of_ne_normal hne, ih, Step.within_within]
      rfl

/-- A step finds no redex on the spine, or it is the step of the deepest one. Which of them does not
depend on the bound. -/
theorem step_cases (t : Tree α) :
    (¬ HasSpineRedex t ∧ ∀ bound, t.step bound = .normal) ∨
      ∃ (C : SpineContext α) (x : String) (b a : Tree α),
        t = C.fill (app (lam x b) a) ∧ ¬ HasSpineRedex (lam x b) ∧
          ∀ bound, t.step bound = (contractRedex bound x b a).within C.fill := by
  induction t with
  | var x => exact Or.inl ⟨not_hasSpineRedex_var x, fun _ => rfl⟩
  | foreign v => exact Or.inl ⟨not_hasSpineRedex_foreign v, fun _ => rfl⟩
  | lam x b ih =>
      rcases ih with ⟨hredex, hstep⟩ | ⟨C, y, c, a, rfl, hdeepest, hstep⟩
      · refine Or.inl ⟨by simpa using hredex, ?_⟩
        intro bound
        rw [step, hstep]
        rfl
      · refine Or.inr ⟨.lam x C, y, c, a, rfl, hdeepest, ?_⟩
        intro bound
        rw [step, hstep, Step.within_within]
        rfl
  | app f a ihf _ =>
      rcases ihf with ⟨hredex, hstep⟩ | ⟨C, y, c, d, rfl, hdeepest, hstep⟩
      · by_cases hlam : ∃ x b, f = lam x b
        · obtain ⟨x, b, rfl⟩ := hlam
          refine Or.inr ⟨.hole, x, b, a, rfl, hredex, ?_⟩
          intro bound
          rw [step_app_lam (hstep bound), Step.within_hole]
        · left
          constructor
          · rw [hasSpineRedex_app, not_or]
            exact ⟨hredex, hlam⟩
          · intro bound
            apply step_app_of_normal (hstep bound)
            intro x b heq
            exact hlam ⟨x, b, heq⟩
      · refine Or.inr ⟨.function C a, y, c, d, rfl, hdeepest, ?_⟩
        intro bound
        have hnormal : (C.fill (app (lam y c) d)).step bound ≠ .normal := by
          rw [hstep]
          exact contractRedex_ne_normal bound y c d C.fill
        rw [step_app_of_ne_normal hnormal, hstep, Step.within_within]
        rfl

theorem step_eq_normal_iff (bound : Name.Bound) (t : Tree α) :
    t.step bound = .normal ↔ ¬ HasSpineRedex t := by
  rcases step_cases t with ⟨hredex, hstep⟩ | ⟨C, x, b, a, rfl, _, hstep⟩
  · simp [hstep, hredex]
  · have hnormal := contractRedex_ne_normal bound x b a C.fill
    rw [hstep]
    apply iff_of_false hnormal
    intro hredex
    exact hredex ⟨C, x, b, a, rfl⟩

theorem isNormal_iff (t : Tree α) : t.isNormal = true ↔ ¬ HasSpineRedex t := by
  rw [← step_eq_normal_iff none, isNormal]
  cases t.step none <;> simp

end Tree

end LambdaCalculus
