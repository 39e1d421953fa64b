import LambdaCalculus.Term.Free
import LambdaCalculus.Proofs.Nameless.Basic

/-!
# From names to references

`Tree.namelessUnder binders t` is the term `t` below the given binders, innermost first, without the
names of its bound variables; `Tree.nameless t` is that of a term on its own.

A translation looks a name up among the binders that it has passed. `Tree.interpret` takes any
nameless term for each name instead, and so is a translation and a substitution in one. It looks at
the free names only, and commutes with what is done to the references of its values.
-/

namespace LambdaCalculus

/-- What a name refers to below binders, innermost first. The innermost binder of a name wins. -/
def Ref.ofName : List String → String → Ref
  | [], x => free x
  | y :: binders, x => if x = y then bound 0 else (ofName binders x).shift

namespace Tree

/-- A term below binders, innermost first, without the names of its bound variables. -/
def namelessUnder (binders : List String) : Term → Nameless
  | var x => .ref (.ofName binders x)
  | lam x b => .lam (namelessUnder (x :: binders) b)
  | app f a => .app (namelessUnder binders f) (namelessUnder binders a)
  | foreign v => nomatch v

def nameless (t : Term) : Nameless := namelessUnder [] t

theorem exists_var_of_namelessUnder {binders : List String} {t : Term} {r : Ref}
    (h : t.namelessUnder binders = .ref r) : ∃ x, t = var x ∧ Ref.ofName binders x = r := by
  cases t with
  | var x => exact ⟨x, rfl, Nameless.ref.inj h⟩
  | foreign v => exact v.elim
  | _ => simp [namelessUnder] at h

theorem exists_lam_of_namelessUnder {binders : List String} {t : Term} {b : Nameless}
    (h : t.namelessUnder binders = .lam b) :
    ∃ x c, t = lam x c ∧ c.namelessUnder (x :: binders) = b := by
  cases t with
  | lam x c => exact ⟨x, c, rfl, Nameless.lam.inj h⟩
  | foreign v => exact v.elim
  | _ => simp [namelessUnder] at h

theorem exists_app_of_namelessUnder {binders : List String} {t : Term} {f a : Nameless}
    (h : t.namelessUnder binders = .app f a) :
    ∃ g c, t = app g c ∧ g.namelessUnder binders = f ∧ c.namelessUnder binders = a := by
  cases t with
  | app g c => exact ⟨g, c, rfl, (Nameless.app.inj h).1, (Nameless.app.inj h).2⟩
  | foreign v => exact v.elim
  | _ => simp [namelessUnder] at h

/-! ### Interpretation -/

/-- The values of the names, below a binder more. -/
def under (x : String) (σ : String → Nameless) : String → Nameless :=
  fun y => if y = x then .ref (.bound 0) else (σ y).shift

/-- A term with nameless terms in place of its free names, and without the names of its bound
variables. -/
def interpret (σ : String → Nameless) : Term → Nameless
  | var x => σ x
  | lam x b => .lam (interpret (under x σ) b)
  | app f a => .app (interpret σ f) (interpret σ a)
  | foreign v => nomatch v

theorem under_ref_ofName (x : String) (binders : List String) :
    under x (fun y => .ref (.ofName binders y)) = fun y => .ref (.ofName (x :: binders) y) := by
  funext y
  by_cases hy : y = x <;> simp [under, Ref.ofName, hy]

theorem namelessUnder_eq_interpret (binders : List String) (t : Term) :
    t.namelessUnder binders = t.interpret fun x => .ref (.ofName binders x) := by
  induction t generalizing binders with
  | var x => rfl
  | lam x b ih => simp only [namelessUnder, interpret, ih, under_ref_ofName]
  | app f a ihf iha => simp only [namelessUnder, interpret, ihf, iha]
  | foreign v => exact v.elim

theorem nameless_eq_interpret (t : Term) : t.nameless = t.interpret fun y => .ref (.free y) :=
  namelessUnder_eq_interpret [] t

theorem interpret_congr {σ τ : String → Nameless} {t : Term} (h : ∀ x ∈ t.freeNames, σ x = τ x) :
    t.interpret σ = t.interpret τ := by
  induction t generalizing σ τ with
  | var x => exact h x (by simp)
  | lam x b ih =>
      simp only [interpret]
      congr 1
      apply ih
      intro y hy
      by_cases hyx : y = x
      · simp only [under, if_pos hyx]
      · simp only [under, if_neg hyx, h y (mem_freeNames_lam.mpr ⟨hy, hyx⟩)]
  | app f a ihf iha =>
      simp only [interpret]
      rw [ihf fun y hy => h y (mem_freeNames_app.mpr (Or.inl hy)),
        iha fun y hy => h y (mem_freeNames_app.mpr (Or.inr hy))]
  | foreign v => exact v.elim

theorem bind_interpret (σ : String → Nameless) (τ : Ref → Nameless) (t : Term) :
    (t.interpret σ).bind τ = t.interpret fun x => (σ x).bind τ := by
  induction t generalizing σ τ with
  | var x => rfl
  | lam x b ih =>
      have hunder : (fun y => (under x σ y).bind (Nameless.lift τ)) = under x fun y =>
        (σ y).bind τ := by
        funext y
        by_cases hy : y = x
        · simp only [under, if_pos hy]; rfl
        · simp only [under, if_neg hy, Nameless.bind_lift_shift]
      simp only [interpret, Nameless.bind, ih, hunder]
  | app f a ihf iha => simp only [interpret, Nameless.bind, ihf, iha]
  | foreign v => exact v.elim

theorem shift_interpret (σ : String → Nameless) (t : Term) :
    (t.interpret σ).shift = t.interpret fun x => (σ x).shift := by
  simp only [Nameless.shift, Nameless.rename_eq_bind, bind_interpret]

theorem interpret_under_of_not_mem {x : String} {t : Term} (h : x ∉ t.freeNames)
    (σ : String → Nameless) :
    t.interpret (under x σ) = (t.interpret σ).shift := by
  rw [shift_interpret]
  apply interpret_congr
  intro y hy
  have hyx : y ≠ x := by
    rintro rfl
    exact h hy
  simp only [under, if_neg hyx]

end Tree

end LambdaCalculus
