import LambdaCalculus.Proofs.Nameless.Substitution

/-!
# Substitution and names

What substitution does to the names in a term. At an abstraction that does not bind the name that is
replaced, it comes to a binder that captures nothing, and goes on below it. Nothing at all happens,
not even to bound names, if a closed term is to replace a name that is not free.
-/

namespace LambdaCalculus.Tree

/-! ### Below a binder -/

theorem substitute_var_self (x : String) (M : Term) : substitute x (var x) M = M := by
  induction M with
  | var y =>
      rw [substitute_var]
      split
      · rename_i hyx
        rw [hyx]
      · rfl
  | lam y b ih =>
      rw [substitute_lam, ih]
      by_cases hyx : y = x
      · rw [if_pos hyx]
      · rw [if_neg hyx, if_neg (by simpa using hyx)]
  | app f a ihf iha => rw [substitute_app, ihf, iha]
  | foreign v => exact v.elim

/-- The binder of an abstraction gets a name that captures nothing, which may be the one that it
has. -/
theorem exists_substitute_lam {x y : String} (hyx : y ≠ x) (N b : Term) :
    ∃ z, z ∉ N.freeNames ∧ z ≠ x ∧
      substitute x N (lam y b) = lam z (substitute x N (substitute y (var z) b)) := by
  rw [substitute_lam, if_neg hyx]
  by_cases hyN : y ∈ N.freeNames
  · obtain ⟨hzN, _, hzx⟩ := binderFor_not_mem_freeNames x N y b
    exact ⟨_, hzN, hzx, by rw [if_pos hyN]⟩
  · exact ⟨y, hyN, hyx, by rw [if_neg hyN, substitute_var_self]⟩

/-! ### Closed terms -/

def IsClosed (t : Term) : Prop := t.freeNames = []

instance (t : Term) : Decidable t.IsClosed := inferInstanceAs (Decidable (t.freeNames = []))

theorem isClosed_iff {t : Term} : t.IsClosed ↔ ∀ x, x ∉ t.freeNames :=
  List.eq_nil_iff_forall_not_mem

theorem IsClosed.not_mem {t : Term} (h : t.IsClosed) (x : String) : x ∉ t.freeNames :=
  isClosed_iff.mp h x

theorem IsClosed.applyAll {f : Term} {arguments : List Term} (hf : f.IsClosed)
    (h : ∀ a ∈ arguments, a.IsClosed) :
    (f.applyAll arguments).IsClosed := by
  induction arguments generalizing f with
  | nil => exact hf
  | cons a rest ih =>
      have happ : (app f a).IsClosed := by
        rw [isClosed_iff]
        intro x hx
        rcases mem_freeNames_app.mp hx with hx | hx
        · exact hf.not_mem x hx
        · exact (h a (List.mem_cons_self ..)).not_mem x hx
      exact ih happ fun b hb => h b (List.mem_cons_of_mem a hb)

/-- Substituting a closed term for a name that is not free does not even change bound names. -/
theorem substitute_of_not_mem {x : String} {N M : Term} (hN : N.IsClosed) (hx : x ∉ M.freeNames) :
    substitute x N M = M := by
  induction M with
  | var y =>
      have hyx : y ≠ x := by
        rintro rfl
        exact hx (mem_freeNames_var.mpr rfl)
      rw [substitute_var, if_neg hyx]
  | lam y b ih =>
      rw [substitute_lam, if_neg (hN.not_mem y)]
      by_cases hyx : y = x
      · rw [if_pos hyx]
      · have hb : x ∉ b.freeNames := fun hb => hx (mem_freeNames_lam.mpr ⟨hb, Ne.symm hyx⟩)
        rw [if_neg hyx, ih hb]
  | app f a ihf iha =>
      rw [mem_freeNames_app, not_or] at hx
      rw [substitute_app, ihf hx.1, iha hx.2]
  | foreign v => exact v.elim

theorem IsClosed.substitute_eq {N M : Term} (hM : M.IsClosed) (hN : N.IsClosed) (x : String) :
    substitute x N M = M :=
  substitute_of_not_mem hN (hM.not_mem x)

/-! ### Without names -/

theorem IsClosed.interpret_eq {t : Term} (h : t.IsClosed) (σ : String → Nameless) :
    t.interpret σ = t.nameless := by
  rw [nameless_eq_interpret]
  apply interpret_congr
  intro x hx
  exact (h.not_mem x hx).elim

theorem IsClosed.shift_nameless {t : Term} (h : t.IsClosed) : t.nameless.shift = t.nameless := by
  rw [nameless_eq_interpret, shift_interpret, h.interpret_eq, ← nameless_eq_interpret]

end LambdaCalculus.Tree
