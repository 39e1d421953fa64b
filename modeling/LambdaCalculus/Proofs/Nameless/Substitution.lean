import LambdaCalculus.Term.Substitution
import LambdaCalculus.Proofs.Name.Fresh
import LambdaCalculus.Proofs.Nameless.Translation
import Mathlib.Logic.Function.Basic

/-!
# Substitution captures nothing

Substituting `N` for `x` in a term changes what `x` is interpreted by, and nothing else:
`interpret_substitute` has no condition on the names involved, so it also applies to the renamings
that a substitution makes on its way, and one induction on the size of the term covers them all.

It follows that substitution is the replacement of a free name once the names of bound variables are
gone, and that contracting a redex instantiates the body of its abstraction.
-/

namespace LambdaCalculus.Tree

/-! ### What is interpreted differently -/

theorem under_update_self (x : String) (n : Nameless) (σ : String → Nameless) :
    under x (Function.update σ x n) = under x σ := by
  funext y
  by_cases hy : y = x <;> simp [under, hy]

theorem under_update_of_ne {x y : String} (h : y ≠ x) (n : Nameless) (σ : String → Nameless) :
    under y (Function.update σ x n) = Function.update (under y σ) x n.shift := by
  funext z
  by_cases hzx : z = x
  · subst hzx
    simp [under, h.symm]
  · simp [under, hzx]

theorem binderFor_not_mem_freeNames (x : String) (N : Term) (y : String) (b : Term) :
    binderFor x N y b ∉ N.freeNames ∧ binderFor x N y b ∉ b.freeNames ∧ binderFor x N y b ≠ x := by
  refine ⟨freshName_not_mem_freeNames (by simp), freshName_not_mem_freeNames (by simp), ?_⟩
  have hvar : binderFor x N y b ∉ (var x : Term).freeNames := freshName_not_mem_freeNames (by simp)
  simpa using hvar

/-- A binder that is renamed to a name that is not free in its body binds the same occurrences. -/
theorem interpret_under_update {y z : String} {b : Term} (hz : z ∉ b.freeNames)
    (σ : String → Nameless) :
    b.interpret (Function.update (under z σ) y (.ref (.bound 0))) = b.interpret (under y σ) := by
  apply interpret_congr
  intro w hw
  have hwz : w ≠ z := by
    rintro rfl
    exact hz hw
  by_cases hwy : w = y
  · simp [hwy, under]
  · simp [hwy, hwz, under]

/-! ### Substitution -/

/-- Substituting `N` for `x` changes what `x` is interpreted by. -/
theorem interpret_substitute (σ : String → Nameless) (x : String) (N M : Term) :
    (substitute x N M).interpret σ = M.interpret (Function.update σ x (N.interpret σ)) := by
  induction hsize : M.size using Nat.strongRecOn generalizing σ x N M with
  | ind n ih =>
      subst hsize
      cases M with
      | var y =>
          by_cases hy : y = x
          · simp [interpret, hy]
          · simp [interpret, hy]
      | foreign v => exact v.elim
      | app f a =>
          simp only [substitute_app, interpret]
          rw [ih f.size (by simp only [size]; omega) σ x N f rfl,
            ih a.size (by simp only [size]; omega) σ x N a rfl]
      | lam y b =>
          have hb : b.size < (lam y b).size := by simp only [size]; omega
          rw [substitute_lam]
          by_cases hyx : y = x
          · -- the binder shadows `x`
            rw [if_pos hyx]
            simp only [interpret, hyx, under_update_self]
          · rw [if_neg hyx]
            by_cases hyN : y ∈ N.freeNames
            · -- the binder is renamed: its body is renamed first, then substituted in
              rw [if_pos hyN]
              obtain ⟨hzN, hzb, hzx⟩ := binderFor_not_mem_freeNames x N y b
              generalize binderFor x N y b = z at hzN hzb hzx ⊢
              have hrenamed : (substitute y (var z) b).size < (lam y b).size := by
                rw [size_substitute_var]; exact hb
              have hz : (var z : Term).interpret
                  (Function.update (under z σ) x (N.interpret (under z σ))) = .ref (.bound 0) := by
                simp [interpret, under, hzx]
              simp only [interpret]
              rw [ih _ hrenamed (under z σ) x N (substitute y (var z) b) rfl,
                ih _ hb _ y (var z) b rfl, hz, interpret_under_of_not_mem hzN,
                ← under_update_of_ne hzx,
                  interpret_under_update hzb]
            · rw [if_neg hyN]
              simp only [interpret]
              rw [ih _ hb (under y σ) x N b rfl, interpret_under_of_not_mem hyN,
                under_update_of_ne hyx]

/-- Substitution is the replacement of a free name by a term, in terms without the names of bound
variables. -/
theorem nameless_substitute (x : String) (N M : Term) :
    (substitute x N M).nameless = M.nameless.replace x N.nameless := by
  have hvalues : (fun y => (Nameless.ref (.free y)).bind (Nameless.replacing x N.nameless))
      = Function.update (fun y => Nameless.ref (.free y)) x N.nameless := by
    funext y
    by_cases hy : y = x <;> simp [Nameless.bind, Nameless.replacing, hy]
  have hnames : ∀ t : Term, t.nameless = t.interpret fun y => .ref (.free y) :=
    namelessUnder_eq_interpret []
  calc
    (substitute x N M).nameless =
      M.interpret (Function.update (fun y => .ref (.free y)) x N.nameless) := by
      rw [hnames, interpret_substitute, ← hnames]
    _ = (M.interpret fun y => .ref (.free y)).bind (Nameless.replacing x N.nameless) := by
      rw [bind_interpret, hvalues]
    _ = M.nameless.replace x N.nameless := by
      rw [Nameless.replace_eq_bind, ← hnames]

theorem namelessUnder_substitute (binders : List String) (x : String) (b a : Term) :
    (substitute x a b).namelessUnder binders
      = (b.namelessUnder (x :: binders)).instantiate (a.namelessUnder binders) := by
  have hvalues :
      (fun y =>
        (Nameless.ref (.ofName (x :: binders) y)).bind (Ref.elim (a.namelessUnder binders) .ref))
      = Function.update (fun y => Nameless.ref (.ofName binders y)) x
        (a.namelessUnder binders) := by
    funext y
    by_cases hy : y = x <;> simp [Nameless.bind, Ref.ofName, hy]
  rw [Nameless.instantiate, namelessUnder_eq_interpret, namelessUnder_eq_interpret (x :: binders),
    bind_interpret, hvalues, interpret_substitute, ← namelessUnder_eq_interpret]

end LambdaCalculus.Tree
