/-!
# Nameless terms

The terms of the calculus without names for bound variables: an occurrence of a variable is a `Ref`,
either the distance to its binder or, if no binder binds it, its name. Two terms with names that
differ in the choice of bound names only are one nameless term.

All substitution is done by `bind`, which gives every reference a term at once. Below a binder, the
reference `bound 0` is new and all others are shifted. `Ref.elim` splits the references in this way,
and the laws of `rename` and `bind` follow from how it composes.
-/

namespace LambdaCalculus

/-- What an occurrence of a variable refers to. -/
inductive Ref where
  /-- The binder that is passed after this many others on the way out. -/
  | bound (index : Nat)
  | free (name : String)
deriving DecidableEq

namespace Ref

/-- The same reference below one binder more. -/
def shift : Ref → Ref
  | bound k => bound (k + 1)
  | free x => free x

/-- Takes one value for the innermost binder and gives all other references theirs. -/
def elim {β : Type} (innermost : β) (other : Ref → β) : Ref → β
  | bound 0 => innermost
  | bound (k + 1) => other (bound k)
  | free x => other (free x)

@[simp] theorem elim_innermost {β : Type} (z : β) (s : Ref → β) : elim z s (bound 0) = z := rfl

@[simp] theorem elim_shift {β : Type} (z : β) (s : Ref → β) (r : Ref) : elim z s r.shift = s r := by
  cases r <;> rfl

theorem innermost_or_shift (r : Ref) : r = bound 0 ∨ ∃ s : Ref, r = s.shift := by
  rcases r with (_ | k) | x
  · exact Or.inl rfl
  · exact Or.inr ⟨bound k, rfl⟩
  · exact Or.inr ⟨free x, rfl⟩

theorem funext_elim {β : Type} {f g : Ref → β} (hinnermost : f (bound 0) = g (bound 0))
    (hother : ∀ r : Ref, f r.shift = g r.shift) : f = g := by
  funext r
  rcases innermost_or_shift r with rfl | ⟨s, rfl⟩
  · exact hinnermost
  · exact hother s

theorem shift_inj {r s : Ref} (h : r.shift = s.shift) : r = s := by
  cases r <;> cases s <;> simp_all [shift]

theorem shift_ne_innermost (r : Ref) : r.shift ≠ bound 0 := by
  cases r <;> simp [shift]

/-- A renaming of references, below one binder more. -/
def lift (ξ : Ref → Ref) : Ref → Ref := elim (bound 0) fun r => (ξ r).shift

end Ref

inductive Nameless where
  | ref (r : Ref)
  | lam (body : Nameless)
  | app (function argument : Nameless)
deriving DecidableEq

namespace Nameless

/-! ### Renaming and substitution -/

def rename (ξ : Ref → Ref) : Nameless → Nameless
  | ref r => ref (ξ r)
  | lam b => lam (b.rename (Ref.lift ξ))
  | app f a => app (f.rename ξ) (a.rename ξ)

def shift (t : Nameless) : Nameless := t.rename Ref.shift

def lift (σ : Ref → Nameless) : Ref → Nameless := Ref.elim (ref (.bound 0)) fun r => (σ r).shift

/-- Puts a term in place of every reference of a term. -/
def bind (σ : Ref → Nameless) : Nameless → Nameless
  | ref r => σ r
  | lam b => lam (b.bind (lift σ))
  | app f a => app (f.bind σ) (a.bind σ)

/-- The body of an abstraction with its variable replaced. -/
def instantiate (b a : Nameless) : Nameless := b.bind (Ref.elim a ref)

/-- A term with every free occurrence of a name replaced by another term. -/
def replace (t : Nameless) (x : String) (n : Nameless) : Nameless :=
  match t with
  | ref (.bound k) => ref (.bound k)
  | ref (.free y) => if y = x then n else ref (.free y)
  | lam b => lam (b.replace x n.shift)
  | app f a => app (f.replace x n) (a.replace x n)

/-! ### Laws -/

@[simp] theorem shift_ref (r : Ref) : (ref r).shift = ref r.shift := rfl

theorem rename_rename (ξ ζ : Ref → Ref) (t : Nameless) :
    (t.rename ξ).rename ζ = t.rename fun r => ζ (ξ r) := by
  induction t generalizing ξ ζ with
  | ref r => rfl
  | lam b ih =>
      have hlift : (fun r => Ref.lift ζ (Ref.lift ξ r)) = Ref.lift fun r => ζ (ξ r) :=
        Ref.funext_elim rfl fun r => by simp [Ref.lift]
      simp only [rename, ih, hlift]
  | app f a ihf iha => simp only [rename, ihf, iha]

theorem bind_rename (ξ : Ref → Ref) (σ : Ref → Nameless) (t : Nameless) :
    (t.rename ξ).bind σ = t.bind fun r => σ (ξ r) := by
  induction t generalizing ξ σ with
  | ref r => rfl
  | lam b ih =>
      have hlift : (fun r => lift σ (Ref.lift ξ r)) = lift fun r => σ (ξ r) :=
        Ref.funext_elim rfl fun r => by simp [lift, Ref.lift]
      simp only [rename, bind, ih, hlift]
  | app f a ihf iha => simp only [rename, bind, ihf, iha]

theorem rename_bind (σ : Ref → Nameless) (ξ : Ref → Ref) (t : Nameless) :
    (t.bind σ).rename ξ = t.bind fun r => (σ r).rename ξ := by
  induction t generalizing σ ξ with
  | ref r => rfl
  | lam b ih =>
      have hlift : (fun r => (lift σ r).rename (Ref.lift ξ)) = lift fun r => (σ r).rename ξ :=
        Ref.funext_elim rfl fun r => by simp [lift, Ref.lift, shift, rename_rename]
      simp only [rename, bind, ih, hlift]
  | app f a ihf iha => simp only [rename, bind, ihf, iha]

theorem bind_lift_shift (σ : Ref → Nameless) (t : Nameless) :
    t.shift.bind (lift σ) = (t.bind σ).shift := by
  simp only [shift, bind_rename, rename_bind, lift, Ref.elim_shift]

theorem bind_bind (σ τ : Ref → Nameless) (t : Nameless) :
    (t.bind σ).bind τ = t.bind fun r => (σ r).bind τ := by
  induction t generalizing σ τ with
  | ref r => rfl
  | lam b ih =>
      have hlift : (fun r => (lift σ r).bind (lift τ)) = lift fun r => (σ r).bind τ := by
        apply Ref.funext_elim
        · rfl
        · intro r
          simp only [lift, Ref.elim_shift]
          exact bind_lift_shift τ (σ r)
      simp only [bind, ih, hlift]
  | app f a ihf iha => simp only [bind, ihf, iha]

theorem lift_ref : lift ref = ref := Ref.funext_elim rfl fun r => by simp [lift]

@[simp] theorem bind_ref (t : Nameless) : t.bind ref = t := by
  induction t with
  | ref r => rfl
  | lam b ih => simp only [bind, lift_ref, ih]
  | app f a ihf iha => simp only [bind, ihf, iha]

theorem rename_eq_bind (ξ : Ref → Ref) (t : Nameless) : t.rename ξ = t.bind fun r => ref (ξ r) := by
  rw [← bind_rename, bind_ref]

@[simp] theorem instantiate_shift (t a : Nameless) : t.shift.instantiate a = t := by
  have hother : (fun r : Ref => Ref.elim a ref r.shift) = ref := funext fun r => by simp
  rw [instantiate, shift, bind_rename, hother, bind_ref]

theorem bind_instantiate (σ : Ref → Nameless) (b a : Nameless) :
    (b.instantiate a).bind σ = (b.bind (lift σ)).instantiate (a.bind σ) := by
  have hsplit : (fun r => (Ref.elim a ref r).bind σ) = fun r =>
    (lift σ r).bind (Ref.elim (a.bind σ) ref) := by
    apply Ref.funext_elim
    · rfl
    · intro r
      simp only [lift, Ref.elim_shift]
      exact (instantiate_shift (σ r) (a.bind σ)).symm
  simp only [instantiate, bind_bind, hsplit]

def replacing (x : String) (n : Nameless) : Ref → Nameless
  | .bound k => ref (.bound k)
  | .free y => if y = x then n else ref (.free y)

theorem lift_replacing (x : String) (n : Nameless) :
    lift (replacing x n) = replacing x n.shift := by
  apply Ref.funext_elim
  · rfl
  · intro r
    simp only [lift, Ref.elim_shift]
    rcases r with k | y
    · rfl
    · by_cases hy : y = x <;> simp [replacing, Ref.shift, hy]

theorem replace_eq_bind (t : Nameless) (x : String) (n : Nameless) :
    t.replace x n = t.bind (replacing x n) := by
  induction t generalizing n with
  | ref r => cases r <;> rfl
  | lam b ih => simp only [replace, bind, ih, lift_replacing]
  | app f a ihf iha => simp only [replace, bind, ihf, iha]

end Nameless

end LambdaCalculus
