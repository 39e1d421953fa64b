import LambdaCalculus.Term.Foreign
import LambdaCalculus.Term.Free

/-!
# Capture-avoiding substitution

`substitute x N M` replaces the free occurrences of `x` in `M` by `N`. An abstraction whose bound
name is free in `N` has its bound name changed to a fresh one first, by the same substitution, so
that it captures nothing.

The renamed body is not a part of `M`, so the recursion runs on the size of the term: substituting a
variable keeps the size, and the definition carries this fact along with the result. The four
equations after it are all that later proofs use.

`obstacle bound x N M` is what is first in the way of this substitution, in the order in which it
visits the term: a foreign leaf, or a number in a name that exceeds a bound. Terms of the calculus
have none if there is no bound.
-/

namespace LambdaCalculus.Tree

variable {α : Type}

/-- The new bound name of `λy.b` when `N` is substituted for `x` in it and `y` is free in `N`. -/
def binderFor (x : String) (N : Tree α) (y : String) (b : Tree α) : String :=
  freshName y [N, b, var x]

/-- Substitution together with the fact that it keeps the size when a variable is substituted. -/
def substituteSized (x : String) (N : Tree α) (M : Tree α) :
    { u : Tree α // (∃ z, N = var z) → u.size = M.size } :=
  match M with
  | var y =>
      if y = x then ⟨N, by rintro ⟨z, rfl⟩; simp [size]⟩ else ⟨var y, fun _ => rfl⟩
  | foreign v => ⟨foreign v, fun _ => rfl⟩
  | app f a =>
      let f' := substituteSized x N f
      let a' := substituteSized x N a
      ⟨app f'.1 a'.1, fun h => by simp only [size]; rw [f'.2 h, a'.2 h]⟩
  | lam y b =>
      if y = x then ⟨lam y b, fun _ => rfl⟩
      else if y ∈ N.freeNames then
        let z := binderFor x N y b
        let ⟨renamed, keeps⟩ := substituteSized y (var z) b
        have same : renamed.size = b.size := keeps ⟨z, rfl⟩
        let b' := substituteSized x N renamed
        ⟨lam z b'.1, fun h => by simp only [size]; rw [b'.2 h, same]⟩
      else
        let b' := substituteSized x N b
        ⟨lam y b'.1, fun h => by simp only [size]; rw [b'.2 h]⟩
termination_by M.size
decreasing_by
  all_goals simp only [size]
  all_goals omega

/-- `M` with every free occurrence of `x` replaced by `N`, bound names changed where they would
capture. -/
def substitute (x : String) (N M : Tree α) : Tree α := (substituteSized x N M).1

/-! ### Equations -/

@[simp] theorem substitute_var (x : String) (N : Tree α) (y : String) :
    substitute x N (var y) = if y = x then N else var y := by
  rw [substitute, substituteSized]; split <;> rfl

@[simp] theorem substitute_foreign (x : String) (N : Tree α) (v : α) :
    substitute x N (foreign v) = foreign v := by
  rw [substitute, substituteSized]

@[simp] theorem substitute_app (x : String) (N f a : Tree α) :
    substitute x N (app f a) = app (substitute x N f) (substitute x N a) := by
  rw [substitute, substituteSized]; rfl

theorem substitute_lam (x : String) (N : Tree α) (y : String) (b : Tree α) :
    substitute x N (lam y b) =
      if y = x then lam y b
      else if y ∈ N.freeNames then
        lam (binderFor x N y b) (substitute x N (substitute y (var (binderFor x N y b)) b))
      else lam y (substitute x N b) := by
  rw [substitute, substituteSized]
  split
  · rfl
  · split <;> rfl

theorem size_substitute_var (x z : String) (M : Tree α) : (substitute x (var z) M).size = M.size :=
  (substituteSized x (var z) M).2 ⟨z, rfl⟩

/-! ### Obstacles -/

/-- Why there is no new bound name for `λy.b` when `N` is substituted for `x` in it. -/
def binderFault? (bound : Name.Bound) (x : String) (N : Tree α) (y : String) (b : Tree α) :
    Option Name.LongNumber :=
  Name.freshFault? bound y ([N, b, var x].flatMap freeNames)

/-- What is first in the way of substituting `N` for `x` in a term. A foreign leaf of the term that
has to be entered is in the way. At an abstraction that does not bind `x` the free names of `N` are
needed. If the bound name has to be changed, those of the body are needed too, then a new name, and
then the body is renamed. -/
def obstacle (bound : Name.Bound) (x : String) (N : Tree α) (M : Tree α) : Option (Obstacle α) :=
  match M with
  | var _ => none
  | foreign v => some (.foreign v .term)
  | app f a => (obstacle bound x N f).or (obstacle bound x N a)
  | lam y b =>
      if y = x then none
      else
        match N.foreignLeaf? with
        | some v => some (.foreign v .freeNames)
        | none =>
            if y ∈ N.freeNames then
              match b.foreignLeaf?, binderFault? bound x N y b with
              | some v, _ => some (.foreign v .freeNames)
              | none, some fault => some (.number fault)
              | none, none =>
                  let z := binderFor x N y b
                  (obstacle bound y (var z) b).or (obstacle bound x N (substitute y (var z) b))
            else obstacle bound x N b
termination_by M.size
decreasing_by
  all_goals simp only [size, size_substitute_var]
  all_goals omega

theorem obstacle_term (x : String) (N M : Term) : obstacle none x N M = none := by
  fun_induction obstacle none x N M with
  | case1 => rfl
  | case2 _ _ v => exact v.elim
  | case3 x N f a ihf iha => rw [ihf, iha]; rfl
  | case4 => rfl
  | case5 _ _ _ _ _ v => exact v.elim
  | case6 _ _ _ _ _ _ _ v => exact v.elim
  | case7 => simp_all [binderFault?]
  | case8 x N y b _ _ _ _ _ z ihb ihr => rw [ihb, ihr]; rfl
  | case9 x N y b _ _ _ ih => exact ih

end LambdaCalculus.Tree
