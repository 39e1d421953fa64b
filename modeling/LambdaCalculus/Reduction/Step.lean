import LambdaCalculus.Term.Substitution

/-!
# One beta step

The *spine* of a term is what can be reached through abstraction bodies and function sides. A step
contracts the deepest redex on the spine; arguments are never entered, so a term is normal for this
strategy as soon as its spine ends in a variable that is applied to arguments of any form, below any
number of abstractions.

A step cannot be taken if there is an obstacle to the substitution: a foreign leaf, or a number in a
name that exceeds the bound on such numbers.
-/

namespace LambdaCalculus.Tree

variable {α : Type}

/-- What the strategy does with a term. -/
inductive Step (α : Type) where
  /-- There is no redex on the spine. -/
  | normal
  /-- The deepest redex on the spine is replaced by its contractum, which gives a whole term. -/
  | contract (contractum whole : Tree α)
  /-- The deepest redex on the spine cannot be contracted, because of an obstacle. -/
  | blocked (obstacle : Obstacle α)

def Step.within (surround : Tree α → Tree α) : Step α → Step α
  | .normal => .normal
  | .contract contractum whole => .contract contractum (surround whole)
  | .blocked obstacle => .blocked obstacle

def contractRedex (bound : Name.Bound) (x : String) (b a : Tree α) : Step α :=
  match obstacle bound x a b with
  | some obstacle => .blocked obstacle
  | none => .contract (substitute x a b) (substitute x a b)

def step (bound : Name.Bound) : Tree α → Step α
  | var _ => .normal
  | foreign _ => .normal
  | lam x b => (b.step bound).within (lam x)
  | app f a =>
      match f.step bound with
      | .normal =>
          match f with
          | lam x b => contractRedex bound x b a
          | _ => .normal
      | other => other.within (app · a)

/-- Whether the spine of a term has no redex. -/
def isNormal (t : Tree α) : Bool :=
  match t.step none with
  | .normal => true
  | _ => false

end LambdaCalculus.Tree
