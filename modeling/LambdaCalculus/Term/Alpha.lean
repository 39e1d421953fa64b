import LambdaCalculus.Term.Basic

/-!
# Equality up to bound names

Two terms are alpha-equal when they differ in the choice of bound names only. The comparison
descends both terms at once and records the binders that it has passed in two lists, one for each
direction: the first maps the bound names of the left term to their partners on the right, the
second maps them back. The innermost binder of a name wins, in each list on its own, so two
occurrences match when each is the partner of the other.
-/

namespace LambdaCalculus.Tree

variable {α : Type}

/-- The binders passed so far: bound names with their partners, innermost first. -/
abbrev Pairing := List (String × String)

/-- Whether an occurrence of `x` on the left matches one of `y` on the right: as partners if either
name is bound, and as equal free names otherwise. -/
def namesMatch (there back : Pairing) (x y : String) : Bool :=
  if (there.lookup x).isSome || (back.lookup y).isSome then
    there.lookup x == some y && back.lookup y == some x
  else x == y

/-- Alpha-equality of two terms below the binders recorded in the two lists. -/
def alphaEqUnder (there back : Pairing) : Tree α → Tree α → Bool
  | var x, var y => namesMatch there back x y
  | lam x b, lam y c => alphaEqUnder ((x, y) :: there) ((y, x) :: back) b c
  | app f a, app g b => alphaEqUnder there back f g && alphaEqUnder there back a b
  | _, _ => false

def alphaEq (t u : Tree α) : Bool := alphaEqUnder [] [] t u

/-- The foreign leaf of the left term at which the comparison comes to a stop. A leaf counts only if
all that stands in front of it was found equal. -/
def incomparable? (there back : Pairing) : Tree α → Tree α → Option α
  | foreign value, _ => some value
  | lam x b, lam y c => incomparable? ((x, y) :: there) ((y, x) :: back) b c
  | app f a, app g b =>
      (incomparable? there back f g).or
      (if alphaEqUnder there back f g then incomparable? there back a b else none)
  | _, _ => none

end LambdaCalculus.Tree
