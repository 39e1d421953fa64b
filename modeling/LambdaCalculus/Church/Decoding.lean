import LambdaCalculus.Church.Encoding
import LambdaCalculus.Term.Alpha

/-!
# Reading encoded values

Which number or truth value a term encodes, if any. Bound names play no part.
-/

namespace LambdaCalculus.Church

open LambdaCalculus.Tree

variable {α : Type}

/-- How many times `f` is applied to `x`, if the term is such an iteration. -/
def countApplications (f x : String) : Tree α → Option Nat
  | var y => if y = x then some 0 else none
  | app (var g) rest => if g = f then (countApplications f x rest).map (· + 1) else none
  | _ => none

/-- The number that a term encodes. The two bound names of a numeral are different. -/
def toNat? : Tree α → Option Nat
  | lam f (lam x body) => if f = x then none else countApplications f x body
  | _ => none

def toBool? (t : Tree α) : Option Bool :=
  if t.alphaEq truth then some true
  else if t.alphaEq falsity then some false
  else none

end LambdaCalculus.Church
