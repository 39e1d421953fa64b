import LambdaCalculus.Term.Basic
import LambdaCalculus.Term.Foreign
import LambdaCalculus.Text.Quoted

/-!
# A term on one line

The written form of a term in traces and messages: each node is its kind with its named parts in
brackets, and names are quoted, so that the form tells any two terms apart.
-/

namespace LambdaCalculus.Tree

variable {α : Type}

/-- The term on one line. -/
def oneLine [Foreign α] : Tree α → String
  | var name => "Variable(name=" ++ Text.quoted name ++ ")"
  | lam name body => "Abstraction(name=" ++ Text.quoted name ++ ", body=" ++ body.oneLine ++ ")"
  | app function argument =>
    "Application(function=" ++ function.oneLine ++ ", argument=" ++ argument.oneLine ++ ")"
  | foreign value => Foreign.inline value

end LambdaCalculus.Tree
