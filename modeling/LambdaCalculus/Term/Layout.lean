import LambdaCalculus.Term.Basic
import LambdaCalculus.Term.Foreign

/-!
# The drawing of a term

A term is drawn as a tree, one node or bracket a line. A variable is one line with its name; any
other node opens a bracket, draws its parts one level deeper, separated by commas, and closes the
bracket at its own level. Names are written as they are. A level is four spaces; at a negative level
there are none.
-/

namespace LambdaCalculus.Tree

variable {α : Type}

/-- The spaces in front of a line. -/
def margin (level : Int) : String := String.ofList (List.replicate (4 * level.toNat) ' ')

def bracketed (level : Int) (kind first second : String) : String :=
  margin level ++ kind ++ "(nodes=[\n" ++ first ++ ",\n" ++ second ++ "\n" ++ margin level ++ "])"

def variableLine (level : Int) (name : String) : String :=
  margin level ++ "Variable('" ++ name ++ "')"

/-- Draws a term whose first line stands at the given level. -/
def drawAt [Foreign α] (level : Int) : Tree α → String
  | var name => variableLine level name
  | lam name body =>
    bracketed level "Abstraction" (variableLine (level + 1) name) (body.drawAt (level + 1))
  | app function argument =>
      bracketed level "Application" (function.drawAt (level + 1)) (argument.drawAt (level + 1))
  | foreign value => margin level ++ Foreign.inline value

def draw [Foreign α] (t : Tree α) : String := t.drawAt 0

/-- The number of calls that are open at a time when a term is drawn: one for each node, and one to
ask for its parts. -/
def drawingDepth (t : Tree α) : Nat := t.depth + 1

end LambdaCalculus.Tree
