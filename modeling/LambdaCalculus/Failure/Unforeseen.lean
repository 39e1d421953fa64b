import LambdaCalculus.Term.Foreign
import LambdaCalculus.Text.Encoding
import LambdaCalculus.Text.Extent
import LambdaCalculus.Text.Numeral
import LambdaCalculus.Text.Template

/-!
# Unforeseen failures

Failures that have no report of their own. Each has a label and a text, which stand for it in
answers and in the report that a guarded run makes of it.
-/

namespace LambdaCalculus

/-- A failure without a report of its own. -/
inductive Unforeseen where
  /-- A foreign value, of a type with this name, does not do what is demanded of a term. -/
  | unmet (demand : Demand) (typeName : String)
  | noNumber (text : String) (fault : Numeral.Fault)
  | longNumber (fault : Name.LongNumber)
  /-- A text is to be longer than texts can be. -/
  | extent (fault : Extent.Fault)
  | unfillable (fault : Template.Fault)
  | undecodable (fault : Utf8.Fault)
  | nullInPath
  | noPath
  /-- Any other failure that the surroundings bring in, by its label and text. -/
  | external (label text : String)
deriving DecidableEq

namespace Unforeseen

def ofObstacle {α : Type} [Foreign α] : Obstacle α → Unforeseen
  | .foreign value demand => .unmet demand (Foreign.typeName value)
  | .number fault => .longNumber fault

def label : Unforeseen → String
  | unmet .term _ => "TypeError"
  | unmet _ _ => "AttributeError"
  | noNumber _ _ => "ValueError"
  | longNumber _ => "ValueError"
  | extent fault => fault.label
  | unfillable fault => fault.label
  | undecodable _ => "UnicodeDecodeError"
  | nullInPath => "ValueError"
  | noPath => "TypeError"
  | external label _ => label

def lacking (typeName what : String) : String :=
  "'" ++ typeName ++ "' object has no attribute '" ++ what ++ "'"

def text : Unforeseen → String
  | unmet .term typeName => "expected LambdaTerm, got '" ++ typeName ++ "'"
  | unmet .freeNames typeName => lacking typeName "free_variables"
  | unmet .comparison typeName => lacking typeName "alpha_equals"
  | unmet .drawing typeName => lacking typeName "display"
  | noNumber text fault => fault.message text
  | longNumber (.unread digits) => Numeral.lengthMessage (some digits)
  | longNumber .unwritten => Numeral.lengthMessage none
  | extent fault => fault.message
  | unfillable fault => fault.message
  | undecodable fault => fault.message
  | nullInPath => "embedded null byte"
  | noPath => "expected str, bytes or os.PathLike object, not list"
  | external _ text => text

end Unforeseen

end LambdaCalculus
