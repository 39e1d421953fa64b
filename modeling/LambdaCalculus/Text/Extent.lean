/-!
# The extent of texts

A text can be repeated if the count fits a machine word and the result fits into memory. The count
has to fit whatever its sign, though a text repeated a negative number of times is empty.
-/

namespace LambdaCalculus.Extent

/-- Why a text cannot be repeated. -/
inductive Fault where
  /-- The count does not fit a machine word. -/
  | count
  /-- The length of the result does not fit one. -/
  | length
  | memory
deriving DecidableEq

namespace Fault

def label : Fault → String
  | memory => "MemoryError"
  | _ => "OverflowError"

def message : Fault → String
  | count => "cannot fit 'int' into an index-sized integer"
  | length => "repeated string is too long"
  | memory => ""

end Fault

def maxWord : Nat := 9223372036854775807

/-- The number of characters up to which a text is held to fit into memory. -/
def memoryLimit : Nat := 2147483648

def repetitionFault? (size : Nat) (count : Int) : Option Fault :=
  if maxWord < count ∨ count < -maxWord - 1 then some .count
  else if maxWord < size * count then some .length
  else if memoryLimit < size * count then some .memory
  else none

end LambdaCalculus.Extent
