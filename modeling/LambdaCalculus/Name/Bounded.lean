import LambdaCalculus.Name.Basic

/-!
# Bounded numbers in names

The numbers in names have any size, but a bound may be set on the digits with which they are read
and written. This module tells where a number exceeds it: on splitting a name, whose digits are
counted with leading zeros, on writing a subscript, and on making a fresh name, which does both.
Without a bound nothing is too long.
-/

namespace LambdaCalculus.Name

/-- The number of digits up to which numbers are read and written, if there is such a bound. -/
abbrev Bound := Option Nat

inductive LongNumber where
  /-- It has this many digits and is not read. -/
  | unread (digits : Nat)
  /-- It is not written. -/
  | unwritten
deriving DecidableEq

def Bound.exceededBy (bound : Bound) (digits : Nat) : Bool := bound.any (· < digits)

def subscriptLength (name : String) : Nat := (name.toList.reverse.takeWhile isSubscriptDigit).length

def splitFault? (bound : Bound) (name : String) : Option LongNumber :=
  if bound.exceededBy (subscriptLength name) then some (.unread (subscriptLength name)) else none

def writingFault? (bound : Bound) (n : Nat) : Option LongNumber :=
  if bound.exceededBy (Text.decimalDigits n).length then some .unwritten else none

/-- Why no name is made from a seed that is not in `used`. Only a seed that is taken is split. -/
def freshFault? (bound : Bound) (seed : String) (used : List String) : Option LongNumber :=
  if seed ∈ used then
    match splitFault? bound seed with
    | some fault => some fault
    | none =>
        let (base, number) := split seed
        writingFault? bound (firstUnused base used used.length (nextNumber number))
  else none

/-! ### Without a bound -/

@[simp] theorem splitFault?_none (name : String) : splitFault? none name = none := rfl

@[simp] theorem writingFault?_none (n : Nat) : writingFault? none n = none := rfl

@[simp] theorem freshFault?_none (seed : String) (used : List String) :
    freshFault? none seed used = none := by
  simp [freshFault?]

end LambdaCalculus.Name
