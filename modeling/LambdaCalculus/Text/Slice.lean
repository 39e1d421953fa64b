/-!
# Cuts of a text

Positions count characters. A negative position counts from the end, and a position outside of the
text stands for the nearer end, so every pair of positions cuts a text; the cut is empty unless the
second position lies behind the first.
-/

namespace LambdaCalculus.Text

/-- The place in a text of the given length that a position stands for. -/
def clip (length : Nat) (position : Int) : Nat :=
  if position < 0 then (length + position).toNat else min position.toNat length

def slice (s : List Char) (start stop : Int) : List Char :=
  (s.take (clip s.length stop)).drop (clip s.length start)

def sliceTo (s : List Char) (stop : Int) : List Char := s.take (clip s.length stop)

def sliceFrom (s : List Char) (start : Int) : List Char := s.drop (clip s.length start)

/-- A character repeated; no times for a negative count. -/
def repeated (count : Int) (c : Char) : List Char := List.replicate count.toNat c

/-- The first place at which a text stands in another. -/
def indexOf? (needle : List Char) : List Char → Option Nat
  | [] => if needle.isEmpty then some 0 else none
  | c :: rest =>
      if needle.isPrefixOf (c :: rest) then some 0 else (indexOf? needle rest).map (· + 1)

end LambdaCalculus.Text
