/-!
# Lines of a text

A line ends at a line feed, a carriage return or both in this order, at a vertical tab or form feed,
at one of the separators of ASCII (file, group and record), at a next-line character, or at a line
or paragraph separator. A break at the end of a text begins no further line.
-/

namespace LambdaCalculus.Text

def isLineBreak (c : Char) : Bool :=
  let n := c.toNat
  (0x0A ≤ n && n ≤ 0x0D) || (0x1C ≤ n && n ≤ 0x1E) || n == 0x85 || n == 0x2028 || n == 0x2029

def consLine (c : Char) : List (List Char) → List (List Char)
  | [] => [[c]]
  | first :: rest => (c :: first) :: rest

/-- The lines of a text, without their breaks. -/
def lines : List Char → List (List Char)
  | [] => []
  | '\r' :: '\n' :: rest => [] :: lines rest
  | c :: rest => if isLineBreak c then [] :: lines rest else consLine c (lines rest)

end LambdaCalculus.Text
