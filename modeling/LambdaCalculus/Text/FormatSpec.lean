import LambdaCalculus.Text.Digit
import LambdaCalculus.Text.Extent

/-!
# Format specifications

How a text is fitted into a field: cut to a precision, then filled up to a width. A specification
has the form

    [[fill]align][sign][z][#][0][width][,][_][.precision][kind]

where each part may be missing. Signs, zeros, separators and all kinds but `s` are for numbers, and
refused for a text. Only when a specification has been read to its end is it asked whether it suits
a text. An empty one leaves the text as it is.
-/

namespace LambdaCalculus.Text

/-- On which side of a field a text stands. -/
inductive Align where
  | left
  | right
  | center
  /-- Behind the sign of a number. -/
  | behindSign
deriving DecidableEq

structure FormatSpec where
  fill : Char := ' '
  align : Align := .left
  sign : Option Char := none
  /-- Whether a negative zero loses its sign. -/
  coercesZero : Bool := false
  alternate : Bool := false
  width : Option Nat := none
  separator : Option Char := none
  precision : Option Nat := none
  kind : Char := 's'
deriving DecidableEq

namespace FormatSpec

inductive Fault where
  | hugeNumber
  | bothSeparators
  | noPrecision
  /-- Something is left over. -/
  | malformed (spec : String)
  | separatorFor (separator kind : Char)
  | unknownKind (kind : Char)
  | blankSign
  | sign
  | coercedZero
  | alternateForm
  | alignBehindSign
  /-- The field does not fit into memory. -/
  | memory
deriving DecidableEq

/-- A character as faults show it: by its code point unless it is below a limit and visible. -/
def shownBelow (limit : Nat) (c : Char) : String :=
  if 32 < c.toNat ∧ c.toNat < limit then c.toString
  else "\\x" ++ String.ofList (Nat.toDigits 16 c.toNat)

namespace Fault

def label : Fault → String
  | memory => "MemoryError"
  | _ => "ValueError"

def message : Fault → String
  | hugeNumber => "Too many decimal digits in format string"
  | bothSeparators => "Cannot specify both ',' and '_'."
  | noPrecision => "Format specifier missing precision"
  | malformed spec => "Invalid format specifier '" ++ spec ++ "' for object of type 'str'"
  | separatorFor separator kind =>
      "Cannot specify '" ++ separator.toString ++ "' with '" ++ shownBelow 128 kind ++ "'."
  | unknownKind kind =>
      "Unknown format code '" ++ shownBelow 128 kind ++ "' for object of type 'str'"
  | blankSign => "Space not allowed in string format specifier"
  | sign => "Sign not allowed in string format specifier"
  | coercedZero => "Negative zero coercion (z) not allowed in string format specifier"
  | alternateForm => "Alternate form (#) not allowed in string format specifier"
  | alignBehindSign => "'=' alignment not allowed in string format specifier"
  | memory => ""

end Fault

/-! ### Reading -/

def alignOf? : Char → Option Align
  | '<' => some .left
  | '>' => some .right
  | '^' => some .center
  | '=' => some .behindSign
  | _ => none

/-- Reads a side with the character in front of it to fill with, or without one. -/
def readAlign (cs : List Char) : Option Char × Option Align × List Char :=
  match cs.tail.head?.bind alignOf? with
  | some align => (cs.head?, some align, cs.drop 2)
  | none =>
      match cs.head?.bind alignOf? with
      | some align => (none, some align, cs.tail)
      | none => (none, none, cs)

/-- Reads one of some characters, if the text begins with one of them. -/
def readOneOf (options : List Char) (cs : List Char) : Option Char × List Char :=
  match cs with
  | [] => (none, [])
  | c :: rest => if c ∈ options then (some c, rest) else (none, cs)

/-- Reads the digits that a text begins with, in any script. -/
def readCount (cs : List Char) : Except Fault (Option Nat × List Char) :=
  let digits := (cs.takeWhile fun c => (digitValue? c).isSome).filterMap digitValue?
  if digits.isEmpty then .ok (none, cs)
  else if Extent.maxWord < ofDecimalDigits digits then .error .hugeNumber
  else .ok (some (ofDecimalDigits digits), cs.dropWhile fun c => (digitValue? c).isSome)

/-- Reads the separators of a number's digits. There is one at most. -/
def readSeparator (cs : List Char) : Except Fault (Option Char × List Char) :=
  match readOneOf [','] cs with
  | (some comma, rest) =>
      if rest.head? = some '_' then .error .bothSeparators else .ok (some comma, rest)
  | (none, _) =>
      let (underscore, rest) := readOneOf ['_'] cs
      if underscore.isSome ∧ rest.head? = some ',' then .error .bothSeparators
      else .ok (underscore, rest)

def readPrecision (cs : List Char) : Except Fault (Option Nat × List Char) :=
  match readOneOf ['.'] cs with
  | (none, rest) => .ok (none, rest)
  | (some _, rest) =>
      match readCount rest with
      | .error fault => .error fault
      | .ok (none, _) => .error .noPrecision
      | .ok (some n, rest) => .ok (some n, rest)

/-- The kinds of numbers whose digits a separator may part. -/
def separatedKinds : Char → List Char
  | '_' => ['d', 'e', 'f', 'g', 'E', 'G', '%', 'F', '\x00', 'b', 'o', 'x', 'X']
  | _ => ['d', 'e', 'f', 'g', 'E', 'G', '%', 'F', '\x00']

def ofChars (cs : List Char) : Except Fault FormatSpec := do
  let (fill, align, rest) := readAlign cs
  let (sign, rest) := readOneOf [' ', '+', '-'] rest
  let (zero, rest) := readOneOf ['z'] rest
  let (alternate, rest) := readOneOf ['#'] rest
  -- a zero fills the field, unless there is another character to do so
  let (padding, rest) := if fill.isNone then readOneOf ['0'] rest else (none, rest)
  let (width, rest) ← readCount rest
  let (separator, rest) ← readSeparator rest
  let (precision, rest) ← readPrecision rest
  if 1 < rest.length then throw (.malformed (String.ofList cs))
  let kind := rest.head?.getD 's'
  match separator with
  | some c => if kind ∉ separatedKinds c then throw (.separatorFor c kind)
  | none => pure ()
  return {
    fill := (fill.or padding).getD ' '
    align := align.getD .left
    sign
    coercesZero := zero.isSome
    alternate := alternate.isSome
    width
    separator
    precision
    kind }

/-! ### Fitting -/

/-- Why a specification does not suit a text. -/
def fault? (spec : FormatSpec) : Option Fault :=
  if spec.kind ≠ 's' then some (.unknownKind spec.kind)
  else if spec.sign = some ' ' then some .blankSign
  else if spec.sign.isSome then some .sign
  else if spec.coercesZero then some .coercedZero
  else if spec.alternate then some .alternateForm
  else if spec.align = .behindSign then some .alignBehindSign
  else if spec.width.any (Extent.memoryLimit < ·) then some .memory
  else none

/-- Cuts a text to the precision and fills it up to the width. -/
def fit (spec : FormatSpec) (cs : List Char) : List Char :=
  let cut := match spec.precision with
    | some n => cs.take n
    | none => cs
  let missing := spec.width.getD 0 - cut.length
  let front := match spec.align with
    | .right => missing
    | .center => missing / 2
    | _ => 0
  List.replicate front spec.fill ++ cut ++ List.replicate (missing - front) spec.fill

end FormatSpec

/-- Formats a text as the characters of a specification say. -/
def format (spec cs : List Char) : Except FormatSpec.Fault (List Char) :=
  if spec.isEmpty then .ok cs
  else
    match FormatSpec.ofChars spec with
    | .error fault => .error fault
    | .ok parsed =>
        match parsed.fault? with
        | some fault => .error fault
        | none => .ok (parsed.fit cs)

/-- A text never becomes shorter than the width of its field, nor longer than that and itself. -/
theorem length_fit (spec : FormatSpec) (cs : List Char) :
    (spec.fit cs).length =
      max (spec.width.getD 0) (min (spec.precision.getD cs.length) cs.length) := by
  have hcut : (match spec.precision with
      | some n => cs.take n
      | none => cs).length = min (spec.precision.getD cs.length) cs.length := by
    cases spec.precision <;> simp
  simp only [FormatSpec.fit, List.length_append, List.length_replicate, hcut]
  cases spec.align <;> simp only <;> omega

end LambdaCalculus.Text
