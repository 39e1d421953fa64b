import LambdaCalculus.CommandLine.Flag
import LambdaCalculus.Text.Digit

/-!
# Words of a command line

Each word of a command line is told apart by its form. A word that starts with a dash names a flag
if it is one of its spellings, perhaps with a value behind `=`, or the beginning of exactly one long
spelling, or a letter with text behind it. Failing that, it is a plain word if it looks like a
negative number or holds a space, and an unknown flag otherwise. The first `--` ends the flags: all
words behind it are plain.
-/

namespace LambdaCalculus.CommandLine

inductive Word where
  | plain (text : String)
  /-- The `--` that ends the flags. -/
  | terminator
  /-- A flag, in its short or long spelling, and the text attached to it. -/
  | flag (flag : Flag) (short : Bool) (attached : Option (List Char))
  /-- A word in the form of a flag that is none. -/
  | unknown (text : String)

/-- The flag of which a text is a whole spelling, and whether the spelling is short. -/
def exactFlag? (text : List Char) : Option (Flag × Bool) :=
  match text with
  | ['-', letter] => (Flag.letters.lookup letter).map ((·, true))
  | _ => (Flag.longSpellings.lookup (String.ofList text)).map ((·, false))

/-- What stands in front of the first equals sign of a text, and what behind it. -/
def splitAssignment (text : List Char) : List Char × Option (List Char) :=
  let name := text.takeWhile (· ≠ '=')
  match text.dropWhile (· ≠ '=') with
  | _ :: value => (name, some value)
  | [] => (name, none)

def longMatches (beginning : List Char) : List (String × Flag) :=
  Flag.longSpellings.filter fun (spelling, _) => beginning.isPrefixOf spelling.toList

def allDigits (text : List Char) : Bool := text.all fun c => (Text.digitValue? c).isSome

/-- Whether a text is a dash with a number behind it, whole or with a point; a line feed may
follow. -/
def looksNegative : List Char → Bool
  | '-' :: number =>
      let number := if number.getLast? = some '\n' then number.dropLast else number
      let whole := number.takeWhile (· ≠ '.')
      match number.dropWhile (· ≠ '.') with
      | [] => !whole.isEmpty && allDigits whole
      | _ :: part => allDigits whole && !part.isEmpty && allDigits part
  | _ => false

/-- A word that names no flag by its form. -/
def wordWithoutFlag (text : String) : Word :=
  let cs := text.toList
  if looksNegative cs ∨ ' ' ∈ cs then .plain text else .unknown text

/-- Tells a word in front of the first `--`. The error is what is said of a beginning of several
spellings. -/
def Word.ofText (text : String) : Except String Word :=
  let cs := text.toList
  match cs, exactFlag? cs with
  | _, some (f, short) => .ok (.flag f short none)
  | '-' :: second :: rest, none =>
      let (name, value?) := splitAssignment cs
      match value?, exactFlag? name with
      | some _, some (f, short) => .ok (.flag f short value?)
      | _, _ =>
          if second = '-' then
            match longMatches name with
            | [] => .ok (wordWithoutFlag text)
            | [(_, f)] => .ok (.flag f false value?)
            | several =>
                .error ("ambiguous option: " ++ text ++ " could match "
                  ++ String.intercalate ", " (several.map Prod.fst))
          else
            match Flag.letters.lookup second with
            | some f => .ok (.flag f true (some rest))
            | none => .ok (wordWithoutFlag text)
  | _, none => .ok (.plain text)

def Word.ofTexts : List String → Except String (List Word)
  | [] => .ok []
  | "--" :: rest => .ok (.terminator :: rest.map .plain)
  | text :: rest =>
      match Word.ofText text with
      | .error message => .error message
      | .ok word => (Word.ofTexts rest).map (word :: ·)

end LambdaCalculus.CommandLine
