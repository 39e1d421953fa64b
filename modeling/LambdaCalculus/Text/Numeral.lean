import LambdaCalculus.Text.Digit
import LambdaCalculus.Text.Quoted

/-!
# Reading whole numbers

A numeral is a run of decimal digits of any script, with a sign in front of it if one is wanted. One
underscore may stand between two digits. Blanks around a numeral do not count.

The run of digits is read before anything behind it is looked at, and a run that is too long is
refused at once, whatever follows. Leading zeros count to its length.
-/

namespace LambdaCalculus.Numeral

/-- The characters that may stand around a numeral: the blanks of ASCII without its separators, and
those above it. -/
def isBlank (c : Char) : Bool :=
  let n := c.toNat
  n == 0x20 || (0x09 ≤ n && n ≤ 0x0D) || n == 0x85 || n == 0xA0 || n ==
    0x1680 || (0x2000 ≤ n && n ≤ 0x200A)
    || n == 0x2028 || n == 0x2029 || n == 0x202F || n == 0x205F || n == 0x3000

def trim (s : List Char) : List Char :=
  ((s.dropWhile isBlank).reverse.dropWhile isBlank).reverse

/-! ### Faults -/

/-- The number of digits up to which numerals are read. -/
def digitLimit : Nat := 4300

inductive Fault where
  | malformed
  /-- The text begins with a run of too many digits, this many. -/
  | tooLong (digits : Nat)
deriving DecidableEq

/-- What is said of a text that spells no number; at most two hundred characters of it are shown. -/
def malformedMessage (text : String) : String :=
  "invalid literal for int() with base 10: " ++ String.ofList ((Text.quoted text).toList.take 200)

/-- What is said of too many digits. The number of digits is told where there is a numeral to count
them in. -/
def lengthMessage (digits : Option Nat) : String :=
  let count := match digits with
    | some n => ": value has " ++ toString n ++ " digits"
    | none => ""
  "Exceeds the limit (" ++ toString digitLimit ++ " digits) for integer string conversion" ++ count
    ++ "; use sys.set_int_max_str_digits() to increase the limit"

def Fault.message (text : String) : Fault → String
  | malformed => malformedMessage text
  | tooLong digits => lengthMessage (some digits)

/-! ### Reading -/

/-- The values of the digits at the front of a text, and what stands behind them; `due` says that a
digit has to come first. There are none if an underscore does not stand between two digits. -/
def readDigits : Bool → List Char → Option (List Nat × List Char)
  | due, [] => if due then none else some ([], [])
  | due, c :: rest =>
      match Text.digitValue? c with
      | some d => (readDigits false rest).map fun (digits, behind) => (d :: digits, behind)
      | none =>
          if due then none
          else if c = '_' then readDigits true rest
          else some ([], c :: rest)

def readUnsigned (text : List Char) : Except Fault Nat :=
  match readDigits true text with
  | none => .error .malformed
  | some (digits, behind) =>
      if digitLimit < digits.length then .error (.tooLong digits.length)
      else if behind.isEmpty then .ok (Text.ofDecimalDigits digits)
      else .error .malformed

def readSigned : List Char → Except Fault Int
  | '-' :: rest => (readUnsigned rest).map fun n => -(n : Int)
  | '+' :: rest => (readUnsigned rest).map Int.ofNat
  | digits => (readUnsigned digits).map Int.ofNat

def read (text : String) : Except Fault Int := readSigned (trim text.toList)

end LambdaCalculus.Numeral
