import LambdaCalculus.Text.Unprintable

/-!
# Quoted text

A text is written between quotes so that it fits on one line of printable characters and can be read
back: the quote in use and the backslash have a backslash in front, line feed, carriage return and
tab are written `\n`, `\r` and `\t`, and every other unprintable character by the number of its code
point in two, four or eight hexadecimal digits. The quote is `'`, unless the text holds a `'` and no
`"`.
-/

namespace LambdaCalculus.Text

def hexDigit (n : Nat) : Char :=
  if n < 10 then Char.ofNat (0x30 + n) else Char.ofNat (0x57 + n)

/-- The last `width` hexadecimal digits of a number, most significant first. -/
def hexDigits : Nat → Nat → List Char
  | 0, _ => []
  | width + 1, n => hexDigits width (n / 16) ++ [hexDigit (n % 16)]

/-- The code point of a character behind a backslash and the letter of its width. -/
def codePointEscape (c : Char) : List Char :=
  if c.toNat < 0x100 then '\\' :: 'x' :: hexDigits 2 c.toNat
  else if c.toNat < 0x10000 then '\\' :: 'u' :: hexDigits 4 c.toNat
  else '\\' :: 'U' :: hexDigits 8 c.toNat

/-- A character as it is written between two of the given quotes. -/
def escapeChar (quote : Char) (c : Char) : List Char :=
  if c = quote ∨ c = '\\' then ['\\', c]
  else if c = '\n' then ['\\', 'n']
  else if c = '\r' then ['\\', 'r']
  else if c = '\t' then ['\\', 't']
  else if isUnprintable c then codePointEscape c
  else [c]

def quoteFor (s : List Char) : Char :=
  if '\'' ∈ s ∧ '"' ∉ s then '"' else '\''

def quotedChars (s : List Char) : List Char :=
  let quote := quoteFor s
  quote :: s.flatMap (escapeChar quote) ++ [quote]

/-- A text between quotes, on one line and with printable characters only. -/
def quoted (s : String) : String := String.ofList (quotedChars s.toList)

/-- A text between quotes, in which every character beyond ASCII is written by its code point as
well. -/
def asciiQuotedChars (s : List Char) : List Char :=
  (quotedChars s).flatMap fun c => if c.toNat < 0x80 then [c] else codePointEscape c

end LambdaCalculus.Text
