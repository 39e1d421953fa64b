import LambdaCalculus.Datum.Double
import LambdaCalculus.Text.Digit

/-!
# The shortest decimal of a double

A finite double is `m · 2 ^ q`, and the reals that round to it form an interval around it, half a
step wide on each side (a quarter step below a power of two), with its ends if `m` is even.
`Double.shortest` finds the fewest digits with which a decimal lies in that interval, and of the
decimals with so many digits the nearest to the value.

All arithmetic is exact: the value and the interval are counted in quarters of a step, and both
sides of a comparison are multiplied by the powers of two and ten that make them whole.

`Double.written` lays the digits out: positionally from `0.0001` up to below `10 ^ 16`, with a point
in any case, and otherwise with an exponent that has a sign and at least two digits.
-/

namespace LambdaCalculus

/-! ### Decimals -/

/-- The number `0.d₁d₂… · 10 ^ point`, by its digits. -/
structure Decimal where
  digits : List Nat
  point : Int
deriving DecidableEq

/-- A positive double as quarters of a step: the value and the ends of its interval, in units of
`2 ^ exponent`, and whether the ends belong to the interval. -/
structure Quarters where
  value : Nat
  low : Nat
  high : Nat
  exponent : Int
  closed : Bool

namespace Quarters

/-- The factor for the binary side of a comparison with a multiple of `10 ^ grid`. -/
def binaryFactor (q : Quarters) (grid : Int) : Nat :=
  Nat.pow 2 q.exponent.toNat * Nat.pow 10 (-grid).toNat

def decimalFactor (q : Quarters) (grid : Int) : Nat :=
  Nat.pow 2 (-q.exponent).toNat * Nat.pow 10 grid.toNat

/-- Whether `n · 10 ^ grid` lies in the interval. -/
def contains (q : Quarters) (grid : Int) (n : Nat) : Bool :=
  let low := q.low * q.binaryFactor grid
  let high := q.high * q.binaryFactor grid
  let point := n * q.decimalFactor grid
  if q.closed then low ≤ point && point ≤ high else low < point && point < high

/-- The multiple of `10 ^ grid` next to the value that lies in the interval: of two the nearer, of
two equally near ones the even one. -/
def onGrid? (q : Quarters) (grid : Int) : Option Nat :=
  let value := q.value * q.binaryFactor grid
  let unit := q.decimalFactor grid
  let below := value / unit
  let rest := value % unit
  match q.contains grid below, q.contains grid (below + 1) with
  | true, true =>
      if 2 * rest < unit then some below
      else if unit < 2 * rest then some (below + 1)
      else some (if below % 2 = 0 then below else below + 1)
  | true, false => some below
  | false, true => some (below + 1)
  | false, false => none

/-- The place of the leading digit: the value is at least `10 ^ (magnitude - 1)` and below
`10 ^ magnitude`. No positive double is below `10 ^ (-400)`. -/
def magnitude (q : Quarters) : Int :=
  let scaled :=
    q.value * Nat.pow 2 q.exponent.toNat * Nat.pow 10 400 / Nat.pow 2 (-q.exponent).toNat
  (Text.decimalDigits scaled).length - 400

/-- The decimal of fewest digits in the interval, looking at the digit counts from `count` on. -/
def search (q : Quarters) (count : Nat) : Nat → Decimal
  | 0 => ⟨[], q.magnitude⟩
  | tries + 1 =>
      let grid := q.magnitude - count
      match q.onGrid? grid with
      | none => q.search (count + 1) tries
      | some n =>
          let digits := Text.decimalDigits n
          ⟨(digits.reverse.dropWhile (· = 0)).reverse, grid + digits.length⟩

end Quarters

/-! ### Doubles -/

namespace Double

/-- The absolute value of a finite double other than zero, with its interval. -/
def quarters (x : Double) : Quarters :=
  let m := x.significand
  let lowGap := if x.fraction = 0 ∧ 1 < x.exponentBits then 1 else 2
  ⟨4 * m, 4 * m - lowGap, 4 * m + 2, x.exponent - 2, m % 2 = 0⟩

/-- The shortest decimal that rounds to the absolute value of a finite double other than zero.
Seventeen digits are always enough. -/
def shortest (x : Double) : Decimal := x.quarters.search 1 17

/-! ### Layout -/

def writeDigits (digits : List Nat) : String :=
  String.ofList (digits.map fun d => Char.ofNat (0x30 + d))

/-- Writes a decimal with a point among its digits. -/
def writePositional (d : Decimal) : String :=
  let before := d.digits.take d.point.toNat
  let behind := d.digits.drop d.point.toNat
  let whole :=
    if before.isEmpty then [0] else before ++ List.replicate (d.point.toNat - before.length) 0
  let part := List.replicate (-d.point).toNat 0 ++ behind
  writeDigits whole ++ "." ++ writeDigits (if part.isEmpty then [0] else part)

/-- Writes a decimal with one digit in front of the point and an exponent. -/
def writeScientific (d : Decimal) : String :=
  let exponent := d.point - 1
  let size := Text.decimalDigits exponent.natAbs
  let part := d.digits.drop 1
  writeDigits (d.digits.take 1) ++ (if part.isEmpty then "" else "." ++ writeDigits part) ++ "e"
    ++ (if exponent < 0 then "-" else "+") ++ (if size.length < 2 then "0" else "") ++
      writeDigits size

def written (x : Double) : String :=
  let sign := if x.isNegative then "-" else ""
  if ¬ x.isFinite then
    if x.fraction = 0 then sign ++ "inf" else "nan"
  else if x.exponentBits = 0 ∧ x.fraction = 0 then sign ++ "0.0"
  else
    let d := x.shortest
    sign ++ if -4 < d.point ∧ d.point ≤ 16 then writePositional d else writeScientific d

end Double

end LambdaCalculus
