/-!
# Double-precision numbers

A double is given by its 64 bits. A finite one is `± m · 2 ^ q` with a whole *significand* `m` and
an exponent `q`; the others are the two infinities and those that are no number at all.
-/

namespace LambdaCalculus

/-- A double-precision number, given by its 64 bits: sign, eleven bits of exponent, 52 bits of
fraction. -/
structure Double where
  bits : UInt64
deriving DecidableEq

namespace Double

def isNegative (x : Double) : Bool := x.bits >>> 63 != 0

def exponentBits (x : Double) : Nat := ((x.bits >>> 52) &&& 0x7FF).toNat

def fraction (x : Double) : Nat := (x.bits &&& 0xFFFFFFFFFFFFF).toNat

def isFinite (x : Double) : Bool := x.exponentBits != 0x7FF

def significand (x : Double) : Nat :=
  if x.exponentBits = 0 then x.fraction else x.fraction + Nat.pow 2 52

def exponent (x : Double) : Int := if x.exponentBits = 0 then -1074 else x.exponentBits - 1075

/-- The whole number that a double is, if it is one. Both zeros are zero. -/
def whole? (x : Double) : Option Int :=
  let scaled := x.significand * Nat.pow 2 x.exponent.toNat
  let unit := Nat.pow 2 (-x.exponent).toNat
  if x.isFinite ∧ scaled % unit = 0 then
    some (if x.isNegative then -(scaled / unit : Nat) else (scaled / unit : Nat))
  else none

end Double

end LambdaCalculus
