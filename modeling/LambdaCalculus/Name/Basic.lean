import LambdaCalculus.Text.Digit

/-!
# Numbered names

A name may end in a *subscript*, a run of the digits `₀` to `₉`. `subscript base n` writes a number
behind a base and `split` takes a name apart again; both work on decimal digits, so numbers have any
size.

Every name splits into a base that ends in no subscript digit and the number that its run of digits
spells, or no number if the run is empty. A run may start with `₀`, so two names can split alike.
-/

namespace LambdaCalculus.Name

/-! ### Subscript digits -/

def subscriptDigit (d : Nat) : Char := Char.ofNat (0x2080 + d)

def subscriptValue (c : Char) : Nat := c.toNat - 0x2080

def isSubscriptDigit (c : Char) : Bool := 0x2080 ≤ c.toNat && c.toNat ≤ 0x2089

/-! ### Writing and splitting -/

/-- Writes the number `n` behind `base` in subscript digits. -/
def subscript (base : String) (n : Nat) : String :=
  base ++ String.ofList ((Text.decimalDigits n).map subscriptDigit)

/-- Splits a name into its base and the number of its subscript; a name without one has no
number. -/
def split (name : String) : String × Option Nat :=
  let reversed := name.toList.reverse
  let run := (reversed.takeWhile isSubscriptDigit).reverse
  let base := (reversed.dropWhile isSubscriptDigit).reverse
  (String.ofList base,
    if run.isEmpty then none else some (Text.ofDecimalDigits (run.map subscriptValue)))

/-- The least number a fresh variant of a name may carry: one above its own, and zero if it has
none. -/
def nextNumber : Option Nat → Nat
  | none => 0
  | some n => n + 1

/-- The first of the numbers `k`, `k + 1`, … whose subscripted `base` is not in `used`, looking at
most at `fuel` of them before settling on the next. -/
def firstUnused (base : String) (used : List String) : Nat → Nat → Nat
  | 0, k => k
  | fuel + 1, k => if subscript base k ∈ used then firstUnused base used fuel (k + 1) else k

/-- A name that is not in `used`: the seed if it is free to take, and otherwise its base with the
least number above its own that is not taken. Among `used.length + 1` numbered names one is not in
`used`, so that many trials suffice. -/
def fresh (seed : String) (used : List String) : String :=
  if seed ∈ used then
    let (base, number) := split seed
    subscript base (firstUnused base used used.length (nextNumber number))
  else seed

theorem fresh_of_not_mem {seed : String} {used : List String} (h : seed ∉ used) :
    fresh seed used = seed := by
  simp [fresh, h]

end LambdaCalculus.Name
