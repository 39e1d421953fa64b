import LambdaCalculus.Term.Basic

/-!
# Church encodings

Truth values, natural numbers, pairs and sums as closed terms. A truth value selects one of two
arguments, a numeral applies its first argument so many times to its second, a pair hands its
components to a selector, and a sum hands its value to one of two handlers.

Arguments of a stuck application are never reduced, so the successor applies its numeral in the head
and puts the additional application innermost; addition and multiplication iterate it.
-/

namespace LambdaCalculus.Church

open LambdaCalculus.Tree

variable {α : Type}

/-! ### Truth values -/

def truth : Tree α := lam "x" (lam "y" (var "x"))

def falsity : Tree α := lam "x" (lam "y" (var "y"))

/-- Conjunction: the second operand decides if the first is true. -/
def conj : Tree α := lam "p" (lam "q" ((var "p").applyAll [var "q", var "p"]))

/-- Disjunction: the second operand decides if the first is false. -/
def disj : Tree α := lam "p" (lam "q" ((var "p").applyAll [var "p", var "q"]))

def neg : Tree α := lam "p" (lam "a" (lam "b" ((var "p").applyAll [var "b", var "a"])))

def choice : Tree α := lam "p" (lam "a" (lam "b" ((var "p").applyAll [var "a", var "b"])))

/-! ### Natural numbers -/

/-- The body of a numeral: `f` applied `n` times to `x`. -/
def iterated : Nat → Tree α
  | 0 => var "x"
  | n + 1 => app (var "f") (iterated n)

def numeral (n : Nat) : Tree α := lam "f" (lam "x" (iterated n))

def succ : Tree α :=
  lam "n" (lam "f" (lam "x" ((var "n").applyAll [var "f", app (var "f") (var "x")])))

/-- Addition: the successor applied as often as the first operand says. -/
def plus : Tree α := lam "m" (lam "n" ((var "m").applyAll [succ, var "n"]))

/-- Multiplication: addition of the second operand, applied to zero as often as the first operand
says. -/
def times : Tree α :=
  lam "m" (lam "n" ((var "m").applyAll [app plus (var "n"), lam "f" (lam "x" (var "x"))]))

def isZero : Tree α := lam "n" ((var "n").applyAll [lam "z" falsity, truth])

/-! ### Pairs and sums -/

def pair : Tree α := lam "a" (lam "b" (lam "s" ((var "s").applyAll [var "a", var "b"])))

def first : Tree α := lam "p" (app (var "p") (lam "a" (lam "b" (var "a"))))

def second : Tree α := lam "p" (app (var "p") (lam "a" (lam "b" (var "b"))))

def left : Tree α := lam "v" (lam "l" (lam "r" (app (var "l") (var "v"))))

def right : Tree α := lam "v" (lam "l" (lam "r" (app (var "r") (var "v"))))

/-- The choice between two handlers by the side of a sum. -/
def cases : Tree α := lam "s" (lam "l" (lam "r" ((var "s").applyAll [var "l", var "r"])))

/-! ### The table -/

/-- The encodings by the names under which they are offered. -/
def builtins : List (String × Tree α) := [
  ("TRUE", truth), ("FALSE", falsity), ("AND", conj), ("OR", disj), ("NOT", neg), ("IF", choice),
  ("SUCC", succ), ("PLUS", plus), ("MULT", times), ("ISZERO", isZero),
  ("PAIR", pair), ("FST", first), ("SND", second), ("LEFT", left), ("RIGHT", right),
    ("CASE", cases)]

end LambdaCalculus.Church
