/-!
# Terms of the untyped lambda calculus

`Tree α` is the abstract syntax: variables, abstractions and applications over named variables, and
leaves that hold a *foreign* value of type `α`, a value that stands where a term should be. `Term`
is the calculus itself: its foreign values come from the empty type, so its terms are built from the
first three constructors only.

Every operation of the library is written once, for `Tree α`. Foreign leaves are inert: they have no
free names and no operation changes them. Where one is in the way of an operation is told beside the
operation, and requests from outside are refused there.
-/

namespace LambdaCalculus

/-- A term over named variables whose leaves may also be foreign values. -/
inductive Tree (α : Type) where
  | var (name : String)
  | lam (name : String) (body : Tree α)
  | app (function argument : Tree α)
  | foreign (value : α)
deriving DecidableEq, BEq

/-- A term of the calculus: no leaf is foreign. -/
abbrev Term := Tree Empty

namespace Tree

variable {α : Type}

/-- The number of constructors of a term. -/
def size : Tree α → Nat
  | var _ => 1
  | lam _ body => body.size + 1
  | app function argument => function.size + argument.size + 1
  | foreign _ => 1

/-- The number of constructors on the longest way down into a term. -/
def depth : Tree α → Nat
  | var _ => 1
  | lam _ body => body.depth + 1
  | app function argument => max function.depth argument.depth + 1
  | foreign _ => 1

/-- The parts a term is drawn with, leftmost first. The bound name of an abstraction counts as its
first part. -/
def children : Tree α → List (Tree α)
  | var _ => []
  | lam name body => [var name, body]
  | app function argument => [function, argument]
  | foreign _ => []

def foreignLeaf? : Tree α → Option α
  | var _ => none
  | lam _ body => body.foreignLeaf?
  | app function argument => function.foreignLeaf?.or argument.foreignLeaf?
  | foreign value => some value

/-- Applies `function` to the arguments one after the other: `f.applyAll [a, b]` is `(f a) b`. -/
def applyAll (function : Tree α) (arguments : List (Tree α)) : Tree α :=
  arguments.foldl app function

@[simp] theorem applyAll_nil (f : Tree α) : f.applyAll [] = f := rfl

@[simp] theorem applyAll_cons (f a : Tree α) (rest : List (Tree α)) :
    f.applyAll (a :: rest) = (app f a).applyAll rest := rfl

end Tree

end LambdaCalculus
