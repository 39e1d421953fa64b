import LambdaCalculus.Reduction.Nesting
import LambdaCalculus.Reduction.Step

/-!
# Runs

`evaluate room bound depth budget t` reduces `t` along its spine, with at most `budget`
contractions: the function side of an application first, then the redex that this may have made,
then its contractum in place of the application. A run keeps the contracta in order, the last term,
and why it ended. It is unfinished if its steps are used up and its last term still has a redex on
the spine. Where there is no room for another call it ends at once, in the middle of a step or
behind one, and its last term may then be normal or not.

A run with a limit on its steps is one such run. A run without a limit has an answer if some number
of steps is enough, and `reduce` tries the number that it is given.
-/

namespace LambdaCalculus

variable {α : Type}

/-- What a reduction has no room for. -/
inductive Lack where
  /-- To look at a term. -/
  | entering
  /-- To contract a redex. The step has been begun. -/
  | contracting
  /-- To show a contractum. It has been recorded. -/
  | showing
deriving DecidableEq

inductive Ending (α : Type) where
  | normal
  /-- The steps are used up and the last term has a redex on the spine. -/
  | unfinished
  | blocked (obstacle : Obstacle α)
  | tooDeep (lack : Lack)

/-- The contracta of a run, the term it led to, and why it ended. -/
structure Run (α : Type) where
  contracta : List (Tree α)
  last : Tree α
  ending : Ending α

namespace Run

def cons (contractum : Tree α) (run : Run α) : Run α :=
  { run with contracta := contractum :: run.contracta }

def after (contracta : List (Tree α)) (run : Run α) : Run α :=
  { run with contracta := contracta ++ run.contracta }

/-- A run inside surroundings that it leaves as they are. -/
def within (surround : Tree α → Tree α) (run : Run α) : Run α :=
  { run with last := surround run.last }

/-- The number of steps begun: those taken, and the one that was begun and not taken, if there is
one. -/
def begun (run : Run α) : Nat :=
  match run.ending with
  | .normal => run.contracta.length
  | .tooDeep .entering => run.contracta.length
  | .tooDeep .showing => run.contracta.length
  | _ => run.contracta.length + 1

/-- The contracta that there was room to show. -/
def shown (run : Run α) : List (Tree α) :=
  match run.ending with
  | .tooDeep .showing => run.contracta.dropLast
  | _ => run.contracta

/-- Whether the run ended for another reason than the number of its steps. -/
def isFinished (run : Run α) : Bool :=
  match run.ending with
  | .unfinished => false
  | _ => true

end Run

namespace Tree

private theorem sub_sub_one_lt {n k : Nat} (h : k < n) : n - k - 1 < n := by omega

/-- Reduces a term with at most `budget` contractions. The function side of an application is
reduced first, and uses up a part of the budget. If it becomes an abstraction, the redex is
contracted and its contractum takes the place of the application, at the same depth; otherwise the
application stays, with its argument as it was. -/
def evaluate (room : Room α) (bound : Name.Bound) (depth budget : Nat) (t : Tree α) : Run α :=
  if room.enters depth then
    match t with
    | var x => ⟨[], var x, .normal⟩
    | foreign v => ⟨[], foreign v, .normal⟩
    | lam x b => (evaluate room bound (depth + 1) budget b).within (lam x)
    | app f a =>
        let function := evaluate room bound (depth + 1) budget f
        match function.ending, function.last with
        | .normal, lam x b =>
            if _h : function.contracta.length < budget then
              if room.substitutes depth x a b then
                match obstacle bound x a b with
                | some o => ⟨function.contracta, app (lam x b) a, .blocked o⟩
                | none =>
                    let contractum := substitute x a b
                    let contracta := function.contracta ++ [contractum]
                    if room.shows depth contractum then
                      (evaluate room bound depth (budget - function.contracta.length - 1)
                        contractum).after contracta
                    else ⟨contracta, contractum, .tooDeep .showing⟩
              else ⟨function.contracta, app (lam x b) a, .tooDeep .contracting⟩
            else ⟨function.contracta, app (lam x b) a, .unfinished⟩
        | _, _ => function.within (app · a)
  else ⟨[], t, .tooDeep .entering⟩
termination_by (budget, t.size)
decreasing_by
  · simp only [size]; exact Prod.Lex.right _ (by omega)
  · simp only [size]; exact Prod.Lex.right _ (by omega)
  · exact Prod.Lex.left _ _ (sub_sub_one_lt _h)

/-- Reduces a term: with at most `limit` steps, a negative limit allowing none, or without a limit.
In the second case `fuel` bounds the search for the end, and there is no answer if the run is not
finished by then. -/
def reduce (room : Room α) (bound : Name.Bound) (limit : Option Int) (fuel : Nat) (t : Tree α) :
    Option (Run α) :=
  match limit with
  | some steps => some (evaluate room bound 0 steps.toNat t)
  | none =>
      let run := evaluate room bound 0 fuel t
      if run.isFinished then some run else none

def defaultLimit : Int := 10000

end Tree

end LambdaCalculus
