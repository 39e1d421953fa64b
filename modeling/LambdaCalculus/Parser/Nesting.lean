import LambdaCalculus.Parser.Machine

/-!
# Nesting of a source text

The machine keeps a stack of what is open. A reader that makes a call for every term and every atom
has calls open instead: two for each group, and three for each abstraction.
-/

namespace LambdaCalculus.Parser

def Opening.calls : Opening → Nat
  | group _ => 2
  | binder _ => 3

/-- The calls that are open for the constructs around a place. -/
def callsAround {α : Type} : List (Frame α) → Nat
  | [] => 0
  | frame :: rest => frame.opening.calls + callsAround rest

/-- The greatest number of calls that are open for constructs at a time while the machine runs. -/
def deepest {α : Type} (goal : Goal) (position : Nat) (state : State α) : List Char → Nat
  | [] => callsAround state.frames
  | c :: rest =>
      match move goal position state c with
      | .shift state' => max (callsAround state.frames) (deepest goal (position + 1) state' rest)
      | _ => callsAround state.frames

/-- The number of calls that are open at a time when a source text is parsed. Five are open where a
name is read that stands alone, and one more looks at a character. -/
def parsingDepth (source : String) : Nat :=
  6 + deepest (α := Empty) .term 0 ⟨.atom none, []⟩ source.toList

end LambdaCalculus.Parser
