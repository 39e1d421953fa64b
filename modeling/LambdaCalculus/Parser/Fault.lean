/-!
# Faults of a source text

Why a source text is no term, with the span of characters to point at. The first character has
position zero; the span reaches from `start` up to and without `stop`, and may lie one character
behind the end.
-/

namespace LambdaCalculus.Parser

inductive Cause where
  | emptySource
  /-- The source text ends where a term should begin. -/
  | missingTerm
  /-- A character stands where a term should begin. -/
  | strayCharacter (c : Char)
  /-- A group is not closed where its term ends. -/
  | openGroup
  | missingBoundName
  | missingDot
  /-- Something follows a complete term. -/
  | trailingInput
deriving DecidableEq

/-- A cause and the span to point at. -/
structure Fault where
  cause : Cause
  start : Nat
  stop : Nat
deriving DecidableEq

def Fault.here (cause : Cause) (position : Nat) : Fault := ⟨cause, position, position + 1⟩

end LambdaCalculus.Parser
