import LambdaCalculus.Name.Bounded

/-!
# Foreign values and obstacles

What the library asks of the values that may stand where a term should be: a written form for
messages and traces, and the name of their type for refusals. Values that do not exist need neither.

An operation that demands of a foreign value what only a term can do comes to a stop there: the
value is an obstacle. A number in a name is one too if it exceeds the bound on such numbers.
-/

namespace LambdaCalculus

/-- Types whose values may be leaves of a term. -/
class Foreign (α : Type) where
  inline : α → String
  typeName : α → String

instance : Foreign Empty := ⟨nofun, nofun⟩

/-- What an operation may demand of a term. -/
inductive Demand where
  /-- To be a term, so that it can be taken apart. -/
  | term
  | freeNames
  | comparison
  | drawing
deriving DecidableEq

/-- What an operation comes to a stop at. -/
inductive Obstacle (α : Type) where
  | foreign (value : α) (demand : Demand)
  | number (fault : Name.LongNumber)
deriving DecidableEq

end LambdaCalculus
