import LambdaCalculus.Failure.Unforeseen
import LambdaCalculus.Name.Request
import LambdaCalculus.Term.Alpha
import LambdaCalculus.Term.Layout
import LambdaCalculus.Term.Substitution

/-!
# Terms on request

What can be asked of a term that may have foreign leaves. A request is refused if it demands
something of a foreign leaf, and a drawing also if its margin is too wide. A request that is not
refused is answered by the operation of its name.
-/

namespace LambdaCalculus.Tree.Request

variable {α : Type} [Foreign α]

def freeNames (t : Tree α) : Except Unforeseen (List String) :=
  match t.foreignLeaf? with
  | some value => .error (.ofObstacle (.foreign value .freeNames))
  | none => .ok t.freeNames

def freshName (seed : String) (terms : List (Tree α)) : Except Unforeseen String :=
  match terms.findSome? foreignLeaf? with
  | some value => .error (.ofObstacle (.foreign value .freeNames))
  | none => Name.Request.fresh seed (terms.flatMap Tree.freeNames)

def substitute (x : String) (N M : Tree α) : Except Unforeseen (Tree α) :=
  match obstacle Name.Request.bound x N M with
  | some o => .error (.ofObstacle o)
  | none => .ok (Tree.substitute x N M)

def alphaEqUnder (there back : Pairing) (t u : Tree α) : Except Unforeseen Bool :=
  match incomparable? there back t u with
  | some value => .error (.ofObstacle (.foreign value .comparison))
  | none => .ok (Tree.alphaEqUnder there back t u)

/-- Draws a term whose first line stands at the given level. The margin of the first line is looked
at before the parts of the term, but after the term itself. -/
def drawAt (level : Int) : Tree α → Except Unforeseen String
  | foreign value => .error (.ofObstacle (.foreign value .drawing))
  | t =>
      match Extent.repetitionFault? 4 level, t.foreignLeaf? with
      | some fault, _ => .error (.extent fault)
      | none, some value => .error (.ofObstacle (.foreign value .drawing))
      | none, none => .ok (t.drawAt level)

/-! ### Answers -/

section Answers

variable {t u M N result : Tree α} {x seed name text : String} {terms : List (Tree α)}

theorem freeNames_eq_ok_iff {names : List String} :
    freeNames t = .ok names ↔ t.foreignLeaf? = none ∧ t.freeNames = names := by
  unfold freeNames
  split
  · rename_i value hleaf
    simp [hleaf]
  · rename_i hleaf
    simp [hleaf]

theorem freshName_eq_ok_iff :
    freshName seed terms = .ok name ↔
      terms.findSome? foreignLeaf? = none ∧
        Name.freshFault? Name.Request.bound seed (terms.flatMap Tree.freeNames) = none ∧
        Tree.freshName seed terms = name := by
  unfold freshName
  split
  · rename_i value hleaf
    simp [hleaf]
  · rename_i hleaf
    rw [hleaf, Name.Request.fresh_eq_ok_iff, Tree.freshName]
    simp

theorem substitute_eq_ok_iff :
    substitute x N M = .ok result ↔
      obstacle Name.Request.bound x N M = none ∧ Tree.substitute x N M = result := by
  unfold substitute
  split
  · rename_i o hobstacle
    simp [hobstacle]
  · rename_i hobstacle
    simp [hobstacle]

theorem alphaEqUnder_eq_ok_iff {there back : Pairing} {answer : Bool} :
    alphaEqUnder there back t u = .ok answer ↔
      incomparable? there back t u = none ∧ Tree.alphaEqUnder there back t u = answer := by
  unfold alphaEqUnder
  split
  · rename_i value hleaf
    simp [hleaf]
  · rename_i hleaf
    simp [hleaf]

theorem drawAt_eq_ok_iff {level : Int} :
    drawAt level t = .ok text ↔
      Extent.repetitionFault? 4 level = none ∧ t.foreignLeaf? = none ∧ t.drawAt level = text := by
  unfold drawAt
  split
  · simp [foreignLeaf?]
  · split
    · rename_i fault hfault
      simp [hfault]
    · rename_i value hfault hleaf
      simp [hfault, hleaf]
    · rename_i hfault hleaf
      simp [hfault, hleaf]

end Answers

end LambdaCalculus.Tree.Request
