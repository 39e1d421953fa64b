import LambdaCalculus.Term.Substitution

/-!
# Nesting

A reduction calls itself for the body of an abstraction and for the function side of an application,
so that its calls are nested as deep as the spine it has gone down. Inside of them it calls on a
substitution, on the free names that this needs, and on the written form of a term, and these call
themselves again. Where calls may be nested only so deep, a reduction can come to an end for that
reason alone.

A `Room` tells how deep calls may be nested, as seen from a depth of the reduction. Nothing is
supposed of it: what is shown for every room holds however calls are counted. `Room.within` is the
room in which a given number of calls may be open at a time.
-/

namespace LambdaCalculus

variable {α : Type}

/-- Where a reduction has room for calls inside of its own. A depth is the number of calls of the
reduction that are open around the one in question. -/
structure Room (α : Type) where
  /-- For a call of the reduction. -/
  enters : Nat → Bool
  /-- For substituting a term for a name in another term, as far as this goes. -/
  substitutes : Nat → String → Tree α → Tree α → Bool
  /-- For showing a contractum that has been recorded. -/
  shows : Nat → Tree α → Bool

def Room.unlimited : Room α := ⟨fun _ => true, fun _ _ _ _ => true, fun _ _ => true⟩

namespace Tree

/-! ### Counting calls -/

/-- The number of calls that are open at a time when `N` is substituted for `x` in a term. The free
names of the argument are asked for at an abstraction, and where it is renamed, for a new name,
those of the body too. -/
def substitutionDepth (x : String) (N : Tree α) (M : Tree α) : Nat :=
  match M with
  | var _ => 1
  | foreign _ => 1
  | app f a => max (substitutionDepth x N f) (substitutionDepth x N a) + 1
  | lam y b =>
      if y = x then 1
      else if y ∈ N.freeNames then
        let z := binderFor x N y b
        let toRename := max (max N.depth b.depth + 2) (substitutionDepth y (var z) b)
        max toRename (substitutionDepth x N (substitute y (var z) b)) + 1
      else max N.depth (substitutionDepth x N b) + 1
termination_by M.size
decreasing_by
  all_goals simp only [size, size_substitute_var]
  all_goals omega

/-- The number of calls that are open at a time when a term is written on one line: three for each
of its nodes, and one for a name. -/
def writingDepth (t : Tree α) : Nat := 3 * t.depth + 1

/-- The depth at which the deepest redex on the spine stands, if there is one. -/
def redexDepth? : Tree α → Option Nat
  | var _ => none
  | foreign _ => none
  | lam _ b => b.redexDepth?.map (· + 1)
  | app f _ =>
      match f.redexDepth?, f with
      | some depth, _ => some (depth + 1)
      | none, lam _ _ => some 0
      | none, _ => none

end Tree

/-- The calls that are open at a depth of a reduction: those around it, this one, and the one that
began the reduction. -/
def openCalls (depth : Nat) : Nat := depth + 2

/-- The room in which at most `deepest` calls may be open at a time. Contracta are written if they
are printed, by a call that registers them. -/
def Room.within (deepest : Nat) (printed : Bool) : Room α where
  enters depth := openCalls depth ≤ deepest
  substitutes depth x N M := openCalls depth + Tree.substitutionDepth x N M ≤ deepest
  shows depth contractum :=
    !printed || openCalls depth + 1 + contractum.writingDepth ≤ deepest

end LambdaCalculus
