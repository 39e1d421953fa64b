import LambdaCalculus.Term.Basic
import LambdaCalculus.Name.Basic

/-!
# Free names

`freeNames` lists the names that occur in a term outside of every abstraction that binds them, each
once, in the order of their first free occurrence. `freshName` picks a name that is free in none of
the given terms.
-/

namespace LambdaCalculus.Tree

variable {α : Type}

def freeNames : Tree α → List String
  | var name => [name]
  | lam name body => body.freeNames.filter (· ≠ name)
  | app function argument =>
      let left := function.freeNames
      left ++ argument.freeNames.filter (· ∉ left)
  | foreign _ => []

/-- A name made from `seed` that is free in none of the terms. -/
def freshName (seed : String) (terms : List (Tree α)) : String :=
  Name.fresh seed (terms.flatMap freeNames)

/-! ### Membership -/

@[simp] theorem mem_freeNames_var {x y : String} : x ∈ (var y : Tree α).freeNames ↔ x = y := by
  simp [freeNames]

@[simp] theorem mem_freeNames_lam {x y : String} {b : Tree α} :
    x ∈ (lam y b).freeNames ↔ x ∈ b.freeNames ∧ x ≠ y := by
  simp [freeNames]

@[simp] theorem mem_freeNames_app {x : String} {f a : Tree α} :
    x ∈ (app f a).freeNames ↔ x ∈ f.freeNames ∨ x ∈ a.freeNames := by
  simp only [freeNames, List.mem_append, List.mem_filter, decide_eq_true_eq]
  by_cases h : x ∈ f.freeNames <;> simp [h]

@[simp] theorem mem_freeNames_foreign {x : String} {v : α} :
    ¬ x ∈ (foreign v : Tree α).freeNames := by
  simp [freeNames]

end LambdaCalculus.Tree
