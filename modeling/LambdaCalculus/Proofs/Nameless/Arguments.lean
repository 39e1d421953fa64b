import LambdaCalculus.Proofs.Nameless.Spine
import LambdaCalculus.Proofs.Nameless.Substitution
import LambdaCalculus.Proofs.Reduction.Spine

/-!
# Functions applied to several arguments

A function of several arguments is a body below as many abstractions. Applied to all of them it is
led along the spine to its body with the arguments in place of its bound names, whatever the
arguments are and without a look at them. This covers partial applications too, whose body is an
abstraction again.
-/

namespace LambdaCalculus

namespace Nameless

def applyAll (function : Nameless) (arguments : List Nameless) : Nameless :=
  arguments.foldl app function

@[simp] theorem applyAll_nil (f : Nameless) : f.applyAll [] = f := rfl

@[simp] theorem applyAll_cons (f a : Nameless) (rest : List Nameless) :
    f.applyAll (a :: rest) = (app f a).applyAll rest := rfl

theorem SpineSteps.applyAll {f f' : Nameless} (h : SpineSteps f f') (arguments : List Nameless) :
    SpineSteps (f.applyAll arguments) (f'.applyAll arguments) := by
  induction arguments generalizing f f' with
  | nil => exact h
  | cons a rest ih => exact ih (h.function a)

end Nameless

namespace Tree

open Nameless (SpineSteps)

theorem instantiate_interpret_under (x : String) (σ : String → Nameless) (b : Term) (a : Nameless) :
    (b.interpret (under x σ)).instantiate a = b.interpret (Function.update σ x a) := by
  rw [Nameless.instantiate, bind_interpret]
  congr 1
  funext y
  by_cases hy : y = x
  · simp [under, hy, Nameless.bind]
  · simp only [under, if_neg hy, Function.update_of_ne hy]
    exact Nameless.instantiate_shift (σ y) a

/-- The interpretation in which each of the names has got a new value, one after the other. -/
def assign (σ : String → Nameless) (values : List (String × Nameless)) : String → Nameless :=
  values.foldl (fun σ value => Function.update σ value.1 value.2) σ

/-- A function that is applied to values for its bound names leads to its body with these values. -/
theorem spineSteps_assign (values : List (String × Nameless)) (σ : String → Nameless)
    (body : Term) :
    SpineSteps
      (((abstractAll (values.map Prod.fst) body).interpret σ).applyAll (values.map Prod.snd))
      (body.interpret (assign σ values)) := by
  induction values generalizing σ with
  | nil => exact .refl _
  | cons value rest ih =>
      have hcontract : SpineSteps
          (.app ((abstractAll (value.1 :: rest.map Prod.fst) body).interpret σ) value.2)
          ((abstractAll (rest.map Prod.fst) body).interpret
            (Function.update σ value.1 value.2)) := by
        rw [← instantiate_interpret_under]
        exact SpineSteps.single (.redex _ _)
      exact (hcontract.applyAll _).trans (ih _)

theorem spineSteps_nameless (t : Term) (values : List (String × Nameless)) {body : Term}
    (ht : t = abstractAll (values.map Prod.fst) body) :
    SpineSteps (t.nameless.applyAll (values.map Prod.snd))
      (body.interpret (assign (fun y => .ref (.free y)) values)) := by
  rw [ht, nameless_eq_interpret]
  exact spineSteps_assign values _ body

end Tree

end LambdaCalculus
