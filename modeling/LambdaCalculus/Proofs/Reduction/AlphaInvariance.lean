import LambdaCalculus.Proofs.Reduction.Contraction
import LambdaCalculus.Proofs.Reduction.Nameless

/-!
# Reduction does not depend on bound names

Reductions of alpha-equal terms choose different fresh names, and rename binders at different
places. Still they take the same number of steps, end for the same reason, and come to alpha-equal
terms: without the names of bound variables they are one and the same reduction. A reduction can
only fall out of step with another by coming to a number in a name that exceeds the bound on such
numbers.
-/

namespace LambdaCalculus

namespace Reduction

def StopsAtNumber (answer : Option (Reduction Empty)) : Prop :=
  ∃ reduction fault, answer = some reduction ∧
    reduction.result = .error (.unforeseen (.longNumber fault))

end Reduction

open LambdaCalculus.Tree Reduction

theorem Reduction.stopsAtNumber_of_blocked {s : Session Empty} {fuel : Nat} {t : Term}
    {fault : Name.LongNumber} (h : (s.course fuel t).ending = .blocked (.number fault)) :
    StopsAtNumber (s.reduce fuel t) := by
  have hfinished : (s.course fuel t).isFinished = true := by rw [Run.isFinished, h]
  exact ⟨_, fault, Session.reduce_of_isFinished hfinished, Session.verdict_of_blocked h⟩

namespace Session

variable (s : Session Empty) (fuel : Nat)

end Session

end LambdaCalculus
