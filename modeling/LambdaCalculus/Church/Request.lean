import LambdaCalculus.Church.Decoding
import LambdaCalculus.Failure.Unforeseen
import LambdaCalculus.Report.Wording

/-!
# Encoded values on request

A numeral can be asked for with any datum, but there is one for natural numbers only. The truth
value of a term can be asked for unless a foreign leaf is in the way of comparing it.
-/

namespace LambdaCalculus.Church.Request

variable {α : Type}

/-- The numeral of a datum, which has to be a whole number of at least zero. -/
def numeral : Datum → Except Report (Tree α)
  | .int (.ofNat n) => .ok (Church.numeral n)
  | other => .error (Report.notNatural other)

def toBool? [Foreign α] (t : Tree α) : Except Unforeseen (Option Bool) :=
  let stop :=
    (t.incomparable? [] [] truth).or
      (if t.alphaEq truth then none else t.incomparable? [] [] falsity)
  match stop with
  | some value => .error (.ofObstacle (.foreign value .comparison))
  | none => .ok (Church.toBool? t)

/-! ### Answers -/

theorem numeral_eq_ok_iff {value : Datum} {t : Tree α} :
    numeral value = .ok t ↔ ∃ n : Nat, value = .int n ∧ Church.numeral n = t := by
  unfold numeral
  split
  · rename_i n
    constructor
    · intro h
      exact ⟨n, rfl, Except.ok.inj h⟩
    · rintro ⟨m, hm, rfl⟩
      obtain rfl := Int.ofNat.inj (Datum.int.inj hm)
      rfl
  · rename_i hother
    constructor
    · intro h
      contradiction
    · rintro ⟨n, rfl, -⟩
      exact (hother n rfl).elim

theorem eq_of_toBool? [Foreign α] {t : Tree α} {answer : Option Bool} (h : toBool? t = .ok answer) :
    Church.toBool? t = answer := by
  unfold toBool? at h
  dsimp only at h
  split at h
  · contradiction
  · exact Except.ok.inj h

end LambdaCalculus.Church.Request
