import LambdaCalculus.Proofs.Church.Combinators

/-!
# Arithmetic without names

A nameless term is a number if it leads along the spine to the numeral of one, and a truth value
likewise. The arithmetic and logical encodings keep to this: applied to numbers and truth values,
which may be any terms that lead to their encodings, they are numbers and truth values again.

The arguments are put in place as they are. It is a numeral or a truth value in head position that
does the work, so each of them is led to its encoding there.
-/

namespace LambdaCalculus.Church

open LambdaCalculus.Tree LambdaCalculus.Nameless

def truthValue {α : Type} : Bool → Tree α
  | true => truth
  | false => falsity

/-- Whether a term leads along the spine to the numeral of a number. -/
def IsNumber (n : Nat) (t : Nameless) : Prop := SpineSteps t (numeral n).nameless

/-- Whether a term leads along the spine to the encoding of a truth value. -/
def IsTruth (b : Bool) (t : Nameless) : Prop := SpineSteps t (truthValue b).nameless

theorem isClosed_truthValue (b : Bool) : (truthValue b : Term).IsClosed := by
  cases b <;> decide

/-! ### Truth values -/

theorem IsTruth.choose {b : Bool} {c : Nameless} (h : IsTruth b c) (x y : Nameless) :
    SpineSteps (c.applyAll [x, y]) (if b then x else y) := by
  apply (h.applyAll [x, y]).trans
  cases b with
  | true => exact spineSteps_truth x y
  | false => exact spineSteps_falsity x y

theorem isTruth_choice {b d e : Bool} {c x y : Nameless} (hc : IsTruth b c) (hx : IsTruth d x)
    (hy : IsTruth e y) :
    IsTruth (if b then d else e) (choice.nameless.applyAll [c, x, y]) := by
  apply ((spineSteps_choice c x y).trans (hc.choose x y)).trans
  cases b with
  | true => exact hx
  | false => exact hy

theorem isTruth_conj {b d : Bool} {s t : Nameless} (hs : IsTruth b s) (ht : IsTruth d t) :
    IsTruth (b && d) (conj.nameless.applyAll [s, t]) := by
  apply ((spineSteps_conj s t).trans (hs.choose t s)).trans
  cases b with
  | true => exact ht
  | false => exact hs

theorem isTruth_disj {b d : Bool} {s t : Nameless} (hs : IsTruth b s) (ht : IsTruth d t) :
    IsTruth (b || d) (disj.nameless.applyAll [s, t]) := by
  apply ((spineSteps_disj s t).trans (hs.choose s t)).trans
  cases b with
  | true => exact hs
  | false => exact ht

theorem IsTruth.shift {b : Bool} {t : Nameless} (h : IsTruth b t) : IsTruth b t.shift := by
  rw [IsTruth, ← (isClosed_truthValue b).shift_nameless]
  exact SpineSteps.shift h

theorem isTruth_neg {b : Bool} {t : Nameless} (h : IsTruth b t) :
    IsTruth (!b) (neg.nameless.applyAll [t]) := by
  have hbody := h.shift.shift.choose (.ref (.bound 0)) (.ref (.bound 1))
  apply (spineSteps_neg t).trans (hbody.lam.lam.trans _)
  cases b <;> exact .refl _

/-! ### Natural numbers -/

theorem nameless_numeral (n : Nat) :
    (numeral n).nameless =
      .lam (.lam ((Nameless.app (.ref (.bound 1)))^[n] (.ref (.bound 0)))) := by
  rw [nameless, numeral, namelessUnder, namelessUnder, namelessUnder_eq_interpret,
    iterated_eq_iterate, interpret_iterate]
  rfl

theorem IsNumber.iterate {n : Nat} {t : Nameless} (h : IsNumber n t) (f x : Nameless) :
    SpineSteps (t.applyAll [f, x]) ((Nameless.app f)^[n] x) :=
  (h.applyAll [f, x]).trans (spineSteps_numeral n f x)

theorem IsNumber.shift {n : Nat} {t : Nameless} (h : IsNumber n t) : IsNumber n t.shift := by
  rw [IsNumber, ← (isClosed_numeral n).shift_nameless]
  exact SpineSteps.shift h

theorem isNumber_succ {n : Nat} {t : Nameless} (h : IsNumber n t) :
    IsNumber (n + 1) (succ.nameless.applyAll [t]) := by
  have hbody := h.shift.shift.iterate (.ref (.bound 1)) (.app (.ref (.bound 1)) (.ref (.bound 0)))
  rw [IsNumber, nameless_numeral]
  exact (spineSteps_succ t).trans hbody.lam.lam

/-- What adds `d` to a number, iterated `m` times, adds `m` times as much. -/
theorem isNumber_iterate {d : Nat} {f : Nameless}
    (hf : ∀ k x, IsNumber k x → IsNumber (d + k) (.app f x))
    {k : Nat} {x : Nameless} (hx : IsNumber k x) (m : Nat) :
    IsNumber (m * d + k) ((Nameless.app f)^[m] x) := by
  induction m with
  | zero => simpa using hx
  | succ m ih =>
      have hsum : (m + 1) * d + k = d + (m * d + k) := by
        rw [Nat.succ_mul]
        omega
      rw [Function.iterate_succ_apply', hsum]
      exact hf _ _ ih

theorem isNumber_plus {m n : Nat} {s t : Nameless} (hs : IsNumber m s) (ht : IsNumber n t) :
    IsNumber (m + n) (plus.nameless.applyAll [s, t]) := by
  have hsucc (k : Nat) (x : Nameless) (hx : IsNumber k x) : IsNumber (1 + k)
      (.app succ.nameless x) := by
    rw [Nat.add_comm]
    exact isNumber_succ hx
  have hsum := isNumber_iterate hsucc ht m
  rw [Nat.mul_one] at hsum
  exact ((spineSteps_plus s t).trans (hs.iterate _ _)).trans hsum

theorem isNumber_times {m n : Nat} {s t : Nameless} (hs : IsNumber m s) (ht : IsNumber n t) :
    IsNumber (m * n) (times.nameless.applyAll [s, t]) := by
  have hproduct :=
    isNumber_iterate (fun _ _ hx => isNumber_plus ht hx) (SpineSteps.refl (numeral 0).nameless) m
  exact ((spineSteps_times s t).trans (hs.iterate _ _)).trans hproduct

theorem isTruth_isZero {n : Nat} {t : Nameless} (h : IsNumber n t) :
    IsTruth (n == 0) (isZero.nameless.applyAll [t]) := by
  apply ((spineSteps_isZero t).trans (h.iterate _ _)).trans
  cases n with
  | zero => exact .refl _
  | succ n =>
      rw [Function.iterate_succ_apply']
      exact .single (.redex _ _)

end LambdaCalculus.Church
