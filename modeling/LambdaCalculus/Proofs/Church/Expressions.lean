import LambdaCalculus.Proofs.Church.Zero

/-!
# Expressions over the encodings

Numeric and truth-valued expressions, nested to any depth, with their values and with the terms that
stand for them. A term is put together from encodings by application only, and its parts are left
unevaluated.

The reduction of such a term has an answer, and the value of the expression can be read from it.
-/

namespace LambdaCalculus

open LambdaCalculus.Tree LambdaCalculus.Church

namespace Church

mutual

inductive NumberExpr where
  | literal (n : Nat)
  | succ (e : NumberExpr)
  | plus (left right : NumberExpr)
  | times (left right : NumberExpr)
  | choice (condition : TruthExpr) (yes no : NumberExpr)

inductive TruthExpr where
  | literal (b : Bool)
  | neg (e : TruthExpr)
  | conj (left right : TruthExpr)
  | disj (left right : TruthExpr)
  | choice (condition : TruthExpr) (yes no : TruthExpr)
  | isZero (e : NumberExpr)

end

mutual

def NumberExpr.value : NumberExpr → Nat
  | .literal n => n
  | .succ e => e.value + 1
  | .plus e e' => e.value + e'.value
  | .times e e' => e.value * e'.value
  | .choice c e e' => if c.value then e.value else e'.value

def TruthExpr.value : TruthExpr → Bool
  | .literal b => b
  | .neg e => !e.value
  | .conj e e' => e.value && e'.value
  | .disj e e' => e.value || e'.value
  | .choice c e e' => if c.value then e.value else e'.value
  | .isZero e => e.value == 0

end

mutual

def NumberExpr.term : NumberExpr → Term
  | .literal n => numeral n
  | .succ e => Church.succ.applyAll [e.term]
  | .plus e e' => Church.plus.applyAll [e.term, e'.term]
  | .times e e' => Church.times.applyAll [e.term, e'.term]
  | .choice c e e' => Church.choice.applyAll [c.term, e.term, e'.term]

def TruthExpr.term : TruthExpr → Term
  | .literal b => truthValue b
  | .neg e => Church.neg.applyAll [e.term]
  | .conj e e' => Church.conj.applyAll [e.term, e'.term]
  | .disj e e' => Church.disj.applyAll [e.term, e'.term]
  | .choice c e e' => Church.choice.applyAll [c.term, e.term, e'.term]
  | .isZero e => Church.isZero.applyAll [e.term]

end

mutual

theorem NumberExpr.isClosed_term (e : NumberExpr) : e.term.IsClosed := by
  cases e with
  | literal n => exact isClosed_numeral n
  | succ e => exact IsClosed.applyAll (by decide) (by simp [e.isClosed_term])
  | plus e e' => exact IsClosed.applyAll (by decide) (by simp [e.isClosed_term, e'.isClosed_term])
  | times e e' => exact IsClosed.applyAll (by decide) (by simp [e.isClosed_term, e'.isClosed_term])
  | choice c e e' =>
      exact IsClosed.applyAll (by decide)
        (by simp [c.isClosed_term, e.isClosed_term, e'.isClosed_term])

theorem TruthExpr.isClosed_term (e : TruthExpr) : e.term.IsClosed := by
  cases e with
  | literal b => exact isClosed_truthValue b
  | neg e => exact IsClosed.applyAll (by decide) (by simp [e.isClosed_term])
  | conj e e' => exact IsClosed.applyAll (by decide) (by simp [e.isClosed_term, e'.isClosed_term])
  | disj e e' => exact IsClosed.applyAll (by decide) (by simp [e.isClosed_term, e'.isClosed_term])
  | choice c e e' =>
      exact IsClosed.applyAll (by decide)
        (by simp [c.isClosed_term, e.isClosed_term, e'.isClosed_term])
  | isZero e => exact IsClosed.applyAll (by decide) (by simp [e.isClosed_term])

end

/-! ### Values -/

mutual

theorem NumberExpr.denotes_value (e : NumberExpr) : Denotes e.value e.term := by
  cases e with
  | literal n => exact denotes_numeral n
  | succ e => exact denotes_succ e.denotes_value
  | plus e e' => exact denotes_plus e.isClosed_term e.denotes_value e'.denotes_value
  | times e e' =>
      exact denotes_times e.isClosed_term e'.isClosed_term e.denotes_value e'.denotes_value
  | choice c e e' =>
      exact denotes_choice c.isClosed_term e.isClosed_term e'.isClosed_term c.isTruth_value
        e.denotes_value
        e'.denotes_value

theorem TruthExpr.isTruth_value (e : TruthExpr) : IsTruth e.value e.term.nameless := by
  cases e with
  | literal b => exact .refl _
  | neg e => exact isTruth_neg e.isTruth_value
  | conj e e' => exact isTruth_conj e.isTruth_value e'.isTruth_value
  | disj e e' => exact isTruth_disj e.isTruth_value e'.isTruth_value
  | choice c e e' => exact isTruth_choice c.isTruth_value e.isTruth_value e'.isTruth_value
  | isZero e => exact isTruth_isZero e.denotes_value.isNumber

end

theorem toBool?_of_nameless {r : Term} {b : Bool} (h : r.nameless = (truthValue b).nameless) :
    toBool? r = some b := by
  cases b with
  | true =>
      have htruth : r.alphaEq truth = true := alphaEq_iff.mpr h
      rw [toBool?, if_pos htruth]
  | false =>
      have hfalsity : r.alphaEq falsity = true := alphaEq_iff.mpr h
      have htruth : ¬ r.alphaEq truth = true := by
        rw [alphaEq_iff, h]
        decide
      rw [toBool?, if_neg htruth, if_pos hfalsity]

theorem exists_evaluates_toBool? {b : Bool} {t : Term} (h : IsTruth b t.nameless) :
    ∃ r, Evaluates t r ∧ toBool? r = some b := by
  have hvalue : ¬ HasSpineRedex (truthValue b : Term) := by
    cases b <;> simp [truthValue, truth, falsity]
  obtain ⟨r, hr, hsame⟩ := (evaluates_self hvalue).exists_of_spineSteps h
  exact ⟨r, hr, toBool?_of_nameless hsame⟩

end Church

/-! ### Answers -/

/-- With no limit on its steps and no bound on nested calls, the reduction of the term of an
expression has an answer, from which the value of the expression can be read. Only a number in a
name that is too long for the bound can keep it from that. -/
theorem Session.returns_value (s : Session Empty) :
    (∀ e : NumberExpr, (∃ r, s.Returns e.term r ∧ toNat? r = some e.value) ∨
      s.StopsAtNumber e.term) ∧
    (∀ e : TruthExpr, (∃ r, s.Returns e.term r ∧ toBool? r = some e.value) ∨
      s.StopsAtNumber e.term) := by
  constructor
  · intro e
    obtain ⟨r, hr, hread⟩ := e.denotes_value
    exact (s.returns_of_evaluates hr).imp_left fun hreturns => ⟨r, hreturns, hread⟩
  · intro e
    obtain ⟨r, hr, hread⟩ := exists_evaluates_toBool? e.isTruth_value
    exact (s.returns_of_evaluates hr).imp_left fun hreturns => ⟨r, hreturns, hread⟩

end LambdaCalculus
