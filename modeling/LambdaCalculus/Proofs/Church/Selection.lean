import LambdaCalculus.Proofs.Church.Combinators
import LambdaCalculus.Proofs.Reduction.Evaluation

/-!
# Lazy selection

A projection of a pair, a choice by a truth value, and the choice of a handler by the side of a sum
lead along the spine to what they select, which comes there as it was put in. So they have an answer
exactly if it has one, whatever their contents are, and the part that is not selected is never
reduced.
-/

namespace LambdaCalculus

open LambdaCalculus.Tree LambdaCalculus.Nameless LambdaCalculus.Church

/-! ### Without names -/

namespace Church

theorem spineSteps_first_pair (a b : Nameless) :
    SpineSteps (first.nameless.applyAll [pair.nameless.applyAll [a, b]]) a := by
  apply (spineSteps_first _).trans
  apply (spineSteps_pair a b truth.nameless).trans
  exact spineSteps_truth a b

theorem spineSteps_second_pair (a b : Nameless) :
    SpineSteps (second.nameless.applyAll [pair.nameless.applyAll [a, b]]) b := by
  apply (spineSteps_second _).trans
  apply (spineSteps_pair a b falsity.nameless).trans
  exact spineSteps_falsity a b

theorem spineSteps_choice_truth (a b : Nameless) :
    SpineSteps (choice.nameless.applyAll [truth.nameless, a, b]) a :=
  (spineSteps_choice truth.nameless a b).trans (spineSteps_truth a b)

theorem spineSteps_choice_falsity (a b : Nameless) :
    SpineSteps (choice.nameless.applyAll [falsity.nameless, a, b]) b :=
  (spineSteps_choice falsity.nameless a b).trans (spineSteps_falsity a b)

theorem spineSteps_cases_left (v l r : Nameless) :
    SpineSteps (cases.nameless.applyAll [left.nameless.applyAll [v], l, r]) (.app l v) :=
  (spineSteps_cases (left.nameless.applyAll [v]) l r).trans (spineSteps_left v l r)

theorem spineSteps_cases_right (v l r : Nameless) :
    SpineSteps (cases.nameless.applyAll [right.nameless.applyAll [v], l, r]) (.app r v) :=
  (spineSteps_cases (right.nameless.applyAll [v]) l r).trans (spineSteps_right v l r)

end Church

/-! ### Answers -/

namespace Session

/-- With no limit on their steps and no bound on nested calls, the reductions of two terms both
answer, with terms that are alpha-equal, or neither ever answers. Only a number in a name that is
too long for the bound can make a difference. -/
def AnswersAlike (s : Session Empty) (t u : Term) : Prop :=
  (((∃ r, s.Returns t r) ↔ ∃ r, s.Returns u r) ∧ ∀ r r', s.Returns t r → s.Returns u r' →
    r.alphaEq r' = true)
    ∨ s.StopsAtNumber t ∨ s.StopsAtNumber u

theorem answersAlike_of_spineSteps (s : Session Empty) {t u : Term}
    (h : SpineSteps t.nameless u.nameless) :
    s.AnswersAlike t u := by
  by_cases ht : s.StopsAtNumber t
  · exact Or.inr (Or.inl ht)
  by_cases hu : s.StopsAtNumber u
  · exact Or.inr (Or.inr hu)
  have hforth (r : Term) (hr : Evaluates t r) : ∃ r', Evaluates u r' ∧ r'.nameless = r.nameless :=
    (exists_evaluates_congr h r.nameless).mp ⟨r, hr, rfl⟩
  left
  simp only [returns_iff_evaluates ht, returns_iff_evaluates hu]
  refine ⟨⟨?_, ?_⟩, ?_⟩
  · rintro ⟨r, hr⟩
    obtain ⟨r', hr', _⟩ := hforth r hr
    exact ⟨r', hr'⟩
  · rintro ⟨r, hr⟩
    obtain ⟨r', hr', _⟩ := hr.exists_of_spineSteps h
    exact ⟨r', hr'⟩
  · intro r r' hr hr'
    obtain ⟨r'', hr'', hsame⟩ := hforth r hr
    rw [alphaEq_iff, ← hsame, hr''.unique hr']

/-- A selection from a pair, by a truth value or by the side of a sum answers as what it selects
does, whatever the contents are. What is not selected may have no answer. Calls may be nested to any
depth on either side. -/
theorem answersAlike_selected (s : Session Empty) (a b v l r : Term) :
    s.AnswersAlike (first.applyAll [pair.applyAll [a, b]]) a ∧
    s.AnswersAlike (second.applyAll [pair.applyAll [a, b]]) b ∧
    s.AnswersAlike (choice.applyAll [truth, a, b]) a ∧
    s.AnswersAlike (choice.applyAll [falsity, a, b]) b ∧
    s.AnswersAlike (cases.applyAll [left.applyAll [v], l, r]) (app l v) ∧
    s.AnswersAlike (cases.applyAll [right.applyAll [v], l, r]) (app r v) := by
  refine ⟨?_, ?_, ?_, ?_, ?_, ?_⟩
  all_goals apply answersAlike_of_spineSteps
  · exact spineSteps_first_pair a.nameless b.nameless
  · exact spineSteps_second_pair a.nameless b.nameless
  · exact spineSteps_choice_truth a.nameless b.nameless
  · exact spineSteps_choice_falsity a.nameless b.nameless
  · exact spineSteps_cases_left v.nameless l.nameless r.nameless
  · exact spineSteps_cases_right v.nameless l.nameless r.nameless

end Session

end LambdaCalculus
