import LambdaCalculus.Proofs.Name.Variant
import LambdaCalculus.Proofs.Parser.Names
import LambdaCalculus.Proofs.Reduction.Evaluation
import LambdaCalculus.Proofs.Reduction.Names

/-!
# What a session answers

A term that a session answers has no redex on its spine, however many there are in its arguments.
Every session that allows as many nested calls gives it back as it stands, under any limit and
without a step.

An answer has no names of its own. What is free in it is free in the term that was reduced, and its
binders have the names of binders of this term, or variants of them. So if a source text spells the
term, another one spells the answer.
-/

namespace LambdaCalculus

open LambdaCalculus.Tree

namespace Session

/-! ### Answers are left as they are -/

/-- A reduction that begins with what another one has come to makes no step. -/
theorem course_last {α : Type} {s s' : Session α} {fuel : Nat} {t : Tree α}
    (h : (s.course fuel t).ending = .normal)
    (hnesting : s'.nesting = none ∨ s'.nesting = s.nesting) (fuel' : Nat) :
    s'.course fuel' (s.course fuel t).last = ⟨[], (s.course fuel t).last, .normal⟩ := by
  refine evaluate_last ?_ h s'.bound _
  intro depth henters
  rcases hnesting with hnone | hsame
  · rw [room, hnone]
    rfl
  · -- printing makes no difference to how deep a reduction may call itself
    rw [room, hsame]
    rw [room] at henters
    cases hdeepest : s.nesting with
    | none => rfl
    | some deepest =>
        rw [hdeepest] at henters
        exact henters

variable {s : Session Empty} {t r : Term}

/-- A term that a session answers is what every session answers to it that allows as many nested
calls. No step is begun for it, and the steps that were recorded before are gone. -/
theorem reduce_of_answers (h : s.Answers t r) (s' : Session Empty)
    (hnesting : s'.nesting = none ∨ s'.nesting = s.nesting) (fuel : Nat) :
    s'.reduce fuel r =
      some { session := { s' with steps := [], begun := 0 }, printed := [], result := .ok r } := by
  obtain ⟨fuel', reduction, hreduce, hresult⟩ := h
  obtain ⟨hending, -, -, rfl⟩ := eq_answer_of_ok hreduce hresult
  have hcourse := course_last hending hnesting fuel
  rw [reduce_of_isFinished (by rw [hcourse]; rfl), hcourse]
  rfl

/-- `(λx.y x) ((λz.z) a)` becomes `y ((λz.z) a)`, which stays as it is even where no step is
allowed. -/
theorem reduce_of_answers_stuck :
    ({ limit := some 1 } : Session Empty).Answers
        (app (lam "x" (app (var "y") (var "x"))) (app (lam "z" (var "z")) (var "a")))
        (app (var "y") (app (lam "z" (var "z")) (var "a"))) ∧
      ({ limit := some (-1), steps := [("β", var "a")], begun := 1 } : Session Empty).reduce 0
          (app (var "y") (app (lam "z" (var "z")) (var "a"))) =
        some {
          session := { limit := some (-1) }
          printed := []
          result := .ok (app (var "y") (app (lam "z" (var "z")) (var "a"))) } := by
  have hanswers : ({ limit := some 1 } : Session Empty).Answers
      (app (lam "x" (app (var "y") (var "x"))) (app (lam "z" (var "z")) (var "a")))
      (app (var "y") (app (lam "z" (var "z")) (var "a"))) := by
    refine ⟨0, {
      session :=
        { limit := some 1, steps := [("β", app (var "y") (app (lam "z" (var "z")) (var "a")))],
          begun := 1 }
      printed := []
      result := .ok (app (var "y") (app (lam "z" (var "z")) (var "a"))) }, ?_, rfl⟩
    simp [Session.reduce, room, reduce_unlimited, stepsAllowed, runFor, step, contractRedex_none,
      Step.within, Run.cons, Run.begun, Run.shown, isNormal, Session.stepOutput, Session.verdict]
  exact ⟨hanswers, reduce_of_answers hanswers _ (Or.inl rfl) 0⟩

/-! ### Names -/

theorem Answers.contractions (h : s.Answers t r) : ∃ contracta, Contractions t contracta r := by
  obtain ⟨fuel, reduction, hreduce, hresult⟩ := h
  obtain ⟨_, _, _, rfl⟩ := eq_answer_of_ok hreduce hresult
  exact ⟨_, (s.keepsTo_course fuel t).contractions⟩

theorem Answers.namedBy {p q : String → Prop}
    (hfresh : ∀ seed used, p seed → p (Name.fresh seed used) ∧ q (Name.fresh seed used))
    (h : s.Answers t r)
    (ht : t.NamedBy p q) : r.NamedBy p q := by
  obtain ⟨contracta, hcontractions⟩ := h.contractions
  exact (hcontractions.namedBy hfresh ht).2

theorem Answers.exists_isVariant (h : s.Answers t r) :
    ∀ x ∈ r.binderNames, ∃ y ∈ t.binderNames, Name.IsVariant y x := by
  have ht : t.NamedBy (fun x => ∃ y ∈ t.binderNames, Name.IsVariant y x) fun _ => True :=
    namedBy_iff.mpr ⟨fun x hx => ⟨x, hx, .refl x⟩, fun _ _ => trivial⟩
  refine (namedBy_iff.mp (h.namedBy ?_ ht)).1
  rintro seed used ⟨y, hy, hseed⟩
  exact ⟨⟨y, hy, hseed.trans (Name.isVariant_fresh seed used)⟩, trivial⟩

theorem Answers.exists_parse (h : s.Answers t r) (ht : ∃ source, Parser.parse source = .ok t) :
    ∃ source, Parser.parse source = .ok r := by
  rw [Parser.exists_parse_iff_namedBy] at ht ⊢
  refine h.namedBy ?_ ht
  intro seed used hseed
  have hname := Parser.isIdentifier_fresh hseed used
  exact ⟨hname, hname⟩

/-- An answer has no free names but those of the term, and no binders but those of the term and
variants of them. It is spelled by a source text if the term is. -/
theorem names_of_answers (h : s.Answers t r) :
    r.freeNames ⊆ t.freeNames ∧
      (∀ x ∈ r.binderNames, ∃ y ∈ t.binderNames, Name.IsVariant y x) ∧
      ((∃ source, Parser.parse source = .ok t) → ∃ source, Parser.parse source = .ok r) := by
  obtain ⟨contracta, hcontractions⟩ := h.contractions
  exact ⟨hcontractions.freeNames_subset, h.exists_isVariant, h.exists_parse⟩

/-- `(λf.λy.f y) (λx.y)` becomes `λy₀.y`: the binder `y` is renamed, because the argument brings a
free `y` below it. -/
theorem names_of_answers_renamed :
    ({ limit := some 2 } : Session Empty).Answers
    (app (lam "f" (lam "y" (app (var "f") (var "y")))) (lam "x" (var "y")))
        (lam "y₀" (var "y")) ∧
      (lam "y₀" (var "y") : Term).freeNames ⊆
        (app (lam "f" (lam "y" (app (var "f") (var "y")))) (lam "x" (var "y")) : Term).freeNames ∧
      (∃ y ∈ (app (lam "f" (lam "y" (app (var "f") (var "y")))) (lam "x" (var "y"))
          : Term).binderNames,
        Name.IsVariant y "y₀") ∧
      ∃ source, Parser.parse source = .ok (lam "y₀" (var "y") : Term) := by
  have hanswers : ({ limit := some 2 } : Session Empty).Answers
      (app (lam "f" (lam "y" (app (var "f") (var "y")))) (lam "x" (var "y")))
        (lam "y₀" (var "y")) := by
    have hbinder : binderFor "f" (lam "x" (var "y")) "y" (app (var "f") (var "y") : Term) =
        "y₀" := by decide +kernel
    refine ⟨0, {
      session := {
        limit := some 2
        steps := [("β", lam "y₀" (app (lam "x" (var "y")) (var "y₀"))), ("β", var "y")]
        begun := 2 }
      printed := []
      result := .ok (lam "y₀" (var "y")) }, ?_, rfl⟩
    simp [Session.reduce, room, reduce_unlimited, stepsAllowed, runFor, step, contractRedex_none,
      substitute_lam, hbinder, Step.within, Run.cons, Run.begun, Run.shown, isNormal,
      Session.stepOutput, Session.verdict]
  obtain ⟨hfree, hbinders, hparse⟩ := names_of_answers hanswers
  exact ⟨hanswers, hfree, hbinders "y₀" (List.mem_singleton_self _),
    hparse ⟨"(λf.λy.f y) (λx.y)", rfl⟩⟩

end Session

end LambdaCalculus
