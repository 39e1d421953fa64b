import LambdaCalculus.Proofs.Nameless.Parallel
import LambdaCalculus.Proofs.Reduction.Nameless
import LambdaCalculus.Proofs.Session.Reduction

/-!
# Head normal forms are found

A session contracts redexes on the spine only, the deepest one first. This misses no head normal
form: if any contractions lead from a term to one, with changes of bound names in between or not, a
reduction with no limit on its steps and no bound on nested calls has an answer.

Without the names of bound variables, contractions elsewhere can be put off behind those on the
spine, which therefore come to an end by themselves, and the order in which redexes on the spine are
contracted makes no difference.
-/

namespace LambdaCalculus

namespace Tree

variable {α : Type}

/-- Contracts one redex, anywhere in a term. -/
inductive Beta : Tree α → Tree α → Prop where
  | redex (x : String) (b a : Tree α) : Beta (app (lam x b) a) (substitute x a b)
  | lam (x : String) {b b' : Tree α} (h : Beta b b') : Beta (lam x b) (lam x b')
  | function {f f' : Tree α} (a : Tree α) (h : Beta f f') : Beta (app f a) (app f' a)
  | argument (f : Tree α) {a a' : Tree α} (h : Beta a a') : Beta (app f a) (app f a')

/-- Leads to a term by contractions of any redexes, in any order, and changes of bound names in
between. -/
def Reduces : Tree α → Tree α → Prop :=
  Relation.ReflTransGen fun t u => Beta t u ∨ t.alphaEq u = true

/-! ### Without names -/

theorem Beta.namelessUnder {t u : Term} (h : Beta t u) (binders : List String) :
    Nameless.Beta (t.namelessUnder binders) (u.namelessUnder binders) := by
  induction h generalizing binders with
  | redex x b a =>
      rw [namelessUnder_substitute]
      exact .redex _ _
  | lam x _ ih => exact .lam (ih (x :: binders))
  | function a _ ih => exact .function _ (ih binders)
  | argument f _ ih => exact .argument _ (ih binders)

theorem Reduces.nameless {t u : Term} (h : Reduces t u) :
    Relation.ReflTransGen Nameless.Beta t.nameless u.nameless := by
  induction h with
  | refl => exact .refl
  | tail _ hstep ih =>
      rcases hstep with hbeta | halpha
      · exact ih.tail (hbeta.namelessUnder [])
      · rwa [← alphaEq_iff.mp halpha]

theorem IsHeadNormal.spineNormalizes {t : Term} (h : t.IsHeadNormal) :
    t.nameless.SpineNormalizes 0 :=
  .normal (Nameless.not_spineStep_of_eq_none
    (spineStep_nameless_eq_none_iff.mpr h.not_hasSpineRedex))

theorem Reduces.exists_runFor_normal {t h : Term} (hred : Reduces t h) (hhead : h.IsHeadNormal) :
    ∃ n, (runFor none n t).ending = .normal := by
  obtain ⟨n, hn⟩ := Nameless.Beta.spineNormalizes hred.nameless hhead.spineNormalizes
  exact ⟨n, ending_runFor_of_spineNormalizes hn⟩

end Tree

open LambdaCalculus.Tree

/-- If contractions of any redexes, in any order, lead to a head normal form, a reduction with no
limit on its steps and no bound on nested calls has an answer, and answers a head normal form. Only
a bound on the numbers in names can keep it from that. -/
theorem Session.reduce_of_reduces (s : Session Empty) {t h : Term} (hred : Reduces t h)
    (hhead : h.IsHeadNormal) :
    ∃ (fuel : Nat) (reduction : Reduction Empty),
      (∀ more, fuel ≤ more →
        { s with limit := none, nesting := none }.reduce more t = some reduction) ∧
        ((∃ r, reduction.result = .ok r ∧ r.IsHeadNormal)
          ∨ s.bound ≠ none
            ∧ ∃ fault, reduction.result = .error (.unforeseen (.longNumber fault))) := by
  obtain ⟨n, hnormal⟩ := hred.exists_runFor_normal hhead
  have hends : (runFor s.bound n t).ending = .normal
      ∨ s.bound ≠ none ∧ ∃ fault, (runFor s.bound n t).ending = .blocked (.number fault) := by
    rcases runFor_bound_cases s.bound n t with hsame | ⟨fault, hbound, hblocked⟩
    · exact Or.inl (by rw [hsame, hnormal])
    · exact Or.inr ⟨hbound, fault, hblocked⟩
  have hfinished : (runFor s.bound n t).isFinished = true := by
    rcases hends with hending | ⟨_, fault, hblocked⟩
    · rw [Run.isFinished, hending]
    · rw [Run.isFinished, hblocked]
  refine ⟨n, _, fun _ => s.reduce_of_le_fuel hfinished, ?_⟩
  rcases hends with hending | ⟨hbound, fault, hblocked⟩
  · left
    refine ⟨(runFor s.bound n t).last, verdict_of_normal hending, ?_⟩
    exact isHeadNormal_of_not_hasSpineRedex (not_hasSpineRedex_last hending)
  · right
    exact ⟨hbound, fault, verdict_of_blocked hblocked⟩

/-- `(λx.λy.x) ((λz.z) a) ((λx.x x) (λx.x x))` leads to `a`, if the redex in its first argument is
contracted first and the last argument, which has no normal form, is dropped. So the reduction of
this term has an answer. -/
theorem Session.reduce_of_reduces_dropping :
    Reduces
        (app (app (lam "x" (lam "y" (var "x"))) (app (lam "z" (var "z")) (var "a")))
          (app (lam "x" (app (var "x") (var "x"))) (lam "x" (app (var "x") (var "x")))) : Term)
        (var "a") ∧
      (var "a" : Term).IsHeadNormal ∧
      ∃ (fuel : Nat) (reduction : Reduction Empty),
        (∀ more, fuel ≤ more →
          ({ limit := none } : Session Empty).reduce more
            (app (app (lam "x" (lam "y" (var "x"))) (app (lam "z" (var "z")) (var "a")))
              (app (lam "x" (app (var "x") (var "x"))) (lam "x" (app (var "x") (var "x"))))) =
                some reduction) ∧
          ∃ r, reduction.result = .ok r ∧ r.IsHeadNormal := by
  have hargument (d : Term) : Beta
      (app (app (lam "x" (lam "y" (var "x"))) (app (lam "z" (var "z")) (var "a"))) d)
      (app (app (lam "x" (lam "y" (var "x"))) (var "a")) d) := by
    simpa using Beta.function d
      (Beta.argument (lam "x" (lam "y" (var "x"))) (Beta.redex "z" (var "z") (var "a")))
  have hinner (d : Term) : Beta
      (app (app (lam "x" (lam "y" (var "x"))) (var "a")) d) (app (lam "y" (var "a")) d) := by
    simpa [substitute_lam] using Beta.function d (Beta.redex "x" (lam "y" (var "x")) (var "a"))
  have houter (d : Term) : Beta (app (lam "y" (var "a")) d) (var "a") := by
    simpa using Beta.redex "y" (var "a") d
  have hred (d : Term) : Reduces
      (app (app (lam "x" (lam "y" (var "x"))) (app (lam "z" (var "z")) (var "a"))) d) (var "a") :=
    .head (Or.inl (hargument d)) (.head (Or.inl (hinner d)) (.single (Or.inl (houter d))))
  have hhead : (var "a" : Term).IsHeadNormal := ⟨[], "a", [], rfl⟩
  obtain ⟨fuel, reduction, hanswer, hresult⟩ := Session.reduce_of_reduces {} (hred _) hhead
  exact ⟨hred _, hhead, fuel, reduction, hanswer, hresult.resolve_right fun hbound => hbound.1 rfl⟩

end LambdaCalculus
