import LambdaCalculus.Proofs.Church.Expressions
import LambdaCalculus.Proofs.Nameless.Confluence
import LambdaCalculus.Proofs.Reduction.HeadNormalization

/-!
# Values do not depend on how a computation is written

Terms are convertible if contractions of any redexes, forwards and backwards, lead from one to the
other. What a reduction answers is convertible with the term that was reduced. So two answers for
convertible terms are convertible, and if a number can be read from both, both are numerals without
names. These have no redex, and by confluence they are the same numeral. The same holds for truth
values.

Without a value there is nothing of the kind: arguments are never reduced, so convertible terms may
have answers that are not alpha-equal.
-/

namespace LambdaCalculus

open LambdaCalculus.Tree LambdaCalculus.Church

namespace Tree

variable {α : Type}

/-- Connected by contractions of any redexes, forwards and backwards, and changes of bound names in
between. -/
def Convertible : Tree α → Tree α → Prop := Relation.EqvGen fun t u => Beta t u ∨ t.alphaEq u = true

theorem Convertible.nameless {t u : Term} (h : Convertible t u) :
    Relation.EqvGen Nameless.Beta t.nameless u.nameless := by
  induction h with
  | rel t u hstep =>
      rcases hstep with hbeta | halpha
      · exact .rel _ _ (hbeta.namelessUnder [])
      · rw [alphaEq_iff.mp halpha]
        exact .refl _
  | refl t => exact .refl _
  | symm t u _ ih => exact .symm _ _ ih
  | trans t u v _ _ ih ih' => exact .trans _ _ _ ih ih'

theorem Reduces.convertible {t u : Tree α} (h : Reduces t u) : Convertible t u :=
  Relation.EqvGen.reflTransGen_le_eqvGen _ _ _ h

/-! ### Answers are reached by contractions -/

theorem Evaluates.betas {t r : Term} (h : Evaluates t r) : Relation.ReflTransGen Beta t r := by
  induction h with
  | var x => exact .refl
  | lam x _ ih => exact Relation.ReflTransGen.lift (Tree.lam x) (fun _ _ => Beta.lam x) _ _ ih
  | stuck a _ _ ih => exact Relation.ReflTransGen.lift (app · a) (fun _ _ => Beta.function a) _ _ ih
  | @contract f b r x a _ _ ihf ihr =>
      have hfunction : Relation.ReflTransGen Beta (app f a) (app (Tree.lam x b) a) :=
        Relation.ReflTransGen.lift (app · a) (fun _ _ => Beta.function a) _ _ ihf
      exact (hfunction.tail (.redex x b a)).trans ihr

theorem Evaluates.reduces {t r : Term} (h : Evaluates t r) : Reduces t r :=
  Relation.ReflTransGen.mono (fun _ _ => Or.inl) _ _ h.betas

end Tree

/-! ### What is read has no redex -/

namespace Church

open Nameless (IsNormal)

theorem isNormal_numeral (n : Nat) : IsNormal (numeral n).nameless := by
  have hbody : IsNormal ((Nameless.app (.ref (.bound 1)))^[n] (.ref (.bound 0))) := by
    induction n with
    | zero => exact Nameless.isNormal_ref _
    | succ n ih =>
        rw [Function.iterate_succ_apply']
        exact ih.app_ref _
  rw [nameless_numeral]
  exact hbody.lam.lam

theorem isNormal_truthValue (b : Bool) : IsNormal (truthValue b).nameless := by
  cases b with
  | true => exact (Nameless.isNormal_ref _).lam.lam
  | false => exact (Nameless.isNormal_ref _).lam.lam

theorem eq_of_nameless_numeral {m n : Nat} (h : (numeral m).nameless = (numeral n).nameless) :
    m = n := by
  by_cases hn : n = 0
  · by_cases hm : m = 0
    · rw [hm, hn]
    · have hread := toNat?_of_nameless h.symm hm
      rw [toNat?_numeral] at hread
      exact (Option.some.inj hread).symm
  · have hread := toNat?_of_nameless h hn
    rw [toNat?_numeral] at hread
    exact Option.some.inj hread

theorem nameless_of_toBool? {r : Term} {b : Bool} (h : toBool? r = some b) :
    r.nameless = (truthValue b).nameless := by
  unfold toBool? at h
  split at h
  · rename_i htruth
    obtain rfl := Option.some.inj h
    exact alphaEq_iff.mp htruth
  · split at h
    · rename_i hfalsity
      obtain rfl := Option.some.inj h
      exact alphaEq_iff.mp hfalsity
    · contradiction

theorem eq_of_nameless_truthValue {b c : Bool}
    (h : (truthValue b).nameless = (truthValue c).nameless) : b = c := by
  have hread : toBool? (truthValue b) = some c := toBool?_of_nameless h
  rw [toBool?_of_nameless rfl] at hread
  exact Option.some.inj hread

end Church

/-! ### Answers -/

namespace Session

/-- Answers for convertible terms that have no redex without names are the same without names. -/
theorem nameless_eq_of_convertible {s s' : Session Empty} {t u r r' : Term}
    (hconvertible : Convertible t u)
    (hr : s.Answers t r) (hr' : s'.Answers u r') (hnormal : Nameless.IsNormal r.nameless)
    (hnormal' : Nameless.IsNormal r'.nameless) : r.nameless = r'.nameless :=
  hnormal.eq_of_eqvGen hnormal' hconvertible.nameless hr.evaluates.reduces.nameless
    hr'.evaluates.reduces.nameless

/-- If the reductions of convertible terms have answers, under any limits, and a number can be read
from both answers, it is the same number; likewise for truth values. -/
theorem read_eq_of_convertible {s s' : Session Empty} {t u r r' : Term}
    (hconvertible : Convertible t u)
    (hr : s.Answers t r) (hr' : s'.Answers u r') :
    (∀ m n, toNat? r = some m → toNat? r' = some n → m = n) ∧
      ∀ b c, toBool? r = some b → toBool? r' = some c → b = c := by
  constructor
  · intro m n hm hn
    have hrm := nameless_of_toNat? hm
    have hrn := nameless_of_toNat? hn
    have hsame :=
      nameless_eq_of_convertible hconvertible hr hr' (hrm ▸ isNormal_numeral m)
        (hrn ▸ isNormal_numeral n)
    rw [hrm, hrn] at hsame
    exact eq_of_nameless_numeral hsame
  · intro b c hb hc
    have hrb := nameless_of_toBool? hb
    have hrc := nameless_of_toBool? hc
    have hsame :=
      nameless_eq_of_convertible hconvertible hr hr' (hrb ▸ isNormal_truthValue b)
        (hrc ▸ isNormal_truthValue c)
    rw [hrb, hrc] at hsame
    exact eq_of_nameless_truthValue hsame

/-- `1 + 1` and the successor of one are convertible and have answers from which two is read. -/
theorem read_eq_of_convertible_two :
    ∃ r r' : Term,
      Convertible (plus.applyAll [numeral 1, numeral 1]) (Church.succ.applyAll [numeral 1] : Term) ∧
        ({ limit := none } : Session Empty).Answers (plus.applyAll [numeral 1, numeral 1]) r ∧
        ({ limit := none } : Session Empty).Answers (Church.succ.applyAll [numeral 1]) r' ∧
        toNat? r = some 2 ∧ (∀ n, toNat? r' = some n → 2 = n) := by
  obtain ⟨r, hr, hread⟩ := denotes_plus (isClosed_numeral 1) (denotes_numeral 1) (denotes_numeral 1)
  obtain ⟨r', hr', hread'⟩ := denotes_succ (denotes_numeral 1)
  have halpha : Convertible r r' :=
    .rel _ _
      (Or.inr (alphaEq_iff.mpr ((nameless_of_toNat? hread).trans (nameless_of_toNat? hread').symm)))
  have hconvertible := Relation.EqvGen.trans _ _ _ hr.reduces.convertible
    (.trans _ _ _ halpha (.symm _ _ hr'.reduces.convertible))
  have hanswers {t r : Term} (h : Evaluates t r) :
      ({ limit := none } : Session Empty).Answers t r :=
    ((Session.returns_of_evaluates {} h).resolve_right fun hbound => hbound.1 rfl).answers
  refine ⟨r, r', hconvertible, hanswers hr, hanswers hr', hread, ?_⟩
  intro n hn
  exact (read_eq_of_convertible hconvertible (hanswers hr) (hanswers hr')).1 2 n hread hn

end Session

end LambdaCalculus
