import LambdaCalculus.Proofs.Church.Numerals
import LambdaCalculus.Proofs.Nameless.Alpha

/-!
# Which terms are read as numbers

A term is read as a number if it is alpha-equal to the numeral of it, with a single exception:
`λx.λx.x` is alpha-equal to the numeral of zero and is not read.

Two equal binders have to be refused where something is iterated, because the name of what is
iterated would then be bound by the inner one. In a zero nothing is iterated. Its binders may be
equal, and still it is refused.
-/

namespace LambdaCalculus.Church

open LambdaCalculus.Tree

/-! ### The exception -/

/-- Whether a term is a zero whose second binder shadows the first. -/
def IsShadowedZero (t : Term) : Prop := ∃ x, t = lam x (lam x (var x))

theorem IsShadowedZero.alphaEq {t : Term} (h : IsShadowedZero t) :
    t.alphaEq (numeral 0) = true := by
  obtain ⟨x, rfl⟩ := h
  rw [alphaEq_iff]
  simp [nameless, namelessUnder, numeral, iterated, Ref.ofName]

theorem IsShadowedZero.toNat?_eq_none {t : Term} (h : IsShadowedZero t) : toNat? t = none := by
  obtain ⟨x, rfl⟩ := h
  rw [toNat?, if_pos rfl]

/-! ### All other terms -/

theorem toNat?_eq_some_iff_alphaEq {t : Term} {n : Nat} :
    toNat? t = some n ↔ t.alphaEq (numeral n) = true ∧ ¬ IsShadowedZero t := by
  constructor
  · intro h
    refine ⟨alphaEq_iff.mpr (nameless_of_toNat? h), ?_⟩
    intro hshadowed
    rw [hshadowed.toNat?_eq_none] at h
    contradiction
  · rintro ⟨halpha, hshadowed⟩
    obtain ⟨y, z, rfl, hyz⟩ := exists_iteration_of_nameless (alphaEq_iff.mp halpha)
    refine toNat?_eq_some_iff.mpr ⟨y, z, ?_, rfl⟩
    by_cases hn : n = 0
    · subst hn
      rintro rfl
      exact hshadowed ⟨y, rfl⟩
    · exact hyz hn

theorem toNat?_eq_none_iff_alphaEq {t : Term} :
    toNat? t = none ↔ (∀ n, t.alphaEq (numeral n) = false) ∨ IsShadowedZero t := by
  by_cases hshadowed : IsShadowedZero t
  · simp [hshadowed, hshadowed.toNat?_eq_none]
  · simp [hshadowed, Option.eq_none_iff_forall_ne_some, toNat?_eq_some_iff_alphaEq]

/-! ### Alpha-equal terms -/

theorem IsShadowedZero.of_toNat?_eq {t u : Term} (h : IsShadowedZero t)
    (halpha : t.alphaEq u = true)
    (hread : toNat? t = toNat? u) : IsShadowedZero u := by
  by_contra hu
  have hzero : u.alphaEq (numeral 0) = true := by
    rw [alphaEq_iff, ← alphaEq_iff.mp halpha]
    exact alphaEq_iff.mp h.alphaEq
  have hsome : toNat? u = some 0 := toNat?_eq_some_iff_alphaEq.mpr ⟨hzero, hu⟩
  rw [← hread, h.toNat?_eq_none] at hsome
  contradiction

theorem toNat?_eq_iff_of_alphaEq {t u : Term} (h : t.alphaEq u = true) :
    toNat? t = toNat? u ↔ (IsShadowedZero t ↔ IsShadowedZero u) := by
  constructor
  · intro hread
    constructor
    · intro ht
      exact ht.of_toNat?_eq h hread
    · intro hu
      exact hu.of_toNat?_eq (alphaEq_iff.mpr (alphaEq_iff.mp h).symm) hread.symm
  · intro hshadowed
    apply Option.ext
    intro n
    rw [toNat?_eq_some_iff_alphaEq, toNat?_eq_some_iff_alphaEq, alphaEq_iff, alphaEq_iff,
      alphaEq_iff.mp h, hshadowed]

/-- What is read from a term is told by the numerals that it is alpha-equal to, exactly if it is no
shadowed zero, and alpha-equal terms are read alike exactly if both or neither of them are shadowed
zeros. Shadowed zeros are alpha-equal to the numeral of zero and are not read. -/
theorem toNat?_up_to_bound_names (t : Term) :
    ((∀ n, toNat? t = some n ↔ t.alphaEq (numeral n) = true) ↔ ¬ IsShadowedZero t) ∧
    ((toNat? t = none ↔ ∀ n, t.alphaEq (numeral n) = false) ↔ ¬ IsShadowedZero t) ∧
    (∀ u : Term, t.alphaEq u = true →
      (toNat? t = toNat? u ↔ (IsShadowedZero t ↔ IsShadowedZero u))) ∧
    (IsShadowedZero t → t.alphaEq (numeral 0) = true ∧ toNat? t = none) := by
  refine ⟨?_, ?_, ?_, ?_⟩
  · constructor
    · intro hread hshadowed
      have hzero : toNat? t = some 0 := (hread 0).mpr hshadowed.alphaEq
      rw [hshadowed.toNat?_eq_none] at hzero
      contradiction
    · intro hshadowed n
      rw [toNat?_eq_some_iff_alphaEq, and_iff_left hshadowed]
  · constructor
    · intro hread hshadowed
      have hzero : t.alphaEq (numeral 0) = false := hread.mp hshadowed.toNat?_eq_none 0
      rw [hshadowed.alphaEq] at hzero
      contradiction
    · intro hshadowed
      rw [toNat?_eq_none_iff_alphaEq, or_iff_left hshadowed]
  · intro u h
    exact toNat?_eq_iff_of_alphaEq h
  · intro hshadowed
    exact ⟨hshadowed.alphaEq, hshadowed.toNat?_eq_none⟩

/-- `λg.λy.g y` and `λf.λx.f x` are read alike, and `λx.λx.x` is not read. -/
theorem toNat?_up_to_bound_names_one :
    (lam "g" (lam "y" (app (var "g") (var "y"))) : Term).alphaEq (numeral 1) = true ∧
      (toNat? (lam "g" (lam "y" (app (var "g") (var "y"))) : Term) = toNat? (numeral 1 : Term) ↔
        (IsShadowedZero (lam "g" (lam "y" (app (var "g") (var "y")))) ↔
          IsShadowedZero (numeral 1))) ∧
      IsShadowedZero (lam "x" (lam "x" (var "x"))) ∧
      (lam "x" (lam "x" (var "x")) : Term).alphaEq (numeral 0) = true ∧
      toNat? (lam "x" (lam "x" (var "x")) : Term) = none := by
  have hone : (lam "g" (lam "y" (app (var "g") (var "y"))) : Term).alphaEq (numeral 1) = true :=
    by decide
  have hshadowed : IsShadowedZero (lam "x" (lam "x" (var "x"))) := ⟨"x", rfl⟩
  obtain ⟨_, _, halike, _⟩ := toNat?_up_to_bound_names (lam "g" (lam "y" (app (var "g") (var "y"))))
  obtain ⟨_, _, _, hunread⟩ := toNat?_up_to_bound_names (lam "x" (lam "x" (var "x")))
  exact ⟨hone, halike _ hone, hshadowed, hunread hshadowed⟩

/-- `λx.λx.x` is not read, although it is alpha-equal to the numeral of zero, which is read. -/
theorem not_read_shadowed_zero :
    ¬ (toNat? (lam "x" (lam "x" (var "x")) : Term) = some 0 ↔
        (lam "x" (lam "x" (var "x")) : Term).alphaEq (numeral 0) = true) ∧
      ¬ (toNat? (lam "x" (lam "x" (var "x")) : Term) = none ↔
        ∀ n, (lam "x" (lam "x" (var "x")) : Term).alphaEq (numeral n) = false) ∧
      ¬ ((lam "x" (lam "x" (var "x")) : Term).alphaEq (numeral 0) = true →
        toNat? (lam "x" (lam "x" (var "x")) : Term) = toNat? (numeral 0 : Term)) := by
  have hzero : (lam "x" (lam "x" (var "x")) : Term).alphaEq (numeral 0) = true := by decide
  have hnone : toNat? (lam "x" (lam "x" (var "x")) : Term) = none := by decide
  refine ⟨?_, ?_, ?_⟩
  · rw [hnone]
    simp [hzero]
  · intro h
    have hno := h.mp hnone 0
    rw [hzero] at hno
    contradiction
  · intro h
    have hread := h hzero
    rw [hnone, toNat?_numeral] at hread
    contradiction

end LambdaCalculus.Church
