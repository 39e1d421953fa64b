import LambdaCalculus.Proofs.Nameless.Alpha

/-!
# Comparison below given binders

A comparison may begin below binders that are given by its two lists. A name that is bound anew on
one side leaves its old entry behind in the list of the other direction, so the lists are not
inverse to each other, and the same binders can be recorded by different lists. All that counts is
what is found in them: where the innermost binder of every name is found in either direction, the
comparison is equality without the names of bound variables.
-/

namespace LambdaCalculus.Tree

variable {α : Type}

/-- Whether a list leads from the names of one row of binders to the names at the same places of
another. Both rows are innermost first, and the innermost binder of a name wins. -/
def Records (pairing : Pairing) (binders partners : List String) : Prop :=
  ∀ x, pairing.lookup x = (binders.zip partners).lookup x

/-- A comparison looks at what is found in its lists only. -/
theorem alphaEqUnder_congr {there there' back back' : Pairing}
    (hthere : ∀ x, there.lookup x = there'.lookup x)
    (hback : ∀ y, back.lookup y = back'.lookup y) (t u : Tree α) :
    alphaEqUnder there back t u = alphaEqUnder there' back' t u := by
  induction t generalizing there there' back back' u with
  | var x =>
      cases u with
      | var y => simp only [alphaEqUnder, namesMatch, hthere, hback]
      | _ => rfl
  | lam x b ih =>
      cases u with
      | lam y c =>
          simp only [alphaEqUnder]
          apply ih
          · intro z
            simp only [List.lookup_cons, hthere]
          · intro z
            simp only [List.lookup_cons, hback]
      | _ => rfl
  | app f a ihf iha =>
      cases u with
      | app g c => simp only [alphaEqUnder, ihf hthere hback, iha hthere hback]
      | _ => rfl
  | foreign v => cases u <;> rfl

/-- Alpha-equality is equality without the names of bound variables, also below binders whose names
differ or repeat on either side, and so it is an equivalence. -/
theorem alphaEqUnder_iff_namelessUnder :
    (∀ t u : Term, t.alphaEq u = true ↔ t.nameless = u.nameless) ∧
      Equivalence (fun t u : Term => t.alphaEq u = true) ∧
      ∀ (left right : List String) (there back : Pairing), left.length = right.length →
        Records there left right → Records back right left →
          ∀ t u : Term, alphaEqUnder there back t u = true ↔
            t.namelessUnder left = u.namelessUnder right := by
  refine ⟨fun t u => alphaEq_iff, ?_, ?_⟩
  · constructor
    · intro t
      exact alphaEq_iff.mpr rfl
    · intro t u h
      exact alphaEq_iff.mpr (alphaEq_iff.mp h).symm
    · intro t u v htu huv
      exact alphaEq_iff.mpr ((alphaEq_iff.mp htu).trans (alphaEq_iff.mp huv))
  · intro left right there back hlength hthere hback t u
    rw [alphaEqUnder_congr hthere hback]
    exact alphaEqUnder_zip hlength t u

/-- Below `λx.λy.λx` on the left and `λz.λx.λy` on the right, the names `x` and `y` have changed
places, the outermost binder on the left is shadowed, and the entry of its partner `z` is left
behind. -/
theorem alphaEqUnder_iff_namelessUnder_crossing :
    Records [("x", "y"), ("y", "x")] ["x", "y", "x"] ["y", "x", "z"] ∧
      Records [("y", "x"), ("x", "y"), ("z", "x")] ["y", "x", "z"] ["x", "y", "x"] ∧
      (alphaEqUnder [("x", "y"), ("y", "x")] [("y", "x"), ("x", "y"), ("z", "x")]
          (app (var "x") (var "y") : Term) (app (var "y") (var "x")) = true ↔
        (app (var "x") (var "y") : Term).namelessUnder ["x", "y", "x"]
          = (app (var "y") (var "x") : Term).namelessUnder ["y", "x", "z"]) ∧
      (alphaEqUnder [("x", "y"), ("y", "x")] [("y", "x"), ("x", "y"), ("z", "x")] (var "x" : Term)
        (var "z") = true ↔
        (var "x" : Term).namelessUnder ["x", "y", "x"] =
          (var "z" : Term).namelessUnder ["y", "x", "z"]) := by
  have hthere : Records [("x", "y"), ("y", "x")] ["x", "y", "x"] ["y", "x", "z"] := by
    intro w
    by_cases hx : w = "x"
    · simp [hx]
    · simp [List.lookup_cons, beq_eq_false_iff_ne.mpr hx]
  have hback : Records [("y", "x"), ("x", "y"), ("z", "x")] ["y", "x", "z"] ["x", "y", "x"] :=
    fun _ => rfl
  have hcompare :=
    alphaEqUnder_iff_namelessUnder.2.2 ["x", "y", "x"] ["y", "x", "z"] _ _ rfl hthere hback
  exact ⟨hthere, hback, hcompare _ _, hcompare _ _⟩

end LambdaCalculus.Tree
