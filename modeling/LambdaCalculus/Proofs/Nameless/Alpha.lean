import LambdaCalculus.Term.Alpha
import LambdaCalculus.Proofs.Nameless.Translation

/-!
# Alpha-equality without names

The comparison of two terms records the binders that it has passed in one list for each direction.
If the lists come from two lists of binders, taken pairwise, an occurrence on the left matches one
on the right exactly if both refer to the same place. So two terms are alpha-equal exactly if they
are equal without the names of their bound variables.
-/

namespace LambdaCalculus.Tree

theorem lookup_cons_of_ne {x c : String} (h : x ≠ c) (d : String) (pairing : Pairing) :
    ((c, d) :: pairing).lookup x = pairing.lookup x := by
  simp only [List.lookup_cons, beq_eq_false_iff_ne.mpr h]

/-- Occurrences match exactly if they refer to the same place. Where a name is bound anew on one
side only, its old partner is still found from the other side, but no longer leads back. -/
theorem namesMatch_zip {left right : List String} (hlength : left.length = right.length)
    (x y : String) :
    namesMatch (left.zip right) (right.zip left) x y = true ↔
      Ref.ofName left x = Ref.ofName right y := by
  induction left generalizing right with
  | nil =>
      cases right with
      | nil => simp [namesMatch, Ref.ofName]
      | cons d right => simp at hlength
  | cons c left ih =>
      cases right with
      | nil => simp at hlength
      | cons d right =>
          simp only [List.zip_cons_cons, Ref.ofName]
          by_cases hx : x = c
          · by_cases hy : y = d
            · simp [namesMatch, hx, hy]
            · have hd : d ≠ y := fun heq => hy heq.symm
              have hinnermost := (Ref.shift_ne_innermost (Ref.ofName right y)).symm
              simp [namesMatch, hx, hy, hd, hinnermost]
          · by_cases hy : y = d
            · have hc : c ≠ x := fun heq => hx heq.symm
              simp [namesMatch, hx, hy, hc, Ref.shift_ne_innermost]
            · have hshift : (Ref.ofName left x).shift = (Ref.ofName right y).shift
                  ↔ Ref.ofName left x = Ref.ofName right y := ⟨Ref.shift_inj, congrArg Ref.shift⟩
              rw [if_neg hx, if_neg hy, hshift, ← ih (Nat.succ.inj hlength)]
              simp only [namesMatch, lookup_cons_of_ne hx, lookup_cons_of_ne hy]

theorem alphaEqUnder_zip {left right : List String} (hlength : left.length = right.length)
    (t u : Term) :
    alphaEqUnder (left.zip right) (right.zip left) t u = true ↔
      t.namelessUnder left = u.namelessUnder right := by
  induction t generalizing left right u with
  | var x =>
      cases u with
      | var y => simp only [alphaEqUnder, namelessUnder, Nameless.ref.injEq, namesMatch_zip hlength]
      | foreign v => exact v.elim
      | _ => simp [alphaEqUnder, namelessUnder]
  | lam x b ih =>
      cases u with
      | lam y c =>
          have hbinders : (x :: left).length = (y :: right).length := congrArg (· + 1) hlength
          simpa only [alphaEqUnder, namelessUnder, Nameless.lam.injEq, List.zip_cons_cons]
            using ih hbinders c
      | foreign v => exact v.elim
      | _ => simp [alphaEqUnder, namelessUnder]
  | app f a ihf iha =>
      cases u with
      | app g c =>
          simp only [alphaEqUnder, namelessUnder, Nameless.app.injEq, Bool.and_eq_true, ihf hlength,
            iha hlength]
      | foreign v => exact v.elim
      | _ => simp [alphaEqUnder, namelessUnder]
  | foreign v => exact v.elim

/-- Two terms are alpha-equal exactly if they are equal without the names of their bound
variables. -/
theorem alphaEq_iff {t u : Term} : t.alphaEq u = true ↔ t.nameless = u.nameless :=
  alphaEqUnder_zip (Eq.refl ([] : List String).length) t u

end LambdaCalculus.Tree
