import LambdaCalculus.Term.OneLine
import LambdaCalculus.Proofs.Text.Quoted

/-!
# Terms on one line are told apart

The one-line form of a term can be read from left to right: the kind of a node stands in front, its
names are quoted, and a quoted name ends by itself. So the form determines its term, whatever the
names are, and where it ends in a longer text.
-/

namespace LambdaCalculus.Tree

section Nodes

variable {α : Type} [Foreign α]

theorem oneLine_var (x : String) :
    (var x : Tree α).oneLine = "Variable(name=" ++ Text.quoted x ++ ")" := rfl

theorem oneLine_lam (x : String) (b : Tree α) :
    (lam x b).oneLine = "Abstraction(name=" ++ Text.quoted x ++ ", body=" ++ b.oneLine ++ ")" := rfl

theorem oneLine_app (f a : Tree α) :
    (app f a).oneLine =
      "Application(function=" ++ f.oneLine ++ ", argument=" ++ a.oneLine ++ ")" :=
  rfl

end Nodes

theorem oneLine_var_append (x : String) (rest : List Char) :
    (var x : Term).oneLine.toList ++ rest
      = "Variable(name=".toList ++ ((Text.quoted x).toList ++ (")".toList ++ rest)) := by
  rw [oneLine_var]
  simp only [String.toList_append, List.append_assoc]

theorem oneLine_lam_append (x : String) (b : Term) (rest : List Char) :
    (lam x b).oneLine.toList ++ rest
      = "Abstraction(name=".toList ++ ((Text.quoted x).toList ++ (", body=".toList ++
          (b.oneLine.toList ++ (")".toList ++ rest)))) := by
  rw [oneLine_lam]
  simp only [String.toList_append, List.append_assoc]

theorem oneLine_app_append (f a : Term) (rest : List Char) :
    (app f a).oneLine.toList ++ rest
      = "Application(function=".toList ++ (f.oneLine.toList ++ (", argument=".toList ++
          (a.oneLine.toList ++ (")".toList ++ rest)))) := by
  rw [oneLine_app]
  simp only [String.toList_append, List.append_assoc]

/-- The one-line form determines its term, and where it ends in a longer text. -/
theorem oneLine_append_inj {t u : Term} {rest rest' : List Char}
    (h : t.oneLine.toList ++ rest = u.oneLine.toList ++ rest') :
    t = u ∧ rest = rest' := by
  induction t generalizing u rest rest' with
  | var x =>
      rw [oneLine_var_append] at h
      cases u with
      | var y =>
          rw [oneLine_var_append, List.append_cancel_left_eq] at h
          obtain ⟨rfl, hend⟩ := Text.quoted_append_inj h
          exact ⟨rfl, List.append_cancel_left hend⟩
      | lam y c => simp [oneLine_lam_append] at h
      | app g c => simp [oneLine_app_append] at h
      | foreign v => exact v.elim
  | lam x b ih =>
      rw [oneLine_lam_append] at h
      cases u with
      | var y => simp [oneLine_var_append] at h
      | lam y c =>
          rw [oneLine_lam_append, List.append_cancel_left_eq] at h
          obtain ⟨rfl, hbehind⟩ := Text.quoted_append_inj h
          obtain ⟨rfl, hend⟩ := ih (List.append_cancel_left hbehind)
          exact ⟨rfl, List.append_cancel_left hend⟩
      | app g c => simp [oneLine_app_append] at h
      | foreign v => exact v.elim
  | app f a ihf iha =>
      rw [oneLine_app_append] at h
      cases u with
      | var y => simp [oneLine_var_append] at h
      | lam y c => simp [oneLine_lam_append] at h
      | app g c =>
          rw [oneLine_app_append, List.append_cancel_left_eq] at h
          obtain ⟨rfl, hbehind⟩ := ihf h
          obtain ⟨rfl, hend⟩ := iha (List.append_cancel_left hbehind)
          exact ⟨rfl, List.append_cancel_left hend⟩
      | foreign v => exact v.elim
  | foreign v => exact v.elim

/-- The one-line forms of two terms are equal only if the terms are, and no form is the beginning of
another one, whatever the names are. -/
theorem oneLine_identifies (t u : Term) :
    (t.oneLine = u.oneLine ↔ t = u) ∧ (t.oneLine.toList <+: u.oneLine.toList ↔ t = u) := by
  have hbegins : t.oneLine.toList <+: u.oneLine.toList ↔ t = u := by
    constructor
    · rintro ⟨rest, hrest⟩
      rw [← List.append_nil u.oneLine.toList] at hrest
      exact (oneLine_append_inj hrest).1
    · rintro rfl
      exact List.prefix_rfl
  refine ⟨⟨?_, congrArg oneLine⟩, hbegins⟩
  intro h
  exact hbegins.mp (h ▸ List.prefix_rfl)

/-- A name may look like the form of a term, and brings about its own quote. -/
example :
    (var "x'), argument=Variable(name=" : Term).oneLine =
      "Variable(name=\"x'), argument=Variable(name=\")" := by
  decide +kernel

end LambdaCalculus.Tree
