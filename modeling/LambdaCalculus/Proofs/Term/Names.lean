import LambdaCalculus.Term.Substitution
import LambdaCalculus.Proofs.Name.Numbering

/-!
# The names in a term

`NamedBy p q` holds of a term if its binders have names with the property `p` and its variables,
free or bound, have names with the property `q`. Both can be listed, as `binderNames` and
`variableNames`. Substitution keeps such properties, as long as a fresh name that is made from a
binder may be used for a binder and its variables too. A fresh name consists of characters of the
name that it is made from and of subscript digits, so this is so for the property of not having a
certain other character in it.
-/

namespace LambdaCalculus

namespace Name

theorem not_mem_toList_subscript {c : Char} (hc : isSubscriptDigit c = false) {base : String}
    (h : c ∉ base.toList)
    (n : Nat) : c ∉ (subscript base n).toList := by
  intro hmem
  rw [toList_subscript, List.mem_append] at hmem
  rcases hmem with hbase | hdigit
  · exact h hbase
  · rw [isSubscriptDigit_of_mem_map hdigit] at hc
    contradiction

theorem mem_toList_of_mem_split {c : Char} {name : String} (h : c ∈ (split name).1.toList) :
    c ∈ name.toList := by
  simp only [split, String.toList_ofList, List.mem_reverse] at h
  exact List.mem_reverse.mp ((List.dropWhile_sublist _).mem h)

/-- A fresh name has only characters of the name that it is made from, and subscript digits. -/
theorem not_mem_toList_fresh {c : Char} (hc : isSubscriptDigit c = false) {seed : String}
    (h : c ∉ seed.toList)
    (used : List String) : c ∉ (fresh seed used).toList := by
  unfold fresh
  split
  · apply not_mem_toList_subscript hc
    intro hbase
    exact h (mem_toList_of_mem_split hbase)
  · exact h

theorem fresh_ne_empty {seed : String} (h : seed ≠ "") (used : List String) :
    fresh seed used ≠ "" := by
  unfold fresh
  split
  · intro hempty
    have hchars := congrArg String.toList hempty
    rw [toList_subscript] at hchars
    simp [Text.decimalDigits_ne_nil] at hchars
  · exact h

end Name

namespace Tree

variable {α : Type}

/-- Whether the binders of a term have names with the first property, and its variables names with
the second. -/
def NamedBy (p q : String → Prop) : Tree α → Prop
  | var x => q x
  | lam x b => p x ∧ b.NamedBy p q
  | app f a => f.NamedBy p q ∧ a.NamedBy p q
  | foreign _ => True

/-- The names of the binders of a term. -/
def binderNames : Tree α → List String
  | var _ => []
  | lam x b => x :: b.binderNames
  | app f a => f.binderNames ++ a.binderNames
  | foreign _ => []

/-- The names of the variables of a term, free or bound. -/
def variableNames : Tree α → List String
  | var x => [x]
  | lam _ b => b.variableNames
  | app f a => f.variableNames ++ a.variableNames
  | foreign _ => []

/-- Whether a character occurs in no name of a term. -/
def Lacks (c : Char) (t : Tree α) : Prop := t.NamedBy (c ∉ ·.toList) (c ∉ ·.toList)

theorem NamedBy.imp {p q p' q' : String → Prop} {t : Tree α} (h : t.NamedBy p q)
    (hp : ∀ x, p x → p' x)
    (hq : ∀ x, q x → q' x) : t.NamedBy p' q' := by
  induction t with
  | var x => exact hq x h
  | lam x b ih => exact ⟨hp x h.1, ih h.2⟩
  | app f a ihf iha => exact ⟨ihf h.1, iha h.2⟩
  | foreign v => trivial

theorem namedBy_iff {p q : String → Prop} {t : Tree α} :
    t.NamedBy p q ↔ (∀ x ∈ t.binderNames, p x) ∧ ∀ x ∈ t.variableNames, q x := by
  induction t with
  | var x => simp [NamedBy, binderNames, variableNames]
  | lam x b ih =>
      simp only [NamedBy, binderNames, variableNames, ih, List.forall_mem_cons, and_assoc]
  | app f a ihf iha =>
      simp only [NamedBy, binderNames, variableNames, ihf, iha, List.forall_mem_append]
      exact and_and_and_comm
  | foreign v => simp [NamedBy, binderNames, variableNames]

/-! ### Substitution -/

section Substitution

variable {p q : String → Prop}
variable (hfresh : ∀ seed used, p seed → p (Name.fresh seed used) ∧ q (Name.fresh seed used))

include hfresh

theorem namedBy_substitute (x : String) {N M : Tree α} (hN : N.NamedBy p q) (hM : M.NamedBy p q) :
    (substitute x N M).NamedBy p q := by
  induction hsize : M.size using Nat.strongRecOn generalizing x N M with
  | ind n ih =>
      subst hsize
      cases M with
      | var y =>
          rw [substitute_var]
          split
          · exact hN
          · exact hM
      | foreign v =>
          rw [substitute_foreign]
          trivial
      | app f a =>
          rw [substitute_app]
          constructor
          · exact ih f.size (by simp only [size]; omega) x hN hM.1 rfl
          · exact ih a.size (by simp only [size]; omega) x hN hM.2 rfl
      | lam y b =>
          have hb : b.size < (lam y b).size := by simp only [size]; omega
          obtain ⟨hy, hbody⟩ := hM
          rw [substitute_lam]
          split
          · exact ⟨hy, hbody⟩
          · split
            · -- the binder is renamed to a name that is made from its own
              obtain ⟨hbinder, hvariable⟩ := hfresh y ([N, b, var x].flatMap freeNames) hy
              have hrenamed : (substitute y (var (binderFor x N y b)) b).NamedBy p q :=
                ih _ hb y (N := var _) hvariable hbody rfl
              exact ⟨hbinder, ih _ (by rw [size_substitute_var]; exact hb) x hN hrenamed rfl⟩
            · exact ⟨hy, ih _ hb x hN hbody rfl⟩

end Substitution

end Tree

end LambdaCalculus
