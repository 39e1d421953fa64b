import LambdaCalculus.Church.Encoding
import LambdaCalculus.Proofs.Nameless.Arguments
import LambdaCalculus.Proofs.Term.Substitution
import Mathlib.Logic.Function.Iterate

/-!
# What the encodings do with their arguments

Each encoding, applied to arguments, leads along the spine to its body with the arguments in place.
The arguments are any nameless terms, and nothing is asked of them.

A number or a truth value that is an argument has to lead to its encoding itself before it can do
its work. As no step on the spine is ever lost, this may happen at any later time.
-/

namespace LambdaCalculus.Church

open LambdaCalculus.Tree LambdaCalculus.Nameless

/-! ### Iterated application -/

theorem iterated_eq_iterate {α : Type} (n : Nat) :
    (iterated n : Tree α) = (app (var "f"))^[n] (var "x") := by
  induction n with
  | zero => rfl
  | succ n ih => rw [iterated, ih, Function.iterate_succ_apply']

theorem mem_freeNames_iterate {f a : Term} {n : Nat} {x : String}
    (h : x ∈ ((app f)^[n] a).freeNames) :
    x ∈ f.freeNames ∨ x ∈ a.freeNames := by
  induction n with
  | zero => exact Or.inr h
  | succ n ih =>
      rw [Function.iterate_succ_apply', mem_freeNames_app] at h
      exact h.elim Or.inl ih

theorem interpret_iterate (σ : String → Nameless) (f a : Term) (n : Nat) :
    ((app f)^[n] a).interpret σ = (Nameless.app (f.interpret σ))^[n] (a.interpret σ) := by
  induction n with
  | zero => rfl
  | succ n ih => rw [Function.iterate_succ_apply', interpret, ih, Function.iterate_succ_apply']

theorem isClosed_iteration (y z : String) (n : Nat) :
    (lam y (lam z ((app (var y))^[n] (var z))) : Term).IsClosed := by
  rw [isClosed_iff]
  intro x hx
  simp only [mem_freeNames_lam] at hx
  obtain ⟨⟨hx, hxz⟩, hxy⟩ := hx
  rcases mem_freeNames_iterate hx with hx | hx
  · exact hxy (mem_freeNames_var.mp hx)
  · exact hxz (mem_freeNames_var.mp hx)

theorem isClosed_numeral (n : Nat) : (numeral n : Term).IsClosed := by
  rw [numeral, iterated_eq_iterate]
  exact isClosed_iteration "f" "x" n

theorem isClosed_succ : (succ : Term).IsClosed := by decide

theorem isClosed_plus : (plus : Term).IsClosed := by decide

/-! ### Truth values -/

theorem spineSteps_truth (a b : Nameless) : SpineSteps (truth.nameless.applyAll [a, b]) a := by
  simpa [interpret, assign] using spineSteps_nameless truth [("x", a), ("y", b)] rfl

theorem spineSteps_falsity (a b : Nameless) : SpineSteps (falsity.nameless.applyAll [a, b]) b := by
  simpa [interpret, assign] using spineSteps_nameless falsity [("x", a), ("y", b)] rfl

theorem spineSteps_choice (c a b : Nameless) :
    SpineSteps (choice.nameless.applyAll [c, a, b]) (c.applyAll [a, b]) := by
  simpa [interpret, assign] using spineSteps_nameless choice [("p", c), ("a", a), ("b", b)] rfl

theorem spineSteps_conj (c d : Nameless) :
    SpineSteps (conj.nameless.applyAll [c, d]) (c.applyAll [d, c]) := by
  simpa [interpret, assign] using spineSteps_nameless conj [("p", c), ("q", d)] rfl

theorem spineSteps_disj (c d : Nameless) :
    SpineSteps (disj.nameless.applyAll [c, d]) (c.applyAll [c, d]) := by
  simpa [interpret, assign] using spineSteps_nameless disj [("p", c), ("q", d)] rfl

/-- A negation is a truth value again, and waits for what it is to choose from. -/
theorem spineSteps_neg (c : Nameless) : SpineSteps (neg.nameless.applyAll [c])
    (.lam (.lam (c.shift.shift.applyAll [.ref (.bound 0), .ref (.bound 1)]))) := by
  simpa [interpret, assign, under, Ref.shift] using spineSteps_nameless neg [("p", c)] rfl

/-! ### Natural numbers -/

theorem spineSteps_numeral (n : Nat) (f x : Nameless) :
    SpineSteps ((numeral n).nameless.applyAll [f, x]) ((Nameless.app f)^[n] x) := by
  simpa [iterated_eq_iterate, interpret_iterate, interpret, assign] using
    spineSteps_nameless (numeral n) [("f", f), ("x", x)] rfl

/-- A successor is a number again, and waits for what it is to iterate. -/
theorem spineSteps_succ (t : Nameless) : SpineSteps (succ.nameless.applyAll [t])
    (.lam (.lam
      (t.shift.shift.applyAll [.ref (.bound 1), .app (.ref (.bound 1)) (.ref (.bound 0))]))) := by
  simpa [interpret, assign, under, Ref.shift] using spineSteps_nameless succ [("n", t)] rfl

theorem spineSteps_plus (s t : Nameless) :
    SpineSteps (plus.nameless.applyAll [s, t]) (s.applyAll [succ.nameless, t]) := by
  simpa [interpret, assign, isClosed_succ.interpret_eq] using
    spineSteps_nameless plus [("m", s), ("n", t)] rfl

theorem spineSteps_times (s t : Nameless) :
    SpineSteps (times.nameless.applyAll [s, t])
      (s.applyAll [.app plus.nameless t, (numeral 0).nameless]) := by
  have hbody : (times : Term) =
      abstractAll ["m", "n"] ((var "m").applyAll [app plus (var "n"), numeral 0]) := rfl
  simpa [interpret, assign, isClosed_plus.interpret_eq, (isClosed_numeral 0).interpret_eq] using
    spineSteps_nameless times [("m", s), ("n", t)] hbody

theorem spineSteps_isZero (t : Nameless) :
    SpineSteps (isZero.nameless.applyAll [t])
      (t.applyAll [(lam "z" falsity).nameless, truth.nameless]) :=
  spineSteps_nameless isZero [("n", t)] rfl

/-! ### Pairs and sums -/

theorem spineSteps_pair (a b s : Nameless) :
    SpineSteps (pair.nameless.applyAll [a, b, s]) (s.applyAll [a, b]) := by
  simpa [interpret, assign] using spineSteps_nameless pair [("a", a), ("b", b), ("s", s)] rfl

theorem spineSteps_first (p : Nameless) :
    SpineSteps (first.nameless.applyAll [p]) (p.applyAll [truth.nameless]) :=
  spineSteps_nameless first [("p", p)] rfl

theorem spineSteps_second (p : Nameless) :
    SpineSteps (second.nameless.applyAll [p]) (p.applyAll [falsity.nameless]) :=
  spineSteps_nameless second [("p", p)] rfl

theorem spineSteps_left (v l r : Nameless) :
    SpineSteps (left.nameless.applyAll [v, l, r]) (.app l v) := by
  simpa [interpret, assign] using spineSteps_nameless left [("v", v), ("l", l), ("r", r)] rfl

theorem spineSteps_right (v l r : Nameless) :
    SpineSteps (right.nameless.applyAll [v, l, r]) (.app r v) := by
  simpa [interpret, assign] using spineSteps_nameless right [("v", v), ("l", l), ("r", r)] rfl

theorem spineSteps_cases (s l r : Nameless) :
    SpineSteps (cases.nameless.applyAll [s, l, r]) (s.applyAll [l, r]) := by
  simpa [interpret, assign] using spineSteps_nameless cases [("s", s), ("l", l), ("r", r)] rfl

end LambdaCalculus.Church
