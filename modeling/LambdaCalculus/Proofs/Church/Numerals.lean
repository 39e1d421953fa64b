import LambdaCalculus.Church.Decoding
import LambdaCalculus.Proofs.Church.Arithmetic
import LambdaCalculus.Proofs.Reduction.Evaluation

/-!
# Numbers that can be read

`toNat?` reads a term of the form `λy.λz.y (... (y z))` and asks for two different names. A term
that denotes a number evaluates to one that can be read as it.

For a number other than zero, the names are different because both occur in the body. So it is
enough that the term is the number without names. For zero this is not enough, as `λx.λx.x` is the
same term without names and cannot be read. Here the evaluation is followed with names, and it turns
out that a zero is never made anew: it is one that was put in, and comes out with the names that it
had.
-/

namespace LambdaCalculus.Church

open LambdaCalculus.Tree

/-! ### What is read -/

theorem countApplications_eq_some_iff {f x : String} {b : Term} {n : Nat} :
    countApplications f x b = some n ↔ b = (app (var f))^[n] (var x) := by
  induction n generalizing b with
  | zero =>
      cases b with
      | app g a => cases g <;> simp [countApplications]
      | _ => simp [countApplications]
  | succ n ih =>
      rw [Function.iterate_succ_apply']
      cases b with
      | app g a =>
          cases g with
          | var g =>
              by_cases hg : g = f
              · simp [countApplications, hg, ih]
              · simp [countApplications, hg]
          | _ => simp [countApplications]
      | _ => simp [countApplications]

theorem toNat?_eq_some_iff {r : Term} {n : Nat} :
    toNat? r = some n ↔ ∃ y z, y ≠ z ∧ r = lam y (lam z ((app (var y))^[n] (var z))) := by
  constructor
  · intro h
    unfold toNat? at h
    split at h
    · rename_i y z b
      split at h
      · contradiction
      · rename_i hyz
        exact ⟨y, z, hyz, by rw [countApplications_eq_some_iff.mp h]⟩
    · contradiction
  · rintro ⟨y, z, hyz, rfl⟩
    rw [toNat?, if_neg hyz]
    exact countApplications_eq_some_iff.mpr rfl

theorem isClosed_of_toNat? {r : Term} {n : Nat} (h : toNat? r = some n) : r.IsClosed := by
  obtain ⟨y, z, _, rfl⟩ := toNat?_eq_some_iff.mp h
  exact isClosed_iteration y z n

theorem toNat?_numeral (n : Nat) : toNat? (numeral n : Term) = some n :=
  toNat?_eq_some_iff.mpr ⟨"f", "x", by decide, by rw [numeral, iterated_eq_iterate]⟩

/-! ### Without names -/

theorem nameless_of_toNat? {r : Term} {n : Nat} (h : toNat? r = some n) :
    r.nameless = (numeral n).nameless := by
  obtain ⟨y, z, hyz, rfl⟩ := toNat?_eq_some_iff.mp h
  rw [nameless_numeral, nameless, namelessUnder, namelessUnder, namelessUnder_eq_interpret,
    interpret_iterate]
  simp [interpret, Ref.ofName, hyz, Ref.shift]

theorem ofName_pair (y z x : String) :
    Ref.ofName [z, y] x = if x = z then .bound 0 else if x = y then .bound 1 else .free x := by
  simp only [Ref.ofName]
  split
  · rfl
  · split <;> rfl

theorem eq_iterate_of_namelessUnder {y z : String} {b : Term} {n : Nat}
    (h : b.namelessUnder [z, y] = (Nameless.app (.ref (.bound 1)))^[n] (.ref (.bound 0))) :
    b = (app (var y))^[n] (var z) ∧ (n ≠ 0 → y ≠ z) := by
  induction n generalizing b with
  | zero =>
      obtain ⟨x, rfl, hx⟩ := exists_var_of_namelessUnder h
      rw [ofName_pair] at hx
      split at hx
      · rename_i hxz
        exact ⟨by rw [hxz]; rfl, fun hn => (hn rfl).elim⟩
      · split at hx <;> contradiction
  | succ n ih =>
      rw [Function.iterate_succ_apply'] at h ⊢
      obtain ⟨g, a, rfl, hg, ha⟩ := exists_app_of_namelessUnder h
      obtain ⟨x, rfl, hx⟩ := exists_var_of_namelessUnder hg
      rw [ofName_pair] at hx
      split at hx
      · contradiction
      · split at hx
        · rename_i hxz hxy
          subst hxy
          exact ⟨by rw [(ih ha).1], fun _ => hxz⟩
        · contradiction

/-- A term that is a numeral without names is an iteration, whose names are different if there is
anything to iterate. -/
theorem exists_iteration_of_nameless {r : Term} {n : Nat} (h : r.nameless = (numeral n).nameless) :
    ∃ y z, r = lam y (lam z ((app (var y))^[n] (var z))) ∧ (n ≠ 0 → y ≠ z) := by
  rw [nameless_numeral, nameless] at h
  obtain ⟨y, c, rfl, hc⟩ := exists_lam_of_namelessUnder h
  obtain ⟨z, b, rfl, hb⟩ := exists_lam_of_namelessUnder hc
  obtain ⟨rfl, hyz⟩ := eq_iterate_of_namelessUnder hb
  exact ⟨y, z, rfl, hyz⟩

/-- A term that is a numeral without names can be read if it is not that of zero. -/
theorem toNat?_of_nameless {r : Term} {n : Nat} (h : r.nameless = (numeral n).nameless)
    (hn : n ≠ 0) :
    toNat? r = some n := by
  obtain ⟨y, z, rfl, hyz⟩ := exists_iteration_of_nameless h
  exact toNat?_eq_some_iff.mpr ⟨y, z, hyz hn, rfl⟩

/-! ### Numbers -/

/-- Whether a term evaluates to one that is read as a number. -/
def Denotes (n : Nat) (t : Term) : Prop := ∃ r, Evaluates t r ∧ toNat? r = some n

theorem not_hasSpineRedex_numeral (n : Nat) : ¬ HasSpineRedex (numeral n : Term) := by
  rw [numeral, hasSpineRedex_lam, hasSpineRedex_lam]
  cases n <;> simp [iterated]

theorem denotes_numeral (n : Nat) : Denotes n (numeral n) :=
  ⟨numeral n, evaluates_self (not_hasSpineRedex_numeral n), toNat?_numeral n⟩

theorem Denotes.isNumber {n : Nat} {t : Term} (h : Denotes n t) : IsNumber n t.nameless := by
  obtain ⟨r, hr, hn⟩ := h
  rw [IsNumber, ← nameless_of_toNat? hn]
  exact hr.spineSteps_namelessUnder []

theorem denotes_of_isNumber {n : Nat} {t : Term} (h : IsNumber n t.nameless) (hn : n ≠ 0) :
    Denotes n t := by
  obtain ⟨r, hr, hsame⟩ := (evaluates_self (not_hasSpineRedex_numeral n)).exists_of_spineSteps h
  exact ⟨r, hr, toNat?_of_nameless hsame hn⟩

theorem denotes_succ {n : Nat} {t : Term} (h : Denotes n t) : Denotes (n + 1) (succ.applyAll [t]) :=
  denotes_of_isNumber (isNumber_succ h.isNumber) (Nat.succ_ne_zero n)

/-! ### Zero in head position -/

theorem substitute_iterate (x : String) (N f a : Term) (n : Nat) :
    substitute x N ((app f)^[n] a) = (app (substitute x N f))^[n] (substitute x N a) := by
  induction n with
  | zero => rfl
  | succ n ih => rw [Function.iterate_succ_apply', substitute_app, ih, Function.iterate_succ_apply']

theorem exists_substitute_iteration {y z : String} (hyz : y ≠ z) (a : Term) (n : Nat) :
    ∃ w, w ∉ a.freeNames ∧ substitute y a (lam z ((app (var y))^[n] (var z))) =
      lam w ((app a)^[n] (var w)) := by
  obtain ⟨w, hwa, hwy, hsubstitute⟩ :=
    exists_substitute_lam (Ne.symm hyz) a ((app (var y))^[n] (var z))
  refine ⟨w, hwa, ?_⟩
  rw [hsubstitute]
  simp [substitute_iterate, hyz, hwy]

theorem Denotes.exists_evaluates_app {n : Nat} {t : Term} (h : Denotes n t) (a : Term) :
    ∃ w, w ∉ a.freeNames ∧
      ∀ r, Evaluates ((app a)^[n] (var w)) r → Evaluates (app t a) (lam w r) := by
  obtain ⟨r, hr, hn⟩ := h
  obtain ⟨y, z, hyz, rfl⟩ := toNat?_eq_some_iff.mp hn
  obtain ⟨w, hw, hsubstitute⟩ := exists_substitute_iteration hyz a n
  refine ⟨w, hw, ?_⟩
  intro r hbody
  apply Evaluates.contract a hr
  rw [hsubstitute]
  exact .lam w hbody

/-- Zero in head position leaves its second argument. -/
theorem Denotes.evaluates_of_zero {t c r : Term} (h : Denotes 0 t) (a : Term) (hc : Evaluates c r) :
    Evaluates (t.applyAll [a, c]) r := by
  obtain ⟨w, _, happ⟩ := h.exists_evaluates_app a
  apply Evaluates.contract c (happ (var w) (.var w))
  rwa [substitute_var, if_pos rfl]

end LambdaCalculus.Church
