import LambdaCalculus.Proofs.Church.Numerals

/-!
# Where a zero comes from

Sums, products and choices of closed terms that denote numbers denote the number that they should.
If it is not zero this follows from the arithmetic without names. A zero is followed with names,
through the partial application that is reduced below a binder before the second operand is there:

* `0 + t` waits as `λn.n`, and so it is `t` in the end; * `0 * t` waits as `λn.0`; * `(k + 1) * t`
waits as a term whose head is the operand that is to come, so if that is zero, it is skipped, and
what is left is a sum of zeros; * a choice waits as `λa.λb.a` or `λa.λb.b`.
-/

namespace LambdaCalculus.Church

open LambdaCalculus.Tree

theorem evaluates_app_lam {x : String} {b a r : Term} (hb : ¬ HasSpineRedex b)
    (hr : Evaluates (substitute x a b) r) :
    Evaluates (app (lam x b) a) r :=
  .contract a (evaluates_self (by rwa [hasSpineRedex_lam])) hr

/-- A function of more than one argument that gets a closed one is reduced below the binder for the
next. -/
theorem evaluates_partial {x y : String} {b a r : Term} (ha : a.IsClosed) (hyx : y ≠ x)
    (hb : ¬ HasSpineRedex b)
    (hr : Evaluates (substitute x a b) r) : Evaluates (app (lam x (lam y b)) a) (lam y r) := by
  apply evaluates_app_lam (by rwa [hasSpineRedex_lam])
  rw [substitute_lam, if_neg hyx, if_neg (ha.not_mem y)]
  exact hr.lam y

/-- A number that waits below a binder is kept, and keeps its names. -/
theorem denotes_of_constant {f t r : Term} {x : String} {n : Nat} (ht : t.IsClosed)
    (hf : Evaluates f (lam x r))
    (hread : toNat? r = some n) : Denotes n (app f t) := by
  have hr : ¬ HasSpineRedex r := by
    intro hredex
    exact hf.not_hasSpineRedex (hasSpineRedex_lam.mpr hredex)
  refine ⟨r, .contract t hf ?_, hread⟩
  rw [(isClosed_of_toNat? hread).substitute_eq ht]
  exact evaluates_self hr

/-! ### Sums -/

theorem evaluates_plus_app {s b : Term} (hs : s.IsClosed)
    (h : Evaluates (s.applyAll [succ, var "n"]) b) :
    Evaluates (app plus s) (lam "n" b) := by
  apply evaluates_partial hs (by decide) (by simp)
  simpa [isClosed_succ.substitute_eq hs] using h

theorem evaluates_zero_plus {s t r : Term} (hs : s.IsClosed) (hzero : Denotes 0 s)
    (ht : Evaluates t r) :
    Evaluates (plus.applyAll [s, t]) r := by
  apply Evaluates.contract t (evaluates_plus_app hs (hzero.evaluates_of_zero succ (.var "n")))
  rwa [substitute_var, if_pos rfl]

theorem denotes_plus {m n : Nat} {s t : Term} (hs : s.IsClosed) (hm : Denotes m s)
    (hn : Denotes n t) :
    Denotes (m + n) (plus.applyAll [s, t]) := by
  by_cases hzero : m = 0
  · subst hzero
    obtain ⟨r, hr, hread⟩ := hn
    rw [Nat.zero_add]
    exact ⟨r, evaluates_zero_plus hs hm hr, hread⟩
  · exact denotes_of_isNumber (isNumber_plus hm.isNumber hn.isNumber) (by omega)

/-! ### Products -/

theorem evaluates_times_app {s b : Term} (hs : s.IsClosed)
    (h : Evaluates (s.applyAll [app plus (var "n"), numeral 0]) b) :
    Evaluates (app times s) (lam "n" b) := by
  have hbody : (times : Term) =
      lam "m" (lam "n" ((var "m").applyAll [app plus (var "n"), numeral 0])) := rfl
  rw [hbody]
  apply evaluates_partial hs (by decide) (by simp)
  simpa [isClosed_plus.substitute_eq hs, (isClosed_numeral 0).substitute_eq hs] using h

theorem denotes_zero_times {s t : Term} (hs : s.IsClosed) (ht : t.IsClosed) (hzero : Denotes 0 s) :
    Denotes 0 (times.applyAll [s, t]) := by
  obtain ⟨r, hr, hread⟩ := denotes_numeral 0
  have hfunction := evaluates_times_app hs (hzero.evaluates_of_zero (app plus (var "n")) hr)
  exact denotes_of_constant ht hfunction hread

/-- If a sum gets the name of its second operand as the first one, the binder for the second operand
is renamed. -/
theorem exists_substitute_sum : ∃ (v : String) (f : Term), v ≠ "n" ∧
    substitute "m" (var "n") (lam "n" ((var "m").applyAll [succ, var "n"])) =
      lam v ((var "n").applyAll [f, var v]) := by
  obtain ⟨v, hvn, hvm, hrenamed⟩ :=
    exists_substitute_lam (by decide : "n" ≠ "m") (var "n") ((var "m").applyAll [succ, var "n"])
  refine ⟨v, substitute "m" (var "n") (substitute "n" (var v) succ), by simpa using hvn, ?_⟩
  rw [hrenamed]
  simp [hvm]

/-- A sum whose first operand is a name waits with this name as its head. -/
theorem exists_evaluates_plus_name (t : Term) :
    ∃ f, Evaluates (plus.applyAll [var "n", t]) ((var "n").applyAll [f, t]) := by
  obtain ⟨v, f, hvn, hsubstitute⟩ := exists_substitute_sum
  have hplus : Evaluates (app plus (var "n")) (lam v ((var "n").applyAll [f, var v])) := by
    apply evaluates_app_lam (by simp)
    rw [hsubstitute]
    exact evaluates_self (by simp)
  have hsecond : substitute v t ((var "n").applyAll [f, var v]) =
      (var "n").applyAll [substitute v t f, t] := by
    simp [Ne.symm hvn]
  refine ⟨substitute v t f, .contract t hplus ?_⟩
  rw [hsecond]
  exact evaluates_self (by simp)

/-- A product with a first factor other than zero waits with the second factor as its head, which is
still a name. -/
theorem exists_evaluates_times_app {k : Nat} {s : Term} (hs : s.IsClosed) (hk : Denotes (k + 1) s) :
    ∃ f, Evaluates (app times s)
      (lam "n" ((var "n").applyAll [f, (app (app plus (var "n")))^[k] (numeral 0)])) := by
  -- the numeral puts `k + 1` sums in a row, and only the first of them is on the spine
  obtain ⟨w, hw, happ⟩ := hk.exists_evaluates_app (app plus (var "n"))
  obtain ⟨f, hf⟩ := exists_evaluates_plus_name ((app (app plus (var "n")))^[k] (var w))
  rw [Function.iterate_succ_apply'] at happ
  refine ⟨substitute w (numeral 0) f, ?_⟩
  apply evaluates_times_app hs
  apply Evaluates.contract (numeral 0) (happ _ hf)
  have hnw : "n" ≠ w := by
    rintro rfl
    exact hw (by simp)
  have hplus := substitute_of_not_mem (isClosed_numeral 0) hw
  simp only [applyAll_cons, applyAll_nil, substitute_app, substitute_iterate, hplus, substitute_var,
    if_neg hnw]
  exact evaluates_self (by simp)

theorem denotes_iterate_zero_plus {t : Term} (ht : t.IsClosed) (hzero : Denotes 0 t) (k : Nat) :
    Denotes 0 ((app (app plus t))^[k] (numeral 0)) := by
  induction k with
  | zero => exact denotes_numeral 0
  | succ k ih =>
      obtain ⟨r, hr, hread⟩ := ih
      rw [Function.iterate_succ_apply']
      exact ⟨r, evaluates_zero_plus ht hzero hr, hread⟩

theorem denotes_times_zero {k : Nat} {s t : Term} (hs : s.IsClosed) (ht : t.IsClosed)
    (hk : Denotes (k + 1) s)
    (hzero : Denotes 0 t) : Denotes 0 (times.applyAll [s, t]) := by
  obtain ⟨f, hf⟩ := exists_evaluates_times_app hs hk
  obtain ⟨r, hr, hread⟩ := denotes_iterate_zero_plus ht hzero k
  refine ⟨r, .contract t hf ?_, hread⟩
  have hplus := isClosed_plus.substitute_eq ht "n"
  have hnumeral := (isClosed_numeral 0).substitute_eq ht "n"
  simp only [applyAll_cons, applyAll_nil, substitute_app, substitute_iterate, substitute_var, hplus,
    hnumeral]
  exact hzero.evaluates_of_zero _ hr

theorem denotes_times {m n : Nat} {s t : Term} (hs : s.IsClosed) (ht : t.IsClosed)
    (hm : Denotes m s)
    (hn : Denotes n t) : Denotes (m * n) (times.applyAll [s, t]) := by
  cases m with
  | zero =>
      rw [Nat.zero_mul]
      exact denotes_zero_times hs ht hm
  | succ k =>
      cases n with
      | zero => exact denotes_times_zero hs ht hm hn
      | succ l =>
          have hproduct : (k + 1) * (l + 1) ≠ 0 :=
            Nat.mul_ne_zero (Nat.succ_ne_zero k) (Nat.succ_ne_zero l)
          exact denotes_of_isNumber (isNumber_times hm.isNumber hn.isNumber) hproduct

/-! ### Choices -/

/-- A choice waits for both terms with the name of the selected one. -/
theorem evaluates_choice_app {b : Bool} {c : Term} (hc : c.IsClosed) (hb : IsTruth b c.nameless) :
    Evaluates (app choice c) (lam "a" (lam "b" (var (if b then "a" else "b")))) := by
  have hsteps : Nameless.SpineSteps (c.applyAll [var "a", var "b"]).nameless
      (var (if b then "a" else "b") : Term).nameless := by
    have hchoose := hb.choose (.ref (.free "a")) (.ref (.free "b"))
    cases b <;> exact hchoose
  obtain ⟨r, hr, hname⟩ := (Evaluates.var _).exists_of_spineSteps hsteps
  obtain ⟨x, rfl, hx⟩ := exists_var_of_namelessUnder hname
  obtain rfl := Ref.free.inj hx
  apply evaluates_partial hc (by decide) (by simp)
  simpa [substitute_lam, hc.not_mem] using hr.lam "b"

theorem denotes_choice {b : Bool} {m n : Nat} {c s t : Term} (hc : c.IsClosed) (hs : s.IsClosed)
    (ht : t.IsClosed)
    (hb : IsTruth b c.nameless) (hm : Denotes m s) (hn : Denotes n t) :
    Denotes (if b then m else n) (choice.applyAll [c, s, t]) := by
  have hchoice := evaluates_choice_app hc hb
  cases b with
  | true =>
      obtain ⟨r, hr, hread⟩ := hm
      have hfunction : Evaluates (choice.applyAll [c, s]) (lam "b" r) := by
        apply Evaluates.contract s hchoice
        simpa [substitute_lam, hs.not_mem] using hr.lam "b"
      exact denotes_of_constant ht hfunction hread
  | false =>
      obtain ⟨r, hr, hread⟩ := hn
      have hfunction : Evaluates (choice.applyAll [c, s]) (lam "b" (var "b")) := by
        apply Evaluates.contract s hchoice
        simpa [substitute_lam, hs.not_mem] using evaluates_self (by simp)
      refine ⟨r, .contract t hfunction ?_, hread⟩
      simpa using hr

end LambdaCalculus.Church
