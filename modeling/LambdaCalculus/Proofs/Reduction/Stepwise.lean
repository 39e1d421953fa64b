import LambdaCalculus.Reduction.Run
import LambdaCalculus.Proofs.Reduction.Spine

/-!
# Runs one step at a time

`evaluate` goes down into the function side of an application and comes back with the contracta that
it made there. `runFor` looks at the whole term again before each contraction, and there is room for
it everywhere. What holds of single steps is carried over to runs by induction, and a run of an
application is put together from the run of its function side and that of the contractum.
-/

namespace LambdaCalculus

variable {α : Type}

namespace Run

@[simp] theorem after_nil (run : Run α) : run.after [] = run := rfl

theorem after_cons (contractum : Tree α) (contracta : List (Tree α)) (run : Run α) :
    (run.cons contractum).after contracta = run.after (contracta ++ [contractum]) := by
  simp [cons, after]

end Run

namespace Tree

/-- Takes steps from a term, at most the given number. -/
def runFor (bound : Name.Bound) : Nat → Tree α → Run α
  | 0, t => ⟨[], t, if t.isNormal then .normal else .unfinished⟩
  | n + 1, t =>
      match t.step bound with
      | .normal => ⟨[], t, .normal⟩
      | .blocked obstacle => ⟨[], t, .blocked obstacle⟩
      | .contract contractum whole => (runFor bound n whole).cons contractum

variable (bound : Name.Bound)

/-! ### The first step of a run -/

theorem runFor_of_not_hasSpineRedex {t : Tree α} (h : ¬ HasSpineRedex t) (n : Nat) :
    runFor bound n t = ⟨[], t, .normal⟩ := by
  cases n with
  | zero => simp [runFor, (isNormal_iff t).mpr h]
  | succ n => rw [runFor, (step_eq_normal_iff bound t).mpr h]

theorem runFor_zero_of_hasSpineRedex {t : Tree α} (h : HasSpineRedex t) :
    runFor bound 0 t = ⟨[], t, .unfinished⟩ := by
  have hnormal : t.isNormal = false := by
    rw [← Bool.not_eq_true, isNormal_iff]
    intro hnormal
    exact hnormal h
  simp [runFor, hnormal]

variable {bound}

theorem runFor_of_blocked {t : Tree α} {o : Obstacle α} (h : t.step bound = .blocked o) (n : Nat) :
    runFor bound (n + 1) t = ⟨[], t, .blocked o⟩ := by
  rw [runFor, h]

theorem runFor_of_contract {t contractum whole : Tree α}
    (h : t.step bound = .contract contractum whole) (n : Nat) :
    runFor bound (n + 1) t = (runFor bound n whole).cons contractum := by
  rw [runFor, h]

/-- Induction on a run: it ends at once, for one of three reasons, or begins with a contraction. -/
theorem runFor_induction (bound : Name.Bound) {motive : Nat → Tree α → Prop}
    (normal : ∀ n t, ¬ HasSpineRedex t → runFor bound n t = ⟨[], t, .normal⟩ → motive n t)
    (unfinished : ∀ t, HasSpineRedex t → runFor bound 0 t = ⟨[], t, .unfinished⟩ → motive 0 t)
    (blocked : ∀ n t o, t.step bound = .blocked o → runFor bound (n + 1) t = ⟨[], t, .blocked o⟩ →
      motive (n + 1) t)
    (contract : ∀ n t contractum whole, t.step bound = .contract contractum whole →
      runFor bound (n + 1) t = (runFor bound n whole).cons contractum → motive n whole →
        motive (n + 1) t)
    (n : Nat) (t : Tree α) : motive n t := by
  induction n generalizing t with
  | zero =>
      by_cases h : HasSpineRedex t
      · exact unfinished t h (runFor_zero_of_hasSpineRedex bound h)
      · exact normal 0 t h (runFor_of_not_hasSpineRedex bound h 0)
  | succ n ih =>
      cases hstep : t.step bound with
      | normal =>
          have h := (step_eq_normal_iff bound t).mp hstep
          exact normal (n + 1) t h (runFor_of_not_hasSpineRedex bound h (n + 1))
      | blocked o => exact blocked n t o hstep (runFor_of_blocked hstep n)
      | contract contractum whole =>
          exact contract n t contractum whole hstep (runFor_of_contract hstep n) (ih whole)

theorem not_hasSpineRedex_last {n : Nat} {t : Tree α} (h : (runFor bound n t).ending = .normal) :
    ¬ HasSpineRedex (runFor bound n t).last := by
  induction n, t using runFor_induction bound with
  | normal n t hredex hrun => rwa [hrun]
  | unfinished t _ hrun => simp [hrun] at h
  | blocked n t o _ hrun => simp [hrun] at h
  | contract n t contractum whole _ hrun ih =>
      rw [hrun] at h ⊢
      exact ih h

theorem ending_runFor_ne_tooDeep (n : Nat) (t : Tree α) (lack : Lack) :
    (runFor bound n t).ending ≠ .tooDeep lack := by
  induction n, t using runFor_induction bound with
  | normal n t _ hrun => simp [hrun]
  | unfinished t _ hrun => simp [hrun]
  | blocked n t o _ hrun => simp [hrun]
  | contract n t contractum whole _ hrun ih =>
      rw [hrun]
      exact ih

/-- A run that does not come to a normal term leaves a redex on the spine of its last term. -/
theorem hasSpineRedex_last {n : Nat} {t : Tree α} (h : (runFor bound n t).ending ≠ .normal) :
    HasSpineRedex (runFor bound n t).last := by
  induction n, t using runFor_induction bound with
  | normal n t _ hrun => simp [hrun] at h
  | unfinished t hredex hrun => rwa [hrun]
  | blocked n t o hstep hrun =>
      have hnormal : t.step bound ≠ .normal := by simp [hstep]
      rw [hrun]
      exact Classical.not_not.mp (mt (step_eq_normal_iff bound t).mpr hnormal)
  | contract n t contractum whole _ hrun ih =>
      rw [hrun] at h ⊢
      exact ih h

/-! ### Runs with more or fewer steps -/

/-- Allowing more steps changes nothing about a run that is finished. -/
theorem runFor_of_isFinished {n m : Nat} {t : Tree α} (h : (runFor bound n t).isFinished = true)
    (hle : n ≤ m) : runFor bound m t = runFor bound n t := by
  induction n, t using runFor_induction bound generalizing m with
  | normal n t hredex hrun => rw [hrun, runFor_of_not_hasSpineRedex bound hredex]
  | unfinished t _ hrun => simp [hrun, Run.isFinished] at h
  | blocked n t o hstep hrun =>
      obtain ⟨m, rfl⟩ := Nat.exists_eq_succ_of_ne_zero (Nat.ne_zero_of_lt hle)
      rw [hrun, runFor_of_blocked hstep]
  | contract n t contractum whole hstep hrun ih =>
      obtain ⟨m, rfl⟩ := Nat.exists_eq_succ_of_ne_zero (Nat.ne_zero_of_lt hle)
      rw [hrun] at h
      rw [hrun, runFor_of_contract hstep, ih h (Nat.le_of_succ_le_succ hle)]

theorem length_contracta_runFor_le (n : Nat) (t : Tree α) :
    (runFor bound n t).contracta.length ≤ n := by
  induction n, t using runFor_induction bound with
  | normal n t _ hrun => simp [hrun]
  | unfinished t _ hrun => simp [hrun]
  | blocked n t o _ hrun => simp [hrun]
  | contract n t contractum whole _ hrun ih =>
      rw [hrun]
      exact Nat.succ_le_succ ih

/-- A run that comes to a normal term is the same for all numbers of steps from its own on. -/
theorem runFor_of_length_le {n m : Nat} {t : Tree α} (h : (runFor bound n t).ending = .normal)
    (hle : (runFor bound n t).contracta.length ≤ m) : runFor bound m t = runFor bound n t := by
  induction n, t using runFor_induction bound generalizing m with
  | normal n t hredex hrun => rw [hrun, runFor_of_not_hasSpineRedex bound hredex]
  | unfinished t _ hrun => simp [hrun] at h
  | blocked n t o _ hrun => simp [hrun] at h
  | contract n t contractum whole hstep hrun ih =>
      rw [hrun] at h hle ⊢
      simp only [Run.cons, List.length_cons] at hle
      obtain ⟨m, rfl⟩ := Nat.exists_eq_succ_of_ne_zero (Nat.ne_zero_of_lt hle)
      rw [runFor_of_contract hstep, ih h (Nat.le_of_succ_le_succ hle)]

/-- A run that used up its steps has taken all of them. -/
theorem length_contracta_of_unfinished {n : Nat} {t : Tree α}
    (h : (runFor bound n t).ending = .unfinished) : (runFor bound n t).contracta.length = n := by
  induction n, t using runFor_induction bound with
  | normal n t _ hrun => simp [hrun] at h
  | unfinished t _ hrun => simp [hrun]
  | blocked n t o _ hrun => simp [hrun] at h
  | contract n t contractum whole _ hrun ih =>
      rw [hrun] at h ⊢
      exact congrArg (· + 1) (ih h)

/-! ### Runs of parts -/

theorem runFor_lam (n : Nat) (x : String) (b : Tree α) :
    runFor bound n (lam x b) = (runFor bound n b).within (lam x) := by
  induction n, b using runFor_induction bound with
  | normal n b h hrun =>
      rw [hrun, runFor_of_not_hasSpineRedex bound (mt hasSpineRedex_lam.mp h)]
      rfl
  | unfinished b h hrun =>
      rw [hrun, runFor_zero_of_hasSpineRedex bound (hasSpineRedex_lam.mpr h)]
      rfl
  | blocked n b o hstep hrun =>
      have hlam : (lam x b).step bound = .blocked o := by rw [step, hstep]; rfl
      rw [hrun, runFor_of_blocked hlam]
      rfl
  | contract n b contractum whole hstep hrun ih =>
      have hlam : (lam x b).step bound = .contract contractum (lam x whole) := by
        rw [step, hstep]; rfl
      rw [hrun, runFor_of_contract hlam, ih]
      rfl

/-- If the function side ends in a normal term, the application goes on from there with the steps
that are left. -/
theorem runFor_app_of_normal {n : Nat} {f : Tree α} (h : (runFor bound n f).ending = .normal)
    (a : Tree α) :
    runFor bound n (app f a) =
      (runFor bound (n - (runFor bound n f).contracta.length) (app (runFor bound n f).last a)).after
        (runFor bound n f).contracta := by
  induction n, f using runFor_induction bound with
  | normal n f _ hrun => simp [hrun]
  | unfinished f _ hrun => simp [hrun] at h
  | blocked n f o _ hrun => simp [hrun] at h
  | contract n f contractum whole hstep hrun ih =>
      rw [hrun] at h
      rw [hrun, runFor_of_contract (step_app_of_contract hstep a), ih h]
      simp only [Run.cons, Run.after, List.length_cons, Nat.add_sub_add_right, List.cons_append]

theorem runFor_app_of_ne_normal {n : Nat} {f : Tree α} (h : (runFor bound n f).ending ≠ .normal)
    (a : Tree α) :
    runFor bound n (app f a) = (runFor bound n f).within (app · a) := by
  induction n, f using runFor_induction bound with
  | normal n f _ hrun => simp [hrun] at h
  | unfinished f hf hrun =>
      rw [hrun, runFor_zero_of_hasSpineRedex bound (hasSpineRedex_app.mpr (Or.inl hf))]
      rfl
  | blocked n f o hstep hrun =>
      have happ : (app f a).step bound = .blocked o := by
        rw [step_app_of_ne_normal (by simp [hstep]), hstep]
        rfl
      rw [hrun, runFor_of_blocked happ]
      rfl
  | contract n f contractum whole hstep hrun ih =>
      rw [hrun] at h
      rw [hrun, runFor_of_contract (step_app_of_contract hstep a), ih h]
      rfl

/-! When the function side of an application has become an abstraction, there is a redex. What comes
of it depends on how many steps are left. -/

section Redex

variable {n m : Nat} {f b : Tree α} {x : String} (a : Tree α)
  (hending : (runFor bound n f).ending = .normal) (hlast : (runFor bound n f).last = lam x b)

include hending hlast

theorem runFor_app_of_lam (hle : (runFor bound n f).contracta.length ≤ m) :
    runFor bound m (app f a) =
      (runFor bound (m - (runFor bound n f).contracta.length) (app (lam x b) a)).after
        (runFor bound n f).contracta := by
  have hf : runFor bound m f = runFor bound n f := runFor_of_length_le hending hle
  rw [runFor_app_of_normal (by rw [hf, hending]), hf, hlast]

theorem runFor_app_of_no_step_left :
    runFor bound (runFor bound n f).contracta.length (app f a) =
      ⟨(runFor bound n f).contracta, app (lam x b) a, .unfinished⟩ := by
  have hredex : HasSpineRedex (app (lam x b) a) := hasSpineRedex_app.mpr (Or.inr ⟨x, b, rfl⟩)
  rw [runFor_app_of_lam a hending hlast (Nat.le_refl _), Nat.sub_self,
    runFor_zero_of_hasSpineRedex bound hredex]
  simp [Run.after]

theorem step_app_of_lam : (app (lam x b) a).step bound = contractRedex bound x b a := by
  have hnormal : ¬ HasSpineRedex (lam x b) := hlast ▸ not_hasSpineRedex_last hending
  exact step_app_lam ((step_eq_normal_iff bound _).mpr hnormal) a

theorem runFor_app_of_blocked {o : Obstacle α} (hobstacle : obstacle bound x a b = some o)
    (hlt : (runFor bound n f).contracta.length < m) :
    runFor bound m (app f a) = ⟨(runFor bound n f).contracta, app (lam x b) a, .blocked o⟩ := by
  have hstep : (app (lam x b) a).step bound = .blocked o := by
    rw [step_app_of_lam a hending hlast, contractRedex, hobstacle]
  obtain ⟨rest, hrest⟩ := Nat.exists_eq_succ_of_ne_zero (Nat.sub_ne_zero_of_lt hlt)
  rw [runFor_app_of_lam a hending hlast (Nat.le_of_lt hlt), hrest, runFor_of_blocked hstep]
  simp [Run.after]

theorem runFor_app_of_contract (hobstacle : obstacle bound x a b = none)
    (hlt : (runFor bound n f).contracta.length < m) :
    runFor bound m (app f a) =
      (runFor bound (m - (runFor bound n f).contracta.length - 1) (substitute x a b)).after
        ((runFor bound n f).contracta ++ [substitute x a b]) := by
  have hstep : (app (lam x b) a).step bound = .contract (substitute x a b) (substitute x a b) := by
    rw [step_app_of_lam a hending hlast, contractRedex, hobstacle]
  obtain ⟨rest, hrest⟩ := Nat.exists_eq_succ_of_ne_zero (Nat.sub_ne_zero_of_lt hlt)
  rw [runFor_app_of_lam a hending hlast (Nat.le_of_lt hlt), hrest, runFor_of_contract hstep,
    Run.after_cons, Nat.succ_sub_one]

end Redex

theorem runFor_app_of_not_lam {n : Nat} {f : Tree α}
    (h : ∀ x b, (runFor bound n f).ending = .normal → (runFor bound n f).last ≠ lam x b)
    (a : Tree α) : runFor bound n (app f a) = (runFor bound n f).within (app · a) := by
  by_cases hending : (runFor bound n f).ending = .normal
  · have hnormal : ¬ HasSpineRedex (app (runFor bound n f).last a) := by
      rw [hasSpineRedex_app]
      rintro (hredex | ⟨x, b, hlast⟩)
      · exact not_hasSpineRedex_last hending hredex
      · exact h x b hending hlast
    rw [runFor_app_of_normal hending, runFor_of_not_hasSpineRedex bound hnormal]
    simp [Run.after, Run.within, hending]
  · rw [runFor_app_of_ne_normal hending]

/-- The number of steps that a reduction tries: as many as its limit allows, or as much as there is
fuel if it has none. -/
def stepsAllowed (limit : Option Int) (fuel : Nat) : Nat :=
  match limit with
  | some m => m.toNat
  | none => fuel

end Tree

end LambdaCalculus
