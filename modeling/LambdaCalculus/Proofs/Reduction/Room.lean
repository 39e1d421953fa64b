import LambdaCalculus.Proofs.Reduction.Stepwise

/-!
# Evaluation in a room

An evaluation makes the contractions of a run, step by step, as far as there is room for it. In an
unlimited room it is the run (`evaluate_unlimited`), and so it is in every room that is large enough
(`exists_evaluate_within`). In any other one it is the run or stops behind some of its steps
(`keepsTo_evaluate`), and allowing it more steps changes nothing about where it stops
(`evaluate_add`).
-/

namespace LambdaCalculus

variable {α : Type}

namespace Run

/-- A run that has no more room. -/
def stopped (lack : Lack) (run : Run α) : Run α := { run with ending := .tooDeep lack }

theorem begun_after (run : Run α) (contracta : List (Tree α)) :
    (run.after contracta).begun = contracta.length + run.begun := by
  simp only [begun, after, List.length_append]
  split <;> omega

theorem length_le_begun (run : Run α) : run.contracta.length ≤ run.begun := by
  unfold begun
  split <;> omega

theorem shown_of_ne_tooDeep {run : Run α} (h : ∀ lack, run.ending ≠ .tooDeep lack) :
    run.shown = run.contracta := by
  rw [shown]
  split
  next hending => exact (h _ hending).elim
  next => rfl

end Run

/-- How many abstractions and arguments stand around the hole. -/
def SpineContext.depth : SpineContext α → Nat
  | hole => 0
  | lam _ C => C.depth + 1
  | function C _ => C.depth + 1

namespace Tree

variable {room : Room α} {bound : Name.Bound}

/-! ### Where the next redex stands -/

theorem redexDepth?_app (f a : Tree α) :
    (app f a).redexDepth? =
      match f.redexDepth?, f with
      | some depth, _ => some (depth + 1)
      | none, lam _ _ => some 0
      | none, _ => none :=
  redexDepth?.eq_def (app f a)

theorem redexDepth?_of_not_hasSpineRedex {t : Tree α} (h : ¬ HasSpineRedex t) :
    t.redexDepth? = none := by
  induction t with
  | var x => rfl
  | foreign v => rfl
  | lam x b ih =>
      rw [hasSpineRedex_lam] at h
      rw [redexDepth?, ih h, Option.map_none]
  | app f a ihf _ =>
      rw [hasSpineRedex_app, not_or] at h
      obtain ⟨hf, hlam⟩ := h
      rw [redexDepth?_app, ihf hf]
      cases f with
      | lam x b => exact (hlam ⟨x, b, rfl⟩).elim
      | _ => rfl

theorem redexDepth?_fill (C : SpineContext α) {x : String} {b : Tree α}
    (h : ¬ HasSpineRedex (lam x b)) (a : Tree α) :
    (C.fill (app (lam x b) a)).redexDepth? = some C.depth := by
  induction C with
  | hole =>
      rw [SpineContext.fill, redexDepth?_app, redexDepth?_of_not_hasSpineRedex h]
      rfl
  | lam y C ih =>
      rw [SpineContext.fill, redexDepth?, ih]
      rfl
  | function C c ih =>
      rw [SpineContext.fill, redexDepth?_app, ih]
      rfl

/-! ### Along a run -/

/-- A run that stops for lack of room behind the first `k` of at most `n` steps from `t`. If a step
was begun by then, there was a redex for it and the steps were not used up. -/
structure StopsBehind (bound : Name.Bound) (n : Nat) (t : Tree α) (k : Nat) (lack : Lack)
    (run : Run α) : Prop where
  eq : run = (runFor bound k t).stopped lack
  length : (runFor bound k t).contracta.length = k
  le : k ≤ n
  redex : lack = .contracting → k < n ∧ HasSpineRedex (runFor bound k t).last

variable {n k : Nat} {t : Tree α} {lack : Lack} {run : Run α}

theorem StopsBehind.lam {b : Tree α} (h : StopsBehind bound n b k lack run) (x : String) :
    StopsBehind bound n (lam x b) k lack (run.within (lam x)) where
  eq := by
    rw [h.eq, runFor_lam]
    rfl
  length := by
    rw [runFor_lam]
    exact h.length
  le := h.le
  redex hlack := by
    rw [runFor_lam]
    exact (h.redex hlack).imp_right hasSpineRedex_lam.mpr

theorem StopsBehind.function {f : Tree α} (h : StopsBehind bound n f k lack run) (a : Tree α) :
    StopsBehind bound n (app f a) k lack (run.within (app · a)) := by
  -- whether the function side would have gone on or not, no step is left behind its own
  have happ : (runFor bound k (app f a)).contracta = (runFor bound k f).contracta
      ∧ (runFor bound k (app f a)).last = app (runFor bound k f).last a := by
    by_cases hending : (runFor bound k f).ending = .normal
    · rw [runFor_app_of_normal hending, h.length, Nat.sub_self]
      exact ⟨List.append_nil _, rfl⟩
    · rw [runFor_app_of_ne_normal hending]
      exact ⟨rfl, rfl⟩
  refine ⟨?_, ?_, h.le, ?_⟩
  · rw [h.eq, Run.stopped, Run.stopped, happ.1, happ.2]
    rfl
  · rw [happ.1, h.length]
  · intro hlack
    obtain ⟨hlt, hredex⟩ := h.redex hlack
    rw [happ.2]
    exact ⟨hlt, hasSpineRedex_app.mpr (Or.inl hredex)⟩

section Redex

variable {f b : Tree α} {x : String} (a : Tree α) (hending : (runFor bound n f).ending = .normal)
  (hlast : (runFor bound n f).last = .lam x b) (hlt : (runFor bound n f).contracta.length < n)

include hending hlast hlt

theorem stopsBehind_contracting :
    StopsBehind bound n (app f a) (runFor bound n f).contracta.length .contracting
      ⟨(runFor bound n f).contracta, app (lam x b) a, .tooDeep .contracting⟩ := by
  have hrun := runFor_app_of_no_step_left a hending hlast
  refine ⟨?_, ?_, Nat.le_of_lt hlt, ?_⟩
  · rw [hrun]
    rfl
  · rw [hrun]
  · intro _
    rw [hrun]
    exact ⟨hlt, hasSpineRedex_app.mpr (Or.inr ⟨x, b, rfl⟩)⟩

theorem StopsBehind.contractum {a : Tree α} (hobstacle : obstacle bound x a b = none)
    (h : StopsBehind bound (n - (runFor bound n f).contracta.length - 1) (substitute x a b) k lack
      run) :
    StopsBehind bound n (app f a) ((runFor bound n f).contracta.length + 1 + k) lack
      (run.after ((runFor bound n f).contracta ++ [substitute x a b])) := by
  have hle := h.le
  have hrun := runFor_app_of_contract a hending hlast hobstacle
    (m := (runFor bound n f).contracta.length + 1 + k) (by omega)
  have hleft : (runFor bound n f).contracta.length + 1 + k - (runFor bound n f).contracta.length - 1
      = k := by omega
  rw [hleft] at hrun
  refine ⟨?_, ?_, by omega, ?_⟩
  · rw [hrun, h.eq]
    rfl
  · rw [hrun]
    simp only [Run.after, List.length_append, List.length_singleton, h.length]
  · intro hlack
    obtain ⟨hlt', hredex⟩ := h.redex hlack
    rw [hrun]
    exact ⟨by omega, hredex⟩

end Redex

theorem stopsBehind_entering (n : Nat) (t : Tree α) :
    StopsBehind bound n t 0 .entering ⟨[], t, .tooDeep .entering⟩ :=
  ⟨rfl, rfl, Nat.zero_le n, nofun⟩

theorem stopsBehind_showing (n : Nat) (t : Tree α) :
    StopsBehind bound n t 0 .showing ⟨[], t, .tooDeep .showing⟩ :=
  ⟨rfl, rfl, Nat.zero_le n, nofun⟩

theorem StopsBehind.ending (h : StopsBehind bound n t k lack run) :
    run.ending = .tooDeep lack := by
  rw [h.eq]
  rfl

/-- A run of `n` steps from `t`, if there is room for it all, or what there is room for. -/
def KeepsTo (bound : Name.Bound) (n : Nat) (t : Tree α) (run : Run α) : Prop :=
  run = runFor bound n t ∨ ∃ k lack, StopsBehind bound n t k lack run

theorem KeepsTo.eq_runFor (h : KeepsTo bound n t run)
    (hending : ∀ lack, run.ending ≠ .tooDeep lack) :
    run = runFor bound n t := by
  rcases h with hrun | ⟨k, lack, hstops⟩
  · exact hrun
  · exact (hending lack hstops.ending).elim

theorem KeepsTo.eq_runFor_of_normal (h : KeepsTo bound n t run) (hending : run.ending = .normal) :
    run = runFor bound n t :=
  h.eq_runFor (by simp [hending])

/-- An evaluation is the run, or stops behind some of its steps for lack of room. -/
theorem keepsTo_evaluate (room : Room α) (bound : Name.Bound) (depth n : Nat) (t : Tree α) :
    KeepsTo bound n t (evaluate room bound depth n t) := by
  fun_induction evaluate room bound depth n t with
  | case1 depth n _ x =>
      exact Or.inl (runFor_of_not_hasSpineRedex bound (not_hasSpineRedex_var x) n).symm
  | case2 depth n _ v =>
      exact Or.inl (runFor_of_not_hasSpineRedex bound (not_hasSpineRedex_foreign v) n).symm
  | case3 depth n _ x b ih =>
      rcases ih with hrun | ⟨k, lack, hstops⟩
      · exact Or.inl (by rw [hrun, runFor_lam])
      · exact Or.inr ⟨k, lack, hstops.lam x⟩
  | case4 depth n _ f a function x b hlast hending hlt _ o hobstacle ih =>
      have hf : function = runFor bound n f := ih.eq_runFor_of_normal hending
      rw [hf] at hlast hending hlt ⊢
      exact Or.inl (runFor_app_of_blocked a hending hlast hobstacle hlt).symm
  | case5 depth n _ f a function x b hlast hending hlt _ hobstacle contractum contracta _ ih ihc =>
      have hf : function = runFor bound n f := ih.eq_runFor_of_normal hending
      simp only [contracta]
      rw [hf] at hlast hending hlt ihc ⊢
      rcases ihc with hrun | ⟨k, lack, hstops⟩
      · left
        rw [hrun, runFor_app_of_contract a hending hlast hobstacle hlt]
      · exact Or.inr ⟨_, lack, hstops.contractum hending hlast hlt hobstacle⟩
  | case6 depth n _ f a function x b hlast hending hlt _ hobstacle contractum contracta _ ih =>
      have hf : function = runFor bound n f := ih.eq_runFor_of_normal hending
      simp only [contracta]
      rw [hf] at hlast hending hlt ⊢
      have hstops := (stopsBehind_showing _ contractum).contractum hending hlast hlt hobstacle
      exact Or.inr ⟨_, _, by simpa [Run.after] using hstops⟩
  | case7 depth n _ f a function x b hlast hending hlt _ ih =>
      have hf : function = runFor bound n f := ih.eq_runFor_of_normal hending
      rw [hf] at hlast hending hlt ⊢
      exact Or.inr ⟨_, _, stopsBehind_contracting a hending hlast hlt⟩
  | case8 depth n _ f a function x b hlast hending hlt ih =>
      -- the function side used up the budget
      have hf : function = runFor bound n f := ih.eq_runFor_of_normal hending
      rw [hf] at hlast hending hlt ⊢
      have hlength : (runFor bound n f).contracta.length = n :=
        Nat.le_antisymm (length_contracta_runFor_le n f) (Nat.le_of_not_lt hlt)
      have hrun := runFor_app_of_no_step_left a hending hlast
      rw [hlength] at hrun
      exact Or.inl hrun.symm
  | case9 depth n _ f a function hne ih =>
      rcases ih with hrun | ⟨k, lack, hstops⟩
      · have hf : function = runFor bound n f := hrun
        rw [hf] at hne ⊢
        exact Or.inl (runFor_app_of_not_lam hne a).symm
      · exact Or.inr ⟨k, lack, hstops.function a⟩
  | case10 depth n t _ => exact Or.inr ⟨0, _, stopsBehind_entering n t⟩

theorem length_contracta_evaluate_le (room : Room α) (bound : Name.Bound) (depth n : Nat)
    (t : Tree α) : (evaluate room bound depth n t).contracta.length ≤ n := by
  rcases keepsTo_evaluate room bound depth n t with hrun | ⟨k, lack, hstops⟩
  · rw [hrun]
    exact length_contracta_runFor_le n t
  · rw [hstops.eq]
    exact Nat.le_trans (Nat.le_of_eq hstops.length) hstops.le

theorem evaluate_eq_runFor_of_normal {depth : Nat}
    (h : (evaluate room bound depth n t).ending = .normal) :
    evaluate room bound depth n t = runFor bound n t :=
  (keepsTo_evaluate room bound depth n t).eq_runFor_of_normal h

/-! ### In an unlimited room -/

theorem ending_evaluate_unlimited (bound : Name.Bound) (depth n : Nat) (t : Tree α) (lack : Lack) :
    (evaluate .unlimited bound depth n t).ending ≠ .tooDeep lack := by
  fun_induction evaluate .unlimited bound depth n t with
  | case3 depth n _ x b ih => exact ih
  | case5 depth n _ f a function x b _ _ _ _ _ contractum contracta _ _ ihc => exact ihc
  | case9 depth n _ f a function _ ih => exact ih
  | case6 | case7 | case10 => contradiction
  | _ => simp

/-- In an unlimited room an evaluation is the run. -/
theorem evaluate_unlimited (bound : Name.Bound) (depth n : Nat) (t : Tree α) :
    evaluate .unlimited bound depth n t = runFor bound n t :=
  (keepsTo_evaluate .unlimited bound depth n t).eq_runFor
    (ending_evaluate_unlimited bound depth n t)

/-- A reduction has an answer if it has a limit or its evaluation is finished. -/
theorem reduce_eq_evaluate (room : Room α) (bound : Name.Bound) (limit : Option Int) (fuel : Nat)
    (t : Tree α) :
    t.reduce room bound limit fuel =
      if limit = none ∧ (evaluate room bound 0 (stepsAllowed limit fuel) t).isFinished = false
      then none
      else some (evaluate room bound 0 (stepsAllowed limit fuel) t) := by
  cases limit with
  | some m => simp [reduce, stepsAllowed]
  | none =>
      cases hfinished : (evaluate room bound 0 fuel t).isFinished <;>
        simp [reduce, stepsAllowed, hfinished]

theorem reduce_unlimited (limit : Option Int) (fuel : Nat) (t : Tree α) :
    t.reduce .unlimited bound limit fuel =
      if limit = none ∧ (runFor bound (stepsAllowed limit fuel) t).isFinished = false then none
      else some (runFor bound (stepsAllowed limit fuel) t) := by
  rw [reduce_eq_evaluate, evaluate_unlimited]

/-! ### With more or fewer steps -/

section Application

variable {depth : Nat} {f a b : Tree α} {x : String} {contracta : List (Tree α)}
  (henters : room.enters depth = true)

include henters

theorem evaluate_app_of_not_lam
    (h : ∀ x b, (evaluate room bound (depth + 1) n f).ending = .normal →
      (evaluate room bound (depth + 1) n f).last ≠ lam x b) :
    evaluate room bound depth n (app f a) =
      (evaluate room bound (depth + 1) n f).within (app · a) := by
  rw [evaluate, if_pos henters]
  dsimp only
  split
  next x b hending hlast => exact (h x b hending hlast).elim
  next => rfl

variable (hfunction : evaluate room bound (depth + 1) n f = ⟨contracta, lam x b, .normal⟩)

include hfunction

theorem evaluate_app_of_lam :
    evaluate room bound depth n (app f a) =
      if contracta.length < n then
        if room.substitutes depth x a b then
          match obstacle bound x a b with
          | some o => ⟨contracta, app (lam x b) a, .blocked o⟩
          | none =>
              if room.shows depth (substitute x a b) then
                (evaluate room bound depth (n - contracta.length - 1) (substitute x a b)).after
                  (contracta ++ [substitute x a b])
              else ⟨contracta ++ [substitute x a b], substitute x a b, .tooDeep .showing⟩
        else ⟨contracta, app (lam x b) a, .tooDeep .contracting⟩
      else ⟨contracta, app (lam x b) a, .unfinished⟩ := by
  rw [evaluate, if_pos henters, hfunction]
  rfl

/-- A step that is left is begun at the redex, whether there is room to take it or not. -/
theorem lt_begun_evaluate_app (hlt : contracta.length < n) :
    contracta.length < (evaluate room bound depth n (app f a)).begun := by
  rw [evaluate_app_of_lam henters hfunction, if_pos hlt]
  split
  · split
    · exact Nat.lt_succ_self _
    · split
      · rw [Run.begun_after, List.length_append, List.length_singleton]
        omega
      · simp only [Run.begun, List.length_append, List.length_singleton]
        omega
  · exact Nat.lt_succ_self _

theorem exists_contracta_evaluate_app :
    ∃ rest, (evaluate room bound depth n (app f a)).contracta = contracta ++ rest := by
  rw [evaluate_app_of_lam henters hfunction]
  split
  · split
    · split
      · exact ⟨[], (List.append_nil _).symm⟩
      · split
        · exact ⟨_, List.append_assoc ..⟩
        · exact ⟨_, rfl⟩
    · exact ⟨[], (List.append_nil _).symm⟩
  · exact ⟨[], (List.append_nil _).symm⟩

end Application

/-- Of two evaluations of a term, the one that may take `n` steps is the other one, or uses up its
steps and stops before the other one does. -/
def GoesOnAs (n : Nat) (short long : Run α) : Prop :=
  short = long ∨
    short.ending = .unfinished ∧ short.contracta = long.contracta.take n ∧ n < long.begun

theorem GoesOnAs.eq_of_normal {short long : Run α} {r : Tree α} (h : GoesOnAs n short long)
    (hending : short.ending = .normal) (hlast : short.last = r) :
    long = ⟨short.contracta, r, .normal⟩ := by
  rcases h with rfl | ⟨hunfinished, _⟩
  · rw [← hending, ← hlast]
  · simp [hending] at hunfinished

theorem GoesOnAs.within {short long : Run α} (h : GoesOnAs n short long)
    (surround : Tree α → Tree α) : GoesOnAs n (short.within surround) (long.within surround) :=
  h.imp_left (congrArg (Run.within surround))

theorem GoesOnAs.after {short long : Run α} {taken : List (Tree α)}
    (h : GoesOnAs (n - taken.length) short long) (hle : taken.length ≤ n) :
    GoesOnAs n (short.after taken) (long.after taken) := by
  rcases h with heq | ⟨hending, hcontracta, hlt⟩
  · exact Or.inl (congrArg (Run.after taken) heq)
  · refine Or.inr ⟨hending, ?_, ?_⟩
    · simp only [Run.after, hcontracta, List.take_append, List.take_of_length_le hle]
    · rw [Run.begun_after]
      omega

/-- Allowing more steps changes nothing about an evaluation but where its steps are used up. -/
theorem evaluate_add (room : Room α) (bound : Name.Bound) (depth n more : Nat) (t : Tree α) :
    GoesOnAs n (evaluate room bound depth n t) (evaluate room bound depth (n + more) t) := by
  fun_induction evaluate room bound depth n t with
  | case1 depth n henters x => exact Or.inl (by rw [evaluate, if_pos henters])
  | case2 depth n henters v => exact Or.inl (by rw [evaluate, if_pos henters])
  | case3 depth n henters x b ih =>
      rw [evaluate.eq_def room bound depth (n + more), if_pos henters]
      exact ih.within (lam x)
  | case4 depth n henters f a function x b hlast hending hlt hroom o hobstacle ih =>
      have hf : evaluate room bound (depth + 1) (n + more) f =
          ⟨function.contracta, lam x b, .normal⟩ :=
        ih.eq_of_normal hending hlast
      left
      rw [evaluate_app_of_lam henters hf, if_pos (Nat.lt_add_right more hlt), if_pos hroom,
        hobstacle]
  | case5 depth n henters f a function x b hlast hending hlt hroom hobstacle contractum contracta
      hshows ih ihc =>
      have hf : evaluate room bound (depth + 1) (n + more) f =
          ⟨function.contracta, lam x b, .normal⟩ :=
        ih.eq_of_normal hending hlast
      have hleft : n + more - function.contracta.length - 1
          = n - function.contracta.length - 1 + more := by omega
      have hused : n - function.contracta.length - 1 = n - contracta.length := by
        simp only [contracta, List.length_append, List.length_singleton, Nat.sub_sub]
      simp only [contractum] at hshows
      rw [evaluate_app_of_lam henters hf, if_pos (Nat.lt_add_right more hlt), if_pos hroom,
        hobstacle]
      dsimp only
      rw [if_pos hshows, hleft]
      rw [hused] at ihc ⊢
      exact ihc.after (by simp only [contracta, List.length_append, List.length_singleton]; omega)
  | case6 depth n henters f a function x b hlast hending hlt hroom hobstacle contractum contracta
      hshows ih =>
      have hf : evaluate room bound (depth + 1) (n + more) f =
          ⟨function.contracta, lam x b, .normal⟩ :=
        ih.eq_of_normal hending hlast
      simp only [contractum] at hshows
      left
      rw [evaluate_app_of_lam henters hf, if_pos (Nat.lt_add_right more hlt), if_pos hroom,
        hobstacle]
      dsimp only
      rw [if_neg hshows]
  | case7 depth n henters f a function x b hlast hending hlt hroom ih =>
      have hf : evaluate room bound (depth + 1) (n + more) f =
          ⟨function.contracta, lam x b, .normal⟩ :=
        ih.eq_of_normal hending hlast
      left
      rw [evaluate_app_of_lam henters hf, if_pos (Nat.lt_add_right more hlt), if_neg hroom]
  | case8 depth n henters f a function x b hlast hending hlt ih =>
      -- all steps went to the function side, so that the first one more is begun at the redex
      have hf : evaluate room bound (depth + 1) (n + more) f =
          ⟨function.contracta, lam x b, .normal⟩ :=
        ih.eq_of_normal hending hlast
      have hlength : function.contracta.length = n :=
        Nat.le_antisymm (length_contracta_evaluate_le ..) (Nat.le_of_not_lt hlt)
      cases more with
      | zero =>
          left
          rw [evaluate_app_of_lam henters hf, Nat.add_zero, if_neg hlt]
      | succ more =>
          obtain ⟨rest, hrest⟩ := exists_contracta_evaluate_app (a := a) henters hf
          have hbegun := lt_begun_evaluate_app (a := a) henters hf (by omega)
          rw [hlength] at hbegun
          exact Or.inr ⟨rfl, by rw [hrest, List.take_left' hlength], hbegun⟩
  | case9 depth n henters f a function hne ih =>
      by_cases hlam : ∃ x b, (evaluate room bound (depth + 1) (n + more) f).ending = .normal
          ∧ (evaluate room bound (depth + 1) (n + more) f).last = lam x b
      · -- the function side used up its steps before it became an abstraction
        obtain ⟨x, b, hending, hlast⟩ := hlam
        rcases ih with heq | ⟨hunfinished, hcontracta, hlt⟩
        · rw [← heq] at hending hlast
          exact (hne x b hending hlast).elim
        · have hf : evaluate room bound (depth + 1) (n + more) f =
              ⟨(evaluate room bound (depth + 1) (n + more) f).contracta, lam x b, .normal⟩ := by
            rw [← hending, ← hlast]
          obtain ⟨rest, hrest⟩ := exists_contracta_evaluate_app (a := a) henters hf
          rw [Run.begun, hending] at hlt
          refine Or.inr ⟨hunfinished, ?_, ?_⟩
          · rw [hrest, List.take_append_of_le_length (Nat.le_of_lt hlt)]
            exact hcontracta
          · refine Nat.lt_of_lt_of_le ?_ (Run.length_le_begun _)
            rw [hrest, List.length_append]
            exact Nat.lt_add_right _ hlt
      · rw [evaluate_app_of_not_lam henters fun x b hending hlast => hlam ⟨x, b, hending, hlast⟩]
        exact ih.within (app · a)
  | case10 depth n t henters => exact Or.inl (by rw [evaluate.eq_def, if_neg henters])

theorem evaluate_of_isFinished {depth m : Nat}
    (h : (evaluate room bound depth n t).isFinished = true) (hle : n ≤ m) :
    evaluate room bound depth m t = evaluate room bound depth n t := by
  obtain ⟨more, rfl⟩ := Nat.exists_eq_add_of_le hle
  rcases evaluate_add room bound depth n more t with heq | ⟨hunfinished, _⟩
  · exact heq.symm
  · simp [Run.isFinished, hunfinished] at h

/-- An evaluation that comes to a normal term is the same for all numbers of steps from its own
on. -/
theorem evaluate_of_length_le {depth m : Nat}
    (h : (evaluate room bound depth n t).ending = .normal)
    (hle : (evaluate room bound depth n t).contracta.length ≤ m) :
    evaluate room bound depth m t = evaluate room bound depth n t := by
  rcases Nat.le_total n m with hnm | hmn
  · exact evaluate_of_isFinished (by rw [Run.isFinished, h]) hnm
  · obtain ⟨more, rfl⟩ := Nat.exists_eq_add_of_le hmn
    rcases evaluate_add room bound depth m more t with heq | ⟨_, _, hlt⟩
    · exact heq
    · rw [Run.begun, h] at hlt
      exact (Nat.not_lt_of_le hle hlt).elim

/-- An evaluation that may take fewer steps than another one has taken uses them up. They are the
first ones of the other. -/
theorem evaluate_of_lt_length {depth m : Nat}
    (h : m < (evaluate room bound depth n t).contracta.length) :
    (evaluate room bound depth m t).ending = .unfinished ∧
      (evaluate room bound depth m t).contracta
        = (evaluate room bound depth n t).contracta.take m := by
  have hle : m ≤ n :=
    Nat.le_trans (Nat.le_of_lt h) (length_contracta_evaluate_le room bound depth n t)
  obtain ⟨more, rfl⟩ := Nat.exists_eq_add_of_le hle
  rcases evaluate_add room bound depth m more t with heq | ⟨hunfinished, hcontracta, _⟩
  · rw [← heq] at h
    exact (Nat.not_lt_of_le (length_contracta_evaluate_le room bound depth m t) h).elim
  · exact ⟨hunfinished, hcontracta⟩

/-- The contractions of an evaluation that may take fewer steps are the first ones of another. -/
theorem contracta_evaluate_of_le (room : Room α) (bound : Name.Bound) (depth : Nat) {m : Nat}
    (t : Tree α) (hle : n ≤ m) :
    (evaluate room bound depth n t).contracta
      = (evaluate room bound depth m t).contracta.take n := by
  obtain ⟨more, rfl⟩ := Nat.exists_eq_add_of_le hle
  rcases evaluate_add room bound depth n more t with heq | ⟨_, hcontracta, _⟩
  · rw [← heq, List.take_of_length_le (length_contracta_evaluate_le room bound depth n t)]
  · exact hcontracta

/-! ### With enough room -/

section Enough

variable {deepest depth : Nat} {printed : Bool}

theorem enters_within (h : openCalls depth ≤ deepest) :
    (Room.within deepest printed : Room α).enters depth = true := decide_eq_true h

theorem substitutes_within {x : String} {N M : Tree α}
    (h : openCalls depth + substitutionDepth x N M ≤ deepest) :
    (Room.within deepest printed).substitutes depth x N M = true := decide_eq_true h

theorem shows_within {contractum : Tree α}
    (h : openCalls depth + 1 + contractum.writingDepth ≤ deepest) :
    (Room.within deepest printed).shows depth contractum = true := by
  simp [Room.within, h]

end Enough

/-- An evaluation needs only so much room. With as much, or more, it is the one in an unlimited
room. -/
theorem exists_evaluate_within (bound : Name.Bound) (printed : Bool) (depth n : Nat) (t : Tree α) :
    ∃ enough, ∀ deepest, enough ≤ deepest →
      evaluate (.within deepest printed) bound depth n t = evaluate .unlimited bound depth n t := by
  fun_induction evaluate .unlimited bound depth n t with
  | case1 depth n _ x =>
      exact ⟨openCalls depth, fun _ h => by rw [evaluate, if_pos (enters_within h)]⟩
  | case2 depth n _ v =>
      exact ⟨openCalls depth, fun _ h => by rw [evaluate, if_pos (enters_within h)]⟩
  | case3 depth n _ x b ih =>
      obtain ⟨enough, hbody⟩ := ih
      refine ⟨max (openCalls depth) enough, fun deepest h => ?_⟩
      obtain ⟨hdepth, henough⟩ := Nat.max_le.mp h
      rw [evaluate, if_pos (enters_within hdepth), hbody deepest henough]
  | case4 depth n _ f a function x b hlast hending hlt _ o hobstacle ih =>
      obtain ⟨enough, hfunction⟩ := ih
      refine ⟨max (openCalls depth + substitutionDepth x a b) enough, fun deepest h => ?_⟩
      obtain ⟨hcall, henough⟩ := Nat.max_le.mp h
      have hf : evaluate (.within deepest printed) bound (depth + 1) n f =
          ⟨function.contracta, lam x b, .normal⟩ := by
        rw [hfunction deepest henough, ← hending, ← hlast]
      have hdepth : openCalls depth ≤ deepest := Nat.le_trans (Nat.le_add_right ..) hcall
      rw [evaluate_app_of_lam (enters_within hdepth) hf, if_pos hlt,
        if_pos (substitutes_within hcall), hobstacle]
  | case5 depth n _ f a function x b hlast hending hlt _ hobstacle contractum contracta _ ih ihc =>
      obtain ⟨enough, hfunction⟩ := ih
      obtain ⟨enough', hcontractum⟩ := ihc
      refine ⟨max (max (openCalls depth + substitutionDepth x a b)
        (openCalls depth + 1 + contractum.writingDepth)) (max enough enough'), fun deepest h => ?_⟩
      obtain ⟨hcalls, henough⟩ := Nat.max_le.mp h
      obtain ⟨hcall, hshown⟩ := Nat.max_le.mp hcalls
      obtain ⟨henough, henough'⟩ := Nat.max_le.mp henough
      have hf : evaluate (.within deepest printed) bound (depth + 1) n f =
          ⟨function.contracta, lam x b, .normal⟩ := by
        rw [hfunction deepest henough, ← hending, ← hlast]
      have hdepth : openCalls depth ≤ deepest := Nat.le_trans (Nat.le_add_right ..) hcall
      rw [evaluate_app_of_lam (enters_within hdepth) hf, if_pos hlt,
        if_pos (substitutes_within hcall), hobstacle]
      dsimp only
      rw [if_pos (shows_within hshown), hcontractum deepest henough']
  | case8 depth n _ f a function x b hlast hending hlt ih =>
      obtain ⟨enough, hfunction⟩ := ih
      refine ⟨max (openCalls depth) enough, fun deepest h => ?_⟩
      obtain ⟨hdepth, henough⟩ := Nat.max_le.mp h
      have hf : evaluate (.within deepest printed) bound (depth + 1) n f =
          ⟨function.contracta, lam x b, .normal⟩ := by
        rw [hfunction deepest henough, ← hending, ← hlast]
      rw [evaluate_app_of_lam (enters_within hdepth) hf, if_neg hlt]
  | case9 depth n _ f a function hne ih =>
      obtain ⟨enough, hfunction⟩ := ih
      refine ⟨max (openCalls depth) enough, fun deepest h => ?_⟩
      obtain ⟨hdepth, henough⟩ := Nat.max_le.mp h
      have hf := hfunction deepest henough
      rw [evaluate_app_of_not_lam (enters_within hdepth), hf]
      rw [hf]
      exact hne
  | case6 | case7 | case10 => contradiction

/-! ### Once more -/

/-- Where an evaluation has come to a normal term, another one leaves that as it is, with whatever
bounds and in every room that has as much room for calls of its own. -/
theorem evaluate_last {room' : Room α} {depth : Nat}
    (hroom : ∀ depth, room.enters depth = true → room'.enters depth = true)
    (h : (evaluate room bound depth n t).ending = .normal) (bound' : Name.Bound) (m : Nat) :
    evaluate room' bound' depth m (evaluate room bound depth n t).last =
      ⟨[], (evaluate room bound depth n t).last, .normal⟩ := by
  fun_induction evaluate room bound depth n t with
  | case1 depth n henters x => rw [evaluate, if_pos (hroom depth henters)]
  | case2 depth n henters v => rw [evaluate, if_pos (hroom depth henters)]
  | case3 depth n henters x b ih =>
      rw [Run.within, evaluate, if_pos (hroom depth henters), ih h]
      rfl
  | case5 depth n _ f a function x b _ _ _ _ _ contractum contracta _ _ ihc => exact ihc h
  | case9 depth n henters f a function hne ih =>
      have hfunction := ih h
      rw [Run.within, evaluate_app_of_not_lam (hroom depth henters), hfunction]
      · rfl
      · intro x b _ hlast
        rw [hfunction] at hlast
        exact hne x b h hlast
  | case4 | case6 | case7 | case8 | case10 => simp at h

end Tree

end LambdaCalculus
