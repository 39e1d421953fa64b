import LambdaCalculus.Proofs.Reduction.Limit
import Mathlib.Algebra.Ring.Nat

/-!
# Every limit on steps ends a reduction

A reduction calls itself for the body of an abstraction and for the function side of an application,
and goes round once more with each contractum. Here it is cut into *moments*, one for each time that
it begins with a term or comes back with one, and the count of steps goes along from moment to
moment, whatever calls are waiting.

That the moments come to an end cannot be seen from one and the next alone. But under a limit a call
leads to what `evaluate` makes of its term (`exists_leads_behind_evaluate`), and each moment leaves
less to do than the one before it, except for what a contraction brings in, which is twice the size
of its contractum (`todo_next?`). The limit allows only so many contractions.
-/

namespace LambdaCalculus

variable {α : Type}

/-- What waits for a call to come back: an abstraction for its body, or an application for its
function side. -/
inductive Pending (α : Type) where
  | body (name : String)
  | function (argument : Tree α)

inductive Activity (α : Type) where
  /-- A call begins with a term, or goes round with a contractum. -/
  | enter (t : Tree α)
  /-- A call comes back with a term. -/
  | leave (t : Tree α)
  /-- A step was begun that the limit does not allow. -/
  | refuse
  | block (obstacle : Obstacle α)

/-- What a reduction does at one time and what waits for it, innermost first, with the number of
steps begun and the contracta up to then. -/
structure Moment (α : Type) where
  activity : Activity α
  pending : List (Pending α)
  begun : Nat
  contracta : List (Tree α)

namespace Moment

open LambdaCalculus.Tree

/-! ### From moment to moment -/

def start (t : Tree α) : Moment α := ⟨.enter t, [], 0, []⟩

/-- Begins a step, at the redex of `λx.b` and `a`. Nothing waits any longer if it is not taken. -/
def redex (bound : Name.Bound) (limit : Int) (x : String) (b a : Tree α)
    (pending : List (Pending α)) (begun : Nat)
    (contracta : List (Tree α)) : Moment α :=
  if limit < ↑(begun + 1) then ⟨.refuse, [], begun + 1, contracta⟩
  else
    match obstacle bound x a b with
    | some o => ⟨.block o, [], begun + 1, contracta⟩
    | none => ⟨.enter (substitute x a b), pending, begun + 1, contracta ++ [substitute x a b]⟩

/-- The next moment, if there is one. -/
def next? (bound : Name.Bound) (limit : Int) : Moment α → Option (Moment α)
  | ⟨.enter (var x), pending, begun, contracta⟩ => some ⟨.leave (var x), pending, begun, contracta⟩
  | ⟨.enter (foreign v), pending, begun, contracta⟩ =>
    some ⟨.leave (foreign v), pending, begun, contracta⟩
  | ⟨.enter (lam x b), pending, begun, contracta⟩ =>
    some ⟨.enter b, .body x :: pending, begun, contracta⟩
  | ⟨.enter (app f a), pending, begun, contracta⟩ =>
    some ⟨.enter f, .function a :: pending, begun, contracta⟩
  | ⟨.leave b, .body x :: pending, begun, contracta⟩ =>
    some ⟨.leave (lam x b), pending, begun, contracta⟩
  | ⟨.leave (lam x b), .function a :: pending, begun, contracta⟩ =>
      some (redex bound limit x b a pending begun contracta)
  | ⟨.leave f, .function a :: pending, begun, contracta⟩ =>
    some ⟨.leave (app f a), pending, begun, contracta⟩
  | ⟨.leave _, [], _, _⟩ => none
  | ⟨.refuse, _, _, _⟩ => none
  | ⟨.block _, _, _, _⟩ => none

/-- Whether the given number of moments leads from one moment to another. -/
inductive Leads (bound : Name.Bound) (limit : Int) : Nat → Moment α → Moment α → Prop where
  | refl (u : Moment α) : Leads bound limit 0 u u
  | head {n : Nat} {u v w : Moment α} (h : u.next? bound limit = some v)
        (hrest : Leads bound limit n v w) :
      Leads bound limit (n + 1) u w

variable {bound : Name.Bound} {limit : Int}

theorem Leads.single {u v : Moment α} (h : u.next? bound limit = some v) :
    Leads bound limit 1 u v := .head h (.refl v)

theorem Leads.trans {n k : Nat} {u v w : Moment α} (h : Leads bound limit n u v)
    (h' : Leads bound limit k v w) :
    Leads bound limit (k + n) u w := by
  induction h with
  | refl => exact h'
  | head hnext _ ih => exact .head hnext (ih h')

/-! ### What is left to do -/

/-- The number of moments that there can be before the next contraction: each constructor of a term
is entered and left once, and each call that waits is left. -/
def todo (u : Moment α) : Nat :=
  match u.activity with
  | .enter t => 2 * t.size + u.pending.length
  | .leave _ => u.pending.length
  | _ => 0

/-- What the contractions up to a moment have brought in. -/
def added (u : Moment α) : Nat := 2 * (u.contracta.map size).sum

theorem todo_redex (bound : Name.Bound) (limit : Int) (x : String) (b a : Tree α)
    (pending : List (Pending α))
    (begun : Nat) (contracta : List (Tree α)) :
    (redex bound limit x b a pending begun contracta).todo + 2 * (contracta.map size).sum
      ≤ pending.length + (redex bound limit x b a pending begun contracta).added := by
  unfold redex
  split
  · simp only [todo, added]
    omega
  · split
    · simp only [todo, added]
      omega
    · simp only [todo, added, List.map_append, List.sum_append, List.map_cons, List.map_nil,
        List.sum_cons, List.sum_nil]
      omega

/-- A moment leaves less to do than the one before it, but for what a contraction adds. -/
theorem todo_next? {u v : Moment α} (h : u.next? bound limit = some v) :
    v.todo + 1 + u.added ≤ u.todo + v.added := by
  unfold next? at h
  split at h
  case h_6 x b a pending begun contracta =>
    obtain rfl := Option.some.inj h
    have hredex := todo_redex bound limit x b a pending begun contracta
    simp only [todo, added, List.length_cons] at hredex ⊢
    omega
  case h_8 | h_9 | h_10 => contradiction
  all_goals
    obtain rfl := Option.some.inj h
    simp only [todo, added, size, List.length_cons]
    omega

theorem Leads.todo_le {n : Nat} {u w : Moment α} (h : Leads bound limit n u w) :
    n + w.todo + u.added ≤ u.todo + w.added := by
  induction h with
  | refl => omega
  | head hnext _ ih =>
      have hstep := todo_next? hnext
      omega

theorem Leads.length_le {n : Nat} {t : Tree α} {w : Moment α}
    (h : Leads bound limit n (start t) w) :
    n ≤ 2 * (t.size + (w.contracta.map size).sum) := by
  have hle := h.todo_le
  simp only [start, todo, added, List.map_nil, List.sum_nil, List.length_nil] at hle
  omega

/-! ### Moments of a run -/

/-- The moment at which a call comes back from a run, or stops in the middle of it. Runs in an
unlimited room are meant, which stop for want of steps or at an obstacle. -/
def behind (run : Run α) (pending : List (Pending α)) (begun : Nat) (contracta : List (Tree α)) :
    Moment α :=
  match run.ending with
  | .normal => ⟨.leave run.last, pending, begun + run.begun, contracta ++ run.contracta⟩
  | .blocked o => ⟨.block o, [], begun + run.begun, contracta ++ run.contracta⟩
  | _ => ⟨.refuse, [], begun + run.begun, contracta ++ run.contracta⟩

theorem begun_behind (run : Run α) (pending : List (Pending α)) (begun : Nat)
    (contracta : List (Tree α)) :
    (behind run pending begun contracta).begun = begun + run.begun := by
  unfold behind
  cases run.ending <;> rfl

theorem contracta_behind (run : Run α) (pending : List (Pending α)) (begun : Nat)
    (contracta : List (Tree α)) :
    (behind run pending begun contracta).contracta = contracta ++ run.contracta := by
  unfold behind
  cases run.ending <;> rfl

theorem next?_behind_nil (run : Run α) (begun : Nat) (contracta : List (Tree α)) :
    (behind run [] begun contracta).next? bound limit = none := by
  unfold behind
  cases run.ending <;> rfl

theorem behind_after (run : Run α) (taken : List (Tree α)) (pending : List (Pending α))
    (begun : Nat)
    (contracta : List (Tree α)) :
    behind (run.after taken) pending begun contracta
      = behind run pending (begun + taken.length) (contracta ++ taken) := by
  have hlast : (run.after taken).last = run.last := rfl
  have hending : (run.after taken).ending = run.ending := rfl
  have hcontracta : (run.after taken).contracta = taken ++ run.contracta := rfl
  simp only [behind, Run.begun_after, hlast, hending, hcontracta, List.append_assoc, Nat.add_assoc]

/-- A run that does not end in a normal term stops all that waits. -/
theorem behind_within_of_ne_normal {run : Run α} (h : run.ending ≠ .normal)
    (surround : Tree α → Tree α)
    (pending pending' : List (Pending α)) (begun : Nat) (contracta : List (Tree α)) :
    behind (run.within surround) pending begun contracta = behind run pending' begun contracta := by
  simp only [behind, Run.within, Run.begun]
  cases hending : run.ending with
  | normal => exact (h hending).elim
  | _ => rfl

section Normal

variable {run : Run α} (h : run.ending = .normal)

include h

theorem behind_of_normal (pending : List (Pending α)) (begun : Nat) (contracta : List (Tree α)) :
    behind run pending begun contracta =
      ⟨.leave run.last, pending, begun + run.contracta.length, contracta ++ run.contracta⟩ := by
  simp only [behind, Run.begun, h]

theorem next?_behind_body (x : String) (pending : List (Pending α)) (begun : Nat)
    (contracta : List (Tree α)) :
    (behind run (.body x :: pending) begun contracta).next? bound limit
      = some (behind (run.within (lam x)) pending begun contracta) := by
  have hwithin : (run.within (lam x)).ending = .normal := h
  rw [behind_of_normal h, behind_of_normal hwithin]
  rfl

theorem next?_behind_function (hlam : ∀ x b, run.last ≠ lam x b) (a : Tree α)
    (pending : List (Pending α)) (begun : Nat)
    (contracta : List (Tree α)) :
    (behind run (.function a :: pending) begun contracta).next? bound limit
      = some (behind (run.within (app · a)) pending begun contracta) := by
  have hwithin : (run.within (app · a)).ending = .normal := h
  rw [behind_of_normal h, behind_of_normal hwithin, Run.within]
  cases hlast : run.last with
  | lam x b => exact (hlam x b hlast).elim
  | _ => rfl

/-- When the function side of an application becomes an abstraction, a step is begun. -/
theorem exists_leads_redex {n : Nat} {f a b : Tree α} {x : String} {pending : List (Pending α)}
    {begun : Nat}
    {contracta : List (Tree α)} (hlast : run.last = lam x b)
    (hfunction : Leads bound limit n ⟨.enter f, .function a :: pending, begun, contracta⟩
      (behind run (.function a :: pending) begun contracta)) :
    ∃ k, Leads bound limit k ⟨.enter (app f a), pending, begun, contracta⟩
      (redex bound limit x b a pending (begun + run.contracta.length)
        (contracta ++ run.contracta)) := by
  rw [behind_of_normal h, hlast] at hfunction
  exact ⟨_, .head rfl (hfunction.trans (.single rfl))⟩

end Normal

/-- The moments of a call are those of the run that it makes with the steps that the limit still
allows. -/
theorem exists_leads_behind_evaluate (bound : Name.Bound) (limit : Int) (depth budget : Nat)
    (t : Tree α) (pending : List (Pending α)) (begun : Nat) (contracta : List (Tree α))
    (hbudget : budget = (limit - begun).toNat) :
    ∃ n, Leads bound limit n ⟨.enter t, pending, begun, contracta⟩
      (behind (evaluate .unlimited bound depth budget t) pending begun contracta) := by
  fun_induction evaluate .unlimited bound depth budget t generalizing pending begun contracta with
  | case1 depth budget _ x =>
      rw [behind_of_normal rfl, List.append_nil]
      exact ⟨1, .single rfl⟩
  | case2 depth budget _ v =>
      rw [behind_of_normal rfl, List.append_nil]
      exact ⟨1, .single rfl⟩
  | case3 depth budget _ x b ih =>
      obtain ⟨n, hbody⟩ := ih (.body x :: pending) begun contracta hbudget
      by_cases hending : (evaluate .unlimited bound (depth + 1) budget b).ending = .normal
      · exact ⟨_, .head rfl
          (hbody.trans (.single (next?_behind_body hending x pending begun contracta)))⟩
      · rw [behind_within_of_ne_normal hending (lam x) pending (.body x :: pending)]
        exact ⟨_, .head rfl hbody⟩
  | case4 depth budget _ f a function x b hlast hending hlt _ o hobstacle ih =>
      obtain ⟨n, hfunction⟩ := ih (.function a :: pending) begun contracta hbudget
      obtain ⟨k, hredex⟩ := exists_leads_redex hending hlast hfunction
      have hallowed : ¬ limit < ↑(begun + function.contracta.length + 1) := by omega
      rw [redex, if_neg hallowed, hobstacle] at hredex
      exact ⟨k, hredex⟩
  | case5 depth budget _ f a function x b hlast hending hlt _ hobstacle contractum taken _
      ihf ihc =>
      obtain ⟨n, hfunction⟩ := ihf (.function a :: pending) begun contracta hbudget
      obtain ⟨k, hredex⟩ := exists_leads_redex hending hlast hfunction
      have hallowed : ¬ limit < ↑(begun + function.contracta.length + 1) := by omega
      rw [redex, if_neg hallowed, hobstacle] at hredex
      -- the contractum is entered with one step less, and the same calls wait for it
      obtain ⟨l, hcontractum⟩ := ihc pending (begun + function.contracta.length + 1)
        (contracta ++ function.contracta ++ [contractum]) (by omega)
      rw [behind_after, List.length_append, List.length_singleton, ← Nat.add_assoc,
        ← List.append_assoc]
      exact ⟨_, hredex.trans hcontractum⟩
  | case8 depth budget _ f a function x b hlast hending hlt ih =>
      obtain ⟨n, hfunction⟩ := ih (.function a :: pending) begun contracta hbudget
      obtain ⟨k, hredex⟩ := exists_leads_redex hending hlast hfunction
      have hexceeded : limit < ↑(begun + function.contracta.length + 1) := by omega
      rw [redex, if_pos hexceeded] at hredex
      exact ⟨k, hredex⟩
  | case9 depth budget _ f a function hne ih =>
      obtain ⟨n, hfunction⟩ := ih (.function a :: pending) begun contracta hbudget
      by_cases hending : function.ending = .normal
      · have hlam : ∀ x b, function.last ≠ lam x b := fun x b => hne x b hending
        exact ⟨_, .head rfl (hfunction.trans
          (.single (next?_behind_function hending hlam a pending begun contracta)))⟩
      · rw [behind_within_of_ne_normal hending (app · a) pending (.function a :: pending)]
        exact ⟨_, .head rfl hfunction⟩
  | case6 | case7 | case10 => contradiction

end Moment

open LambdaCalculus.Tree

/-- Under a limit, and with no bound on nested calls, the moments of a reduction come to an end,
with at most two for each constructor of the term and of the contracta, and at most as many
contracta as the limit allows. The session then answers the term that the last moment leaves, or the
report on the limit if that moment refuses a step. It can only come to something else at a number in
a name that is too long for the bound on such numbers. -/
theorem Session.reduce_ends (s : Session Empty) (limit : Int) (t : Term) :
    ∃ (n : Nat) (w : Moment Empty) (reduction : Reduction Empty),
      Moment.Leads s.bound limit n (.start t) w ∧ w.next? s.bound limit = none ∧
      n ≤ 2 * (t.size + (w.contracta.map size).sum) ∧ w.contracta.length ≤ limit.toNat ∧
      (∀ fuel, { s with limit := some limit, nesting := none }.reduce fuel t = some reduction) ∧
      reduction.session.begun = w.begun ∧
      reduction.session.steps = w.contracta.map (("β", ·)) ∧
      ((∃ r, w.activity = .leave r ∧ reduction.result = .ok r) ∨
        w.activity = .refuse ∧ reduction.result = .error (.reported (Report.stepLimit t limit)) ∨
        s.bound ≠ none ∧ ∃ fault, w.activity = .block (.number fault)
          ∧ reduction.result = .error (.unforeseen (.longNumber fault))) := by
  obtain ⟨n, hleads⟩ :=
    Moment.exists_leads_behind_evaluate s.bound limit 0 limit.toNat t [] 0 [] (by simp)
  rw [evaluate_unlimited] at hleads
  have hreduce (fuel : Nat) : { s with limit := some limit, nesting := none }.reduce fuel t =
      some ({ s with limit := some limit, nesting := none }.answer t
        (runFor s.bound limit.toNat t)) := by
    have hanswer := { s with nesting := none }.reduce_of_limit limit fuel t
    rwa [room, evaluate_unlimited] at hanswer
  refine ⟨n, _, _, hleads, Moment.next?_behind_nil .., hleads.length_le, ?_, hreduce, ?_, ?_, ?_⟩
  · rw [Moment.contracta_behind, List.nil_append]
    exact length_contracta_runFor_le limit.toNat t
  · rw [Moment.begun_behind, Nat.zero_add]
    rfl
  · rw [Moment.contracta_behind, List.nil_append]
    rfl
  · rcases ending_runFor_cases s.bound limit.toNat t with
      hending | hending | ⟨fault, hbound, hending⟩
    · left
      exact ⟨_, by rw [Moment.behind_of_normal hending], verdict_of_normal hending⟩
    · right
      left
      refine ⟨by simp only [Moment.behind, hending], ?_⟩
      exact (verdict_of_unfinished hending).resolve_right fun hlacks => hlacks.1 rfl
    · right
      right
      exact ⟨hbound, fault, by simp only [Moment.behind, hending], verdict_of_blocked hending⟩

end LambdaCalculus
