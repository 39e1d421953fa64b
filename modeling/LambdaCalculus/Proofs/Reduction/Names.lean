import LambdaCalculus.Proofs.Nameless.Laws
import LambdaCalculus.Proofs.Reduction.Contraction
import LambdaCalculus.Proofs.Term.Names

/-!
# The names in what a reduction makes

A contraction leaves the surroundings of the redex as they are and puts a substitution in its place.
So what substitution keeps of the names in terms holds of all contracta of a reduction and of its
answer, and no name becomes free by it.
-/

namespace LambdaCalculus

variable {α : Type} {p q : String → Prop}

theorem SpineContext.namedBy_fill {C : SpineContext α} {t : Tree α} (h : (C.fill t).NamedBy p q) :
    t.NamedBy p q ∧ ∀ u : Tree α, u.NamedBy p q → (C.fill u).NamedBy p q := by
  induction C with
  | hole => exact ⟨h, fun _ hu => hu⟩
  | lam x C ih =>
      obtain ⟨ht, hfill⟩ := ih h.2
      exact ⟨ht, fun u hu => ⟨h.1, hfill u hu⟩⟩
  | function C a ih =>
      obtain ⟨ht, hfill⟩ := ih h.1
      exact ⟨ht, fun u hu => ⟨hfill u hu, h.2⟩⟩

namespace Tree

variable (hfresh : ∀ seed used, p seed → p (Name.fresh seed used) ∧ q (Name.fresh seed used))

include hfresh

theorem Contraction.namedBy {t e u : Tree α} (h : Contraction t e u) (ht : t.NamedBy p q) :
    e.NamedBy p q ∧ u.NamedBy p q := by
  obtain ⟨C, x, b, a, rfl, rfl, rfl, _⟩ := h
  obtain ⟨⟨⟨_, hb⟩, ha⟩, hfill⟩ := C.namedBy_fill ht
  have hcontractum := namedBy_substitute hfresh x ha hb
  exact ⟨hcontractum, hfill _ hcontractum⟩

theorem Contractions.namedBy {t r : Tree α} {contracta : List (Tree α)}
    (h : Contractions t contracta r)
    (ht : t.NamedBy p q) : (∀ e ∈ contracta, e.NamedBy p q) ∧ r.NamedBy p q := by
  induction h with
  | nil t => exact ⟨by simp, ht⟩
  | cons hstep _ ih =>
      obtain ⟨he, hu⟩ := hstep.namedBy hfresh ht
      obtain ⟨hcontracta, hr⟩ := ih hu
      exact ⟨List.forall_mem_cons.mpr ⟨he, hcontracta⟩, hr⟩

/-- A reduction keeps the names in terms as substitution does, in the steps that it records and in
its answer. -/
theorem namedBy_of_reduce [Foreign α] {s : Session α} {fuel : Nat} {t : Tree α}
    {reduction : Reduction α}
    (h : s.reduce fuel t = some reduction) (ht : t.NamedBy p q) :
    (∀ step ∈ reduction.session.steps, step.2.NamedBy p q)
      ∧ ∀ r, reduction.result = .ok r → r.NamedBy p q := by
  rw [Session.reduce_eq_answer, Option.ite_none_left_eq_some] at h
  obtain rfl := Option.some.inj h.2
  obtain ⟨hsteps, hlast⟩ := (s.keepsTo_course fuel t).contractions.namedBy hfresh ht
  constructor
  · intro step hstep
    obtain ⟨e, he, rfl⟩ := List.mem_map.mp hstep
    exact hsteps e he
  · intro r hr
    obtain ⟨_, rfl⟩ := Session.verdict_eq_ok hr
    exact hlast

omit hfresh in
/-- A character that is no subscript digit does not come into the names of a term by reduction. -/
theorem lacks_of_reduce [Foreign α] {c : Char} (hc : Name.isSubscriptDigit c = false)
    {s : Session α} {fuel : Nat}
    {t : Tree α} {reduction : Reduction α} (h : s.reduce fuel t = some reduction) (ht : t.Lacks c) :
    (∀ step ∈ reduction.session.steps, step.2.Lacks c) ∧
      ∀ r, reduction.result = .ok r → r.Lacks c := by
  apply namedBy_of_reduce _ h ht
  intro seed used hseed
  have hname := Name.not_mem_toList_fresh hc hseed used
  exact ⟨hname, hname⟩

end Tree

/-! ### Free names -/

open LambdaCalculus.Tree in
theorem SpineContext.freeNames_fill_subset {t u : Term} (h : u.freeNames ⊆ t.freeNames)
    (C : SpineContext Empty) :
    (C.fill u).freeNames ⊆ (C.fill t).freeNames := by
  induction C with
  | hole => exact h
  | lam x C ih =>
      intro z hz
      obtain ⟨hz, hzx⟩ := mem_freeNames_lam.mp hz
      exact mem_freeNames_lam.mpr ⟨ih hz, hzx⟩
  | function C a ih =>
      intro z hz
      rw [SpineContext.fill, mem_freeNames_app] at hz ⊢
      exact hz.imp_left (@ih z)

namespace Tree

theorem freeNames_substitute_subset (x : String) (b a : Term) :
    (substitute x a b).freeNames ⊆ (app (lam x b) a).freeNames := by
  intro z hz
  rw [mem_freeNames_app, mem_freeNames_lam]
  exact (mem_freeNames_substitute.mp hz).imp_right And.right

theorem Contraction.freeNames_subset {t e u : Term} (h : Contraction t e u) :
    u.freeNames ⊆ t.freeNames := by
  obtain ⟨C, x, b, a, rfl, rfl, rfl, _⟩ := h
  exact C.freeNames_fill_subset (freeNames_substitute_subset x b a)

theorem Contractions.freeNames_subset {t r : Term} {contracta : List Term}
    (h : Contractions t contracta r) :
    r.freeNames ⊆ t.freeNames := by
  induction h with
  | nil t => exact List.Subset.refl _
  | cons hstep _ ih => exact List.Subset.trans ih hstep.freeNames_subset

end Tree

end LambdaCalculus
