import LambdaCalculus.Proofs.Parser.Reading
import LambdaCalculus.Proofs.Term.Names

/-!
# The names in source texts

All names in a term that a source text spells are names of the grammar: they are not empty and have
no reserved character in them. Conversely, a term with such names is spelled by a source text, in
which function sides and arguments stand in groups. Names stay such names when fresh ones are made
from them.
-/

namespace LambdaCalculus.Parser

open LambdaCalculus.Tree

variable {α : Type}

def IsIdentifier (name : String) : Prop := ∃ x : Identifier, x.name = name

theorem IsIdentifier.not_mem {name : String} (h : IsIdentifier name) {c : Char}
    (hc : c ∈ reserved) :
    c ∉ name.toList := by
  obtain ⟨x, rfl⟩ := h
  intro hmem
  rw [Identifier.name, String.toList_ofList] at hmem
  exact x.legal c hmem hc

theorem isIdentifier_iff {name : String} :
    IsIdentifier name ↔ name ≠ "" ∧ ∀ c ∈ reserved, c ∉ name.toList := by
  constructor
  · intro h
    refine ⟨?_, fun _ => h.not_mem⟩
    obtain ⟨x, rfl⟩ := h
    simpa [Identifier.name] using x.nonempty
  · rintro ⟨hnonempty, hlegal⟩
    refine ⟨⟨name.toList, by simpa using hnonempty, ?_⟩, String.ofList_toList⟩
    intro c hc hreserved
    exact hlegal c hreserved hc

theorem isIdentifier_fresh {seed : String} (h : IsIdentifier seed) (used : List String) :
    IsIdentifier (Name.fresh seed used) := by
  have hdigit : ∀ c ∈ reserved, Name.isSubscriptDigit c = false := by
    simp [reserved, Name.isSubscriptDigit]
  obtain ⟨hnonempty, hlegal⟩ := isIdentifier_iff.mp h
  refine isIdentifier_iff.mpr ⟨Name.fresh_ne_empty hnonempty used, ?_⟩
  intro c hc
  exact Name.not_mem_toList_fresh (hdigit c hc) (hlegal c hc) used

/-! ### What is spelled has such names -/

theorem namedBy_extend {p q : String → Prop} {before : Option (Tree α)}
    (hbefore : ∀ f ∈ before, f.NamedBy p q)
    {t : Tree α} (ht : t.NamedBy p q) : (extend before t).NamedBy p q := by
  cases before with
  | none => exact ht
  | some f => exact ⟨hbefore f rfl, ht⟩

mutual

theorem Row.namedBy_treeBehind : ∀ (r : Row) {before : Option (Tree α)},
    (∀ f ∈ before, f.NamedBy IsIdentifier IsIdentifier) →
      (r.treeBehind before).NamedBy IsIdentifier IsIdentifier
  | .last a, _, hbefore => namedBy_extend hbefore a.namedBy_tree
  | .more a rest, _, hbefore => by
      apply rest.namedBy_treeBehind
      intro f hf
      obtain rfl := Option.some.inj hf
      exact namedBy_extend hbefore a.namedBy_tree

theorem Atom.namedBy_tree : ∀ a : Atom, (a.tree : Tree α).NamedBy IsIdentifier IsIdentifier
  | .group inner => inner.namedBy_treeBehind (by simp)
  | .abstraction x body => ⟨⟨x, rfl⟩, body.namedBy_treeBehind (by simp)⟩
  | .name x => ⟨x, rfl⟩

end

theorem namedBy_of_parse {source : String} {t : Tree α} (h : parse source = .ok t) :
    t.NamedBy IsIdentifier IsIdentifier := by
  obtain ⟨r, _, _, rfl⟩ := exists_row_of_parse h
  exact r.namedBy_treeBehind (by simp)

theorem lacks_of_parse {source : String} {t : Tree α} (h : parse source = .ok t) {c : Char}
    (hc : c ∈ reserved) :
    t.Lacks c :=
  (namedBy_of_parse h).imp (fun _ hx => hx.not_mem hc) fun _ hx => hx.not_mem hc

/-! ### The characters of names -/

theorem Identifier.not_mem_name {x : Identifier} {c : Char} (h : c ∉ x.chars) :
    c ∉ x.name.toList := by
  rwa [Identifier.name, String.toList_ofList]

mutual

theorem Row.lacks_treeBehind {c : Char} : ∀ (r : Row) {before : Option (Tree α)}, c ∉ r.chars →
    (∀ f ∈ before, f.Lacks c) → (r.treeBehind before).Lacks c
  | .last a, _, hr, hbefore => namedBy_extend hbefore (a.lacks_tree hr)
  | .more a rest, _, hr, hbefore => by
      rw [Row.chars, List.mem_append, List.mem_cons, not_or, not_or] at hr
      obtain ⟨ha, -, hrest⟩ := hr
      apply rest.lacks_treeBehind hrest
      intro f hf
      obtain rfl := Option.some.inj hf
      exact namedBy_extend hbefore (a.lacks_tree ha)

theorem Atom.lacks_tree {c : Char} : ∀ a : Atom, c ∉ a.chars → (a.tree : Tree α).Lacks c
  | .group inner, ha => by
      rw [Atom.chars, List.mem_cons, List.mem_append, not_or, not_or] at ha
      exact inner.lacks_treeBehind ha.2.1 (by simp)
  | .abstraction x body, ha => by
      rw [Atom.chars, List.mem_cons, List.mem_append, List.mem_cons, not_or, not_or, not_or] at ha
      obtain ⟨-, hx, -, hbody⟩ := ha
      exact ⟨Identifier.not_mem_name hx, body.lacks_treeBehind hbody (by simp)⟩
  | .name _, ha => Identifier.not_mem_name ha

end

/-- The names in a term have no other characters than its source text. -/
theorem lacks_of_not_mem {source : String} {t : Tree α} (h : parse source = .ok t) {c : Char}
    (hc : c ∉ source.toList) :
    t.Lacks c := by
  obtain ⟨r, rfl, -, rfl⟩ := exists_row_of_parse h
  rw [Row.text, String.toList_ofList] at hc
  exact r.lacks_treeBehind hc (by simp)

/-! ### What has such names is spelled -/

theorem exists_row_of_namedBy {t : Term} (h : t.NamedBy IsIdentifier IsIdentifier) :
    ∃ r : Row, r.IsGreedy ∧ r.tree = t := by
  induction t with
  | var x =>
      obtain ⟨x, rfl⟩ := h
      exact ⟨.last (.name x), trivial, rfl⟩
  | lam x b ih =>
      obtain ⟨⟨x, rfl⟩, hb⟩ := h
      obtain ⟨r, hr, rfl⟩ := ih hb
      exact ⟨.last (.abstraction x r), hr, rfl⟩
  | app f a ihf iha =>
      -- a group ends where it is closed, whatever stands in it
      obtain ⟨r, hr, rfl⟩ := ihf h.1
      obtain ⟨s, hs, rfl⟩ := iha h.2
      exact ⟨.more (.group r) (.last (.group s)), ⟨hr, id, hs⟩, rfl⟩
  | foreign v => exact v.elim

theorem exists_parse_iff_namedBy {t : Term} :
    (∃ source, parse source = .ok t) ↔ t.NamedBy IsIdentifier IsIdentifier := by
  constructor
  · rintro ⟨source, h⟩
    exact namedBy_of_parse h
  · intro h
    obtain ⟨r, hr, rfl⟩ := exists_row_of_namedBy h
    exact ⟨r.text, parse_text hr⟩

/-- The terms that source texts spell are those in which no name, of a binder or of a variable, is
empty or has a reserved character in it. -/
theorem exists_parse_iff (t : Term) :
    (∃ source, parse source = .ok t) ↔
      ∀ x, x ∈ t.binderNames ∨ x ∈ t.variableNames → x ≠ "" ∧ ∀ c ∈ reserved, c ∉ x.toList := by
  rw [exists_parse_iff_namedBy, namedBy_iff]
  simp only [isIdentifier_iff, or_imp]
  exact forall_and.symm

end LambdaCalculus.Parser
