import LambdaCalculus.Parser.Machine

/-!
# Derivations

The grammar of source texts, with its derivations as trees: a `Row` derives a term, an `Atom` one of
its atoms. Each derivation has a text, the characters it derives, and spells a term, in which every
row of atoms is applied from the left.

The grammar is ambiguous. An atom behind an abstraction may belong to the row of the abstraction or
to that of its body. A derivation is *greedy* if it never makes the first choice. Every text that
has a derivation has a greedy one (`exists_isGreedy`), and no more than one (`Row.eq_of_append_eq`),
whatever stands behind the text, as long as that cannot go on with it.
-/

namespace LambdaCalculus.Parser

variable {α : Type}

/-! ### Derivations -/

/-- The characters that do not occur in a name. -/
def reserved : List Char := ['λ', '.', '(', ')', ' ']

/-- What the grammar calls a variable. -/
@[ext]
structure Identifier where
  chars : List Char
  nonempty : chars ≠ []
  legal : ∀ c ∈ chars, c ∉ reserved

def Identifier.name (x : Identifier) : String := String.ofList x.chars

mutual

/-- A derivation of a term: one atom or more, with a blank between any two. -/
inductive Row where
  | last (a : Atom)
  | more (a : Atom) (rest : Row)

inductive Atom where
  | group (inner : Row)
  | abstraction (x : Identifier) (body : Row)
  | name (x : Identifier)

end

mutual

/-- The characters that a row derives. -/
def Row.chars : Row → List Char
  | .last a => a.chars
  | .more a rest => a.chars ++ ' ' :: rest.chars

def Atom.chars : Atom → List Char
  | .group inner => '(' :: (inner.chars ++ [')'])
  | .abstraction x body => 'λ' :: (x.chars ++ '.' :: body.chars)
  | .name x => x.chars

end

def Row.text (r : Row) : String := String.ofList r.chars

mutual

/-- What a row of atoms becomes behind the part of the row that stands in front of it. -/
def Row.treeBehind (before : Option (Tree α)) : Row → Tree α
  | .last a => extend before a.tree
  | .more a rest => rest.treeBehind (some (extend before a.tree))

def Atom.tree : Atom → Tree α
  | .group inner => inner.treeBehind none
  | .abstraction x body => .lam x.name (body.treeBehind none)
  | .name x => .var x.name

end

/-- The term that a row spells. -/
def Row.tree (r : Row) : Tree α := r.treeBehind none

/-- Whether a text is derived from the grammar. -/
def Derivable (source : String) : Prop := ∃ r : Row, r.text = source

/-! ### Greedy derivations -/

def Atom.IsAbstraction : Atom → Prop
  | .abstraction _ _ => True
  | _ => False

mutual

/-- Whether every abstraction reaches as far as it can: none has an atom behind it in its own
row. -/
def Row.IsGreedy : Row → Prop
  | .last a => a.IsGreedy
  | .more a rest => a.IsGreedy ∧ ¬ a.IsAbstraction ∧ rest.IsGreedy

def Atom.IsGreedy : Atom → Prop
  | .group inner => inner.IsGreedy
  | .abstraction _ body => body.IsGreedy
  | .name _ => True

end

/-- A row can be put behind another one by a blank, and the abstraction that this may go on with
takes it into its body. -/
theorem Row.exists_isGreedy_append {s : Row} (hs : s.IsGreedy) :
    ∀ r : Row, r.IsGreedy → ∃ g : Row, g.IsGreedy ∧ g.chars = r.chars ++ ' ' :: s.chars
  | .last (.group inner), hr => ⟨.more (.group inner) s, ⟨hr, id, hs⟩, rfl⟩
  | .last (.name x), hr => ⟨.more (.name x) s, ⟨hr, id, hs⟩, rfl⟩
  | .last (.abstraction x body), hr => by
      obtain ⟨g, hg, hchars⟩ := exists_isGreedy_append hs body hr
      refine ⟨.last (.abstraction x g), hg, ?_⟩
      simp only [Row.chars, Atom.chars, hchars, List.cons_append, List.append_assoc]
  | .more a rest, ⟨ha, habstraction, hrest⟩ => by
      obtain ⟨g, hg, hchars⟩ := exists_isGreedy_append hs rest hrest
      refine ⟨.more a g, ⟨ha, habstraction, hg⟩, ?_⟩
      simp only [Row.chars, hchars, List.cons_append, List.append_assoc]

mutual

/-- Every text with a derivation has a greedy one. -/
theorem Row.exists_isGreedy : ∀ r : Row, ∃ g : Row, g.IsGreedy ∧ g.chars = r.chars
  | .last a => by
      obtain ⟨b, hb, hchars⟩ := a.exists_isGreedy
      exact ⟨.last b, hb, hchars⟩
  | .more a rest => by
      obtain ⟨b, hb, hchars⟩ := a.exists_isGreedy
      obtain ⟨s, hs, hrest⟩ := rest.exists_isGreedy
      obtain ⟨g, hg, happend⟩ := Row.exists_isGreedy_append hs (.last b) hb
      refine ⟨g, hg, ?_⟩
      rw [happend, Row.chars, hchars, hrest, Row.chars]

theorem Atom.exists_isGreedy : ∀ a : Atom, ∃ b : Atom, b.IsGreedy ∧ b.chars = a.chars
  | .group inner => by
      obtain ⟨g, hg, hchars⟩ := inner.exists_isGreedy
      exact ⟨.group g, hg, by simp only [Atom.chars, hchars]⟩
  | .abstraction x body => by
      obtain ⟨g, hg, hchars⟩ := body.exists_isGreedy
      exact ⟨.abstraction x g, hg, by simp only [Atom.chars, hchars]⟩
  | .name x => ⟨.name x, trivial, rfl⟩

end

/-! ### Where derivations end -/

theorem isNameChar_iff {c : Char} : isNameChar c = true ↔ c ∉ reserved := by
  simp [isNameChar, isToken, reserved, and_assoc]

theorem isNameChar_of_mem_head? {c : Char} (hc : isNameChar c = false) (rest : List Char) :
    ∀ d ∈ (c :: rest).head?, isNameChar d = false := by
  intro d hd
  obtain rfl : c = d := Option.some.inj hd
  exact hc

theorem Identifier.isNameChar_of_mem {x : Identifier} {c : Char} (h : c ∈ x.chars) :
    isNameChar c = true :=
  isNameChar_iff.mpr (x.legal c h)

mutual

/-- Whether a row ends in front of a text, whose first character then goes on neither with the row
nor with its last name. -/
def Row.EndsBefore (rest : List Char) : Row → Prop
  | .last a => rest.head? ≠ some ' ' ∧ a.EndsBefore rest
  | .more _ r => r.EndsBefore rest

def Atom.EndsBefore (rest : List Char) : Atom → Prop
  | .group _ => True
  | .abstraction _ body => body.EndsBefore rest
  | .name _ => ∀ c ∈ rest.head?, isNameChar c = false

end

theorem Row.head?_ne_blank {rest : List Char} : ∀ r : Row, r.EndsBefore rest → rest.head? ≠ some ' '
  | .last _, h => h.1
  | .more _ r, h => r.head?_ne_blank h

mutual

theorem Row.endsBefore_of_head? {rest : List Char}
    (hrest : ∀ c ∈ rest.head?, isNameChar c = false ∧ c ≠ ' ') :
    ∀ r : Row, r.EndsBefore rest
  | .last a => by
      refine ⟨?_, a.endsBefore_of_head? hrest⟩
      intro hhead
      exact (hrest ' ' hhead).2 rfl
  | .more _ r => r.endsBefore_of_head? hrest

theorem Atom.endsBefore_of_head? {rest : List Char}
    (hrest : ∀ c ∈ rest.head?, isNameChar c = false ∧ c ≠ ' ') :
    ∀ a : Atom, a.EndsBefore rest
  | .group _ => trivial
  | .abstraction _ body => body.endsBefore_of_head? hrest
  | .name _ => fun c hc => (hrest c hc).1

end

theorem Row.endsBefore_nil (r : Row) : r.EndsBefore [] := r.endsBefore_of_head? (by simp)

theorem Row.endsBefore_parenthesis (r : Row) (rest : List Char) : r.EndsBefore (')' :: rest) := by
  apply r.endsBefore_of_head?
  intro c hc
  obtain rfl : ')' = c := by simpa using hc
  decide

theorem Atom.endsBefore_blank {a : Atom} (h : ¬ a.IsAbstraction) (rest : List Char) :
    a.EndsBefore (' ' :: rest) := by
  cases a with
  | group inner => trivial
  | abstraction x body => exact (h trivial).elim
  | name x => exact isNameChar_of_mem_head? (by decide) rest

/-! ### One text, one greedy derivation -/

theorem Identifier.takeWhile_append (x : Identifier) {rest : List Char}
    (hrest : ∀ c ∈ rest.head?, isNameChar c = false) :
    (x.chars ++ rest).takeWhile isNameChar = x.chars := by
  rw [List.takeWhile_append_of_pos fun c hc => x.isNameChar_of_mem hc]
  cases rest with
  | nil => simp
  | cons c rest => simp [hrest c rfl]

theorem Identifier.eq_of_append_eq {x y : Identifier} {u v : List Char}
    (hu : ∀ c ∈ u.head?, isNameChar c = false)
    (hv : ∀ c ∈ v.head?, isNameChar c = false) (h : x.chars ++ u = y.chars ++ v) :
    x = y ∧ u = v := by
  have hchars : x.chars = y.chars := by
    rw [← x.takeWhile_append hu, h, y.takeWhile_append hv]
  refine ⟨Identifier.ext hchars, ?_⟩
  rwa [hchars, List.append_cancel_left_eq] at h

theorem Identifier.append_ne_cons (x : Identifier) {c : Char} (hc : isNameChar c = false)
    (u v : List Char) :
    x.chars ++ u ≠ c :: v := by
  intro h
  obtain ⟨d, ds, hds⟩ := List.exists_cons_of_ne_nil x.nonempty
  rw [hds, List.cons_append, List.cons.injEq] at h
  have hd : isNameChar d = true := x.isNameChar_of_mem (by simp [hds])
  rw [h.1, hc] at hd
  contradiction

mutual

/-- A greedy derivation is determined by its text, and by where it ends in a longer one. -/
theorem Row.eq_of_append_eq :
    ∀ {r s : Row} {u v : List Char}, r.IsGreedy → s.IsGreedy → r.EndsBefore u →
    s.EndsBefore v → r.chars ++ u = s.chars ++ v → r = s ∧ u = v
  | .last a, .last b, u, v, hr, hs, hu, hv, h => by
      obtain ⟨rfl, rfl⟩ := Atom.eq_of_append_eq hr hs hu.2 hv.2 h
      exact ⟨rfl, rfl⟩
  | .last a, .more b s, u, v, hr, hs, hu, hv, h => by
      have h' : a.chars ++ u = b.chars ++ ' ' :: (s.chars ++ v) := by simpa [Row.chars] using h
      obtain ⟨rfl, rfl⟩ := Atom.eq_of_append_eq hr hs.1 hu.2 (Atom.endsBefore_blank hs.2.1 _) h'
      exact (hu.1 rfl).elim
  | .more a r, .last b, u, v, hr, hs, hu, hv, h => by
      have h' : a.chars ++ ' ' :: (r.chars ++ u) = b.chars ++ v := by simpa [Row.chars] using h
      obtain ⟨rfl, rfl⟩ := Atom.eq_of_append_eq hr.1 hs (Atom.endsBefore_blank hr.2.1 _) hv.2 h'
      exact (hv.1 rfl).elim
  | .more a r, .more b s, u, v, hr, hs, hu, hv, h => by
      have h' : a.chars ++ ' ' :: (r.chars ++ u) = b.chars ++ ' ' :: (s.chars ++ v) := by
        simpa [Row.chars] using h
      obtain ⟨rfl, hrest⟩ := Atom.eq_of_append_eq hr.1 hs.1 (Atom.endsBefore_blank hr.2.1 _)
        (Atom.endsBefore_blank hs.2.1 _) h'
      obtain ⟨rfl, rfl⟩ := Row.eq_of_append_eq hr.2.2 hs.2.2 hu hv (List.cons.inj hrest).2
      exact ⟨rfl, rfl⟩

theorem Atom.eq_of_append_eq :
    ∀ {a b : Atom} {u v : List Char}, a.IsGreedy → b.IsGreedy → a.EndsBefore u →
    b.EndsBefore v → a.chars ++ u = b.chars ++ v → a = b ∧ u = v
  | .group r, .group s, u, v, hr, hs, _, _, h => by
      have h' : r.chars ++ ')' :: u = s.chars ++ ')' :: v := by simpa [Atom.chars] using h
      obtain ⟨rfl, hrest⟩ :=
        Row.eq_of_append_eq hr hs (r.endsBefore_parenthesis u) (s.endsBefore_parenthesis v) h'
      exact ⟨rfl, (List.cons.inj hrest).2⟩
  | .abstraction x r, .abstraction y s, u, v, hr, hs, hu, hv, h => by
      have h' : x.chars ++ '.' :: (r.chars ++ u) = y.chars ++ '.' :: (s.chars ++ v) := by
        simpa [Atom.chars] using h
      obtain ⟨rfl, hrest⟩ := Identifier.eq_of_append_eq (isNameChar_of_mem_head? (by decide) _)
        (isNameChar_of_mem_head? (by decide) _) h'
      obtain ⟨rfl, rfl⟩ := Row.eq_of_append_eq hr hs hu hv (List.cons.inj hrest).2
      exact ⟨rfl, rfl⟩
  | .name x, .name y, u, v, _, _, hu, hv, h => by
      obtain ⟨rfl, rfl⟩ := Identifier.eq_of_append_eq hu hv h
      exact ⟨rfl, rfl⟩
  | .group _, .abstraction _ _, _, _, _, _, _, _, h => by simp [Atom.chars] at h
  | .abstraction _ _, .group _, _, _, _, _, _, _, h => by simp [Atom.chars] at h
  | .name x, .group _, _, _, _, _, _, _, h => (x.append_ne_cons (by decide) _ _ h).elim
  | .name x, .abstraction _ _, _, _, _, _, _, _, h => (x.append_ne_cons (by decide) _ _ h).elim
  | .group _, .name y, _, _, _, _, _, _, h => (y.append_ne_cons (by decide) _ _ h.symm).elim
  | .abstraction _ _, .name y, _, _, _, _, _, _, h => (y.append_ne_cons (by decide) _ _ h.symm).elim

end

end LambdaCalculus.Parser
