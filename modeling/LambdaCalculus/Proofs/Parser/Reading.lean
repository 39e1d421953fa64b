import LambdaCalculus.Parser.Reader
import LambdaCalculus.Proofs.Parser.Grammar
import LambdaCalculus.Report.Wording

/-!
# What is read

The machine reads exactly what the grammar derives. Run on a greedy derivation it ends up behind the
last atom of the row, with the term that the row spells, whatever constructs are open around it
(`run_row`); and every run that succeeds has read a greedy derivation (`beginsWithRow_of_run`). Both
hold for whatever stands behind the derivation, as long as that does not go on with it, so a source
text is a term exactly if it is derived from the grammar.
-/

namespace LambdaCalculus.Parser

variable {α : Type} {goal : Goal} {before : Option (Tree α)} {frames : List (Frame α)}

/-! ### Names -/

theorem position_cons (position : Nat) (c : Char) (cs : List Char) :
    position + 1 + cs.length = position + (c :: cs).length := by
  rw [List.length_cons]
  omega

/-- The characters of a name are read one after the other, in any mode that collects them. -/
theorem run_nameChars (state : List Char → State α)
    (hshift : ∀ position c reversed, isNameChar c = true →
      move goal position (state reversed) c = .shift (state (c :: reversed)))
    {xs : List Char} (hxs : ∀ c ∈ xs, isNameChar c = true) (position : Nat)
    (reversed rest : List Char) :
    run goal position (state reversed) (xs ++ rest) =
      run goal (position + xs.length) (state (xs.reverse ++ reversed)) rest := by
  induction xs generalizing position reversed with
  | nil => rfl
  | cons c xs ih =>
      have hc : isNameChar c = true := hxs c List.mem_cons_self
      rw [List.cons_append, run, hshift position c reversed hc]
      simp only [ih fun d hd => hxs d (List.mem_cons_of_mem c hd), position_cons position c,
        List.reverse_cons, List.append_assoc, List.cons_append, List.nil_append]

theorem run_identifier {start : State α} (state : List Char → State α)
    (hstart : ∀ position c, isNameChar c = true → move goal position start c = .shift (state [c]))
    (hshift : ∀ position c reversed, isNameChar c = true →
      move goal position (state reversed) c = .shift (state (c :: reversed)))
    (x : Identifier) (position : Nat) (rest : List Char) :
    run goal position start (x.chars ++ rest) = run goal (position + x.chars.length)
      (state x.chars.reverse) rest := by
  obtain ⟨c, cs, hchars⟩ := List.exists_cons_of_ne_nil x.nonempty
  have hx : ∀ d ∈ c :: cs, isNameChar d = true := by
    intro d hd
    rw [← hchars] at hd
    exact x.isNameChar_of_mem hd
  have hcs : ∀ d ∈ cs, isNameChar d = true := fun d hd => hx d (List.mem_cons_of_mem c hd)
  rw [hchars, List.cons_append, run, hstart position c (hx c List.mem_cons_self), List.reverse_cons,
    ← position_cons position c]
  exact run_nameChars state hshift hcs (position + 1) [c] rest

/-- A name ends where no character goes on with it. -/
theorem run_name_end (position : Nat) (reversed : List Char) {rest : List Char}
    (hrest : ∀ c ∈ rest.head?, isNameChar c = false) :
    run goal position ⟨.name before reversed, frames⟩ rest =
      run goal position
        ⟨.complete (extend before (.var (String.ofList reversed.reverse))), frames⟩ rest := by
  cases rest with
  | nil => rfl
  | cons c rest =>
      have hc : isNameChar c = false := hrest c rfl
      simp [run, move, hc]

theorem run_name (x : Identifier) {rest : List Char}
    (hrest : ∀ c ∈ rest.head?, isNameChar c = false)
    (position : Nat) :
    run goal position ⟨.atom before, frames⟩ (x.chars ++ rest) =
      run goal (position + x.chars.length)
        ⟨.complete (extend before (.var x.name)), frames⟩ rest := by
  have hstart (position : Nat) (c : Char) (hc : isNameChar c = true) :
      move goal position ⟨.atom before, frames⟩ c = .shift ⟨.name before [c], frames⟩ := by
    have hparenthesis : c ≠ '(' := by
      rintro rfl
      contradiction
    have hlambda : c ≠ 'λ' := by
      rintro rfl
      contradiction
    simp only [move, hparenthesis, hlambda, hc, if_false, if_true]
  rw [run_identifier (fun reversed => ⟨.name before reversed, frames⟩) hstart
      (fun _ _ _ hc => by simp only [move, hc, if_true]), run_name_end _ _ hrest,
        List.reverse_reverse, Identifier.name]

theorem run_boundName (x : Identifier) (position start : Nat) (rest : List Char) :
    run goal position ⟨.lambda before start, frames⟩ (x.chars ++ rest) =
      run goal (position + x.chars.length) ⟨.boundName before x.chars.reverse, frames⟩ rest := by
  apply run_identifier fun reversed => ⟨.boundName before reversed, frames⟩
  · intro _ c hc
    simp only [move, hc, if_true]
  · intro _ c reversed hc
    simp only [move, hc, if_true]

theorem run_dot (x : Identifier) (position : Nat) (rest : List Char) :
    run goal position ⟨.boundName before x.chars.reverse, frames⟩ ('.' :: rest) =
      run goal (position + 1) ⟨.atom none, ⟨.binder x.name, before⟩ :: frames⟩ rest := by
  have hdot : isNameChar '.' = false := by decide
  simp [run, move, hdot, Identifier.name]

/-! ### Groups and abstractions -/

theorem run_parenthesis (position : Nat) (cs : List Char) :
    run goal position ⟨.atom before, frames⟩ ('(' :: cs) =
      run goal (position + 1) ⟨.atom none, ⟨.group position, before⟩ :: frames⟩ cs := by
  simp [run, move]

theorem run_lambda (position : Nat) (cs : List Char) :
    run goal position ⟨.atom before, frames⟩ ('λ' :: cs) =
      run goal (position + 1) ⟨.lambda before position, frames⟩ cs := by
  simp [run, move]

theorem run_blank (hrow : goal = .term ∨ frames ≠ []) (position : Nat) (row : Tree α)
    (rest : List Char) :
    run goal position ⟨.complete row, frames⟩ (' ' :: rest) =
      run goal (position + 1) ⟨.atom (some row), frames⟩ rest := by
  have hgoes : ' ' = ' ' ∧ ¬ (goal = .atom ∧ frames.isEmpty = true) := by
    refine ⟨rfl, ?_⟩
    rintro ⟨rfl, hempty⟩
    rcases hrow with hgoal | hframes
    · contradiction
    · exact hframes (List.isEmpty_iff.mp hempty)
  rw [run]
  simp only [move]
  rw [moveBehindAtom, if_pos hgoes]

/-- An abstraction ends where its body does. -/
theorem run_binder (position : Nat) (row : Tree α) (x : String) {rest : List Char}
    (hrest : rest.head? ≠ some ' ') :
    run goal position ⟨.complete row, ⟨.binder x, before⟩ :: frames⟩ rest =
      run goal position ⟨.complete (extend before (.lam x row)), frames⟩ rest := by
  cases rest with
  | nil => rfl
  | cons c rest =>
      have hc : c ≠ ' ' := by
        rintro rfl
        exact hrest rfl
      have hstays (frames : List (Frame α)) :
          ¬ (c = ' ' ∧ ¬ (goal = .atom ∧ frames.isEmpty = true)) :=
        fun hblank => hc hblank.1
      simp only [run, move, moveBehindAtom, if_neg (hstays _), closeBinders]

theorem run_group (position start : Nat) (row : Tree α) (rest : List Char) :
    run goal position ⟨.complete row, ⟨.group start, before⟩ :: frames⟩ (')' :: rest) =
      run goal (position + 1) ⟨.complete (extend before row), frames⟩ rest := by
  have hblank : ¬ ')' = ' ' := by decide
  simp only [run, move, moveBehindAtom, hblank, false_and, if_false, closeBinders, if_true]

/-! ### What is derived is read -/

mutual

/-- The machine reads a greedy derivation to its end. -/
theorem run_row :
    ∀ (r : Row) {frames : List (Frame α)} {rest : List Char}, r.IsGreedy → r.EndsBefore rest →
    goal = .term ∨ frames ≠ [] → ∀ (position : Nat) (before : Option (Tree α)),
      run goal position ⟨.atom before, frames⟩ (r.chars ++ rest) =
        run goal (position + r.chars.length) ⟨.complete (r.treeBehind before), frames⟩ rest
  | .last a, frames, rest, hr, hrest, _, position, before => run_atom a hr hrest.2 position before
  | .more a r, frames, rest, hr, hrest, hrow, position, before => by
      have hlength :
        position + a.chars.length + 1 + r.chars.length =
          position + (Row.more a r).chars.length := by
        rw [Row.chars, List.length_append, List.length_cons]
        omega
      rw [Row.chars, List.append_assoc, List.cons_append,
        run_atom a hr.1 (Atom.endsBefore_blank hr.2.1 _), run_blank hrow,
          run_row r hr.2.2 hrest hrow, hlength,
        Row.treeBehind, Row.chars]

theorem run_atom :
    ∀ (a : Atom) {frames : List (Frame α)} {rest : List Char}, a.IsGreedy → a.EndsBefore rest →
    ∀ (position : Nat) (before : Option (Tree α)),
      run goal position ⟨.atom before, frames⟩ (a.chars ++ rest) =
        run goal (position + a.chars.length) ⟨.complete (extend before a.tree), frames⟩ rest
  | .group r, frames, rest, hr, _, position, before => by
      have hlength :
        position + 1 + r.chars.length + 1 = position + (Atom.group r).chars.length := by
        simp only [Atom.chars, List.length_cons, List.length_append, List.length_nil]
        omega
      rw [Atom.chars, List.cons_append, List.append_assoc, List.singleton_append, run_parenthesis,
        run_row r hr (r.endsBefore_parenthesis rest) (Or.inr (by simp)), run_group, hlength]
      rfl
  | .abstraction x body, frames, rest, hbody, hrest, position, before => by
      have hlength : position + 1 + x.chars.length + 1 + body.chars.length
          = position + (Atom.abstraction x body).chars.length := by
        simp only [Atom.chars, List.length_cons, List.length_append]
        omega
      rw [Atom.chars, List.cons_append, List.append_assoc, List.cons_append, run_lambda,
        run_boundName, run_dot, run_row body hbody hrest (Or.inr (by simp)),
          run_binder _ _ _ (body.head?_ne_blank hrest), hlength]
      rfl
  | .name x, frames, rest, _, hrest, position, before => run_name x hrest position

end

/-! ### What is read is derived -/

/-- Whether a text begins with a row that is derived greedily and does not go on behind it. -/
def BeginsWithRow (cs : List Char) : Prop :=
  ∃ (r : Row) (rest : List Char), cs = r.chars ++ rest ∧ r.IsGreedy ∧ r.EndsBefore rest

def BeginsWithAtom (cs : List Char) : Prop :=
  ∃ (a : Atom) (rest : List Char), cs = a.chars ++ rest ∧ a.IsGreedy ∧ a.EndsBefore rest

theorem Identifier.exists_append {c : Char} (hc : isNameChar c = true) (cs : List Char) :
    ∃ (x : Identifier) (rest : List Char), c :: cs = x.chars ++ rest ∧
      ∀ d ∈ rest.head?, isNameChar d = false := by
  have htaken : ∀ d ∈ (c :: cs).takeWhile isNameChar, d ∉ reserved := fun d hd =>
    isNameChar_iff.mp (List.all_eq_true.mp List.all_takeWhile d hd)
  refine ⟨⟨(c :: cs).takeWhile isNameChar, by simp [hc], htaken⟩, (c :: cs).dropWhile isNameChar,
    List.takeWhile_append_dropWhile.symm, ?_⟩
  intro d hd
  have hstop := List.head?_dropWhile_not isNameChar (c :: cs)
  rw [Option.mem_def.mp hd] at hstop
  simpa using hstop

theorem exists_identifier_of_run {cs : List Char} {position start : Nat} {t : Tree α}
    (h : (run goal position ⟨.lambda before start, frames⟩ cs).1 = .ok t) :
    ∃ (x : Identifier) (rest : List Char), cs = x.chars ++ '.' :: rest := by
  cases cs with
  | nil => simp [run, atEnd] at h
  | cons c cs =>
      by_cases hc : isNameChar c = true
      · obtain ⟨x, rest, hsplit, hrest⟩ := Identifier.exists_append hc cs
        rw [hsplit, run_boundName] at h
        cases rest with
        | nil => simp [run, atEnd] at h
        | cons d rest =>
            by_cases hdot : d = '.'
            · exact ⟨x, rest, by rw [hsplit, hdot]⟩
            · simp [run, move, hrest d rfl, hdot] at h
      · simp [run, move, hc] at h

/-- A run that succeeds from in front of an atom has read one, if such runs on shorter texts have
read rows. -/
theorem beginsWithAtom_of_run {cs : List Char} {position : Nat} {t : Tree α}
    (ih : ∀ cs', cs'.length < cs.length →
      ∀ (position : Nat) (before : Option (Tree α)) (frames : List (Frame α)),
      frames ≠ [] → (run goal position ⟨.atom before, frames⟩ cs').1 = .ok t → BeginsWithRow cs')
    (h : (run goal position ⟨.atom before, frames⟩ cs).1 = .ok t) : BeginsWithAtom cs := by
  cases cs with
  | nil => simp [run, atEnd] at h
  | cons c cs =>
      by_cases hparenthesis : c = '('
      · rw [hparenthesis, run_parenthesis] at h
        obtain ⟨r, rest, rfl, hr, hrest⟩ := ih cs (by simp) _ _ _ (by simp) h
        rw [run_row r hr hrest (Or.inr (by simp))] at h
        cases rest with
        | nil => simp [run, atEnd, endBehindAtom, closeBinders] at h
        | cons d rest =>
            have hd : d ≠ ' ' := by
              rintro rfl
              exact r.head?_ne_blank hrest rfl
            by_cases hclose : d = ')'
            · refine ⟨.group r, rest, ?_, hr, trivial⟩
              simp [Atom.chars, hparenthesis, hclose]
            · simp [run, move, moveBehindAtom, closeBinders, hd, hclose] at h
      · by_cases hlambda : c = 'λ'
        · rw [hlambda, run_lambda] at h
          obtain ⟨x, cs, rfl⟩ := exists_identifier_of_run h
          rw [run_boundName, run_dot] at h
          obtain ⟨body, rest, rfl, hbody, hrest⟩ := ih cs (by simp; omega) _ _ _ (by simp) h
          refine ⟨.abstraction x body, rest, ?_, hbody, hrest⟩
          simp [Atom.chars, hlambda]
        · by_cases hc : isNameChar c = true
          · obtain ⟨x, rest, hsplit, hrest⟩ := Identifier.exists_append hc cs
            exact ⟨.name x, rest, hsplit, trivial, hrest⟩
          · simp [run, move, hparenthesis, hlambda, hc] at h

/-- A run that succeeds from in front of an atom has read a row. -/
theorem beginsWithRow_of_run {cs : List Char} {position : Nat} {t : Tree α}
    (hrow : goal = .term ∨ frames ≠ [])
    (h : (run goal position ⟨.atom before, frames⟩ cs).1 = .ok t) : BeginsWithRow cs := by
  induction hlength : cs.length using Nat.strongRecOn generalizing cs position before frames with
  | ind n ih =>
      subst hlength
      obtain ⟨a, rest, rfl, ha, hrest⟩ := beginsWithAtom_of_run
        (fun cs' hshorter _ _ _ hframes hrun => ih cs'.length hshorter (Or.inr hframes) hrun rfl) h
      rw [run_atom a ha hrest] at h
      by_cases hblank : rest.head? = some ' '
      · obtain ⟨rest, rfl⟩ := List.head?_eq_some_iff.mp hblank
        rw [run_blank hrow] at h
        obtain ⟨r, rest, rfl, hr, hend⟩ := ih rest.length (by simp; omega) hrow h rfl
        refine ⟨.more a r, rest, by simp [Row.chars], ⟨ha, ?_, hr⟩, hend⟩
        -- an abstraction would have gone on with the blank
        intro habstraction
        cases a with
        | abstraction x body => exact body.head?_ne_blank hrest rfl
        | _ => exact habstraction
      · exact ⟨.last a, rest, rfl, ha, hblank, hrest⟩

/-! ### Source texts -/

theorem run_complete (position : Nat) (row : Tree α) {rest : List Char}
    (hrest : rest.head? ≠ some ' ') :
    run .term position ⟨.complete row, []⟩ rest = (.ok row, ⟨position, rest⟩) := by
  cases rest with
  | nil => rfl
  | cons c rest =>
      have hc : c ≠ ' ' := by
        rintro rfl
        exact hrest rfl
      simp [run, move, moveBehindAtom, closeBinders, hc]

theorem Row.chars_ne_nil : ∀ r : Row, r.chars ≠ []
  | .last (.group _) => by simp [Row.chars, Atom.chars]
  | .last (.abstraction _ _) => by simp [Row.chars, Atom.chars]
  | .last (.name x) => x.nonempty
  | .more _ _ => by simp [Row.chars]

/-- A source text that begins with a greedy derivation is read up to the end of it, and is a term if
nothing follows. -/
theorem parse_append {r : Row} (hr : r.IsGreedy) {rest : List Char} (hrest : r.EndsBefore rest) :
    parse (String.ofList (r.chars ++ rest)) =
      if rest = [] then .ok (r.tree : Tree α)
      else .error ⟨.trailingInput, r.chars.length, r.chars.length + rest.length⟩ := by
  have hrun : run .term 0 ⟨.atom none, []⟩ (r.chars ++ rest) =
      (.ok (r.tree : Tree α), ⟨r.chars.length, rest⟩) := by
    rw [run_row r hr hrest (Or.inl rfl), run_complete _ _ (r.head?_ne_blank hrest), Nat.zero_add,
      Row.tree]
  have hsource : (String.ofList (r.chars ++ rest)).isEmpty = false := by
    simp [r.chars_ne_nil]
  simp only [parse, Reader.parse, Reader.term, Reader.runFrom, Reader.ofSource,
    String.toList_ofList, hrun, hsource]
  cases rest <;> simp

theorem parse_text {r : Row} (hr : r.IsGreedy) : parse r.text = .ok (r.tree : Tree α) := by
  rw [Row.text, ← List.append_nil r.chars, parse_append hr r.endsBefore_nil, if_pos rfl]

theorem exists_row_of_parse {source : String} {t : Tree α} (h : parse source = .ok t) :
    ∃ r : Row, r.text = source ∧ r.IsGreedy ∧ r.tree = t := by
  have hterm : ∃ u : Tree α, (run .term 0 ⟨.atom none, []⟩ source.toList).1 = .ok u := by
    simp only [parse, Reader.parse, Reader.term, Reader.runFrom, Reader.ofSource] at h
    split at h
    · simp at h
    · split at h
      · rename_i u _ hrun
        exact ⟨u, congrArg Prod.fst hrun⟩
      · simp at h
  obtain ⟨u, hrun⟩ := hterm
  obtain ⟨r, rest, hsplit, hr, hrest⟩ := beginsWithRow_of_run (Or.inl rfl) hrun
  have hsource : source = String.ofList (r.chars ++ rest) := by rw [← hsplit, String.ofList_toList]
  rw [hsource, parse_append hr hrest] at h
  split at h
  · rename_i hrest
    refine ⟨r, ?_, hr, Except.ok.inj h⟩
    rw [hsource, hrest, List.append_nil, Row.text]
  · simp at h

theorem Derivable.exists_isGreedy {source : String} (h : Derivable source) :
    ∃ r : Row, r.text = source ∧ r.IsGreedy := by
  obtain ⟨s, rfl⟩ := h
  obtain ⟨r, hr, hchars⟩ := s.exists_isGreedy
  exact ⟨r, by rw [Row.text, Row.text, hchars], hr⟩

theorem Row.eq_of_text_eq {r s : Row} (hr : r.IsGreedy) (hs : s.IsGreedy) (h : r.text = s.text) :
    r = s := by
  have hchars : r.chars ++ [] = s.chars ++ [] := by simpa [Row.text] using congrArg String.toList h
  exact (Row.eq_of_append_eq hr hs r.endsBefore_nil s.endsBefore_nil hchars).1

/-- A source text is a term exactly if it is derived from the grammar. It is then the term that its
greedy derivation spells, the only one in which every abstraction reaches as far as it can; any
other text is reported as malformed. Calls of the reader may be nested to any depth here: a session
with a bound on them parses by `Session.parse`. -/
theorem parse_derivation (source : String) :
    ((∃ t : Term, parse source = .ok t) ↔ Derivable source) ∧
      (∀ t : Term, parse source = .ok t →
        ∃ r : Row, r.tree = t ∧ ∀ s : Row, s.text = source ∧ s.IsGreedy ↔ s = r) ∧
      (¬ Derivable source → ∃ fault : Fault, (parse source : Except Fault Term) = .error fault ∧
        (Report.malformed source fault).kind = .malformed) := by
  have haccepts : (∃ t : Term, parse source = .ok t) ↔ Derivable source := by
    constructor
    · rintro ⟨t, ht⟩
      obtain ⟨r, htext, _, _⟩ := exists_row_of_parse ht
      exact ⟨r, htext⟩
    · intro h
      obtain ⟨r, rfl, hr⟩ := h.exists_isGreedy
      exact ⟨r.tree, parse_text hr⟩
  refine ⟨haccepts, ?_, ?_⟩
  · intro t ht
    obtain ⟨r, htext, hr, htree⟩ := exists_row_of_parse ht
    refine ⟨r, htree, ?_⟩
    intro s
    constructor
    · rintro ⟨hs, hgreedy⟩
      exact Row.eq_of_text_eq hgreedy hr (hs.trans htext.symm)
    · rintro rfl
      exact ⟨htext, hr⟩
  · intro h
    cases hparse : (parse source : Except Fault Term) with
    | ok t => exact (h (haccepts.mp ⟨t, hparse⟩)).elim
    | error fault => exact ⟨fault, rfl, rfl⟩

end LambdaCalculus.Parser
