import LambdaCalculus.Term.Layout
import LambdaCalculus.Text.Styled
import LambdaCalculus.Proofs.Parser.Names
import LambdaCalculus.Proofs.Reduction.Names

/-!
# Drawings tell terms apart

Names stand in a drawing as they are, so a name may look like any other part of a drawing. Still it
can be told where a name ends if no name has a closing parenthesis in it: the first one behind the
beginning of a variable's line is the one that ends this line. Then a drawing can be read from left
to right, and it ends by itself, whatever stands behind it.

Terms that are read from source texts have no such name, and what reduction makes of them neither.
-/

namespace LambdaCalculus.Tree

/-! ### Parts of a drawing -/

/-- Two texts are cut alike by the first occurrence of a character. -/
theorem eq_of_append_cons_eq {c : Char} {xs ys us vs : List Char} (hxs : c ∉ xs) (hys : c ∉ ys)
    (h : xs ++ c :: us = ys ++ c :: vs) : xs = ys ∧ us = vs := by
  induction xs generalizing ys with
  | nil =>
      cases ys with
      | nil => exact ⟨rfl, (List.cons.inj h).2⟩
      | cons d ys =>
          obtain ⟨rfl, _⟩ := List.cons.inj h
          exact (hys List.mem_cons_self).elim
  | cons d xs ih =>
      cases ys with
      | nil =>
          obtain ⟨rfl, _⟩ := List.cons.inj h
          exact (hxs List.mem_cons_self).elim
      | cons e ys =>
          obtain ⟨rfl, htail⟩ := List.cons.inj h
          obtain ⟨rfl, hrest⟩ :=
            ih (mt (List.mem_cons_of_mem d) hxs) (mt (List.mem_cons_of_mem d) hys) htail
          exact ⟨rfl, hrest⟩

theorem variableLine_append (level : Int) (x : String) (rest : List Char) :
    (variableLine level x).toList ++ rest
      = (margin level).toList ++
        ("Variable('".toList ++ ((x.toList ++ ['\'']) ++ ')' :: rest)) := by
  simp [variableLine]

theorem bracketed_append (level : Int) (kind first second : String) (rest : List Char) :
    (bracketed level kind first second).toList ++ rest
      = (margin level).toList ++
        (kind.toList ++ ("(nodes=[\n".toList ++ (first.toList ++ (",\n".toList ++
          (second.toList ++
            ("\n".toList ++ ((margin level).toList ++ ("])".toList ++ rest)))))))) := by
  simp [bracketed]

theorem variableLine_append_inj {level : Int} {x y : String} (hx : ')' ∉ x.toList)
    (hy : ')' ∉ y.toList)
    {rest rest' : List Char}
    (h : (variableLine level x).toList ++ rest = (variableLine level y).toList ++ rest') :
    x = y ∧ rest = rest' := by
  rw [variableLine_append, variableLine_append, List.append_cancel_left_eq,
    List.append_cancel_left_eq] at h
  obtain ⟨hname, hrest⟩ := eq_of_append_cons_eq (by simpa using hx) (by simpa using hy) h
  exact ⟨String.toList_inj.mp (List.append_cancel_right hname), hrest⟩

/-! ### Drawings -/

/-- A drawing determines its term, and where it ends in a longer text. -/
theorem drawAt_append_inj {level : Int} {t u : Term} (ht : t.Lacks ')') (hu : u.Lacks ')')
    {rest rest' : List Char}
    (h : (t.drawAt level).toList ++ rest = (u.drawAt level).toList ++ rest') :
    t = u ∧ rest = rest' := by
  induction t generalizing level u rest rest' with
  | var x =>
      cases u with
      | var y =>
          obtain ⟨rfl, hrest⟩ := variableLine_append_inj ht hu h
          exact ⟨rfl, hrest⟩
      | lam y c => simp [drawAt, variableLine, bracketed] at h
      | app g c => simp [drawAt, variableLine, bracketed] at h
      | foreign v => exact v.elim
  | lam x b ih =>
      cases u with
      | var y => simp [drawAt, variableLine, bracketed] at h
      | lam y c =>
          rw [drawAt, drawAt, bracketed_append, bracketed_append, List.append_cancel_left_eq,
            List.append_cancel_left_eq, List.append_cancel_left_eq] at h
          obtain ⟨rfl, hbehind⟩ := variableLine_append_inj ht.1 hu.1 h
          obtain ⟨rfl, hend⟩ := ih ht.2 hu.2 (List.append_cancel_left hbehind)
          simp only [List.append_cancel_left_eq] at hend
          exact ⟨rfl, hend⟩
      | app g c => simp [drawAt, bracketed] at h
      | foreign v => exact v.elim
  | app f a ihf iha =>
      cases u with
      | var y => simp [drawAt, variableLine, bracketed] at h
      | lam y c => simp [drawAt, bracketed] at h
      | app g c =>
          rw [drawAt, drawAt, bracketed_append, bracketed_append, List.append_cancel_left_eq,
            List.append_cancel_left_eq, List.append_cancel_left_eq] at h
          obtain ⟨rfl, hbehind⟩ := ihf ht.1 hu.1 h
          obtain ⟨rfl, hend⟩ := iha ht.2 hu.2 (List.append_cancel_left hbehind)
          simp only [List.append_cancel_left_eq] at hend
          exact ⟨rfl, hend⟩
      | foreign v => exact v.elim
  | foreign v => exact v.elim

theorem eq_of_drawAt_append_eq {level : Int} {t u : Term} (ht : t.Lacks ')') (hu : u.Lacks ')')
    {rest rest' : String}
    (h : t.drawAt level ++ rest = u.drawAt level ++ rest') : t = u ∧ rest = rest' := by
  have hchars := congrArg String.toList h
  rw [String.toList_append, String.toList_append] at hchars
  obtain ⟨rfl, hrest⟩ := drawAt_append_inj ht hu hchars
  exact ⟨rfl, String.toList_inj.mp hrest⟩

/-! ### Rows of drawings -/

/-- The drawings of terms as a run of the program prints them, each with a line feed behind it. -/
def drawings (ts : List Term) : Styled := ts.flatMap fun t => Styled.line (Styled.plain t.draw)

theorem render_drawings_cons (colour : Bool) (t : Term) (ts : List Term) :
    (drawings (t :: ts)).render colour = t.draw ++ ("\n" ++ (drawings ts).render colour) := by
  cases colour <;> simp [drawings, Styled.render, Styled.line, Styled.plain, Style.opening,
    Style.closing]

theorem render_drawings_cons_ne_nil (colour : Bool) (t : Term) (ts : List Term) :
    (drawings (t :: ts)).render colour ≠ (drawings []).render colour := by
  intro h
  rw [render_drawings_cons] at h
  have hchars := congrArg String.toList h
  simp [drawings, Styled.render] at hchars

theorem eq_of_render_drawings_eq {colour : Bool} {ts us : List Term} (hts : ∀ t ∈ ts, t.Lacks ')')
    (hus : ∀ u ∈ us, u.Lacks ')') (h : (drawings ts).render colour = (drawings us).render colour) :
    ts = us := by
  induction ts generalizing us with
  | nil =>
      cases us with
      | nil => rfl
      | cons u us => exact (render_drawings_cons_ne_nil colour u us h.symm).elim
  | cons t ts ih =>
      cases us with
      | nil => exact (render_drawings_cons_ne_nil colour t ts h).elim
      | cons u us =>
          rw [render_drawings_cons, render_drawings_cons] at h
          obtain ⟨ht, hrow⟩ := List.forall_mem_cons.mp hts
          obtain ⟨hu, hrow'⟩ := List.forall_mem_cons.mp hus
          obtain ⟨rfl, hrest⟩ := eq_of_drawAt_append_eq ht hu h
          rw [ih hrow hrow' ((String.append_right_inj "\n").mp hrest)]

/-- Terms whose names have no closing parenthesis in them are told apart by their drawings, with any
texts behind these: equal texts begin with the drawing of the same term, and the same text is left
behind it. So the printed drawings of a row of terms determine the row. Terms that are read from
source texts have such names only, and so has all that a reduction makes of a term that has. -/
theorem draw_unambiguous :
    (∀ (level : Int) (t u : Term) (rest rest' : String), t.Lacks ')' → u.Lacks ')' →
      t.drawAt level ++ rest = u.drawAt level ++ rest' → t = u ∧ rest = rest') ∧
    (∀ (level : Int) (t u : Term), t.Lacks ')' → u.Lacks ')' →
      t.drawAt level = u.drawAt level → t = u) ∧
    (∀ (colour : Bool) (ts us : List Term), (∀ t ∈ ts, t.Lacks ')') → (∀ u ∈ us, u.Lacks ')') →
      (drawings ts).render colour = (drawings us).render colour → ts = us) ∧
    (∀ (source : String) (t : Term), Parser.parse source = .ok t → t.Lacks ')') ∧
    ∀ (s : Session Empty) (fuel : Nat) (t : Term) (reduction : Reduction Empty), t.Lacks ')' →
      s.reduce fuel t = some reduction →
        (∀ step ∈ reduction.session.steps, step.2.Lacks ')') ∧ ∀ r, reduction.result = .ok r →
          r.Lacks ')' := by
  refine ⟨?_, ?_, ?_, ?_, ?_⟩
  · intro level t u rest rest' ht hu h
    exact eq_of_drawAt_append_eq ht hu h
  · intro level t u ht hu h
    have hempty : t.drawAt level ++ "" = u.drawAt level ++ "" := by rw [h]
    exact (eq_of_drawAt_append_eq ht hu hempty).1
  · intro colour ts us hts hus h
    exact eq_of_render_drawings_eq hts hus h
  · intro source t h
    exact Parser.lacks_of_parse h (by decide)
  · intro s fuel t reduction ht h
    exact lacks_of_reduce (by decide) h ht

/-- A name may hold what stands between two names in a drawing, and the drawings of different terms
still differ. -/
theorem draw_unambiguous_separator :
    (app (var "a") (var "b',\n    Variable('c") : Term).Lacks ')' ∧
      (app (var "a',\n    Variable('b") (var "c") : Term).Lacks ')' ∧
      (app (var "a") (var "b',\n    Variable('c") : Term).draw ≠
        (app (var "a',\n    Variable('b") (var "c") : Term).draw ∧
      (substitute "x" (var "y'") (app (var "x") (var "z")) : Term).draw =
        (app (var "y'") (var "z") : Term).draw ∧
      (substitute "x" (var "y'") (app (var "x") (var "z")) : Term) = app (var "y'") (var "z") := by
  have hfirst : (app (var "a") (var "b',\n    Variable('c") : Term).Lacks ')' := by
    simp [Lacks, NamedBy]
  have hsecond : (app (var "a',\n    Variable('b") (var "c") : Term).Lacks ')' := by
    simp [Lacks, NamedBy]
  have hplain : (app (var "y'") (var "z") : Term).Lacks ')' := by simp [Lacks, NamedBy]
  have hsubstitute : (substitute "x" (var "y'") (app (var "x") (var "z")) : Term).Lacks ')' := by
    simp [Lacks, NamedBy]
  have hdraw : (substitute "x" (var "y'") (app (var "x") (var "z")) : Term).draw
      = (app (var "y'") (var "z") : Term).draw := by simp
  refine ⟨hfirst, hsecond, ?_, hdraw, draw_unambiguous.2.1 0 _ _ hsubstitute hplain hdraw⟩
  intro h
  have hsame := draw_unambiguous.2.1 0 _ _ hfirst hsecond h
  simp at hsame

end LambdaCalculus.Tree
