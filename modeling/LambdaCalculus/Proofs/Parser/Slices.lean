import LambdaCalculus.Proofs.Parser.Prefixes
import LambdaCalculus.Text.Slice

/-!
# What single calls read

A reader can be called for one production after another, and goes on from where the last call left
it, be that in the middle of a construct or behind the end of the source text. No call goes back
(`exists_call_eq_skip`). A call that answers with a term has read a greedy derivation of it, and
nothing else (`HasRead`). What it has read is therefore a source text of its own, and spells the
same term alone.
-/

namespace LambdaCalculus.Parser

variable {α : Type} {goal : Goal}

/-! ### Going on -/

/-- The place that lies a number of characters further on, be it behind the end. -/
def Cursor.skip (n : Nat) (cursor : Cursor) : Cursor := ⟨cursor.position + n, cursor.rest.drop n⟩

theorem Cursor.skip_skip (m n : Nat) (cursor : Cursor) :
    (cursor.skip m).skip n = cursor.skip (m + n) := by
  simp only [Cursor.skip, List.drop_drop, Nat.add_assoc]

theorem exists_skip_of_run (goal : Goal) (state : State α) (cursor : Cursor) :
    ∃ n, (run goal cursor.position state cursor.rest).2 = cursor.skip n := by
  obtain ⟨read, rest, state', hsplit, hstop, -, -⟩ :=
    exists_stop goal cursor.position state cursor.rest
  exact ⟨read.length, by rw [hstop, Cursor.skip, hsplit, List.drop_left]⟩

namespace Reader

def skip (n : Nat) (r : Reader) : Reader := { r with cursor := r.cursor.skip n }

theorem skip_skip (m n : Nat) (r : Reader) : (r.skip m).skip n = r.skip (m + n) := by
  simp only [skip, Cursor.skip_skip]

theorem skip_length (r : Reader) {read rest : List Char} (h : r.cursor.rest = read ++ rest) :
    r.skip read.length = { r with cursor := ⟨r.cursor.position + read.length, rest⟩ } := by
  rw [skip, Cursor.skip, h, List.drop_left]

/-- The reader that calls leave behind, whatever they answer. -/
def after (r : Reader) (calls : List Call) : Reader :=
  calls.foldl (fun r call => (r.call call : Except Fault (Answer Empty) × Reader).2) r

theorem exists_runFrom_eq_skip (r : Reader) (goal : Goal) (n : Nat) (mode : Mode α) :
    ∃ k, (r.runFrom goal (r.cursor.skip n) mode).2 = r.skip k := by
  obtain ⟨k, hk⟩ := exists_skip_of_run goal ⟨mode, []⟩ (r.cursor.skip n)
  rw [Cursor.skip_skip] at hk
  exact ⟨n + k, congrArg (fun cursor => { r with cursor := cursor }) hk⟩

theorem exists_term_eq_skip (r : Reader) :
    ∃ n, (r.term : Except Fault (Tree α) × Reader).2 = r.skip n :=
  r.exists_runFrom_eq_skip .term 0 (.atom none)

theorem exists_name_eq_skip (r : Reader) : ∃ n, (r.name : Tree α × Reader).2 = r.skip n := by
  refine ⟨(r.cursor.rest.takeWhile isNameChar).length, ?_⟩
  rw [r.skip_length List.takeWhile_append_dropWhile.symm, name]

/-- Whether a source text is read as a whole is only known behind the term. -/
theorem snd_parse (r : Reader) :
    (r.parse : Except Fault (Tree α) × Reader).2 =
      if r.source.isEmpty then r else (r.term : Except Fault (Tree α) × Reader).2 := by
  unfold parse
  split
  · rfl
  · rcases (r.term : Except Fault (Tree α) × Reader) with ⟨fault | t, r'⟩
    · rfl
    · cases hrest : r'.cursor.rest.isEmpty <;> simp [hrest]

theorem exists_parse_eq_skip (r : Reader) :
    ∃ n, (r.parse : Except Fault (Tree α) × Reader).2 = r.skip n := by
  rw [snd_parse]
  split
  · exact ⟨0, rfl⟩
  · exact r.exists_term_eq_skip

/-- A call goes on or stays, whether it succeeds or not. -/
theorem exists_call_eq_skip (r : Reader) (call : Call) :
    ∃ n, (r.call call : Except Fault (Answer α) × Reader).2 = r.skip n := by
  cases call with
  | peek => exact ⟨0, rfl⟩
  | atom => exact r.exists_runFrom_eq_skip .atom 0 (.atom (none : Option (Tree α)))
  | term => exact r.exists_term_eq_skip (α := α)
  | abstraction =>
      have hskip : (⟨r.cursor.position + 1, r.cursor.rest.tail⟩ : Cursor) = r.cursor.skip 1 := by
        rw [Cursor.skip, List.drop_one]
      simp only [call, abstraction, hskip]
      exact r.exists_runFrom_eq_skip .atom 1 (.lambda (none : Option (Tree α)) r.cursor.position)
  | name => exact r.exists_name_eq_skip (α := α)
  | parse => exact r.exists_parse_eq_skip (α := α)

theorem exists_after_eq_skip (r : Reader) (calls : List Call) : ∃ n, r.after calls = r.skip n := by
  induction calls generalizing r with
  | nil => exact ⟨0, rfl⟩
  | cons call calls ih =>
      obtain ⟨m, hm⟩ := r.exists_call_eq_skip (α := Empty) call
      obtain ⟨n, hn⟩ := ih (r.skip m)
      refine ⟨m + n, ?_⟩
      rw [after, List.foldl_cons, hm, ← skip_skip, ← hn, after]

/-! ### Terms -/

/-- Whether a reader has gone over a greedy derivation, which spells a term. -/
def HasRead (r : Reader) (t : Tree α) (r' : Reader) : Prop :=
  ∃ row : Row, row.IsGreedy ∧ row.tree = t ∧ row.chars <+: r.cursor.rest ∧
    r' = r.skip row.chars.length

theorem hasRead_of_term {r r' : Reader} {t : Tree α} (h : r.term = (.ok t, r')) :
    r.HasRead t r' := by
  simp only [term, runFrom, Prod.mk.injEq] at h
  obtain ⟨row, rest, hsplit, hrow, hend⟩ := beginsWithRow_of_run (Or.inl rfl) h.1
  have hrun : run .term r.cursor.position ⟨.atom none, []⟩ r.cursor.rest =
      (.ok (row.tree : Tree α), ⟨r.cursor.position + row.chars.length, rest⟩) := by
    rw [hsplit, run_row row hrow hend (Or.inl rfl), run_complete _ _ (row.head?_ne_blank hend),
      Row.tree]
  rw [hrun] at h
  refine ⟨row, hrow, Except.ok.inj h.1, ⟨rest, hsplit.symm⟩, ?_⟩
  rw [r.skip_length hsplit, ← h.2]

/-- A single atom ends where it ends, whatever follows. -/
theorem run_atom_complete (position : Nat) (t : Tree α) (rest : List Char) :
    run .atom position ⟨.complete t, []⟩ rest = (.ok t, ⟨position, rest⟩) := by
  cases rest with
  | nil => rfl
  | cons c rest => simp [run, move, moveBehindAtom, closeBinders]

theorem hasRead_of_atom {r r' : Reader} {t : Tree α} (h : r.atom = (.ok t, r')) :
    r.HasRead t r' := by
  simp only [atom, runFrom, Prod.mk.injEq] at h
  obtain ⟨a, rest, hsplit, ha, hend⟩ := beginsWithAtom_of_run
    (fun _ _ _ _ _ hframes hrun => beginsWithRow_of_run (Or.inr hframes) hrun) h.1
  have hrun : run .atom r.cursor.position ⟨.atom none, []⟩ r.cursor.rest =
      (.ok (a.tree : Tree α), ⟨r.cursor.position + a.chars.length, rest⟩) := by
    rw [hsplit, run_atom a ha hend, run_atom_complete, extend]
  rw [hrun] at h
  refine ⟨.last a, ha, Except.ok.inj h.1, ⟨rest, hsplit.symm⟩, ?_⟩
  rw [Row.chars, r.skip_length hsplit, ← h.2]

theorem term_of_parse {r r' : Reader} {t : Tree α} (h : r.parse = (.ok t, r')) :
    r.term = (.ok t, r') ∧ r'.cursor.rest = [] := by
  unfold parse at h
  split at h
  · simp at h
  · generalize (r.term : Except Fault (Tree α) × Reader) = outcome at h ⊢
    obtain ⟨fault | u, r''⟩ := outcome
    · simp at h
    · cases hrest : r''.cursor.rest with
      | nil =>
          simp only [hrest, List.isEmpty_nil, if_true] at h
          exact ⟨h, by rw [← (Prod.mk.inj h).2, hrest]⟩
      | cons c rest => simp [hrest] at h

/-- The productions that answer with the term that they have read, and with none but that. -/
def Call.ReadsTerm : Call → Prop
  | .atom | .term | .parse => True
  | .peek | .abstraction | .name => False

theorem eq_of_map_tree {outcome : Except Fault (Tree α) × Reader} {t : Tree α} {r' : Reader}
    (h : (outcome.1.map Answer.tree, outcome.2) = (.ok (.tree t), r')) : outcome = (.ok t, r') := by
  obtain ⟨fault | u, r''⟩ := outcome
  · simp [Except.map] at h
  · simpa [Except.map] using h

theorem hasRead_of_call {r r' : Reader} {call : Call} (hcall : call.ReadsTerm) {t : Tree α}
    (h : r.call call = (.ok (.tree t), r')) :
    r.HasRead t r' ∧ (call = .parse → r'.cursor.rest = []) := by
  cases call with
  | atom => exact ⟨hasRead_of_atom (eq_of_map_tree h), by simp⟩
  | term => exact ⟨hasRead_of_term (eq_of_map_tree h), by simp⟩
  | parse =>
      obtain ⟨hterm, hrest⟩ := term_of_parse (eq_of_map_tree h)
      exact ⟨hasRead_of_term hterm, fun _ => hrest⟩
  | peek => exact hcall.elim
  | abstraction => exact hcall.elim
  | name => exact hcall.elim

/-! ### Slices -/

theorem cursor_skip_ofSource (source : String) (n : Nat) :
    ((ofSource source).skip n).cursor = ⟨n, source.toList.drop n⟩ := by
  rw [skip, ofSource, Cursor.skip, Nat.zero_add]

theorem slice_eq_of_isPrefix {cs read : List Char} {i : Nat} (hbegins : read <+: cs.drop i)
    (hle : i + read.length ≤ cs.length) :
    Text.slice cs i ((i + read.length : Nat) : Int) = read := by
  have hclip {n : Nat} (hn : n ≤ cs.length) : Text.clip cs.length n = n := by
    rw [Text.clip, if_neg (by omega), Int.toNat_natCast, Nat.min_eq_left hn]
  rw [Text.slice, hclip hle, hclip (by omega), List.drop_take, Nat.add_sub_cancel_left]
  exact (List.prefix_iff_eq_take.mp hbegins).symm

/-- What has been read is a source text of its own, and spells the same term. -/
theorem HasRead.slice {source : String} {i : Nat} {t : Tree α} {r' : Reader}
    (h : ((ofSource source).skip i).HasRead t r') :
    ∃ j, r' = (ofSource source).skip j ∧ i < j ∧ j ≤ source.length ∧
      LambdaCalculus.Parser.parse (String.ofList (Text.slice source.toList i j)) = .ok t := by
  obtain ⟨row, hrow, rfl, hbegins, rfl⟩ := h
  rw [cursor_skip_ofSource] at hbegins
  have hpositive : 0 < row.chars.length := List.length_pos_iff.mpr row.chars_ne_nil
  have hle : i + row.chars.length ≤ source.toList.length := by
    have hlength := hbegins.length_le
    rw [List.length_drop] at hlength
    omega
  refine ⟨i + row.chars.length, skip_skip _ _ _, by omega, ?_, ?_⟩
  · rwa [String.length_toList] at hle
  · rw [slice_eq_of_isPrefix hbegins hle]
    exact parse_text hrow

theorem position_le_of_call (r : Reader) (call : Call) :
    r.cursor.position ≤ (r.call call : Except Fault (Answer α) × Reader).2.cursor.position := by
  obtain ⟨n, hn⟩ := r.exists_call_eq_skip (α := α) call
  rw [hn]
  exact Nat.le_add_right _ n

/-- Whatever has been called on a reader before, no call goes back. A call of `atom`, `term` or
`parse` that answers with a term has gone over some characters of the source text, which are a
source text of the same term; `parse` has then come to the end. -/
theorem call_slice (source : String) (calls : List Call) (call : Call) :
    ∃ i j : Nat, ((ofSource source).after calls).cursor.position = i ∧
      (((ofSource source).after calls).call call
        : Except Fault (Answer Empty) × Reader).2.cursor.position = j ∧
      i ≤ j ∧
      ∀ t : Term, call.ReadsTerm → (((ofSource source).after calls).call call).1 = .ok (.tree t) →
        i < j ∧ j ≤ source.length ∧
          LambdaCalculus.Parser.parse (String.ofList (Text.slice source.toList i j)) = .ok t ∧
          (call = .parse → j = source.length) := by
  refine ⟨_, _, rfl, rfl, position_le_of_call _ call, ?_⟩
  intro t hcall h
  generalize hanswer :
    (((ofSource source).after calls).call call : Except Fault (Answer Empty) × Reader)
      = answer at h ⊢
  obtain ⟨result, r'⟩ := answer
  obtain rfl : result = .ok (.tree t) := h
  obtain ⟨hread, hend⟩ := hasRead_of_call hcall hanswer
  obtain ⟨i, hi⟩ := (ofSource source).exists_after_eq_skip calls
  rw [hi] at hread ⊢
  obtain ⟨j, rfl, hlt, hle, hparse⟩ := hread.slice
  simp only [cursor_skip_ofSource] at hend ⊢
  refine ⟨hlt, hle, hparse, fun hcall => ?_⟩
  have hlength := List.drop_eq_nil_iff.mp (hend hcall)
  rw [String.length_toList] at hlength
  exact Nat.le_antisymm hle hlength

/-- The `λ` that an abstraction takes for granted may be looked for behind the end. -/
example : ((ofSource "a").after [.atom, .abstraction, .abstraction]).cursor = ⟨3, []⟩ := rfl

end Reader

end LambdaCalculus.Parser
