import LambdaCalculus.CommandLine.Program
import LambdaCalculus.Proofs.Reduction.Limit
import LambdaCalculus.Proofs.Session.Alike

/-!
# Items, one after the other

The items of a run share one session. Still each of them is worked on as if it were the only one:
the reduction of an item begins to count and to record anew, and an item that is done leaves no line
in progress, so that a session stays like the one that the run began with. What an item shows
depends on its source text and on that session alone, and the run shows this for every item up to
the first whose source text is no term. Here nested calls are not bounded.
-/

namespace LambdaCalculus.CommandLine

open LambdaCalculus.Tree

variable {colour : Bool} {fuel : Nat} {s s' : Session Empty} {item : Item} {text : Styled}

def Item.isTerm (item : Item) : Bool := (Parser.parse item.source : Except Parser.Fault Term).isOk

theorem Item.isTerm_of_ok {t : Term} (h : Parser.parse item.source = .ok t) :
    item.isTerm = true := by
  rw [isTerm, h]
  rfl

theorem Item.isTerm_of_error {fault : Parser.Fault}
    (h : (Parser.parse item.source : Except Parser.Fault Term) = .error fault) :
    item.isTerm = false := by
  rw [isTerm, h]
  rfl

/-- The items up to the first one that is no term, with this one. -/
def worked : List Item → List Item
  | [] => []
  | item :: rest => if item.isTerm then item :: worked rest else [item]

/-! ### What an item shows -/

/-- The session in which an item is worked on. -/
def Item.begin (item : Item) (s : Session Empty) : Session Empty :=
  s.registerLine item.path ⟨item.source, item.number⟩

/-- The session in which an item is worked on, with what a reduction has recorded. -/
def Item.recorded (item : Item) (s : Session Empty) (reduction : Reduction Empty) : Session Empty :=
  { item.begin s with steps := reduction.session.steps, begun := reduction.session.begun }

/-- The steps of a reduction as far as they are printed. -/
def stepLines (s : Session Empty) (reduction : Reduction Empty) : Styled :=
  if s.verbose then reduction.session.steps.flatMap fun (symbol, t) =>
    Session.stepLine symbol t else []

/-- What an item shows in a session: the steps of its reduction, and the drawing of the term that
they lead to or a warning that the limit was hit; or a report on its source text. -/
inductive Item.Shows (colour : Bool) (fuel : Nat) (s : Session Empty) (item : Item) :
    Styled → Prop where
  | drawing {t u : Term} {reduction : Reduction Empty} (hparse : Parser.parse item.source = .ok t)
      (hreduce : s.reduce fuel t = some reduction) (hresult : reduction.result = .ok u) :
      Shows colour fuel s item (stepLines s reduction ++ Styled.line (Styled.plain u.draw))
  | limit {t : Term} {m : Int} {reduction : Reduction Empty}
      (hparse : Parser.parse item.source = .ok t) (hreduce : s.reduce fuel t = some reduction)
      (hlimit : s.limit = some m)
      (hresult : reduction.result = .error (.reported (Report.stepLimit t m))) :
      Shows colour fuel s item (stepLines s reduction ++
        (item.begin s).warning ((Report.noNormalForm item.source m).inColour colour))
  | fault {fault : Parser.Fault}
      (hparse : (Parser.parse item.source : Except Parser.Fault Term) = .error fault) :
      Shows colour fuel s item
        ((item.begin s).errorOutput ((Report.malformed item.source fault).inColour colour))

/-- An item comes to a number in a name that is too long for the bound of the session. -/
def Item.StopsAtNumber (s : Session Empty) (item : Item) : Prop :=
  ∃ (t : Term) (fuel : Nat), Parser.parse item.source = .ok t ∧
    Reduction.StopsAtNumber (s.reduce fuel t)

theorem printed_eq_stepLines (hnesting : s.nesting = none) {t : Term}
    {reduction : Reduction Empty} (h : s.reduce fuel t = some reduction) :
    reduction.printed = stepLines s reduction := by
  rw [Session.reduce_eq_answer, Option.ite_none_left_eq_some] at h
  obtain rfl := Option.some.inj h.2
  rw [Session.answer, Run.shown_of_ne_tooDeep (Session.ending_course_ne_tooDeep hnesting fuel t)]
  cases hverbose : s.verbose with
  | true =>
      have houtput : s.stepOutput "β" = Session.stepLine "β" := by
        funext t
        rw [Session.stepOutput, hverbose, if_pos rfl]
      simp [stepLines, hverbose, List.flatMap_map, houtput]
  | false => simp [stepLines, Session.stepOutput, hverbose]

theorem exists_shows (colour : Bool) (hnesting : s.nesting = none)
    (h : s.limit = none → ∀ t : Term, Parser.parse item.source = .ok t → ∃ r, Evaluates t r) :
    (∃ (fuel : Nat) (text : Styled), ∀ more, fuel ≤ more → item.Shows colour more s text)
      ∨ s.bound ≠ none ∧ item.StopsAtNumber s := by
  cases hparse : (Parser.parse item.source : Except Parser.Fault Term) with
  | error fault => exact Or.inl ⟨0, _, fun _ _ => .fault hparse⟩
  | ok t =>
      obtain ⟨fuel, reduction, hreduce⟩ := s.exists_reduce t fun hlimit => h hlimit t hparse
      rcases Session.result_cases_term (hreduce fuel (Nat.le_refl _)) with
        ⟨u, hresult⟩ | ⟨m, hlimit, hresult⟩ | hlacks | ⟨hbound, hstops⟩
      · exact Or.inl ⟨fuel, _, fun more hle => .drawing hparse (hreduce more hle) hresult⟩
      · exact Or.inl ⟨fuel, _, fun more hle => .limit hparse (hreduce more hle) hlimit hresult⟩
      · exact (hlacks.1 hnesting).elim
      · obtain ⟨fault, hfault⟩ := hstops
        exact Or.inr ⟨hbound, t, fuel, hparse, reduction, fault, hreduce fuel (Nat.le_refl _),
          hfault⟩

/-- The items show their texts with enough fuel, unless one of them comes to a number that is too
long. -/
theorem exists_texts (colour : Bool) (hnesting : s.nesting = none) {items : List Item}
    (h : s.limit = none → ∀ item ∈ items, ∀ t : Term, Parser.parse item.source = .ok t →
      ∃ r, Evaluates t r) :
    (∃ (fuel : Nat) (texts : List Styled), ∀ more, fuel ≤ more →
        List.Forall₂ (Item.Shows colour more s) items texts)
      ∨ s.bound ≠ none ∧ ∃ item ∈ items, item.StopsAtNumber s := by
  induction items with
  | nil => exact Or.inl ⟨0, [], fun _ _ => .nil⟩
  | cons item rest ih =>
      rcases exists_shows colour hnesting fun hlimit => h hlimit item List.mem_cons_self with
        ⟨fuel, text, hitem⟩ | ⟨hbound, hstops⟩
      · rcases ih fun hlimit item hmem => h hlimit item (List.mem_cons_of_mem _ hmem) with
          ⟨fuel', texts, hrest⟩ | ⟨hbound, item, hmem, hstops⟩
        · refine Or.inl ⟨max fuel fuel', text :: texts, ?_⟩
          intro more hle
          exact .cons (hitem more (Nat.le_trans (Nat.le_max_left _ _) hle))
            (hrest more (Nat.le_trans (Nat.le_max_right _ _) hle))
        · exact Or.inr ⟨hbound, item, List.mem_cons_of_mem _ hmem, hstops⟩
      · exact Or.inr ⟨hbound, item, List.mem_cons_self, hstops⟩

/-! ### One item -/

theorem Item.sameSettings_begin (h : s'.SameSettings s) (item : Item) :
    (item.begin s').SameSettings s :=
  ⟨h.fatal, h.verbose, h.limit, h.bound, h.nesting⟩

/-- The line in progress makes no difference to the reduction of an item, nor does anything that was
done before. -/
theorem reduce_begin (h : s'.SameSettings s) {t : Term} {reduction : Reduction Empty}
    (hreduce : s.reduce fuel t = some reduction) (item : Item) :
    (item.begin s').reduce fuel t = some
      ⟨item.recorded s' reduction, reduction.printed, reduction.result⟩ := by
  rw [(Item.sameSettings_begin h item).reduce, hreduce]
  rfl

theorem runItem_of_error (colour : Bool) (h : s'.SameSettings s) {failure : Failure}
    (hparse : s.parse item.source = .error failure) :
    runItem colour fuel s' item = some ((item.begin s').handle (failure.inColour colour)) := by
  rw [← (Item.sameSettings_begin h item).parse, Item.begin] at hparse
  simp only [runItem, hparse]
  rfl

theorem runItem_of_reduce_eq_none (colour : Bool) (h : s'.SameSettings s) {t : Term}
    (hparse : s.parse item.source = .ok t) (hreduce : s.reduce fuel t = none) :
    runItem colour fuel s' item = none := by
  have hbegin := (Item.sameSettings_begin h item).reduce fuel t
  rw [← (Item.sameSettings_begin h item).parse] at hparse
  rw [hreduce, Option.map_none] at hbegin
  rw [Item.begin] at hparse hbegin
  simp only [runItem, hparse, hbegin, Option.map_none]

/-- What an item comes to is made from its reduction in a session with the same settings. -/
theorem runItem_of_reduce (colour : Bool) (h : s'.SameSettings s) {t : Term}
    {reduction : Reduction Empty} (hparse : s.parse item.source = .ok t)
    (hreduce : s.reduce fuel t = some reduction) :
    runItem colour fuel s' item = some
      (match reduction.result with
        | .ok u =>
            if s.allows u.drawingDepth then
              ⟨(item.recorded s' reduction).removeLine item.path,
                reduction.printed ++ Styled.line (Styled.plain u.draw), .nothing⟩
            else ((item.recorded s' reduction).handle .nesting).after reduction.printed
        | .error failure =>
            match failure.cutShort? with
            | some steps =>
                ⟨(item.recorded s' reduction).removeLine item.path,
                  reduction.printed ++ (item.recorded s' reduction).warning
                    ((Report.noNormalForm item.source steps).inColour colour), .nothing⟩
            | none =>
                ((item.recorded s' reduction).handle (failure.inColour colour)).after
                  reduction.printed) := by
  have hbegin := reduce_begin h hreduce item
  have hallows : (item.recorded s' reduction).allows = s.allows :=
    Session.SameSettings.allows ⟨h.fatal, h.verbose, h.limit, h.bound, h.nesting⟩
  rw [← (Item.sameSettings_begin h item).parse] at hparse
  rw [Item.begin] at hparse hbegin
  rw [runItem, hparse]
  show Option.map _ (Session.reduce _ _ _) = _
  rw [hbegin, ← hallows]
  rfl

/-- What becomes of a run behind items that are all terms, or are not. -/
def outcomeOf (terms : Bool) : Outcome Empty := if terms then .nothing else .exit (.int 1)

/-- An item that is worked on after others shows what it would show alone. It ends the run if it is
no term, and leaves the session as it would have found it alone otherwise. -/
theorem runItem_of_shows (hnesting : s.nesting = none) (h : s'.Alike s) (hidle : s.IsIdle)
    (hfatal : s.fatal = true) (hshows : item.Shows colour fuel s text) :
    ∃ after, runItem colour fuel s' item = some ⟨after, text, outcomeOf item.isTerm⟩
      ∧ (item.isTerm = true → after.Alike s) := by
  have hbegin : (item.begin s').Alike (item.begin s) := h.registerLine hidle _ _
  have hparse' := Session.parse_of_nesting_eq_none hnesting item.source
  cases hshows with
  | @drawing t u reduction hparse hreduce hresult =>
      rw [hparse] at hparse'
      refine ⟨(item.recorded s' reduction).removeLine item.path, ?_,
        fun _ => h.removeLine hidle _ _ _ _⟩
      rw [runItem_of_reduce colour h.toSameSettings hparse' hreduce, Item.isTerm_of_ok hparse,
        ← printed_eq_stepLines hnesting hreduce, hresult]
      exact congrArg some (if_pos (Session.allows_of_nesting_eq_none hnesting _))
  | @limit t m reduction hparse hreduce hlimit hresult =>
      rw [hparse] at hparse'
      refine ⟨(item.recorded s' reduction).removeLine item.path, ?_,
        fun _ => h.removeLine hidle _ _ _ _⟩
      rw [runItem_of_reduce colour h.toSameSettings hparse' hreduce, Item.isTerm_of_ok hparse,
        ← printed_eq_stepLines hnesting hreduce, ← hbegin.warning, hresult]
      rfl
  | fault hparse =>
      have hterm := Item.isTerm_of_error hparse
      rw [hparse] at hparse'
      refine ⟨item.begin s', ?_, ?_⟩
      · rw [runItem_of_error colour h.toSameSettings hparse', hterm, ← hbegin.errorOutput]
        exact congrArg some (Session.throw_of_fatal (hbegin.fatal.trans hfatal) _ _)
      · intro hok
        rw [hterm] at hok
        contradiction

/-! ### All items -/

/-- The items of a run show what each of them shows alone, up to the first one that is no term. -/
theorem runItems_of_shows (hnesting : s.nesting = none) (h : s'.Alike s) (hidle : s.IsIdle)
    (hfatal : s.fatal = true) {items : List Item} {texts : List Styled}
    (hshows : List.Forall₂ (Item.Shows colour fuel s) (worked items) texts) :
    ∃ after, runItems colour fuel s' items
        = some ⟨after, texts.flatten, outcomeOf (items.all Item.isTerm)⟩
      ∧ (items.all Item.isTerm = true → after.Alike s) := by
  induction items generalizing s' texts with
  | nil =>
      cases hshows
      exact ⟨s', rfl, fun _ => h⟩
  | cons item rest ih =>
      cases hterm : item.isTerm with
      | true =>
          rw [worked, hterm, if_pos rfl] at hshows
          cases hshows with
          | @cons _ text _ texts hitem hrest =>
              -- behind a term the session is like the first one again
              obtain ⟨next, hnext, halike⟩ := runItem_of_shows hnesting h hidle hfatal hitem
              obtain ⟨after, hafter, halike'⟩ := ih (halike hterm) hrest
              refine ⟨after, ?_, ?_⟩
              · simp only [runItems, hnext, hterm, outcomeOf, if_true, hafter]
                simp [Reply.after, hterm]
              · simpa [hterm] using halike'
      | false =>
          rw [worked, hterm] at hshows
          cases hshows with
          | @cons _ text _ texts hitem hrest =>
              obtain ⟨after, hafter, _⟩ := runItem_of_shows hnesting h hidle hfatal hitem
              cases hrest
              refine ⟨after, ?_, ?_⟩
              · simp [runItems, hafter, hterm, outcomeOf]
              · simp [hterm]

/-! ### Fuel -/

variable {more : Nat} {reply : Reply Empty}

theorem runItem_mono (h : runItem colour fuel s item = some reply) (hle : fuel ≤ more) :
    runItem colour more s item = some reply := by
  unfold runItem at h ⊢
  cases hparse : (item.begin s).parse item.source with
  | error failure =>
      rw [Item.begin] at hparse
      simp only [hparse] at h ⊢
      exact h
  | ok t =>
      rw [Item.begin] at hparse
      simp only [hparse, Option.map_eq_some_iff] at h ⊢
      obtain ⟨reduction, hreduce, hreply⟩ := h
      exact ⟨reduction, Session.reduce_mono hreduce hle, hreply⟩

theorem runItems_mono {items : List Item} (h : runItems colour fuel s items = some reply)
    (hle : fuel ≤ more) : runItems colour more s items = some reply := by
  induction items generalizing s reply with
  | nil => exact h
  | cons item rest ih =>
      rw [runItems] at h ⊢
      cases hitem : runItem colour fuel s item with
      | none => simp [hitem] at h
      | some first =>
          rw [hitem] at h
          rw [runItem_mono hitem hle]
          rcases first with ⟨next, printed, outcome⟩
          cases outcome with
          | nothing =>
              simp only [Option.map_eq_some_iff] at h ⊢
              obtain ⟨later, hlater, hreply⟩ := h
              exact ⟨later, ih hlater, hreply⟩
          | _ => exact h

end LambdaCalculus.CommandLine
