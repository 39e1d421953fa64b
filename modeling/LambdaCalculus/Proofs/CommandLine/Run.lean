import LambdaCalculus.Proofs.CommandLine.Items

/-!
# What a run prints

The items of a run are the terms of the command line and, behind them, the lines of the file. The
run prints what each of them shows alone, up to the first that is no term. A file that cannot be
read has no lines; its report comes behind what the terms of the command line have shown, if all of
them are terms. The exit code tells of a source text that is no term and of a file that cannot be
read, and of nothing else.
-/

namespace LambdaCalculus.CommandLine

open LambdaCalculus.Tree

variable {fuel : Nat} {around : Surroundings} {contents : String → Option (List UInt8)}

/-! ### The items of a run -/

/-- The lines of a text that are not empty, each with its number among all lines. -/
def lineItems (path : String) (text : List Char) : List Item :=
  (((Text.lines text).map String.ofList).zipIdx 1).filterMap fun (line, number) =>
    if line.isEmpty then none else some ⟨path, number, line⟩

/-- The lines of the file, if there is one and it can be read. -/
def FileChoice.lines (contents : String → Option (List UInt8)) : FileChoice → List Item
  | .named path =>
      if path.toList.contains '\x00' then []
      else
        match (contents path).map Utf8.decode with
        | some (.ok text) => lineItems path text
        | _ => []
  | _ => []

/-- How the file fails, if there is one and it cannot be read. -/
def FileChoice.failure? (contents : String → Option (List UInt8)) (file : FileChoice) :
    Option Failure :=
  match file.items? (file.path?.bind contents) with
  | some (.error failure) => some failure
  | _ => none

def Options.items (options : Options) (contents : String → Option (List UInt8)) : List Item :=
  argumentItems options.terms ++ options.file.lines contents

def Options.fileReport (options : Options) (around : Surroundings)
    (contents : String → Option (List UInt8)) : Styled :=
  match options.file.failure? contents with
  | some failure =>
      ((options.session around).handle (failure.inColour around.colour)).printed
  | none => []

theorem numbered_eq_filterMap (path : String) (number : Nat) (sources : List String) :
    numbered path number sources = (sources.zipIdx number).filterMap fun (source, number) =>
      if source.isEmpty then none else some ⟨path, number, source⟩ := by
  induction sources generalizing number with
  | nil => rfl
  | cons source rest ih =>
      rw [numbered, List.zipIdx_cons, List.filterMap_cons, ih]
      cases hempty : source.isEmpty <;> simp [hempty]

/-- A run has no file, or the lines of its file are items, or the file fails with a report. -/
theorem FileChoice.items?_cases (file : FileChoice) (contents : String → Option (List UInt8)) :
    (file.items? (file.path?.bind contents) = none ∧ file.lines contents = []
        ∧ file.failure? contents = none) ∨
    (file.items? (file.path?.bind contents) = some (.ok (file.lines contents))
        ∧ file.failure? contents = none) ∨
    ∃ failure r, file.items? (file.path?.bind contents) = some (.error failure)
      ∧ file.lines contents = [] ∧ file.failure? contents = some failure
      ∧ failure.report? = some r := by
  cases file with
  | absent => exact Or.inl ⟨rfl, rfl, rfl⟩
  | pathless => exact Or.inr (Or.inr ⟨_, _, rfl, rfl, rfl, rfl⟩)
  | named path =>
      right
      simp only [failure?, items?, path?, lines, fileItems, Option.bind_some]
      cases path.toList.contains '\x00' with
      | true => exact Or.inr ⟨_, _, rfl, rfl, rfl, rfl⟩
      | false =>
          cases contents path with
          | none => exact Or.inr ⟨_, _, rfl, rfl, rfl, rfl⟩
          | some bytes =>
              cases hdecode : Utf8.decode bytes with
              | error fault =>
                  simp only [Option.map_some, hdecode]
                  exact Or.inr ⟨_, _, rfl, rfl, rfl, rfl⟩
              | ok text =>
                  simp only [Option.map_some, hdecode, lineItems, numbered_eq_filterMap]
                  exact Or.inl ⟨rfl, rfl⟩

/-- A file that cannot be read ends a run, and the report on it does not tell what was done
before. -/
theorem FileChoice.handle_failure {file : FileChoice} {failure : Failure} {s s' : Session Empty}
    (hfailure : file.failure? contents = some failure) (h : s'.Alike s) (hfatal : s.fatal = true)
    (colour : Bool) :
    s'.handle (failure.inColour colour) =
      ⟨s', (s.handle (failure.inColour colour)).printed, .exit (.int 1)⟩ := by
  rcases file.items?_cases contents with ⟨_, _, hnone⟩ | ⟨_, hnone⟩ | ⟨_, r, _, _, hsome, hreport⟩
  · simp [hnone] at hfailure
  · simp [hnone] at hfailure
  · obtain rfl := Option.some.inj (hsome.symm.trans hfailure)
    obtain ⟨r', hreport'⟩ := Failure.exists_report?_inColour hreport colour
    obtain ⟨otherwise, hthrow⟩ := Session.exists_handle_eq_throw hreport'
    rw [hthrow, hthrow, Session.throw_of_fatal (h.fatal.trans hfatal),
      Session.throw_of_fatal hfatal, h.errorOutput]

/-! ### The run -/

theorem runItems_append (colour : Bool) (s : Session Empty) (items items' : List Item) :
    runItems colour fuel s (items ++ items') = (runItems colour fuel s items).bind fun reply =>
      match reply.outcome with
      | .nothing => (runItems colour fuel reply.session items').map (·.after reply.printed)
      | _ => some reply := by
  induction items generalizing s with
  | nil => exact Option.map_id'.symm
  | cons item rest ih =>
      rw [List.cons_append, runItems, runItems]
      cases runItem colour fuel s item with
      | none => rfl
      | some reply =>
          rcases reply with ⟨next, printed, outcome⟩
          cases outcome with
          | nothing =>
              simp only [ih]
              cases runItems colour fuel next rest with
              | none => rfl
              | some later =>
                  rcases later with ⟨last, printed', outcome⟩
                  cases outcome with
                  | nothing =>
                      simp only [Option.bind_some, Option.map_some, Option.map_map,
                        Function.comp_def, Reply.after,
                        List.append_assoc]
                  | _ => rfl
          | _ => rfl

/-- A run works on all its items. If they are all terms and the file fails, it ends with this
failure. -/
theorem runOptions_eq (options : Options) :
    runOptions around fuel options (options.file.path?.bind contents) =
      (runItems around.colour fuel (options.session around) (options.items contents)).map
        fun reply =>
          match reply.outcome, options.file.failure? contents with
          | .nothing, some failure =>
              (reply.session.handle (failure.inColour around.colour)).after reply.printed
          | _, _ => reply := by
  simp only [runOptions, Options.items, runItems_append]
  cases runItems around.colour fuel (options.session around) (argumentItems options.terms) with
  | none => rfl
  | some reply =>
      rcases reply with ⟨next, printed, outcome⟩
      cases outcome with
      | nothing =>
          rcases options.file.items?_cases contents with
            ⟨hitems, hlines, hfailure⟩ | ⟨hitems, hfailure⟩ |
              ⟨failure, r, hitems, hlines, hfailure, -⟩
          · simp [hitems, hlines, hfailure, runItems, Reply.after]
          · simp [hitems, hfailure, Function.comp_def]
          · simp [hitems, hlines, hfailure, runItems, Reply.after]
      | _ => rfl

/-- More fuel changes nothing about what a run prints. So whatever fuel it has an answer with, the
answer is the same. -/
theorem run_mono {more : Nat} {arguments : List String} {output : Output}
    (h : run around fuel arguments contents = some output) (hle : fuel ≤ more) :
    run around more arguments contents = some output := by
  unfold run at h ⊢
  cases hoptions : Options.ofArguments arguments with
  | error refusal =>
      simp only [hoptions] at h ⊢
      exact h
  | ok options =>
      simp only [hoptions, runOptions_eq, Option.map_eq_some_iff, exists_exists_and_eq_and] at h ⊢
      obtain ⟨reply, hreply, houtput⟩ := h
      exact ⟨reply, runItems_mono hreply hle, houtput⟩

/-- What an item shows when a run works on it and on nothing else. -/
def Item.ShowsAlone (colour : Bool) (fuel : Nat) (s : Session Empty) (item : Item)
    (text : Styled) : Prop :=
  item.Shows colour fuel s text
    ∧ ∃ reply, runItem colour fuel s item = some reply ∧ reply.printed = text

theorem isIdle_session (options : Options) (around : Surroundings) :
    (options.session around).IsIdle := rfl

/-- A run with no bound on nested calls prints what its items show alone, in their order and up to
the first that is no term, and then the report on its file if all of them are terms and the file
cannot be read. The exit code is 1 if an item is no term or the file cannot be read, and there is
none otherwise. Without a limit on the steps this asks for terms that have a result; in any case no
number in a name may be too long for the bound on such numbers. -/
theorem run_items (around : Surroundings) (hnesting : around.nesting = none)
    (contents : String → Option (List UInt8)) {arguments : List String} {options : Options}
    (hoptions : Options.ofArguments arguments = .ok options)
    (hresults : options.maxSteps = 0 → ∀ item ∈ worked (options.items contents), ∀ t : Term,
      Parser.parse item.source = .ok t → ∃ r, Evaluates t r) :
    (∃ (fuel : Nat) (texts : List Styled), ∀ more, fuel ≤ more →
      List.Forall₂ (Item.ShowsAlone around.colour more (options.session around))
        (worked (options.items contents)) texts ∧
      run around more arguments contents = some
        { stdout := texts.flatten ++
            if (options.items contents).all Item.isTerm then options.fileReport around contents
            else []
          exit :=
            if (∃ item ∈ options.items contents, item.isTerm = false)
                ∨ (options.file.failure? contents).isSome then
              some 1
            else none }) ∨
    around.bound ≠ none
      ∧ ∃ item ∈ worked (options.items contents), item.StopsAtNumber (options.session around) := by
  have hlimit : (options.session around).limit = none → options.maxSteps = 0 := by
    intro hnone
    by_contra hsteps
    simp [Options.session, hsteps] at hnone
  have hsession : (options.session around).nesting = none := hnesting
  rcases exists_texts around.colour hsession fun hnone => hresults (hlimit hnone) with
    ⟨fuel, texts, hshows⟩ | hstops
  · refine Or.inl ⟨fuel, texts, ?_⟩
    intro more hle
    constructor
    · refine (hshows more hle).imp ?_
      intro item text hitem
      obtain ⟨after, hreply, _⟩ :=
        runItem_of_shows hsession (.refl _) (isIdle_session options around) rfl hitem
      exact ⟨hitem, _, hreply, rfl⟩
    · obtain ⟨after, hreply, halike⟩ :=
        runItems_of_shows hsession (.refl _) (isIdle_session options around) rfl (hshows more hle)
      simp only [run, hoptions, runOptions_eq, hreply, Option.map_some]
      cases hall : (options.items contents).all Item.isTerm with
      | false =>
          have hbad : ∃ item ∈ options.items contents, item.isTerm = false := by simpa using hall
          simp [outcomeOf, Output.ofReply, hbad]
      | true =>
          have hbad : ¬ ∃ item ∈ options.items contents, item.isTerm = false := by
            simpa using hall
          cases hfailure : options.file.failure? contents with
          | none => simp [outcomeOf, Output.ofReply, Options.fileReport, hfailure, hbad]
          | some failure =>
              have hhandle := FileChoice.handle_failure hfailure (halike hall) rfl around.colour
              simp [outcomeOf, Output.ofReply, Options.fileReport, hfailure, hhandle, Reply.after]
  · exact Or.inr hstops

/-- The file holds the lines `x`, an empty one, `)`, and `x` again. The run shows what becomes of
the term of the command line and of the first `x`, and ends with the report on the third line. -/
theorem run_items_reading_file :
    Options.ofArguments ["--max-steps", "0", "-f", "terms", "(λx.x) y"]
        = .ok { terms := ["(λx.x) y"], file := .named "terms", maxSteps := 0 } ∧
    ∃ (fuel : Nat) (texts : List Styled), ∀ more, fuel ≤ more →
      List.Forall₂ (Item.ShowsAlone false more { limit := none })
        [⟨"<args>", 1, "(λx.x) y"⟩, ⟨"terms", 1, "x"⟩, ⟨"terms", 3, ")"⟩] texts ∧
      run {} more ["--max-steps", "0", "-f", "terms", "(λx.x) y"]
          (fun _ => some [0x78, 0x0A, 0x0A, 0x29, 0x0A, 0x78])
        = some { stdout := texts.flatten, exit := some 1 } := by
  have hoptions : Options.ofArguments ["--max-steps", "0", "-f", "terms", "(λx.x) y"]
      = .ok { terms := ["(λx.x) y"], file := .named "terms", maxSteps := 0 } := rfl
  have hworked : worked
      (Options.items { terms := ["(λx.x) y"], file := .named "terms", maxSteps := 0 }
      fun _ => some [0x78, 0x0A, 0x0A, 0x29, 0x0A, 0x78])
      = [⟨"<args>", 1, "(λx.x) y"⟩, ⟨"terms", 1, "x"⟩, ⟨"terms", 3, ")"⟩] := by decide +kernel
  have hfault :
      ∃ item ∈ Options.items { terms := ["(λx.x) y"], file := .named "terms", maxSteps := 0 }
      (fun _ => some [0x78, 0x0A, 0x0A, 0x29, 0x0A, 0x78]), item.isTerm = false := by decide +kernel
  have hall : (Options.items { terms := ["(λx.x) y"], file := .named "terms", maxSteps := 0 }
      (fun _ => some [0x78, 0x0A, 0x0A, 0x29, 0x0A, 0x78])).all Item.isTerm = false := by
        simpa using hfault
  have hredex : Evaluates (app (lam "x" (var "x")) (var "y")) (var "y") := by
    refine .contract (var "y") (.lam "x" (.var "x")) ?_
    rw [substitute_var, if_pos rfl]
    exact .var "y"
  refine ⟨hoptions, ?_⟩
  have hrun := run_items {} rfl (fun _ => some [0x78, 0x0A, 0x0A, 0x29, 0x0A, 0x78]) hoptions ?_
  · rw [hworked, hall, if_neg (by decide), if_pos (Or.inl hfault)] at hrun
    simp only [List.append_nil] at hrun
    exact hrun.resolve_right fun hbound => hbound.1 rfl
  · intro _ item hmem t hparse
    rw [hworked] at hmem
    simp only [List.mem_cons, List.not_mem_nil, or_false] at hmem
    rcases hmem with rfl | rfl | rfl
    · obtain rfl : _ = t := Except.ok.inj hparse
      exact ⟨_, hredex⟩
    · obtain rfl : _ = t := Except.ok.inj hparse
      exact ⟨_, .var "x"⟩
    · contradiction

end LambdaCalculus.CommandLine
