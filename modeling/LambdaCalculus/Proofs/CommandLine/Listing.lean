import LambdaCalculus.Proofs.CommandLine.Run
import LambdaCalculus.Proofs.Text.Encoding
import LambdaCalculus.Proofs.Text.Lines

/-!
# Terms from a file

A file that lists source texts runs like these texts on the command line. The items of both runs
have the same source texts in the same order and differ in their places only, that is, in their
paths and numbers. What an item shows does not depend on its place but for a heading: the block of
an error and the location of a warning name the place. So for every source text there is one
`Showing` without a place, and each of the runs prints it at the place that its item has.
-/

namespace LambdaCalculus.CommandLine

open LambdaCalculus.Tree

/-! ### What is shown at a place -/

/-- What an item shows, without its place. -/
inductive Showing where
  /-- A text that does not name the place. -/
  | plain (text : Styled)
  /-- A warning about a column of the item, between two texts. -/
  | warning (before : Styled) (column : Int) (behind : Styled)
  /-- An error, between two texts. -/
  | error (before behind : Styled)

/-- What is shown of an item, with the heading that names its place. -/
def Showing.at (item : Item) : Showing → Styled
  | plain text => text
  | warning before column behind =>
      before ++
        Styled.bold
          (item.path ++ ":" ++ toString (item.number : Int) ++ ":" ++ toString column ++ ": ")
        ++ behind
  | error before behind =>
    before ++ Styled.plain (Session.lineBlock item.path ⟨item.source, item.number⟩) ++ behind

/-- What items show one after the other. -/
def showAll (showings : List Showing) (items : List Item) : Styled :=
  (List.zipWith (fun shown item => shown.at item) showings items).flatten

variable {colour : Bool} {fuel : Nat} {s s' : Session Empty} {item : Item} {source : String}

theorem live_begin (hidle : s.IsIdle) (hsource : item.source ≠ "") :
    (item.begin s).backtrace.live = [(item.path, ⟨item.source, item.number⟩)] := by
  calc (item.begin s).backtrace.live
      = Backtrace.live [⟨item.path, some ⟨item.source, item.number⟩⟩] :=
        Backtrace.live_set hidle _ _
    _ = [(item.path, ⟨item.source, item.number⟩)] := by simp [Backtrace.live, hsource]

/-- What is printed of an error behind the lines in progress. -/
def errorBehindLines (r : Report) : Styled :=
  (if r.internal then Styled.coloured .red "[internal] " else []) ++ Styled.coloured .red "error: "
    ++ r.message ++ Styled.plain "\n" ++ Session.pointer r .red

section Heading

variable (hlive : s.backtrace.live = [(item.path, ⟨item.source, item.number⟩)])

include hlive

theorem errorOutput_at (before : Styled) (r : Report) :
    before ++ s.errorOutput r = (Showing.error before (errorBehindLines r)).at item := by
  have hblocks : s.lineBlocks = Session.lineBlock item.path ⟨item.source, item.number⟩ := by
    simp [Session.lineBlocks, hlive]
  simp [Session.errorOutput, Session.errorLines, hblocks, Showing.at, errorBehindLines,
    Styled.line]

/-- A failure that is reported at an item ends the run. -/
theorem handle_at (hfatal : s.fatal = true) {failure : Failure} {r : Report}
    (hreport : failure.report? = some r) (before : Styled) :
    (s.handle failure).after before =
      ⟨s, (Showing.error before (errorBehindLines r)).at item, .exit (.int 1)⟩ := by
  obtain ⟨otherwise, hthrow⟩ := Session.exists_handle_eq_throw (α := Empty) hreport
  rw [hthrow, Session.throw_of_fatal hfatal, ← errorOutput_at hlive]
  rfl

end Heading

/-- What is printed of a warning behind its location. -/
def warningBehindLocation (r : Report) : Styled :=
  Styled.coloured .magenta "warning: " ++ r.message ++ Styled.plain "\n" ++
    Session.pointer r .magenta

theorem warning_at (hlive : s.backtrace.live = [(item.path, ⟨item.source, item.number⟩)])
    (before : Styled) (r : Report) :
    before ++ s.warning r =
      (Showing.warning before (Session.column ⟨item.source, item.number⟩ r)
        (warningBehindLocation r)).at item := by
  simp [Session.warning, Session.warningLine, Session.location, hlive, Showing.at, Styled.line,
    warningBehindLocation]

/-- Whether all items with a source text show the same at their places, and behind them a run goes
on or does not. -/
def ShowsAtPlaces (colour : Bool) (fuel : Nat) (s : Session Empty) (source : String)
    (shown : Showing) (goesOn : Bool) : Prop :=
  ∀ (item : Item) (s' : Session Empty), item.source = source → s'.Alike s →
    ∃ after, runItem colour fuel s' item = some ⟨after, shown.at item, outcomeOf goesOn⟩
      ∧ (goesOn = true → after.Alike s)

section Places

variable (hidle : s.IsIdle) (hfatal : s.fatal = true) (hsource : source ≠ "")

include hidle hfatal hsource

theorem showsAtPlaces_of_unread {failure : Failure} (hparse : s.parse source = .error failure)
    {r : Report} (hreport : (failure.inColour colour).report? = some r) :
    ShowsAtPlaces colour fuel s source (.error [] (errorBehindLines r)) false := by
  rintro item s' rfl h
  have hlive := live_begin (h.isIdle hidle) hsource
  refine ⟨item.begin s', ?_, (absurd · Bool.false_ne_true)⟩
  rw [runItem_of_error colour h.toSameSettings hparse]
  exact congrArg some (handle_at hlive (h.fatal.trans hfatal) hreport [])

variable {t : Term} {reduction : Reduction Empty} (hparse : s.parse source = .ok t)
  (hreduce : s.reduce fuel t = some reduction)

include hparse hreduce

theorem showsAtPlaces_of_failure {failure : Failure} (hresult : reduction.result = .error failure)
    (hcut : failure.cutShort? = none) {r : Report}
    (hreport : (failure.inColour colour).report? = some r) :
    ShowsAtPlaces colour fuel s source (.error reduction.printed (errorBehindLines r)) false := by
  rintro item s' rfl h
  have hlive : (item.recorded s' reduction).backtrace.live = _ :=
    live_begin (h.isIdle hidle) hsource
  refine ⟨item.recorded s' reduction, ?_, (absurd · Bool.false_ne_true)⟩
  rw [runItem_of_reduce colour h.toSameSettings hparse hreduce, hresult]
  simp only [hcut]
  rw [handle_at hlive (h.fatal.trans hfatal) hreport]
  rfl

omit hfatal in
theorem showsAtPlaces_of_cutShort {failure : Failure} (hresult : reduction.result = .error failure)
    {steps : Int} (hcut : failure.cutShort? = some steps) :
    ShowsAtPlaces colour fuel s source
      (.warning reduction.printed
        (Session.column ⟨source, 0⟩ ((Report.noNormalForm source steps).inColour colour))
        (warningBehindLocation ((Report.noNormalForm source steps).inColour colour))) true := by
  rintro item s' rfl h
  have hlive : (item.recorded s' reduction).backtrace.live = _ :=
    live_begin (h.isIdle hidle) hsource
  refine ⟨(item.recorded s' reduction).removeLine item.path, ?_,
    fun _ => h.removeLine hidle _ _ _ _⟩
  rw [runItem_of_reduce colour h.toSameSettings hparse hreduce, hresult]
  simp only [hcut]
  rw [warning_at hlive]
  rfl

theorem exists_showsAtPlaces_of_ok {u : Term} (hresult : reduction.result = .ok u) :
    ∃ shown goesOn, ShowsAtPlaces colour fuel s source shown goesOn := by
  cases hallows : s.allows u.drawingDepth with
  | true =>
      refine ⟨.plain (reduction.printed ++ Styled.line (Styled.plain u.draw)), true, ?_⟩
      rintro item s' rfl h
      refine ⟨(item.recorded s' reduction).removeLine item.path, ?_,
        fun _ => h.removeLine hidle _ _ _ _⟩
      rw [runItem_of_reduce colour h.toSameSettings hparse hreduce, hresult]
      exact congrArg some (if_pos hallows)
  | false =>
      -- there is no room to draw the answer
      refine ⟨.error reduction.printed (errorBehindLines Report.nestedTooDeep), false, ?_⟩
      rintro item s' rfl h
      have hlive : (item.recorded s' reduction).backtrace.live = _ :=
        live_begin (h.isIdle hidle) hsource
      refine ⟨item.recorded s' reduction, ?_, (absurd · Bool.false_ne_true)⟩
      rw [runItem_of_reduce colour h.toSameSettings hparse hreduce, hresult]
      simp only [hallows, Bool.false_eq_true, if_false]
      rw [handle_at hlive (h.fatal.trans hfatal) rfl]
      rfl

end Places

/-- Every source text has a `Showing`, if its reduction has an answer. -/
theorem exists_showsAtPlaces (colour : Bool) (hidle : s.IsIdle) (hfatal : s.fatal = true)
    (hsource : source ≠ "")
    (hanswer : ∀ t : Term, Parser.parse source = .ok t →
      ∃ reduction, s.reduce fuel t = some reduction) :
    ∃ shown goesOn, ShowsAtPlaces colour fuel s source shown goesOn := by
  cases hparse : s.parse source with
  | error failure =>
      obtain ⟨r, hreport⟩ := Session.exists_report?_of_parse hparse
      obtain ⟨r', hreport'⟩ := Failure.exists_report?_inColour hreport colour
      exact ⟨_, _, showsAtPlaces_of_unread hidle hfatal hsource hparse hreport'⟩
  | ok t =>
      obtain ⟨reduction, hreduce⟩ := hanswer t (Session.parse_eq_ok hparse)
      rcases Session.result_cases hreduce with
        ⟨u, hresult⟩ | ⟨m, _, hresult⟩ | ⟨_, hresult⟩ | ⟨o, _, hresult⟩
      · exact exists_showsAtPlaces_of_ok hidle hfatal hsource hparse hreduce hresult
      · exact ⟨_, _, showsAtPlaces_of_cutShort hidle hsource hparse hreduce hresult rfl⟩
      · rw [Session.nestingFailure] at hresult
        split at hresult
        · exact ⟨_, _, showsAtPlaces_of_cutShort hidle hsource hparse hreduce hresult rfl⟩
        · exact ⟨_, _, showsAtPlaces_of_failure hidle hfatal hsource hparse hreduce hresult rfl rfl⟩
      · exact ⟨_, _, showsAtPlaces_of_failure hidle hfatal hsource hparse hreduce hresult rfl rfl⟩

/-- Items show one after the other what their source texts have shown at all places, up to the first
that ends the run. -/
theorem exists_showings (colour : Bool) (hidle : s.IsIdle) (hfatal : s.fatal = true)
    {sources : List String}
    (hsources : ∀ source ∈ sources, source ≠ "")
    (hanswers : ∀ source ∈ sources, ∀ t : Term, Parser.parse source = .ok t →
      ∃ reduction, s.reduce fuel t = some reduction) :
    ∃ (showings : List Showing) (goesOn : Bool), showings.length ≤ sources.length ∧
      ∀ (items : List Item) (s' : Session Empty), items.map Item.source = sources → s'.Alike s →
        ∃ after, runItems colour fuel s' items =
          some ⟨after, showAll showings items, outcomeOf goesOn⟩ := by
  induction sources with
  | nil =>
      refine ⟨[], true, Nat.le_refl _, ?_⟩
      intro items s' hitems _
      obtain rfl := List.map_eq_nil_iff.mp hitems
      exact ⟨s', rfl⟩
  | cons source rest ih =>
      obtain ⟨hsource, hrest⟩ := List.forall_mem_cons.mp hsources
      obtain ⟨hanswer, hanswers⟩ := List.forall_mem_cons.mp hanswers
      obtain ⟨shown, goesOn, hshown⟩ := exists_showsAtPlaces colour hidle hfatal hsource hanswer
      obtain ⟨showings, goesOn', hlength, hshowings⟩ := ih hrest hanswers
      cases goesOn with
      | true =>
          refine ⟨shown :: showings, goesOn', Nat.succ_le_succ hlength, ?_⟩
          intro items s' hitems h
          obtain ⟨item, items, rfl, hitem, hitems⟩ := List.map_eq_cons_iff.mp hitems
          obtain ⟨next, hnext, halike⟩ := hshown item s' hitem h
          obtain ⟨after, hafter⟩ := hshowings items next hitems (halike rfl)
          refine ⟨after, ?_⟩
          simp only [runItems, hnext, outcomeOf, if_true, hafter, Option.map_some]
          rfl
      | false =>
          refine ⟨[shown], false, by simp, ?_⟩
          intro items s' hitems h
          obtain ⟨item, items, rfl, hitem, hitems⟩ := List.map_eq_cons_iff.mp hitems
          obtain ⟨after, hafter, -⟩ := hshown item s' hitem h
          refine ⟨after, ?_⟩
          simp [runItems, hafter, outcomeOf, showAll]

/-- With enough fuel all source texts have an answer, if those without a limit have a result. -/
theorem exists_fuel {sources : List String}
    (h : s.limit = none → ∀ source ∈ sources, ∀ t : Term, Parser.parse source = .ok t →
      ∃ r, Evaluates t r) :
    ∃ fuel, ∀ source ∈ sources, ∀ t : Term, Parser.parse source = .ok t →
      ∃ reduction, s.reduce fuel t = some reduction := by
  induction sources with
  | nil => exact ⟨0, by simp⟩
  | cons source rest ih =>
      obtain ⟨fuel, hrest⟩ := ih fun hlimit other hmem =>
        h hlimit other (List.mem_cons_of_mem _ hmem)
      have hsource : ∃ fuel, ∀ t : Term, Parser.parse source = .ok t →
          ∃ reduction, s.reduce fuel t = some reduction := by
        cases hparse : (Parser.parse source : Except Parser.Fault Term) with
        | error fault => exact ⟨0, nofun⟩
        | ok t =>
            obtain ⟨fuel, reduction, hreduce⟩ :=
              s.exists_reduce t fun hlimit => h hlimit source List.mem_cons_self t hparse
            exact ⟨fuel, fun u hu => ⟨reduction, Except.ok.inj hu ▸ hreduce fuel (Nat.le_refl _)⟩⟩
      obtain ⟨fuel', hsource⟩ := hsource
      refine ⟨max fuel fuel', List.forall_mem_cons.mpr ⟨?_, ?_⟩⟩
      · intro t ht
        obtain ⟨reduction, hreduce⟩ := hsource t ht
        exact ⟨reduction, Session.reduce_mono hreduce (Nat.le_max_right _ _)⟩
      · intro other hmem t ht
        obtain ⟨reduction, hreduce⟩ := hrest other hmem t ht
        exact ⟨reduction, Session.reduce_mono hreduce (Nat.le_max_left _ _)⟩

/-! ### Listings -/

/-- The source texts of a listing, each at its line of a file. -/
def rowItems (path : String) (rows : List (Nat × String)) : List Item :=
  rows.map fun (number, source) => ⟨path, number, source⟩

theorem numbered_lines {number : Nat} {rows : List (Nat × String)} {text : List Char}
    (h : Text.Listing number rows text) (path : String) :
    numbered path number ((Text.lines text).map String.ofList) = rowItems path rows := by
  induction h with
  | nil number => rfl
  | blank hending h ih =>
      rw [Text.lines_lineEnd hending]
      exact ih
  | @line number rows text ending source hsource hending h ih =>
      have hlines : Text.lines (source.toList ++ ending ++ text) = source.toList ::
          Text.lines text := by
        rw [List.append_assoc, Text.lines_append hsource.2 (Text.lines_lineEnd hending text),
          List.append_nil]
      rw [hlines, List.map_cons, String.ofList_toList, numbered, ih,
        if_neg (by simpa using hsource.1)]
      rfl
  | @last number source hsource =>
      rw [Text.lines_line hsource.2 (by simpa using hsource.1), List.map_singleton,
        String.ofList_toList, numbered, if_neg (by simpa using hsource.1)]
      rfl

theorem isLine_of_mem {number : Nat} {rows : List (Nat × String)} {text : List Char}
    (h : Text.Listing number rows text) : ∀ row ∈ rows, Text.IsLine row.2 := by
  induction h with
  | nil number => simp
  | blank _ _ ih => exact ih
  | line hsource _ _ ih => exact List.forall_mem_cons.mpr ⟨hsource, ih⟩
  | last hsource => simpa using hsource

/-! ### The two runs -/

theorem map_source_argumentItems (terms : List String) :
    (argumentItems terms).map Item.source = terms := by
  rw [argumentItems, List.mapIdx_eq_zipIdx_map, List.map_map]
  exact List.zipIdx_map_fst 0 terms

theorem map_source_rowItems (path : String) (rows : List (Nat × String)) :
    (rowItems path rows).map Item.source = rows.map Prod.snd := by
  rw [rowItems, List.map_map]
  rfl

theorem lines_named {path : String} (hpath : '\x00' ∉ path.toList) {rows : List (Nat × String)}
    {text : List Char}
    (hlisting : Text.Listing 1 rows text) {contents : String → Option (List UInt8)}
    (hcontents : contents path = some (Utf8.encode text)) :
    FileChoice.lines contents (.named path) = rowItems path rows ∧
      FileChoice.failure? contents (.named path) = none := by
  have hlegal : path.toList.contains '\x00' = false := by simpa using hpath
  constructor
  · simp only [FileChoice.lines, hlegal, hcontents, Option.map_some, Utf8.decode_encode, lineItems]
    rw [if_neg Bool.false_ne_true, ← numbered_lines hlisting path, numbered_eq_filterMap]
  · simp [FileChoice.failure?, FileChoice.items?, FileChoice.path?, fileItems, hcontents,
      Utf8.decode_encode, hpath]

theorem run_of_runItems {around : Surroundings} {arguments : List String}
    {contents : String → Option (List UInt8)}
    {options : Options} (hoptions : Options.ofArguments arguments = .ok options)
    (hfile : options.file.failure? contents = none) {after : Session Empty} {printed : Styled}
    {goesOn : Bool}
    (h : runItems around.colour fuel (options.session around) (options.items contents)
      = some ⟨after, printed, outcomeOf goesOn⟩) :
    run around fuel arguments contents =
      some { stdout := printed, exit := if goesOn then none else some 1 } := by
  simp only [run, hoptions, runOptions_eq, h, hfile, Option.map_some]
  cases goesOn with
  | true => rfl
  | false => rfl

/-- A file that lists source texts runs like these source texts on a command line with the same
settings. Both runs print the same `Showing` for each source text, up to the first that ends the
run, one at the places on the command line and the other at the lines of the file; and they have the
same exit code, whatever the bound on nested calls. Without a limit on the steps this asks for terms
that have a result. -/
theorem run_listing (around : Surroundings) (contents contents' : String → Option (List UInt8))
    {path : String}
    (hpath : '\x00' ∉ path.toList) {rows : List (Nat × String)} {text : List Char}
    (hlisting : Text.Listing 1 rows text)
    (hcontents : contents path = some (Utf8.encode text)) {maxSteps : Nat} {verbose : Bool}
    {arguments arguments' : List String}
    (hterms : Options.ofArguments arguments = .ok { terms := rows.map Prod.snd, maxSteps, verbose })
    (hfile : Options.ofArguments arguments' = .ok { file := .named path, maxSteps, verbose })
    (hresults : maxSteps = 0 → ∀ row ∈ rows, ∀ t : Term, Parser.parse row.2 = .ok t →
      ∃ r, Evaluates t r) :
    ∃ (fuel : Nat) (showings : List Showing) (exit : Option Int), showings.length ≤ rows.length ∧
      ∀ more, fuel ≤ more →
      run around more arguments contents'
          = some { stdout := showAll showings (argumentItems (rows.map Prod.snd)), exit } ∧
      run around more arguments' contents =
        some { stdout := showAll showings (rowItems path rows), exit } := by
  have hidle := isIdle_session { file := .named path, maxSteps, verbose } around
  have hlimit : (Options.session { file := .named path, maxSteps, verbose } around).limit = none →
      maxSteps = 0 := by
    intro hnone
    by_contra hsteps
    simp [Options.session, hsteps] at hnone
  have hsources : ∀ source ∈ rows.map Prod.snd, source ≠ "" :=
    List.forall_mem_map.mpr fun row hrow => (isLine_of_mem hlisting row hrow).1
  obtain ⟨fuel, hfuel⟩ := exists_fuel fun hnone => List.forall_mem_map.mpr (hresults (hlimit hnone))
  obtain ⟨showings, goesOn, hlength, hshowings⟩ :=
    exists_showings around.colour hidle rfl hsources hfuel
  refine ⟨fuel, showings, if goesOn then none else some 1, by simpa using hlength, ?_⟩
  intro more hle
  constructor
  · obtain ⟨after, hafter⟩ := hshowings _ _ (map_source_argumentItems _) (.refl _)
    have hitems : Options.items { terms := rows.map Prod.snd, maxSteps, verbose } contents'
        = argumentItems (rows.map Prod.snd) := List.append_nil _
    rw [← hitems] at hafter ⊢
    exact run_mono (run_of_runItems hterms rfl hafter) hle
  · obtain ⟨hlines, hfailure⟩ := lines_named hpath hlisting hcontents
    obtain ⟨after, hafter⟩ := hshowings _ _ (map_source_rowItems path rows) (.refl _)
    have hitems : Options.items { file := .named path, maxSteps, verbose } contents =
        rowItems path rows := hlines
    rw [← hitems] at hafter ⊢
    exact run_mono (run_of_runItems hfile hfailure hafter) hle

/-- The file lists `(λx.x) y` and `)`, with an empty line between them and no end of the last
line. -/
theorem run_listing_blank_line :
    Text.Listing 1 [(1, "(λx.x) y"), (3, ")")] "(λx.x) y\r\n\n)".toList ∧
      ∃ (fuel : Nat) (showings : List Showing) (exit : Option Int), ∀ more, fuel ≤ more →
        run {} more ["--max-steps", "0", "(λx.x) y", ")"] (fun _ => none)
            = some {
              stdout := showAll showings [⟨"<args>", 1, "(λx.x) y"⟩, ⟨"<args>", 2, ")"⟩], exit } ∧
        run {} more ["--max-steps", "0", "-f", "terms"]
          (fun _ => some (Utf8.encode "(λx.x) y\r\n\n)".toList))
            = some {
              stdout := showAll showings [⟨"terms", 1, "(λx.x) y"⟩, ⟨"terms", 3, ")"⟩], exit } := by
  have hlast : Text.Listing 3 [(3, ")")] ")".toList :=
    .last (by simp [Text.IsLine, Text.isLineBreak])
  have hblank : Text.Listing 2 [(3, ")")] "\n)".toList := .blank (List.mem_cons_self) hlast
  have hlisting : Text.Listing 1 [(1, "(λx.x) y"), (3, ")")] "(λx.x) y\r\n\n)".toList :=
    .line (by simp [Text.IsLine, Text.isLineBreak]) (List.mem_cons_of_mem _ List.mem_cons_self)
      hblank
  have hterms : Options.ofArguments ["--max-steps", "0", "(λx.x) y", ")"]
      = .ok { terms := ["(λx.x) y", ")"], maxSteps := 0 } := rfl
  have hfile : Options.ofArguments ["--max-steps", "0", "-f", "terms"]
      = .ok { file := .named "terms", maxSteps := 0 } := rfl
  have hredex : Evaluates (app (lam "x" (var "x")) (var "y")) (var "y") := by
    refine .contract (var "y") (.lam "x" (.var "x")) ?_
    rw [substitute_var, if_pos rfl]
    exact .var "y"
  refine ⟨hlisting, ?_⟩
  have hruns :=
    run_listing {} (fun _ => some (Utf8.encode "(λx.x) y\r\n\n)".toList)) (fun _ => none)
      (by decide)
    hlisting rfl hterms hfile ?_
  · obtain ⟨fuel, showings, exit, -, hruns⟩ := hruns
    exact ⟨fuel, showings, exit, hruns⟩
  · intro _ row hrow t ht
    simp only [List.mem_cons, List.not_mem_nil, or_false] at hrow
    rcases hrow with rfl | rfl
    · obtain rfl : _ = t := Except.ok.inj ht
      exact ⟨_, hredex⟩
    · contradiction

end LambdaCalculus.CommandLine
