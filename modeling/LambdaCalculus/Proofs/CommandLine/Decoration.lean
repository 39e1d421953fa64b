import LambdaCalculus.Proofs.CommandLine.Options
import LambdaCalculus.Proofs.CommandLine.Run
import LambdaCalculus.Proofs.Parser.Names
import LambdaCalculus.Proofs.Reduction.Names
import LambdaCalculus.Proofs.Session.Decoration
import LambdaCalculus.Proofs.Text.Lines

/-!
# Runs with and without colour

A run prints drawings, steps, warnings and reports. They are made from the texts of its items and
from names that come out of these by reduction, which adds subscript digits and nothing else. So an
escape character is printed only where there is colour, if there is none in the arguments and in the
file, and without colour the same is printed as with colour but for the control sequences
(`colour_decorates`).
-/

namespace LambdaCalculus

variable {α : Type}

/-! ### Drawings -/

namespace Tree

theorem isBare_variableLine (level : Int) {name : String} (h : Text.IsBare name) :
    Text.IsBare (variableLine level name) := by
  have hfront : Text.IsBare "Variable('" := Text.isBare_literal (by decide)
  have hend : Text.IsBare "')" := Text.isBare_literal (by decide)
  simp [variableLine, margin, h, hfront, hend]

theorem isBare_bracketed (level : Int) {kind first second : String} (hkind : Text.IsBare kind)
    (hfirst : Text.IsBare first) (hsecond : Text.IsBare second) :
    Text.IsBare (bracketed level kind first second) := by
  have hopening : Text.IsBare "(nodes=[\n" := Text.isBare_literal (by decide)
  have hcomma : Text.IsBare ",\n" := Text.isBare_literal (by decide)
  have hend : Text.IsBare "\n" := Text.isBare_literal (by decide)
  have hclosing : Text.IsBare "])" := Text.isBare_literal (by decide)
  simp [bracketed, margin, hkind, hfirst, hsecond, hopening, hcomma, hend, hclosing]

/-- A drawing has escape characters only in the names of the term. -/
theorem isBare_drawAt [Foreign α] (hforeign : Foreign.IsBare α) {t : Tree α} (ht : t.Lacks '\x1b')
    (level : Int) :
    Text.IsBare (t.drawAt level) := by
  induction t generalizing level with
  | var x => exact isBare_variableLine level ht
  | lam x b ih =>
      exact isBare_bracketed level (Text.isBare_literal (by decide))
        (isBare_variableLine (level + 1) ht.1)
        (ih ht.2 (level + 1))
  | app f a ihf iha =>
      exact isBare_bracketed level (Text.isBare_literal (by decide)) (ihf ht.1 (level + 1))
        (iha ht.2 (level + 1))
  | foreign v =>
      have hmargin : Text.IsBare (margin level) := by simp [margin]
      exact Text.isBare_append.mpr ⟨hmargin, (hforeign v).1⟩

end Tree

namespace CommandLine

/-! ### Items -/

def Item.IsBare (item : Item) : Prop := Text.IsBare item.path ∧ Text.IsBare item.source

theorem isBare_of_mem_argumentItems {terms : List String} (h : ∀ term ∈ terms, Text.IsBare term) :
    ∀ item ∈ argumentItems terms, item.IsBare := by
  intro item hitem
  obtain ⟨i, hi, rfl⟩ := List.mem_mapIdx.mp hitem
  exact ⟨Text.isBare_literal (by decide), h _ (List.getElem_mem hi)⟩

theorem isBare_of_mem_lineItems {path : String} (hpath : Text.IsBare path) {text : List Char}
    (h : '\x1b' ∉ text) :
    ∀ item ∈ lineItems path text, item.IsBare := by
  intro item hitem
  obtain ⟨⟨line, number⟩, hrow, hsome⟩ := List.mem_filterMap.mp hitem
  simp only [Option.ite_none_left_eq_some, Option.some.injEq] at hsome
  obtain ⟨-, rfl⟩ := hsome
  obtain ⟨chars, hchars, rfl⟩ := List.mem_map.mp (List.fst_mem_of_mem_zipIdx hrow)
  exact ⟨hpath, Text.isBare_literal (Text.not_mem_of_mem_lines h chars hchars)⟩

variable {contents : String → Option (List UInt8)}

/-- Whether the text of the file has no escape character in it, if there is a file and it can be
read. -/
def FileChoice.IsBare (contents : String → Option (List UInt8)) (file : FileChoice) : Prop :=
  ∀ bytes text, file.path?.bind contents = some bytes → Utf8.decode bytes = .ok text → '\x1b' ∉ text

theorem isBare_of_mem_items {options : Options} (h : options.Lacks '\x1b')
    (hfile : options.file.IsBare contents) :
    ∀ item ∈ options.items contents, item.IsBare := by
  obtain ⟨hterms, hpath⟩ := h
  refine List.forall_mem_append.mpr ⟨isBare_of_mem_argumentItems hterms, ?_⟩
  cases hchoice : options.file with
  | absent => simp [FileChoice.lines]
  | pathless => simp [FileChoice.lines]
  | named path =>
      rw [hchoice] at hfile
      simp only [FileChoice.lines]
      split
      · simp
      · split
        · rename_i text hread
          obtain ⟨bytes, hbytes, hdecode⟩ := Option.map_eq_some_iff.mp hread
          exact isBare_of_mem_lineItems (hpath path hchoice) (hfile bytes text hbytes hdecode)
        · simp

/-- A report on a file tells its path, or a byte of it as a number. -/
theorem isBare_of_fileItems {path : String} (hpath : Text.IsBare path) {bytes : Option (List UInt8)}
    {failure : Failure}
    (h : fileItems path bytes = .error failure) : failure.IsBare := by
  unfold fileItems at h
  split at h
  · obtain rfl := Except.error.inj h
    trivial
  · split at h
    · obtain rfl := Except.error.inj h
      exact Report.isBare_cannotOpen hpath
    · split at h
      · obtain rfl := Except.error.inj h
        trivial
      · contradiction

theorem isBare_of_failure {options : Options} (h : options.Lacks '\x1b') {failure : Failure}
    (hfailure : options.file.failure? contents = some failure) : failure.IsBare := by
  have hitems : options.file.items? (options.file.path?.bind contents) = some (.error failure) := by
    unfold FileChoice.failure? at hfailure
    split at hfailure
    · rename_i hitems
      obtain rfl := Option.some.inj hfailure
      exact hitems
    · contradiction
  cases hchoice : options.file with
  | absent => simp [hchoice, FileChoice.items?] at hitems
  | pathless =>
      rw [hchoice] at hitems
      obtain rfl := Except.error.inj (Option.some.inj hitems)
      trivial
  | named path =>
      rw [hchoice] at hitems
      exact isBare_of_fileItems (h.2 path hchoice) (Option.some.inj hitems)

/-! ### Runs -/

section Runs

variable {s : Session Empty}

theorem decorated_handle (hs : s.backtrace.IsBare) {failure : Failure} (hfailure : failure.IsBare)
    {printed : Styled} (hprinted : printed.IsBare) :
    Decorated fun colour => some ((s.handle (failure.inColour colour)).after printed) := by
  obtain ⟨hreport, houtcome⟩ := Session.isBare_handle hs hfailure
  have hlines : ((s.handle failure).after printed).session.backtrace.IsBare :=
    Session.isBare_backtrace_handle hs failure
  exact .inr ⟨(s.handle failure).after printed,
    ⟨⟨Styled.isBare_append.mpr ⟨hprinted, hreport⟩, houtcome⟩, hlines⟩,
    fun _ => ⟨_, rfl, Reply.sent_after (Session.mapTexts_handle s failure) rfl⟩⟩

theorem decorated_warning (hs : s.backtrace.IsBare) {r : Report} (hr : r.IsBare) {printed : Styled}
    (hprinted : printed.IsBare) {path : String} (hpath : Text.IsBare path) :
    Decorated fun colour =>
      some ⟨s.removeLine path, printed ++ s.warning (r.inColour colour), .nothing⟩ := by
  have hlines : (s.removeLine path).backtrace.IsBare := Backtrace.isBare_set hs hpath (by simp)
  refine .inr ⟨⟨s.removeLine path, printed ++ s.warning r, .nothing⟩,
    ⟨⟨Styled.isBare_append.mpr ⟨hprinted, Session.isBare_warning hs hr⟩, trivial⟩, hlines⟩,
    fun colour => ⟨_, rfl, ?_⟩⟩
  simp only [Reply.mapTexts, Session.sent_append rfl (Session.sent_warning s r)]

/-- An item is worked on alike with and without colour. -/
theorem decorated_runItem (fuel : Nat) (hs : s.backtrace.IsBare) {item : Item}
    (hitem : item.IsBare) : Decorated fun colour => runItem colour fuel s item := by
  obtain ⟨hpath, hsource⟩ := hitem
  have hbegin : (item.begin s).backtrace.IsBare := Session.isBare_registerLine hs hpath hsource
  have hsame : s.SameSettings s := (Session.Alike.refl s).toSameSettings
  cases hparse : s.parse item.source with
  | error failure =>
      simp only [runItem_of_error _ hsame hparse]
      exact decorated_handle hbegin (Session.isBare_parse hsource hparse) Styled.isBare_nil
  | ok t =>
      cases hreduce : s.reduce fuel t with
      | none =>
          simp only [runItem_of_reduce_eq_none _ hsame hparse hreduce]
          exact .inl fun _ => rfl
      | some reduction =>
          simp only [runItem_of_reduce _ hsame hparse hreduce]
          obtain ⟨hprinted, hfailed⟩ := Session.isBare_reduce Foreign.isBare_empty hreduce
          have hterm : t.Lacks '\x1b' :=
            Parser.lacks_of_not_mem (Session.parse_eq_ok hparse) hsource
          obtain ⟨-, hnames⟩ := Tree.lacks_of_reduce (by decide) hreduce hterm
          have hlines : (item.recorded s reduction).backtrace.IsBare := hbegin
          cases hresult : reduction.result with
          | ok u =>
              have hdrawing : Text.IsBare u.draw :=
                Tree.isBare_drawAt Foreign.isBare_empty (hnames u hresult) 0
              cases hallows : s.allows u.drawingDepth with
              | true =>
                  have hremoved :
                      ((item.recorded s reduction).removeLine item.path).backtrace.IsBare :=
                    Backtrace.isBare_set hlines hpath (by simp)
                  have hshown :
                      (reduction.printed ++ Styled.line (Styled.plain u.draw)).IsBare := by
                    simp [hprinted, hdrawing]
                  simp only [hallows, if_true]
                  exact .of_reply ⟨hshown, trivial⟩ hremoved
              | false =>
                  simp only [hallows, Bool.false_eq_true, if_false]
                  have hnesting : Failure.nesting.IsBare := trivial
                  exact decorated_handle hlines hnesting hprinted
          | error failure =>
              cases hcut : failure.cutShort? with
              | some steps =>
                  simp only [hcut]
                  exact decorated_warning hlines (Report.isBare_noNormalForm hsource steps)
                    hprinted hpath
              | none =>
                  simp only [hcut]
                  exact decorated_handle hlines (hfailed failure hresult) hprinted

theorem runItems_cons (colour : Bool) (fuel : Nat) (s : Session Empty) (item : Item)
    (rest : List Item) :
    runItems colour fuel s (item :: rest) =
      (runItem colour fuel s item).bind (·.andThen fun s => runItems colour fuel s rest) := by
  rw [runItems]
  cases runItem colour fuel s item with
  | none => rfl
  | some reply =>
      rcases reply with ⟨next, printed, outcome⟩
      cases outcome <;> rfl

theorem decorated_runItems (fuel : Nat) (hs : s.backtrace.IsBare) {items : List Item}
    (hitems : ∀ item ∈ items, item.IsBare) :
    Decorated fun colour => runItems colour fuel s items := by
  induction items generalizing s with
  | nil => exact .of_reply ⟨Styled.isBare_nil, trivial⟩ hs
  | cons item rest ih =>
      obtain ⟨hitem, hrest⟩ := List.forall_mem_cons.mp hitems
      exact (decorated_runItem fuel hs hitem).andThen (fun s hs => ih hs hrest) fun colour =>
        runItems_cons colour fuel s item rest

/-- A run on options comes to the same end with and without colour. -/
theorem decorated_runOptions (around : Surroundings) (fuel : Nat) {options : Options}
    (h : options.Lacks '\x1b') (hfile : options.file.IsBare contents) :
    Decorated fun colour =>
      runOptions { around with colour } fuel options (options.file.path?.bind contents) := by
  have hs : (options.session around).backtrace.IsBare := Backtrace.isBare_nil
  have hitems := decorated_runItems fuel hs (isBare_of_mem_items h hfile)
  cases hfailure : options.file.failure? contents with
  | none =>
      have hwhole (colour : Bool) :
          runOptions { around with colour } fuel options (options.file.path?.bind contents) =
            runItems colour fuel (options.session around) (options.items contents) := by
        rw [runOptions_eq, hfailure]
        show Option.map _ (runItems colour fuel (options.session around) _) = _
        cases runItems colour fuel (options.session around) (options.items contents) with
        | none => rfl
        | some reply =>
            rcases reply with ⟨next, printed, outcome⟩
            cases outcome <;> rfl
      simp only [hwhole]
      exact hitems
  | some failure =>
      have hfails (s : Session Empty) (hs : s.backtrace.IsBare) :
          Decorated fun colour => some (s.handle (failure.inColour colour)) :=
        decorated_handle hs (isBare_of_failure h hfailure) Styled.isBare_nil
      refine hitems.andThen hfails fun colour => ?_
      rw [runOptions_eq, hfailure]
      show Option.map _ (runItems colour fuel (options.session around) _) = _
      cases runItems colour fuel (options.session around) (options.items contents) with
      | none => rfl
      | some reply =>
          rcases reply with ⟨next, printed, outcome⟩
          cases outcome <;> rfl

end Runs

/-! ### Output -/

def Output.mapTexts (f : Styled → Styled) (output : Output) : Output :=
  { output with stdout := f output.stdout }

theorem Output.ofReply_mapTexts (f : Styled → Styled) (reply : Reply Empty) :
    Output.ofReply (reply.mapTexts f) = (Output.ofReply reply).mapTexts f := by
  rcases reply with ⟨next, printed, outcome⟩
  cases outcome with
  | exit code => cases code <;> rfl
  | _ => rfl

/-- The end of a run on given options, with or without colour: the session, what was sent out, and
the outcome. -/
def repliedIn (colour : Bool) (around : Surroundings) (fuel : Nat) (options : Options)
    (contents : String → Option (List UInt8)) : Option (Reply Empty) :=
  (runOptions { around with colour } fuel options (options.file.path?.bind contents)).map
    (Reply.mapTexts (Styled.sent colour))

/-- What the program sends out, with or without colour, and its exit code. -/
def sentIn (colour : Bool) (around : Surroundings) (fuel : Nat) (arguments : List String)
    (contents : String → Option (List UInt8)) : Option Output :=
  (run { around with colour } fuel arguments contents).map (Output.mapTexts (Styled.sent colour))

theorem sentIn_eq {arguments : List String} {options : Options}
    (h : Options.ofArguments arguments = .ok options) (colour : Bool) (around : Surroundings)
    (fuel : Nat) :
    sentIn colour around fuel arguments contents =
      (repliedIn colour around fuel options contents).map Output.ofReply := by
  simp only [sentIn, run, h, repliedIn, Option.map_map, Function.comp_def, Output.ofReply_mapTexts]

theorem erased_sentIn {arguments : List String} {options : Options}
    (hoptions : Options.ofArguments arguments = .ok options) {around : Surroundings}
    (h : (repliedIn true around fuel options contents).map (Reply.mapTexts Styled.erased) =
      repliedIn false around fuel options contents) :
    (sentIn true around fuel arguments contents).map (Output.mapTexts Styled.erased) =
      sentIn false around fuel arguments contents := by
  rw [sentIn_eq hoptions, sentIn_eq hoptions, ← h, Option.map_map, Option.map_map]
  simp only [Function.comp_def, Output.ofReply_mapTexts]

/-- Colour is decoration. Let no text that comes in have an escape character in it. Then a run of
the program comes to the same end with and without colour, in its session, its outcome and its exit
code, and so does any session after each of its orders, if the templates in them are plain. The
printed texts and the messages of reports are those without colour, once the control sequences are
deleted from them. -/
theorem colour_decorates [Foreign α] (hforeign : Foreign.IsBare α) (fuel : Nat) :
    (∀ (around : Surroundings) (arguments : List String) (contents : String → Option (List UInt8))
        (options : Options), Options.ofArguments arguments = .ok options →
      (∀ argument ∈ arguments, Text.IsBare argument) → options.file.IsBare contents →
      (repliedIn true around fuel options contents).map (Reply.mapTexts Styled.erased) =
        repliedIn false around fuel options contents ∧
      (sentIn true around fuel arguments contents).map (Output.mapTexts Styled.erased) =
        sentIn false around fuel arguments contents) ∧
    (∀ (s : Session α) (orders : List (Order α)), s.backtrace.IsBare →
      (∀ order ∈ orders, order.IsBare) → (∀ order ∈ orders, order.IsPlain) →
      (s.obeyAll true fuel orders).map (·.map (Reply.mapTexts Styled.erased)) =
        s.obeyAll false fuel orders) ∧
    ∀ draft : Draft, draft.IsBare → draft.IsPlain →
      (draft.report true).map (Report.mapMessage Styled.erased) = draft.report false := by
  refine ⟨?_, ?_, ?_⟩
  · intro around arguments contents options hoptions harguments hfile
    have hlacks : options.Lacks '\x1b' := lacks_of_ofArguments harguments hoptions
    have hreplied := (decorated_runOptions around fuel hlacks hfile).erased
    exact ⟨hreplied, erased_sentIn hoptions hreplied⟩
  · intro s orders hs horders hplain
    exact Session.erased_obeyAll hforeign fuel hs horders hplain
  · intro draft hdraft hplain
    exact Draft.erased_report hplain hdraft

/-- The run ends with an error on its second term. The session goes on after an error in a line of a
file, and then warns with a report that is made from a template. -/
theorem colour_decorates_reports :
    (sentIn true {} 10 ["-v", "(λx.x) y", "(λx.x"] fun _ => none).map
        (Output.mapTexts Styled.erased) =
      sentIn false {} 10 ["-v", "(λx.x) y", "(λx.x"] (fun _ => none) ∧
    (({} : Session Datum).obeyAll true 10
        [.act (.setFatal false), .act (.registerLine "terms" ⟨"λx", 3⟩), .act (.guardedParse "λx"),
          .warn { template := "'\x7b\x7d' is unused", exprs := ["x"] }]).map
        (·.map (Reply.mapTexts Styled.erased)) =
      ({} : Session Datum).obeyAll false 10
        [.act (.setFatal false), .act (.registerLine "terms" ⟨"λx", 3⟩), .act (.guardedParse "λx"),
          .warn { template := "'\x7b\x7d' is unused", exprs := ["x"] }] := by
  obtain ⟨hruns, hsessions, -⟩ := colour_decorates Datum.isBare_foreign 10
  have hoptions : Options.ofArguments ["-v", "(λx.x) y", "(λx.x"] =
      .ok { terms := ["(λx.x) y", "(λx.x"], verbose := true } := rfl
  have harguments : ∀ argument ∈ ["-v", "(λx.x) y", "(λx.x"], Text.IsBare argument := by
    simp [Text.IsBare]
  have hpath : Text.IsBare "terms" := Text.isBare_literal (by decide)
  have hsource : Text.IsBare "λx" := Text.isBare_literal (by decide)
  have htemplate : Text.IsBare "'\x7b\x7d' is unused" := Text.isBare_literal (by decide)
  have hname : Text.IsBare "x" := Text.isBare_literal (by decide)
  constructor
  · exact (hruns {} _ (fun _ => none) _ hoptions harguments (by intro _ _ h; contradiction)).2
  · refine hsessions {} _ Backtrace.isBare_nil ?_ ?_
    · simp only [List.forall_mem_cons, Order.IsBare, Action.IsBare]
      exact ⟨trivial, ⟨hpath, hsource⟩, hsource, ⟨htemplate, List.forall_mem_singleton.mpr hname⟩,
        List.forall_mem_nil _⟩
    · simp only [List.forall_mem_cons, Order.IsPlain]
      exact ⟨trivial, trivial, trivial, rfl, List.forall_mem_nil _⟩

/-- A template that fits its expression into a field counts the control sequences around it: with
colour, no blank is put in front of the expression. -/
theorem colour_shows_in_width :
    (Order.warn { template := "\x7b:>4\x7d", exprs := ["x"] } : Order Empty).IsBare ∧
    (({} : Session Empty).obeyAll true 0 [.warn { template := "\x7b:>4\x7d", exprs := ["x"] }]).map
        (·.map (Reply.mapTexts Styled.erased)) ≠
      ({} : Session Empty).obeyAll false 0
      [.warn { template := "\x7b:>4\x7d", exprs := ["x"] }] := by
  have htemplate : Text.IsBare "\x7b:>4\x7d" := Text.isBare_literal (by decide)
  have hname : Text.IsBare "x" := Text.isBare_literal (by decide)
  have hcoloured : ((({} : Session Empty).obeyAll true 0
        [.warn { template := "\x7b:>4\x7d", exprs := ["x"] }]).map
          (·.map (Reply.mapTexts Styled.erased))).map (·.map (·.printed.render false)) =
      some ["warning: x\n  x\n  ^\n"] := by decide +kernel
  have hplain : (({} : Session Empty).obeyAll false 0
        [.warn { template := "\x7b:>4\x7d", exprs := ["x"] }]).map
          (·.map (·.printed.render false)) =
      some ["warning:    x\n  x\n  ^\n"] := by decide +kernel
  refine ⟨⟨htemplate, List.forall_mem_singleton.mpr hname⟩, fun h => ?_⟩
  rw [h, hplain] at hcoloured
  exact absurd hcoloured (by decide)

end CommandLine

end LambdaCalculus
