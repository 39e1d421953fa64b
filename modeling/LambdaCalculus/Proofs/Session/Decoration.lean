import LambdaCalculus.Proofs.Report.Decoration
import LambdaCalculus.Proofs.Session.History
import LambdaCalculus.Session.Order

/-!
# Sessions with and without colour

A session can be led with colour or without. With colour, every message is a text with control
sequences in it from the moment on when its report is made, and goes into whatever is printed later
as it stands. The lines in progress, columns and spans are taken from the expressions, which are
never coloured.

One request takes the same course either way (`request_inColour`), and what it prints and answers
has escape characters only where it is coloured, if no text that has gone into the session has any
(`isBare_request`, `isBare_backtrace_request`). So the answers to an order come from one reply
(`decorated_obey`), if its template is plain, and a whole session with colour is the one without,
but for the control sequences (`erased_obeyAll`).

A template that is not plain may look into the coloured texts, and comes to another message then.
-/

namespace LambdaCalculus

variable {α : Type}

/-! ### The texts in reports and answers -/

def Report.mapMessage (f : Styled → Styled) (r : Report) : Report :=
  { r with message := f r.message }

def Failure.mapTexts (f : Styled → Styled) : Failure → Failure
  | .reported r => .reported (r.mapMessage f)
  | failure => failure

def Outcome.mapTexts (f : Styled → Styled) : Outcome α → Outcome α
  | .text shown => .text (f shown)
  | .failed failure => .failed (failure.mapTexts f)
  | outcome => outcome

/-- A reply with other texts: what is printed and answered, and the messages of reports. -/
def Reply.mapTexts (f : Styled → Styled) (reply : Reply α) : Reply α :=
  { reply with printed := f reply.printed, outcome := reply.outcome.mapTexts f }

/-! ### Bare texts -/

def Failure.IsBare : Failure → Prop
  | .reported r => r.IsBare
  | .unforeseen failure => failure.IsBare
  | _ => True

def Outcome.IsBare : Outcome α → Prop
  | .text shown => shown.IsBare
  | .failed failure => failure.IsBare
  | _ => True

def Reply.IsBare (reply : Reply α) : Prop := reply.printed.IsBare ∧ reply.outcome.IsBare

/-- Whether the texts that come into a session with an action have no escape character in them.
Terms may have any names. -/
def Action.IsBare : Action α → Prop
  | .registerLine path line => Text.IsBare path ∧ Text.IsBare line.text
  | .removeLine path => Text.IsBare path
  | .registerStep symbol _ => Text.IsBare symbol
  | .warn r => r.IsBare
  | .throw r => r.IsBare
  | .locate r => r.IsBare
  | .diagnose r _ => r.IsBare
  | .guardedParse source => Text.IsBare source
  | .guardedFailure failure => failure.IsBare
  | _ => True

/-- Whether the texts that come into a session with an order have no escape character in them. -/
def Order.IsBare : Order α → Prop
  | .act action => action.IsBare
  | .warn draft => draft.IsBare
  | .throw draft => draft.IsBare
  | .locate draft => draft.IsBare
  | .diagnose draft _ => draft.IsBare
  | .guardedError draft => draft.IsBare

/-- Whether the report of an order is made from a plain template, if it is made from a template. -/
def Order.IsPlain : Order α → Prop
  | .act _ => True
  | .warn draft => draft.IsPlain
  | .throw draft => draft.IsPlain
  | .locate draft => draft.IsPlain
  | .diagnose draft _ => draft.IsPlain
  | .guardedError draft => draft.IsPlain

theorem Report.erased_inColour {r : Report} (h : r.IsBare) :
    (r.inColour true).mapMessage Styled.erased = r.inColour false := by
  simp only [mapMessage, inColour, Styled.erased_sent h.1]

/-- From a plain template a report is made in colour as without, but for the control sequences. -/
theorem Draft.erased_report {draft : Draft} (hplain : draft.IsPlain) (h : draft.IsBare) :
    (draft.report true).map (Report.mapMessage Styled.erased) = draft.report false := by
  rcases report_of_isPlain hplain h with ⟨fault, -, hstop⟩ | ⟨r, hr, hreport⟩
  · rw [hstop, hstop]
    rfl
  · rw [hreport, hreport]
    exact congrArg Except.ok (Report.erased_inColour hr)

theorem Failure.erased_sent {failure : Failure} (h : failure.IsBare) :
    (failure.mapTexts (Styled.sent true)).mapTexts Styled.erased =
      failure.mapTexts (Styled.sent false) := by
  cases failure with
  | reported r => simp only [mapTexts, Report.mapMessage, Styled.erased_sent h.1]
  | _ => rfl

theorem Outcome.erased_sent {outcome : Outcome α} (h : outcome.IsBare) :
    (outcome.mapTexts (Styled.sent true)).mapTexts Styled.erased =
      outcome.mapTexts (Styled.sent false) := by
  cases outcome with
  | text shown => simp only [mapTexts, Styled.erased_sent h]
  | failed failure => simp only [mapTexts, Failure.erased_sent h]
  | _ => rfl

/-- Of a reply in colour the one without is left, if the control sequences in its texts are
deleted. -/
theorem Reply.erased_sent {reply : Reply α} (h : reply.IsBare) :
    (reply.mapTexts (Styled.sent true)).mapTexts Styled.erased =
      reply.mapTexts (Styled.sent false) := by
  simp only [mapTexts, Styled.erased_sent h.1, Outcome.erased_sent h.2]

/-! ### Lines in progress -/

namespace Backtrace

def IsBare (trace : Backtrace) : Prop :=
  ∀ place ∈ trace, Text.IsBare place.path ∧ ∀ line ∈ place.line, Text.IsBare line.text

theorem isBare_nil : IsBare [] := by simp [IsBare]

theorem isBare_set {trace : Backtrace} (h : trace.IsBare) {path : String} (hpath : Text.IsBare path)
    {line : Option SourceLine} (hline : ∀ l ∈ line, Text.IsBare l.text) :
    (trace.set path line).IsBare := by
  induction trace with
  | nil => exact List.forall_mem_singleton.mpr ⟨hpath, hline⟩
  | cons place rest ih =>
      obtain ⟨hplace, hrest⟩ := List.forall_mem_cons.mp h
      rw [set]
      split
      · exact List.forall_mem_cons.mpr ⟨⟨hpath, hline⟩, hrest⟩
      · exact List.forall_mem_cons.mpr ⟨hplace, ih hrest⟩

theorem isBare_of_mem_live {trace : Backtrace} (h : trace.IsBare) {path : String}
    {line : SourceLine}
    (hlive : (path, line) ∈ trace.live) : Text.IsBare path ∧ Text.IsBare line.text := by
  obtain ⟨place, hplace, hshown⟩ := List.mem_filterMap.mp hlive
  obtain ⟨hpath, hline⟩ := h place hplace
  cases hl : place.line with
  | none => simp [hl] at hshown
  | some l =>
      simp only [hl, Option.ite_none_left_eq_some, Option.some.injEq, Prod.mk.injEq] at hshown
      obtain ⟨-, rfl, rfl⟩ := hshown
      exact ⟨hpath, hline l hl⟩

end Backtrace

/-- A report leaves the lines in progress, or clears them. -/
theorem Effect.isBare_ofReport {trace : Backtrace} (h : trace.IsBare) (report : Option Report)
    (fatal : Bool) :
    ((Effect.ofReport report fatal).apply trace).IsBare := by
  cases report with
  | none => exact h
  | some r =>
      cases fatal with
      | false => exact Backtrace.isBare_nil
      | true => exact h

namespace Session

theorem isBare_registerLine {s : Session α} (hs : s.backtrace.IsBare) {path : String}
    (hpath : Text.IsBare path)
    {line : SourceLine} (hline : Text.IsBare line.text) :
    (s.registerLine path line).backtrace.IsBare := by
  apply Backtrace.isBare_set hs hpath
  intro l hl
  obtain rfl := Option.some.inj hl
  exact hline

/-! ### What is printed -/

section Printed

variable {s : Session α} {r : Report}

theorem isBare_location (hs : s.backtrace.IsBare) (r : Report) : (s.location r).IsBare := by
  unfold location
  split
  · exact Styled.isBare_nil
  · rename_i path line rest hlive
    obtain ⟨hpath, -⟩ := Backtrace.isBare_of_mem_live hs (hlive ▸ List.mem_cons_self)
    have hcolon : Text.IsBare ":" := Text.isBare_literal (by decide)
    have hend : Text.IsBare ": " := Text.isBare_literal (by decide)
    simp [hpath, hcolon, hend]

theorem isBare_pointer (hr : r.IsBare) (colour : Colour) : (pointer r colour).IsBare := by
  unfold pointer
  split
  · exact Styled.isBare_line.mpr (Report.isBare_diagnosis hr.2 colour)
  · exact Styled.isBare_nil

theorem isBare_warningLine (hs : s.backtrace.IsBare) (hr : r.IsBare) :
    (s.warningLine r).IsBare := by
  have hkind : Text.IsBare "warning: " := Text.isBare_literal (by decide)
  simp [warningLine, isBare_location hs r, hkind, hr.1]

theorem isBare_warning (hs : s.backtrace.IsBare) (hr : r.IsBare) : (s.warning r).IsBare :=
  Styled.isBare_append.mpr ⟨isBare_warningLine hs hr, isBare_pointer hr .magenta⟩

theorem isBare_lineBlock {path : String} {line : SourceLine} (hpath : Text.IsBare path)
    (hline : Text.IsBare line.text) :
    Text.IsBare (lineBlock path line) := by
  have hfile : Text.IsBare "  File '" := Text.isBare_literal (by decide)
  have hnumber : Text.IsBare "', line " := Text.isBare_literal (by decide)
  have hindent : Text.IsBare ":\n    " := Text.isBare_literal (by decide)
  have hend : Text.IsBare "\n" := Text.isBare_literal (by decide)
  simp [lineBlock, hpath, hline, hfile, hnumber, hindent, hend]

theorem isBare_lineBlocks (hs : s.backtrace.IsBare) : Text.IsBare s.lineBlocks := by
  have hheading : Text.IsBare (if 1 < s.backtrace.live.length then "Traceback:\n" else "") :=
    Text.isBare_ite (Text.isBare_literal (by decide)) (Text.isBare_literal (by decide))
  refine Text.isBare_append.mpr ⟨hheading, Text.isBare_join ?_⟩
  intro block hblock
  obtain ⟨⟨path, line⟩, hlive, rfl⟩ := List.mem_map.mp hblock
  obtain ⟨hpath, hline⟩ := Backtrace.isBare_of_mem_live hs hlive
  exact isBare_lineBlock hpath hline

theorem isBare_errorLines (hs : s.backtrace.IsBare) (hr : r.IsBare) : (s.errorLines r).IsBare := by
  have hkind : Text.IsBare "error: " := Text.isBare_literal (by decide)
  have hinternal : (if r.internal then Styled.coloured .red "[internal] " else []).IsBare := by
    split
    · exact Styled.isBare_coloured.mpr (Text.isBare_literal (by decide))
    · exact Styled.isBare_nil
  simp [errorLines, isBare_lineBlocks hs, hinternal, hkind, hr.1]

theorem isBare_errorOutput (hs : s.backtrace.IsBare) (hr : r.IsBare) : (s.errorOutput r).IsBare :=
  Styled.isBare_append.mpr ⟨isBare_errorLines hs hr, isBare_pointer hr .red⟩

theorem isBare_throw (hs : s.backtrace.IsBare) (hr : r.IsBare) {otherwise : Outcome α}
    (hotherwise : otherwise.IsBare) :
    (s.throw r otherwise).IsBare := by
  unfold throw
  split
  · exact ⟨isBare_errorOutput hs hr, trivial⟩
  · exact ⟨isBare_errorOutput hs hr, hotherwise⟩

theorem isBare_handle (hs : s.backtrace.IsBare) {failure : Failure} (hfailure : failure.IsBare) :
    (s.handle failure).IsBare := by
  cases failure with
  | interrupt => exact isBare_throw hs Report.isBare_interrupted trivial
  | exit code => exact ⟨Styled.isBare_nil, trivial⟩
  | nesting => exact isBare_throw hs Report.isBare_nestedTooDeep trivial
  | reported r => exact isBare_throw hs hfailure trivial
  | unforeseen failure => exact isBare_throw hs (Unforeseen.isBare_report hfailure) hfailure

theorem isBare_of_locationFault {failure : Unforeseen} (h : s.locationFault? r = some failure) :
    failure.IsBare := by
  unfold locationFault? at h
  split at h
  · contradiction
  · obtain ⟨fault, -, rfl⟩ := Option.map_eq_some_iff.mp h
    trivial

theorem isBare_of_pointerFault {failure : Unforeseen} (h : pointerFault? r = some failure) :
    failure.IsBare := by
  unfold pointerFault? at h
  split at h
  · obtain ⟨fault, -, rfl⟩ := Option.map_eq_some_iff.mp h
    trivial
  · contradiction

theorem isBare_backtrace_handle (hs : s.backtrace.IsBare) (failure : Failure) :
    (s.handle failure).session.backtrace.IsBare := by
  rw [session_handle]
  exact Effect.isBare_ofReport hs _ _

/-- What an action has printed when it comes to a stop has no escape characters but in its
colours. -/
theorem isBare_stop (hs : s.backtrace.IsBare) {action : Action α} (haction : action.IsBare)
    {printed : Styled}
    {failure : Unforeseen} (h : s.stop? action = some (printed, failure)) :
    printed.IsBare ∧ failure.IsBare := by
  have hpointer {r : Report} {front : Styled} (hfront : front.IsBare)
      (h : (pointerFault? r).map (front, ·) = some (printed, failure)) : printed.IsBare ∧
        failure.IsBare := by
    obtain ⟨fault, hfault, hstop⟩ := Option.map_eq_some_iff.mp h
    obtain ⟨rfl, rfl⟩ := Prod.mk.inj hstop
    exact ⟨hfront, isBare_of_pointerFault hfault⟩
  have hlocation {r : Report} (h : (s.locationFault? r).map ([], ·) = some (printed, failure)) :
      printed.IsBare ∧ failure.IsBare := by
    obtain ⟨fault, hfault, hstop⟩ := Option.map_eq_some_iff.mp h
    obtain ⟨rfl, rfl⟩ := Prod.mk.inj hstop
    exact ⟨Styled.isBare_nil, isBare_of_locationFault hfault⟩
  cases action with
  | warn r =>
      rcases Option.or_eq_some_iff.mp h with hstop | ⟨-, hstop⟩
      · exact hlocation hstop
      · exact hpointer (isBare_warningLine hs haction) hstop
  | throw r => exact hpointer (isBare_errorLines hs haction) h
  | locate r => exact hlocation h
  | diagnose r asWarning =>
      obtain ⟨fault, -, hstop⟩ := Option.map_eq_some_iff.mp h
      obtain ⟨rfl, rfl⟩ := Prod.mk.inj hstop
      exact ⟨Styled.isBare_nil, trivial⟩
  | guardedFailure failure =>
      cases failure with
      | reported r => exact hpointer (isBare_errorLines hs haction) h
      | _ => contradiction
  | _ => contradiction

end Printed

section Actions

variable [Foreign α] (hforeign : Foreign.IsBare α) {s : Session α} {fuel : Nat} {action : Action α}

include hforeign

theorem isBare_stepOutput (s : Session α) {symbol : String} (hsymbol : Text.IsBare symbol)
    (t : Tree α) :
    (s.stepOutput symbol t).IsBare := by
  have hblank : Text.IsBare " " := Text.isBare_literal (by decide)
  unfold stepOutput
  split
  · simp [stepLine, hsymbol, hblank, t.isBare_oneLine hforeign]
  · exact Styled.isBare_nil

theorem isBare_nestingFailure (s : Session α) (t : Tree α) (begun : Nat) :
    (s.nestingFailure t begun).IsBare := by
  rw [nestingFailure]
  split
  · exact Report.isBare_depthLimit hforeign t begun
  · trivial

theorem isBare_reduce {t : Tree α} {reduction : Reduction α}
    (h : s.reduce fuel t = some reduction) :
    reduction.printed.IsBare ∧ ∀ failure, reduction.result = .error failure → failure.IsBare := by
  constructor
  · obtain ⟨run, -, rfl⟩ := Option.map_eq_some_iff.mp h
    intro span hspan
    obtain ⟨contractum, -, hstep⟩ := List.mem_flatMap.mp hspan
    exact isBare_stepOutput hforeign s (Text.isBare_literal (by decide)) contractum span hstep
  · intro failure hfailure
    rcases result_cases h with ⟨u, hok⟩ | ⟨m, -, hlimit⟩ | ⟨-, hlacks⟩ | ⟨obstacle, -, hobstacle⟩
    · rw [hok] at hfailure
      contradiction
    · rw [hlimit] at hfailure
      obtain rfl := Except.error.inj hfailure
      exact Report.isBare_stepLimit hforeign t m
    · rw [hlacks] at hfailure
      obtain rfl := Except.error.inj hfailure
      exact isBare_nestingFailure hforeign s t _
    · rw [hobstacle] at hfailure
      obtain rfl := Except.error.inj hfailure
      cases obstacle with
      | foreign v demand => exact (hforeign v).2
      | number fault => trivial

omit hforeign [Foreign α] in
theorem isBare_parse {source : String} (hsource : Text.IsBare source) {failure : Failure}
    (h : s.parse source = .error failure) : failure.IsBare := by
  rcases s.parse_cases source with ⟨t, -, hok⟩ | ⟨fault, hparse, hmalformed⟩ | hnesting
  · rw [hok] at h
    contradiction
  · rw [hmalformed] at h
    obtain rfl := Except.error.inj h
    exact Report.isBare_malformed hsource hparse
  · rw [hnesting] at h
    obtain rfl := Except.error.inj h
    trivial

/-- What an action prints and answers has no escape characters but in its colours. -/
theorem isBare_perform (hs : s.backtrace.IsBare) (haction : action.IsBare) {reply : Reply α}
    (h : s.perform fuel action = some reply) : reply.IsBare := by
  cases action with
  | registerStep symbol t =>
      obtain rfl := Option.some.inj h
      exact ⟨isBare_stepOutput hforeign s haction t, trivial⟩
  | warn r =>
      obtain rfl := Option.some.inj h
      exact ⟨isBare_warning hs haction, trivial⟩
  | throw r =>
      obtain rfl := Option.some.inj h
      exact isBare_throw hs haction trivial
  | locate r =>
      obtain rfl := Option.some.inj h
      exact ⟨Styled.isBare_nil, isBare_location hs r⟩
  | diagnose r asWarning =>
      obtain rfl := Option.some.inj h
      exact ⟨Styled.isBare_nil, Report.isBare_diagnosis haction.2 _⟩
  | reduce t =>
      obtain ⟨reduction, hreduce, rfl⟩ := Option.map_eq_some_iff.mp h
      obtain ⟨hprinted, hfailure⟩ := isBare_reduce hforeign hreduce
      cases hresult : reduction.result with
      | ok u => exact ⟨hprinted, trivial⟩
      | error failure => exact ⟨hprinted, hfailure failure hresult⟩
  | guardedParse source =>
      rw [perform] at h
      cases hparse : s.parse source with
      | ok t =>
          rw [hparse] at h
          obtain rfl := Option.some.inj h
          exact ⟨Styled.isBare_nil, trivial⟩
      | error failure =>
          rw [hparse] at h
          obtain rfl := Option.some.inj h
          exact isBare_handle hs (isBare_parse haction hparse)
  | guardedReduce t =>
      obtain ⟨reduction, hreduce, rfl⟩ := Option.map_eq_some_iff.mp h
      obtain ⟨hprinted, hfailure⟩ := isBare_reduce hforeign hreduce
      have hlines : reduction.session.backtrace = s.backtrace := by rw [session_reduce hreduce]
      cases hresult : reduction.result with
      | ok u => exact ⟨hprinted, trivial⟩
      | error failure =>
          obtain ⟨hreport, houtcome⟩ := isBare_handle (hlines ▸ hs) (hfailure failure hresult)
          exact ⟨Styled.isBare_append.mpr ⟨hprinted, hreport⟩, houtcome⟩
  | guardedFailure failure =>
      obtain rfl := Option.some.inj h
      exact isBare_handle hs haction
  | _ =>
      obtain rfl := Option.some.inj h
      exact ⟨Styled.isBare_nil, trivial⟩

theorem isBare_request (hs : s.backtrace.IsBare) (haction : action.IsBare) {reply : Reply α}
    (h : s.request fuel action = some reply) : reply.IsBare := by
  rw [request] at h
  cases hstop : s.stop? action with
  | none =>
      rw [hstop] at h
      exact isBare_perform hforeign hs haction h
  | some stop =>
      obtain ⟨printed, failure⟩ := stop
      rw [hstop] at h
      obtain rfl := Option.some.inj h
      exact isBare_stop hs haction hstop

omit hforeign in
/-- The lines in progress come from the actions. -/
theorem isBare_backtrace_request (hs : s.backtrace.IsBare) (haction : action.IsBare)
    {reply : Reply α}
    (h : s.request fuel action = some reply) : reply.session.backtrace.IsBare := by
  obtain ⟨steps, begun, hsession⟩ := session_request h
  rw [hsession]
  unfold Event.effect
  split
  · exact hs
  · cases action with
    | registerLine path line => exact isBare_registerLine hs haction.1 haction.2
    | removeLine path => exact Backtrace.isBare_set hs haction (by simp)
    | throw r => exact Effect.isBare_ofReport hs _ _
    | guardedParse source => exact Effect.isBare_ofReport hs _ _
    | guardedReduce t => exact Effect.isBare_ofReport hs _ _
    | guardedFailure failure => exact Effect.isBare_ofReport hs _ _
    | _ => exact hs

end Actions

/-! ### Colour in and out -/

section Colour

variable {colour : Bool}

/-- A message that was made in colour is printed as if its spans were. -/
theorem sent_warningLine (s : Session α) (r : Report) :
    (s.warningLine (r.inColour colour)).sent colour = (s.warningLine r).sent colour := by
  simp only [warningLine, Report.inColour, Styled.sent, Styled.render_line, Styled.render_append,
    Styled.render_plain]
  rfl

theorem sent_errorLines (s : Session α) (r : Report) :
    (s.errorLines (r.inColour colour)).sent colour = (s.errorLines r).sent colour := by
  simp only [errorLines, Report.inColour, Styled.sent, Styled.render_line, Styled.render_append,
    Styled.render_plain]
  rfl

theorem sent_append {s t u v : Styled} (h : s.sent colour = t.sent colour)
    (h' : u.sent colour = v.sent colour) : (s ++ u).sent colour = (t ++ v).sent colour := by
  rw [Styled.sent_eq_iff] at h h' ⊢
  rw [Styled.render_append, Styled.render_append, h, h']

theorem sent_warning (s : Session α) (r : Report) :
    (s.warning (r.inColour colour)).sent colour = (s.warning r).sent colour :=
  sent_append (sent_warningLine s r) rfl

theorem mapTexts_throw (s : Session α) (r : Report) (otherwise : Outcome α) :
    (s.throw (r.inColour colour) otherwise).mapTexts (Styled.sent colour) =
      (s.throw r otherwise).mapTexts (Styled.sent colour) := by
  have hprinted : (s.errorOutput (r.inColour colour)).sent colour = (s.errorOutput r).sent colour :=
    sent_append (sent_errorLines s r) rfl
  unfold throw
  split
  · simp only [Reply.mapTexts, hprinted]
  · simp only [Reply.mapTexts, hprinted]

theorem mapTexts_handle (s : Session α) (failure : Failure) :
    (s.handle (failure.inColour colour)).mapTexts (Styled.sent colour) =
      (s.handle failure).mapTexts (Styled.sent colour) := by
  cases failure with
  | reported r => exact mapTexts_throw s r .suppressed
  | _ => rfl

theorem stop?_inColour (s : Session α) (action : Action α) :
    (s.stop? (action.inColour colour)).map (Prod.map (Styled.sent colour) id) =
      (s.stop? action).map (Prod.map (Styled.sent colour) id) := by
  cases action with
  | warn r =>
      simp only [Action.inColour, stop?, Option.map_or, Option.map_map, Function.comp_def, Prod.map,
        sent_warningLine]
      rfl
  | throw r =>
      simp only [Action.inColour, stop?, Option.map_map, Function.comp_def, Prod.map,
        sent_errorLines]
      rfl
  | guardedFailure failure =>
      cases failure with
      | reported r =>
          simp only [Action.inColour, Failure.inColour, stop?, Option.map_map, Function.comp_def,
            Prod.map, sent_errorLines]
          rfl
      | _ => rfl
  | _ => rfl

variable [Foreign α]

theorem perform_inColour (fuel : Nat) (s : Session α) (action : Action α) :
    (s.perform fuel (action.inColour colour)).map (Reply.mapTexts (Styled.sent colour)) =
      (s.perform fuel action).map (Reply.mapTexts (Styled.sent colour)) := by
  cases action with
  | warn r =>
      simp only [Action.inColour, perform, reply, Option.map_some, Reply.mapTexts, sent_warning]
  | throw r => exact congrArg some (mapTexts_throw s r .nothing)
  | guardedFailure failure => exact congrArg some (mapTexts_handle s failure)
  | _ => rfl

/-- A request whose messages are in colour already takes the same course, and is answered alike in
that colour. -/
theorem request_inColour (fuel : Nat) (s : Session α) (action : Action α) :
    (s.request fuel (action.inColour colour)).map (Reply.mapTexts (Styled.sent colour)) =
      (s.request fuel action).map (Reply.mapTexts (Styled.sent colour)) := by
  have hstops : (s.stop? (action.inColour colour)).map (Prod.map (Styled.sent colour) id) =
      (s.stop? action).map (Prod.map (Styled.sent colour) id) := s.stop?_inColour action
  unfold request
  cases hstop : s.stop? action with
  | none =>
      rw [hstop, Option.map_none, Option.map_eq_none_iff] at hstops
      rw [hstops]
      exact perform_inColour fuel s action
  | some stop =>
      obtain ⟨printed, failure⟩ := stop
      rw [hstop, Option.map_some, Option.map_eq_some_iff] at hstops
      obtain ⟨⟨printed', failure'⟩, hstop', hsame⟩ := hstops
      obtain ⟨hprinted, hfailure⟩ := Prod.mk.inj hsame
      rw [hstop']
      simp only [id] at hfailure
      simp only [reply, Option.map_some, Reply.mapTexts, hprinted, hfailure]

end Colour

end Session

/-! ### Answers in colour and without -/

section Answers

variable {answer : Bool → Option (Reply α)} {reply reply' : Reply α} {colour : Bool}

/-- Whether an answer is the same with and without colour but for the colour: there is none either
way, or it is made from one reply without escape characters. -/
def Decorated (answer : Bool → Option (Reply α)) : Prop :=
  (∀ colour, answer colour = none) ∨
    ∃ reply : Reply α, (reply.IsBare ∧ reply.session.backtrace.IsBare) ∧
      ∀ colour, ∃ sent, answer colour = some sent ∧
        sent.mapTexts (Styled.sent colour) = reply.mapTexts (Styled.sent colour)

theorem Decorated.of_map {plain : Option (Reply α)}
    (hbare : ∀ reply, plain = some reply → reply.IsBare ∧ reply.session.backtrace.IsBare)
    (h : ∀ colour, (answer colour).map (Reply.mapTexts (Styled.sent colour)) =
      plain.map (Reply.mapTexts (Styled.sent colour))) :
    Decorated answer := by
  cases plain with
  | none => exact .inl fun colour => Option.map_eq_none_iff.mp (h colour)
  | some reply =>
      exact .inr ⟨reply, hbare reply rfl, fun colour => Option.map_eq_some_iff.mp (h colour)⟩

/-- A reply that colour has no part in. -/
theorem Decorated.of_reply (hbare : reply.IsBare) (hlines : reply.session.backtrace.IsBare) :
    Decorated fun _ => some reply :=
  .inr ⟨reply, ⟨hbare, hlines⟩, fun _ => ⟨reply, rfl, rfl⟩⟩

/-- Of an answer in colour the one without is left, if the control sequences in its texts are
deleted. -/
theorem Decorated.erased (h : Decorated answer) :
    ((answer true).map (Reply.mapTexts (Styled.sent true))).map (Reply.mapTexts Styled.erased) =
      (answer false).map (Reply.mapTexts (Styled.sent false)) := by
  rcases h with hnone | ⟨reply, ⟨hbare, -⟩, hsent⟩
  · rw [hnone, hnone]
    rfl
  · obtain ⟨coloured, hcoloured, hsame⟩ := hsent true
    obtain ⟨bare, hplain, hsame'⟩ := hsent false
    rw [hcoloured, hplain, Option.map_some, Option.map_some, Option.map_some, hsame, hsame',
      Reply.erased_sent hbare]

theorem Reply.sent_after {printed printed' : Styled}
    (h : reply.mapTexts (Styled.sent colour) = reply'.mapTexts (Styled.sent colour))
    (hprinted : printed.sent colour = printed'.sent colour) :
    (reply.after printed).mapTexts (Styled.sent colour) =
      (reply'.after printed').mapTexts (Styled.sent colour) := by
  obtain ⟨hsession, hbehind, houtcome⟩ := Reply.mk.inj h
  simp only [Reply.after, Reply.mapTexts, hsession, houtcome,
    Session.sent_append hprinted hbehind]

@[simp] theorem Outcome.mapTexts_eq_nothing {f : Styled → Styled} {outcome : Outcome α} :
    outcome.mapTexts f = .nothing ↔ outcome = .nothing := by
  cases outcome <;> simp [Outcome.mapTexts]

/-- What becomes of a reply if work goes on behind it as long as nothing has come of it. -/
def Reply.andThen (reply : Reply α) (next : Session α → Option (Reply α)) : Option (Reply α) :=
  match reply.outcome with
  | .nothing => (next reply.session).map (·.after reply.printed)
  | _ => some reply

theorem Reply.andThen_of_nothing (h : reply.outcome = .nothing)
    (next : Session α → Option (Reply α)) :
    reply.andThen next = (next reply.session).map (·.after reply.printed) := by
  rw [andThen, h]

theorem Reply.andThen_of_ne_nothing (h : reply.outcome ≠ .nothing)
    (next : Session α → Option (Reply α)) : reply.andThen next = some reply := by
  unfold andThen
  split
  · contradiction
  · rfl

theorem Decorated.andThen {whole : Bool → Option (Reply α)}
    {next : Bool → Session α → Option (Reply α)} (hanswer : Decorated answer)
    (hnext : ∀ s : Session α, s.backtrace.IsBare → Decorated (next · s))
    (h : ∀ colour, whole colour = (answer colour).bind (·.andThen (next colour))) :
    Decorated whole := by
  rcases hanswer with hnone | ⟨reply, ⟨hbare, hlines⟩, hsent⟩
  · exact .inl fun colour => by rw [h, hnone, Option.bind_none]
  by_cases hnothing : reply.outcome = .nothing
  · -- the next work begins in the same session, whatever the colour
    have hgoesOn (colour : Bool) :
        ∃ printed : Styled, printed.sent colour = reply.printed.sent colour ∧
          whole colour = (next colour reply.session).map (·.after printed) := by
      obtain ⟨first, hfirst, hsame⟩ := hsent colour
      obtain ⟨hsession, hprinted, houtcome⟩ := Reply.mk.inj hsame
      rw [hnothing] at houtcome
      have hfirstNothing : first.outcome = .nothing := Outcome.mapTexts_eq_nothing.mp houtcome
      refine ⟨first.printed, hprinted, ?_⟩
      rw [h, hfirst, Option.bind_some, Reply.andThen_of_nothing hfirstNothing, hsession]
    rcases hnext reply.session hlines with hnone | ⟨later, ⟨hlater, hafter⟩, hsentLater⟩
    · refine .inl fun colour => ?_
      obtain ⟨printed, -, hwhole⟩ := hgoesOn colour
      exact hwhole.trans (congrArg _ (hnone colour))
    · have hboth : (later.after reply.printed).IsBare :=
        ⟨Styled.isBare_append.mpr ⟨hbare.1, hlater.1⟩, hlater.2⟩
      refine .inr ⟨later.after reply.printed, ⟨hboth, hafter⟩, fun colour => ?_⟩
      obtain ⟨printed, hprinted, hwhole⟩ := hgoesOn colour
      obtain ⟨last, hlast, hsame⟩ := hsentLater colour
      exact ⟨last.after printed, hwhole.trans (congrArg _ hlast), Reply.sent_after hsame hprinted⟩
  · refine .inr ⟨reply, ⟨hbare, hlines⟩, fun colour => ?_⟩
    obtain ⟨first, hfirst, hsame⟩ := hsent colour
    have hends : first.outcome ≠ .nothing := by
      intro hfirstNothing
      have houtcome := (Reply.mk.inj hsame).2.2
      rw [hfirstNothing] at houtcome
      exact hnothing (Outcome.mapTexts_eq_nothing.mp houtcome.symm)
    refine ⟨first, ?_, hsame⟩
    rw [h, hfirst, Option.bind_some, Reply.andThen_of_ne_nothing hends]

end Answers

/-! ### Orders -/

/-- An order with a plain template comes to one action, whose messages are in colour or not; or it
fails in the same way with and without colour. -/
def Order.ComesToAction (order : Order α) : Prop :=
  (∃ fault : Template.Fault, Text.IsBare fault.message ∧
      ∀ colour, order.action colour = .error (.fault fault)) ∨
    ∃ action : Action α, action.IsBare ∧
      ∀ colour, order.action colour = .ok (action.inColour colour)

theorem Order.comesToAction_of_draft {order : Order α} {draft : Draft} {make : Report → Action α}
    (hplain : draft.IsPlain) (hdraft : draft.IsBare)
    (h : ∀ colour, order.action colour = (draft.report colour).map make)
    (hbare : ∀ r : Report, r.IsBare → (make r).IsBare)
    (hcolour : ∀ (colour : Bool) (r : Report), make (r.inColour colour) =
      (make r).inColour colour) :
    order.ComesToAction := by
  rcases Draft.report_of_isPlain hplain hdraft with ⟨fault, hfault, hstop⟩ | ⟨r, hr, hreport⟩
  · refine .inl ⟨fault, hfault, fun colour => ?_⟩
    rw [h, hstop]
    rfl
  · refine .inr ⟨make r, hbare r hr, fun colour => ?_⟩
    rw [h, hreport, ← hcolour]
    rfl

theorem Order.comesToAction_of_isPlain {order : Order α} (hplain : order.IsPlain)
    (h : order.IsBare) : order.ComesToAction := by
  cases order with
  | act action => exact .inr ⟨action, h, fun _ => rfl⟩
  | guardedError draft =>
      rcases Draft.report_of_isPlain hplain h with ⟨fault, hfault, hstop⟩ | ⟨r, hr, hreport⟩
      · -- a template that cannot be filled is a failure to be handled, too
        have hfailure : (Failure.unforeseen (.unfillable fault)).IsBare := hfault
        refine .inr ⟨.guardedFailure (.unforeseen (.unfillable fault)), hfailure, fun colour => ?_⟩
        simp only [Order.action, Draft.failure, hstop]
        rfl
      · refine .inr ⟨.guardedFailure (.reported r), hr, fun colour => ?_⟩
        simp only [Order.action, Draft.failure, hreport]
        rfl
  | _ => exact Order.comesToAction_of_draft hplain h (fun _ => rfl) (fun _ hr => hr) fun _ _ => rfl

/-! ### Whole sessions -/

namespace Session

variable [Foreign α] (hforeign : Foreign.IsBare α) {fuel : Nat} {s : Session α} {order : Order α}

/-- The replies to orders that are carried out one after the other, with or without colour, as they
are sent out. -/
def obeyAll (colour : Bool) (fuel : Nat) (s : Session α) :
    List (Order α) → Option (List (Reply α))
  | [] => some []
  | order :: rest =>
      match s.obey colour fuel order with
      | none => none
      | some reply =>
          (reply.session.obeyAll colour fuel rest).map (reply.mapTexts (Styled.sent colour) :: ·)

include hforeign

theorem decorated_obey (fuel : Nat) (hs : s.backtrace.IsBare) (horder : order.IsBare)
    (hplain : order.IsPlain) : Decorated fun colour => s.obey colour fuel order := by
  rcases Order.comesToAction_of_isPlain hplain horder with
    ⟨fault, hfault, hstop⟩ | ⟨action, haction, hmakes⟩
  · have hfailed : (Outcome.failed (.unforeseen (.unfillable fault)) : Outcome α).IsBare := hfault
    have hobey (colour : Bool) : s.obey colour fuel order =
        some ⟨s, [], .failed (.unforeseen (.unfillable fault))⟩ := by
      simp only [obey, hstop]
      rfl
    simp only [hobey]
    exact .of_reply ⟨Styled.isBare_nil, hfailed⟩ hs
  · have hobey (colour : Bool) :
        s.obey colour fuel order = s.request fuel (action.inColour colour) := by
      simp only [obey, hmakes]
    simp only [hobey]
    refine .of_map (fun reply hreply => ?_) fun _ => request_inColour fuel s action
    exact ⟨isBare_request hforeign hs haction hreply, isBare_backtrace_request hs haction hreply⟩

/-- With and without colour the same orders are carried out in the same way: after each of them the
session is the same, and so is the reply, once the control sequences are deleted from its texts. -/
theorem erased_obeyAll (fuel : Nat) (hs : s.backtrace.IsBare) {orders : List (Order α)}
    (horders : ∀ order ∈ orders, order.IsBare) (hplain : ∀ order ∈ orders, order.IsPlain) :
    (s.obeyAll true fuel orders).map (·.map (Reply.mapTexts Styled.erased)) =
      s.obeyAll false fuel orders := by
  induction orders generalizing s with
  | nil => rfl
  | cons order rest ih =>
      obtain ⟨horder, hrest⟩ := List.forall_mem_cons.mp horders
      obtain ⟨hfirst, hlater⟩ := List.forall_mem_cons.mp hplain
      have hdecorated := decorated_obey hforeign fuel hs horder hfirst
      rw [obeyAll, obeyAll]
      rcases hdecorated with hnone | ⟨reply, ⟨hbare, hlines⟩, hsent⟩
      · have hobey (colour : Bool) : s.obey colour fuel order = none := hnone colour
        rw [hobey, hobey]
        rfl
      · obtain ⟨coloured, (hcoloured : s.obey true fuel order = some coloured), hsame⟩ := hsent true
        obtain ⟨plain, (hplain : s.obey false fuel order = some plain), hsame'⟩ := hsent false
        have hsession : coloured.session = reply.session := (Reply.mk.inj hsame).1
        have hsession' : plain.session = reply.session := (Reply.mk.inj hsame').1
        rw [hcoloured, hplain]
        simp only [hsession, hsession', hsame, hsame', ← ih hlines hrest hlater, Option.map_map,
          Function.comp_def, List.map_cons, Reply.erased_sent hbare]

end Session

end LambdaCalculus
