import LambdaCalculus.Session.Basic

/-!
# Actions on a session

Everything that can be done to a session, as one type, and what each action does. A history of a
session is a list of actions.
-/

namespace LambdaCalculus

variable {α : Type}

inductive Action (α : Type) where
  | registerLine (path : String) (line : SourceLine)
  | removeLine (path : String)
  | clearSteps
  | registerStep (symbol : String) (t : Tree α)
  | setFatal (value : Bool)
  | setVerbose (value : Bool)
  | setLimit (value : Option Int)
  | warn (report : Report)
  | throw (report : Report)
  | locate (report : Report)
  | diagnose (report : Report) (asWarning : Bool)
  | reduce (t : Tree α)
  /-- Parses a source text, guarded. -/
  | guardedParse (source : String)
  | guardedReduce (t : Tree α)
  /-- A guarded run that fails. -/
  | guardedFailure (failure : Failure)

/-- An action whose reports have texts for messages by now, with control sequences or without. -/
def Action.inColour (colour : Bool) : Action α → Action α
  | .warn r => .warn (r.inColour colour)
  | .throw r => .throw (r.inColour colour)
  | .locate r => .locate (r.inColour colour)
  | .diagnose r asWarning => .diagnose (r.inColour colour) asWarning
  | .guardedFailure failure => .guardedFailure (failure.inColour colour)
  | action => action

namespace Session

/-- The reply of an action that leaves the session as given. -/
def reply [Foreign α] (s : Session α) (printed : Styled) (outcome : Outcome α) : Option (Reply α) :=
  some ⟨s, printed, outcome⟩

/-- Does an action. Only a reduction may have no answer, if the session has no limit and `fuel` is
not enough. -/
def perform [Foreign α] (fuel : Nat) (s : Session α) : Action α → Option (Reply α)
  | .registerLine path line => (s.registerLine path line).reply [] .nothing
  | .removeLine path => (s.removeLine path).reply [] .nothing
  | .clearSteps => s.clearSteps.reply [] .nothing
  | .registerStep symbol t => (s.registerStep symbol t).reply (s.stepOutput symbol t) .nothing
  | .setFatal value => { s with fatal := value }.reply [] .nothing
  | .setVerbose value => { s with verbose := value }.reply [] .nothing
  | .setLimit value => { s with limit := value }.reply [] .nothing
  | .warn report => s.reply (s.warning report) .nothing
  | .throw report => some (s.throw report .nothing)
  | .locate report => s.reply [] (.text (s.location report))
  | .diagnose report asWarning =>
      s.reply [] (.text (report.diagnosis (if asWarning then .magenta else .red)))
  | .reduce t =>
      (s.reduce fuel t).map fun reduction =>
        match reduction.result with
        | .ok u => ⟨reduction.session, reduction.printed, .tree u⟩
        | .error failure => ⟨reduction.session, reduction.printed, .failed failure⟩
  | .guardedParse source =>
      match s.parse source with
      | .ok t => s.reply [] (.tree t)
      | .error failure => some (s.handle failure)
  | .guardedReduce t =>
      (s.reduce fuel t).map fun reduction =>
        match reduction.result with
        | .ok u => ⟨reduction.session, reduction.printed, .tree u⟩
        | .error failure => (reduction.session.handle failure).after reduction.printed
  | .guardedFailure failure => some (s.handle failure)

end Session

end LambdaCalculus
