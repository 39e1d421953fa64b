import LambdaCalculus.Session.Request

/-!
# Orders to a session

Whoever leads a session does not give it finished reports, but drafts of them. An order is an action
that may have drafts for reports. The report is made when the order is carried out, in colour if the
session is led in colour; if its template cannot be filled, that is how the order fails, and the
session is left as it is.
-/

namespace LambdaCalculus

variable {α : Type}

inductive Order (α : Type) where
  | act (action : Action α)
  | warn (draft : Draft)
  | throw (draft : Draft)
  | locate (draft : Draft)
  | diagnose (draft : Draft) (asWarning : Bool)
  /-- A guarded run that makes a report and fails with it. -/
  | guardedError (draft : Draft)

/-- The report of a draft, handed on as a failure; or how the making of it fails. -/
def Draft.failure (colour : Bool) (draft : Draft) : Except Template.Stop Failure :=
  match draft.report colour with
  | .ok r => .ok (.reported r)
  | .error (.fault fault) => .ok (.unforeseen (.unfillable fault))
  | .error .attribute => .error .attribute

/-- The action that an order comes to. Messages are texts by then, with control sequences or
without. -/
def Order.action (colour : Bool) : Order α → Except Template.Stop (Action α)
  | act action => .ok (action.inColour colour)
  | warn draft => (draft.report colour).map .warn
  | throw draft => (draft.report colour).map .throw
  | locate draft => (draft.report colour).map .locate
  | diagnose draft asWarning => (draft.report colour).map (.diagnose · asWarning)
  | guardedError draft => (draft.failure colour).map .guardedFailure

namespace Session

/-- Carries out an order. There is no answer if a template asks for an attribute of a text, or if
the session has no limit and `fuel` is not enough. -/
def obey [Foreign α] (colour : Bool) (fuel : Nat) (s : Session α) (order : Order α) :
    Option (Reply α) :=
  match order.action colour with
  | .ok action => s.request fuel action
  | .error (.fault fault) => s.reply [] (.failed (.unforeseen (.unfillable fault)))
  | .error .attribute => none

end Session

end LambdaCalculus
