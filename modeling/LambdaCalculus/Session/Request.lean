import LambdaCalculus.Session.Action

/-!
# Actions on request

An action that shows a report comes to a stop where it would have to write a column with too many
digits, or to underline a span that is too long or begins too far to the right. What stands in front
of that is printed by then, and the session is left as it is. All other actions are done.
-/

namespace LambdaCalculus

variable {α : Type}

namespace Session

def locationFault? (s : Session α) (r : Report) : Option Unforeseen :=
  match s.backtrace.live with
  | [] => none
  | (_, line) :: _ => (Name.writingFault? s.bound (column line r).natAbs).map .longNumber

def pointerFault? (r : Report) : Option Unforeseen :=
  if r.pointsAtExpr then r.extentFault?.map .extent else none

/-- Where an action comes to a stop, if it does: what is printed by then, and why it stops. -/
def stop? (s : Session α) : Action α → Option (Styled × Unforeseen)
  | .warn r => ((s.locationFault? r).map ([], ·)).or ((pointerFault? r).map (s.warningLine r, ·))
  | .throw r => (pointerFault? r).map (s.errorLines r, ·)
  | .guardedFailure (.reported r) => (pointerFault? r).map (s.errorLines r, ·)
  | .locate r => (s.locationFault? r).map ([], ·)
  | .diagnose r _ => r.extentFault?.map fun fault => ([], .extent fault)
  | _ => none

/-- Does an action unless it comes to a stop. -/
def request [Foreign α] (fuel : Nat) (s : Session α) (action : Action α) : Option (Reply α) :=
  match s.stop? action with
  | some (printed, failure) => s.reply printed (.failed (.unforeseen failure))
  | none => s.perform fuel action

theorem request_of_stop?_eq_none [Foreign α] {fuel : Nat} {s : Session α} {action : Action α}
    (h : s.stop? action = none) : s.request fuel action = s.perform fuel action := by
  simp [request, h]

end Session

end LambdaCalculus
