import LambdaCalculus.Failure.Unforeseen
import LambdaCalculus.Report.Wording

/-!
# Failures

How an operation of a session can fail. Most failures carry a report of their own; for those that
nobody foresaw one is made of their label and text.
-/

namespace LambdaCalculus

def Unforeseen.report (failure : Unforeseen) : Report := Report.unknown failure.label failure.text

inductive Failure where
  | reported (report : Report)
  /-- By an interruption from the keyboard. -/
  | interrupt
  | exit (code : Datum)
  /-- By nesting too deeply. -/
  | nesting
  | unforeseen (failure : Unforeseen)

def Failure.inColour (colour : Bool) : Failure → Failure
  | reported report => reported (report.inColour colour)
  | failure => failure

/-- The number of steps that is reported of a reduction that was cut short. -/
def Failure.cutShort? : Failure → Option Int
  | reported { kind := .cutShort steps, .. } => some steps
  | _ => none

end LambdaCalculus
