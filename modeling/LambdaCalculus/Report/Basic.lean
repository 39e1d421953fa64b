import LambdaCalculus.Text.Slice
import LambdaCalculus.Text.Styled
import LambdaCalculus.Text.Template

/-!
# Reports

A `Report` is what is said about an expression: a message, the expression with the span to point at,
and whether to point at all. Warnings and errors are both reports. `Draft.report` makes one from a
template, with colour or without; `Report.diagnosis` shows the expression with its span underlined.
-/

namespace LambdaCalculus

inductive ReportKind where
  | general
  /-- A source text that is no term. -/
  | malformed
  /-- A reduction that was cut short, with the steps that were allowed or taken. -/
  | cutShort (steps : Int)
deriving DecidableEq

/-- A message about an expression. The span reaches from `start` up to and without `stop`. An
internal report does not come from the user's input, and neither it nor one that is not diagnosed
points at the expression. -/
structure Report where
  kind : ReportKind
  message : Styled
  expr : String
  start : Int
  stop : Int
  diagnosed : Bool
  internal : Bool
deriving DecidableEq

/-- What a report is made from: a template, the expressions for it, the first of which the report is
about, and the span in that one. The span ends with the expression if `stop` is -1. -/
structure Draft where
  kind : ReportKind := .general
  template : String
  exprs : List String := [""]
  start : Int := 0
  stop : Int := -1
  diagnosed : Bool := true
  internal : Bool := false

/-- Makes a report. The template is filled with the expressions in bold, as they are sent out: where
there is colour, control sequences stand around them by then. -/
def Draft.report (colour : Bool) (draft : Draft) : Except Template.Stop Report :=
  let exprs := draft.exprs.map fun expr => (Styled.bold expr).render colour
  (Template.fill draft.template exprs).map fun message =>
    let expr := draft.exprs.head?.getD ""
    { kind := draft.kind
      message := Styled.plain message
      expr
      start := draft.start
      stop := if draft.stop = -1 then expr.length else draft.stop
      diagnosed := draft.diagnosed
      internal := draft.internal }

namespace Report

/-- A report whose message is a text by now, with control sequences in it or without. -/
def inColour (colour : Bool) (r : Report) : Report := { r with message := r.message.sent colour }

/-- A report that points at the whole of an expression. -/
def about (expr : String) (message : Styled) : Report :=
  { kind := .general, message, expr, start := 0, stop := expr.length, diagnosed := true,
    internal := false }

/-- The expression on a line, the span in colour, and a line below it that underlines the span. At
least one character is marked. -/
def diagnosis (r : Report) (colour : Colour) : Styled :=
  let expr := r.expr.toList
  let stop := max r.stop (r.start + 1)
  Styled.plain ("  " ++ String.ofList (Text.sliceTo expr r.start))
    ++ Styled.coloured colour (String.ofList (Text.slice expr r.start stop))
    ++ Styled.plain (String.ofList (Text.sliceFrom expr stop) ++ "\n")
    ++ Styled.plain ("  " ++ String.ofList (Text.repeated r.start ' '))
    ++ Styled.coloured colour (String.ofList ('^' :: Text.repeated (stop - r.start - 1) '~'))

/-- Why the span cannot be underlined: there are too many blanks in front of the line, or the line
is too long. -/
def extentFault? (r : Report) : Option Extent.Fault :=
  (Extent.repetitionFault? 1 r.start).or
    (Extent.repetitionFault? 1 (max r.stop (r.start + 1) - r.start - 1))

def pointsAtExpr (r : Report) : Bool := !r.internal && !r.expr.isEmpty && r.diagnosed

end Report

end LambdaCalculus
