import LambdaCalculus.Report.Basic
import LambdaCalculus.Parser.Fault
import LambdaCalculus.Datum.Written
import LambdaCalculus.Term.Layout
import LambdaCalculus.Term.OneLine

/-!
# The wording of reports

One report for each thing that can go wrong. The expression in question stands in bold between
quotes.
-/

namespace LambdaCalculus.Report

variable {α : Type}

/-- The expression between quotes, and what is said of it. -/
def saying (expr : String) (rest : String) : Styled :=
  Styled.plain "'" ++ Styled.bold expr ++ Styled.plain ("'" ++ rest)

/-! ### Source texts -/

def faultMessage (source : String) : Parser.Cause → Styled
  | .emptySource => Styled.plain "λ-term cannot be empty"
  | .missingTerm => saying source " ended where a λ-term was expected"
  | .strayCharacter c =>
    saying source (" has stray '" ++ c.toString ++ "' where a λ-term was expected")
  | .openGroup => saying source " has mismatched parentheses"
  | .missingBoundName => saying source " has an abstraction without a bound variable"
  | .missingDot => saying source " has an abstraction without a declarator '.'"
  | .trailingInput => saying source " has trailing input after a complete λ-term"

def malformed (source : String) (fault : Parser.Fault) : Report :=
  { about source (faultMessage source fault.cause) with
    kind := .malformed, start := fault.start, stop := fault.stop }

/-! ### Reduction -/

/-- An expression, what is said of it, and a number of steps. -/
def withinSteps (expr middle steps : String) : Styled :=
  saying expr middle ++ Styled.bold steps ++ Styled.plain " β-steps"

def stepLimit [Foreign α] (t : Tree α) (limit : Int) : Report :=
  let expr := t.oneLine
  { about expr (withinSteps expr " did not reach a normal form within " (toString limit)) with
    kind := .cutShort limit, diagnosed := false }

/-- What is said of a term whose reduction was nested too deeply after a number of steps. -/
def depthMessage [Foreign α] (t : Tree α) (steps : String) : Styled :=
  withinSteps t.oneLine " exceeded the maximum recursion depth after " steps

def depthLimit [Foreign α] (t : Tree α) (begun : Nat) : Report :=
  { about t.oneLine (depthMessage t (toString begun)) with
    kind := .cutShort begun, diagnosed := false }

def noNormalForm (source : String) (limit : Int) : Report :=
  about source (withinSteps source " does not have a normal form within " (toString limit))

/-! ### Numerals -/

def notNatural (value : Datum) : Report :=
  let expr := value.inline
  { about expr
    (Styled.plain "expected natural number, got '" ++ Styled.bold expr ++ Styled.plain "'") with
    internal := true }

/-! ### Sessions and files -/

def interrupted : Report := about "" (Styled.plain "keyboard interrupt")

def nestedTooDeep : Report :=
  about "" (Styled.plain "normal form might exist, but maximum recursion depth exceeded")

def unknown (label text : String) : Report :=
  let expr := label ++ ": " ++ text
  { about expr
    (Styled.plain "unknown error: '" ++ Styled.bold expr ++ Styled.plain "'") with
    internal := true }

def cannotOpen (path : String) : Report :=
  { about path (saying path " could not be opened") with diagnosed := false }

end LambdaCalculus.Report
