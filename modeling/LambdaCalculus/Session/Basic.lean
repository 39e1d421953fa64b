import LambdaCalculus.Failure.Basic
import LambdaCalculus.Parser.Nesting
import LambdaCalculus.Parser.Reader
import LambdaCalculus.Reduction.Run
import LambdaCalculus.Session.Backtrace

/-!
# Sessions

A session reduces terms one after the other and reports on them. It holds the settings (whether an
error ends it, whether steps are printed, how many steps a reduction may take, the bounds on numbers
in names and on nested calls), the lines in progress, the steps of the last reduction, and how many
steps that began.

Every operation is a function from a session to the next, together with what it prints. What goes
wrong is a value of `Failure`; a *guarded* run reports its failure and goes on, unless the failure
is fatal or not for the session to handle.
-/

namespace LambdaCalculus

variable {α : Type}

inductive Outcome (α : Type) where
  | nothing
  | tree (t : Tree α)
  | text (text : Styled)
  /-- A failure was reported and the session goes on. -/
  | suppressed
  | exit (code : Datum)
  | failed (failure : Failure)

/-! ### The state -/

structure Session (α : Type) where
  fatal : Bool := true
  verbose : Bool := false
  limit : Option Int := some Tree.defaultLimit
  bound : Name.Bound := none
  /-- The number of calls that may be open at a time, if there is a bound. -/
  nesting : Option Nat := none
  backtrace : Backtrace := []
  steps : List (String × Tree α) := []
  begun : Nat := 0

/-- The next state, what was printed on the way, and what came of it. -/
structure Reply (α : Type) where
  session : Session α
  printed : Styled
  outcome : Outcome α

def Reply.after (reply : Reply α) (printed : Styled) : Reply α :=
  { reply with printed := printed ++ reply.printed }

/-- The next state after a reduction, what was printed on the way, and the term it led to. -/
structure Reduction (α : Type) where
  session : Session α
  printed : Styled
  result : Except Failure (Tree α)

namespace Session

/-! ### Lines and steps -/

def registerLine (s : Session α) (path : String) (line : SourceLine) : Session α :=
  { s with backtrace := s.backtrace.set path (some line) }

def removeLine (s : Session α) (path : String) : Session α :=
  { s with backtrace := s.backtrace.set path none }

def clearSteps (s : Session α) : Session α := { s with steps := [] }

/-- A step as it is printed: its symbol and its term. -/
def stepLine [Foreign α] (symbol : String) (t : Tree α) : Styled :=
  Styled.line (Styled.coloured .cyan (symbol ++ " ") ++ Styled.plain t.oneLine)

def registerStep (s : Session α) (symbol : String) (t : Tree α) : Session α :=
  { s with steps := s.steps ++ [(symbol, t)] }

def stepOutput [Foreign α] (s : Session α) (symbol : String) (t : Tree α) : Styled :=
  if s.verbose then stepLine symbol t else []

/-! ### Reports -/

/-- The column of a line in which the expression of a report stands. An expression that is not found
in the line counts from its beginning. -/
def column (line : SourceLine) (r : Report) : Int :=
  ((Text.indexOf? r.expr.toList line.text.toList).getD 0 : Nat) + r.start

/-- Where the expression of a report stands: the path, the number and the column of the first line
in progress. -/
def location (s : Session α) (r : Report) : Styled :=
  match s.backtrace.live with
  | [] => []
  | (path, line) :: _ =>
      Styled.bold (path ++ ":" ++ toString line.number ++ ":" ++ toString (column line r) ++ ": ")

/-- The expression of a report with its span, where the report points at it. -/
def pointer (r : Report) (colour : Colour) : Styled :=
  if r.pointsAtExpr then Styled.line (r.diagnosis colour) else []

/-- What is printed of a warning in front of the expression. -/
def warningLine (s : Session α) (r : Report) : Styled :=
  Styled.line (s.location r ++ Styled.coloured .magenta "warning: " ++ r.message)

def warning (s : Session α) (r : Report) : Styled := s.warningLine r ++ pointer r .magenta

def lineBlock (path : String) (line : SourceLine) : String :=
  "  File '" ++ path ++ "', line " ++ toString line.number ++ ":\n    " ++ line.text ++ "\n"

/-- The lines in progress as they are shown with an error, under a heading if there are several. -/
def lineBlocks (s : Session α) : String :=
  let live := s.backtrace.live
  (if 1 < live.length then "Traceback:\n" else "") ++
    String.join (live.map fun (path, line) => lineBlock path line)

/-- What is printed of an error in front of the expression. -/
def errorLines (s : Session α) (r : Report) : Styled :=
  Styled.line
    (Styled.plain s.lineBlocks
      ++ (if r.internal then Styled.coloured .red "[internal] " else [])
      ++ Styled.coloured .red "error: " ++ r.message)

def errorOutput (s : Session α) (r : Report) : Styled := s.errorLines r ++ pointer r .red

/-- Reports an error. It ends a session in which errors are fatal; another session goes on without
lines in progress, and what then comes of the operation is given. -/
def throw (s : Session α) (r : Report) (otherwise : Outcome α) : Reply α :=
  if s.fatal then ⟨s, s.errorOutput r, .exit (.int 1)⟩
  else ⟨{ s with backtrace := [] }, s.errorOutput r, otherwise⟩

/-- Ends a guarded run that failed. The failure is reported; one that nobody foresaw is handed on
afterwards, and leaving the program is no failure to report. -/
def handle (s : Session α) : Failure → Reply α
  | .interrupt => s.throw Report.interrupted .suppressed
  | .exit code => ⟨s, [], .exit code⟩
  | .nesting => s.throw Report.nestedTooDeep .suppressed
  | .reported r => s.throw r .suppressed
  | .unforeseen failure => s.throw failure.report (.failed (.unforeseen failure))

/-! ### Nesting -/

/-- Whether so many calls may be open at a time. -/
def allows (s : Session α) (calls : Nat) : Bool := s.nesting.all (calls ≤ ·)

/-- The room that a reduction has in a session. -/
def room (s : Session α) : Room α :=
  match s.nesting with
  | none => .unlimited
  | some deepest => .within deepest s.verbose

/-- How a reduction fails that has no room for another call. It is reported, unless there is no room
to write the term even where nothing else is going on. -/
def nestingFailure [Foreign α] (s : Session α) (t : Tree α) (begun : Nat) : Failure :=
  if s.allows (1 + t.writingDepth) then .reported (Report.depthLimit t begun) else .nesting

/-- Parses a source text. -/
def parse (s : Session α) (source : String) : Except Failure (Tree α) :=
  if s.allows (Parser.parsingDepth source) then
    (Parser.parse source).mapError fun fault => .reported (Report.malformed source fault)
  else .error .nesting

/-! ### Reduction -/

/-- Whether there is room for the report that no step is left, which is made from where the next
redex stands. -/
def allowsRefusal (s : Session α) (t last : Tree α) : Bool :=
  s.allows (openCalls (last.redexDepth?.getD 0) + 1 + t.writingDepth)

def verdict [Foreign α] (s : Session α) (t : Tree α) (run : Run α) : Except Failure (Tree α) :=
  match run.ending with
  | .normal => .ok run.last
  | .unfinished =>
      .error
        (if s.allowsRefusal t run.last then .reported (Report.stepLimit t (s.limit.getD 0))
        else s.nestingFailure t run.begun)
  | .blocked obstacle => .error (.unforeseen (.ofObstacle obstacle))
  | .tooDeep _ => .error (s.nestingFailure t run.begun)

/-- Reduces a term under the session's limit and in its room, and records its steps. There is no
answer if the session has no limit and `fuel` steps do not end the reduction. -/
def reduce [Foreign α] (fuel : Nat) (s : Session α) (t : Tree α) : Option (Reduction α) :=
  (t.reduce s.room s.bound s.limit fuel).map fun run =>
    { session := { s with steps := run.contracta.map (("β", ·)), begun := run.begun }
      printed := run.shown.flatMap (s.stepOutput "β")
      result := s.verdict t run }

end Session

end LambdaCalculus
