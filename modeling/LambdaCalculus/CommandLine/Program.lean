import LambdaCalculus.CommandLine.Options
import LambdaCalculus.Session.Basic
import LambdaCalculus.Text.Encoding
import LambdaCalculus.Text.Lines

/-!
# The program

The program reduces the terms of its command line and then those of a file, one a line, and draws
each normal form. A term whose reduction is cut short brings a warning and the next one follows; a
source text that is no term, or a file that cannot be read, ends the run with an error, and so does
a term that is nested too deep to be parsed, to be drawn, or to be written in that warning.

A run is a function of the command line, of the file's contents and of what else the program finds
around it, to what is printed and the exit code. The file is looked at only after the terms of the
command line have been worked on.
-/

namespace LambdaCalculus.CommandLine

structure Item where
  path : String
  number : Nat
  source : String
deriving DecidableEq

/-- The path under which the terms of the command line are known. -/
def commandLinePath : String := "<args>"

/-- What the program finds around it: bounds on the numbers in names and on nested calls, and
whether it prints in colour. -/
structure Surroundings where
  bound : Name.Bound := none
  nesting : Option Nat := none
  colour : Bool := false

/-- What was printed to the two outputs, and the exit code if there is one. -/
structure Output where
  stdout : Styled
  stderr : String := ""
  exit : Option Int := none

/-! ### Items -/

/-- Source texts under a path, numbered from `number` on. Empty ones are counted and left out. -/
def numbered (path : String) (number : Nat) : List String → List Item
  | [] => []
  | source :: rest =>
      if source.isEmpty then numbered path (number + 1) rest
      else ⟨path, number, source⟩ :: numbered path (number + 1) rest

def argumentItems (terms : List String) : List Item :=
  terms.mapIdx fun i source => ⟨commandLinePath, i + 1, source⟩

/-- The terms of a file, or how it fails. A file that cannot be opened has no contents, and a path
with a null character in it is no path of a file. -/
def fileItems (path : String) (contents : Option (List UInt8)) : Except Failure (List Item) :=
  if path.toList.contains '\x00' then .error (.unforeseen .nullInPath)
  else
    match contents with
    | none => .error (.reported (Report.cannotOpen path))
    | some bytes =>
        match Utf8.decode bytes with
        | .error fault => .error (.unforeseen (.undecodable fault))
        | .ok text => .ok (numbered path 1 ((Text.lines text).map String.ofList))

def FileChoice.path? : FileChoice → Option String
  | named path => some path
  | _ => none

def FileChoice.items? (contents : Option (List UInt8)) :
    FileChoice → Option (Except Failure (List Item))
  | absent => none
  | pathless => some (.error (.unforeseen .noPath))
  | named path => some (fileItems path contents)

/-! ### Runs -/

/-- Works on one item. Messages are texts before they are printed, in colour or not. There is no
answer if the session has no limit on steps and `fuel` is not enough. -/
def runItem (colour : Bool) (fuel : Nat) (s : Session Empty) (item : Item) :
    Option (Reply Empty) :=
  let s := s.registerLine item.path ⟨item.source, item.number⟩
  match s.parse item.source with
  | .error failure => some (s.handle (failure.inColour colour))
  | .ok t =>
      (s.reduce fuel t).map fun reduction =>
        let s := reduction.session
        match reduction.result with
        | .ok u =>
            if s.allows u.drawingDepth then
              ⟨s.removeLine item.path, reduction.printed ++ Styled.line (Styled.plain u.draw),
                .nothing⟩
            else (s.handle .nesting).after reduction.printed
        | .error failure =>
            match failure.cutShort? with
            | some steps =>
                let r := (Report.noNormalForm item.source steps).inColour colour
                ⟨s.removeLine item.path, reduction.printed ++ s.warning r, .nothing⟩
            | none => (s.handle (failure.inColour colour)).after reduction.printed

/-- Works on items until one of them ends the run. -/
def runItems (colour : Bool) (fuel : Nat) (s : Session Empty) : List Item → Option (Reply Empty)
  | [] => some ⟨s, [], .nothing⟩
  | item :: rest =>
      match runItem colour fuel s item with
      | none => none
      | some reply =>
          match reply.outcome with
          | .nothing => (runItems colour fuel reply.session rest).map (·.after reply.printed)
          | _ => some reply

def Output.ofReply (reply : Reply Empty) : Output :=
  match reply.outcome with
  | .exit (.int code) => { stdout := reply.printed, exit := some code }
  | _ => { stdout := reply.printed }

/-- The session that a run begins with. -/
def Options.session (options : Options) (around : Surroundings) : Session Empty :=
  { verbose := options.verbose
    limit := if options.maxSteps = 0 then none else some options.maxSteps
    bound := around.bound
    nesting := around.nesting }

/-- Works on the terms of the command line and then on those of the file. -/
def runOptions (around : Surroundings) (fuel : Nat) (options : Options)
    (contents : Option (List UInt8)) : Option (Reply Empty) :=
  let s := options.session around
  match runItems around.colour fuel s (argumentItems options.terms) with
  | none => none
  | some reply =>
      match reply.outcome, options.file.items? contents with
      | .nothing, some items =>
          let later :=
            match items with
            | .error failure => some (reply.session.handle (failure.inColour around.colour))
            | .ok items => runItems around.colour fuel reply.session items
          later.map (·.after reply.printed)
      | _, _ => some reply

def Refusal.output : Refusal → Output
  | .help => { stdout := Styled.plain helpText, exit := some 0 }
  | .misuse message =>
      { stdout := []
        stderr := usageLine ++ "lcore: error: " ++ message ++ "\n"
        exit := some 2 }

/-- Runs the program. `contents` gives the bytes of a file, if it can be opened. There is no answer
if a term without a limit on its steps needs more than `fuel` of them. -/
def run (around : Surroundings) (fuel : Nat) (arguments : List String)
    (contents : String → Option (List UInt8)) : Option Output :=
  match Options.ofArguments arguments with
  | .error refusal => some refusal.output
  | .ok options =>
      (runOptions around fuel options (options.file.path?.bind contents)).map Output.ofReply

end LambdaCalculus.CommandLine
