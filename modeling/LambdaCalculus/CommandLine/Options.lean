import LambdaCalculus.CommandLine.Word
import LambdaCalculus.Text.Numeral
import LambdaCalculus.Text.Quoted

/-!
# Options

The options of a run are read off the words of its command line, from left to right. The first row
of plain words without a flag among them holds the terms; the value of a flag is the text attached
to it or the plain word behind it; of a repeated flag the last value counts. Words that are left
over are refused when all others have been read.

Short flags may share a word: text attached to one without a value begins with the letter of the
next. A `--` that is attached to a flag as its value counts for nothing, so that the flag is given
without one.
-/

namespace LambdaCalculus.CommandLine

inductive FileChoice where
  | absent
  /-- A file without a path. -/
  | pathless
  | named (path : String)
deriving DecidableEq

/-- What a command line asks for. No limit on steps is written as zero. -/
structure Options where
  terms : List String := []
  file : FileChoice := .absent
  maxSteps : Nat := 10000
  verbose : Bool := false
deriving DecidableEq

inductive Refusal where
  | help
  | misuse (message : String)
deriving DecidableEq

/-! ### The limit on steps -/

inductive StepsFault where
  | unreadable (text : String) (fault : Numeral.Fault)
  | negative (text : String)
deriving DecidableEq

def readSteps (text : String) : Except StepsFault Nat :=
  match Numeral.read text with
  | .error fault => .error (.unreadable text fault)
  | .ok (.negSucc _) => .error (.negative text)
  | .ok (.ofNat n) => .ok n

def negativeMessage (text : String) : String := "expected a natural number, got '" ++ text ++ "'"

def aboutFlag (flag : Flag) (message : String) : Refusal :=
  .misuse ("argument " ++ flag.title ++ ": " ++ message)

def StepsFault.refusal : StepsFault → Refusal
  | .unreadable text _ => aboutFlag .maxSteps ("invalid steps value: " ++ Text.quoted text)
  | .negative text => aboutFlag .maxSteps (negativeMessage text)

/-! ### Words with several flags -/

/-- The last flag of a word, with its value if the word holds one. -/
structure LastFlag where
  flag : Flag
  value : Option String := none

/-- The flags of a word: those in front, which take no value, and the last one. -/
structure Cluster where
  switches : List Flag
  last : LastFlag

def Cluster.cons (flag : Flag) (c : Cluster) : Cluster := { c with switches := flag :: c.switches }

/-- What is said of a text attached to a flag that takes no value. -/
def ignoredText (flag : Flag) (text : List Char) : Refusal :=
  aboutFlag flag ("ignored explicit argument " ++ Text.quoted (String.ofList text))

/-- The flags of a word that begins with a short flag and goes on with a text. -/
def Cluster.ofShort (flag : Flag) (text : List Char) : Except Refusal Cluster :=
  if flag.takesValue then .ok ⟨[], flag, some (String.ofList text)⟩
  else
    match text with
    | [] => .error (ignoredText flag [])
    | letter :: rest =>
        match Flag.letters.lookup letter with
        | none => .error (ignoredText flag (letter :: rest))
        | some next =>
            if rest.isEmpty then .ok ⟨[flag], next, none⟩
            else (Cluster.ofShort next rest).map (.cons flag)

def Cluster.ofFlag (flag : Flag) (short : Bool) : Option (List Char) → Except Refusal Cluster
  | none => .ok ⟨[], flag, none⟩
  | some text =>
      if short then Cluster.ofShort flag text
      else if flag.takesValue then .ok ⟨[], flag, some (String.ofList text)⟩
      else .error (ignoredText flag text)

/-! ### Reading the words -/

/-- Where the reading stands with the row of terms. -/
inductive TermRow where
  | ahead | within | behind
deriving DecidableEq

/-- What has been read: the options so far, the state of the row of terms, and the words left
over. -/
structure Progress where
  options : Options := {}
  row : TermRow := .ahead
  leftOver : List String := []

namespace Progress

def plainWord (p : Progress) (text : String) : Progress :=
  match p.row with
  | .behind => { p with leftOver := p.leftOver ++ [text] }
  | _ => { p with options := { p.options with terms := p.options.terms ++ [text] }, row := .within }

/-- Reads the `--` that ends the flags. It counts as part of the row of terms. -/
def terminatorWord (p : Progress) : Progress :=
  match p.row with
  | .behind => { p with leftOver := p.leftOver ++ ["--"] }
  | _ => { p with row := .within }

/-- Ends the row of terms if it has begun. -/
def atFlag (p : Progress) : Progress :=
  match p.row with
  | .within => { p with row := .behind }
  | _ => p

def leave (p : Progress) (text : String) : Progress := { p with leftOver := p.leftOver ++ [text] }

def switchOn (p : Progress) : Flag → Except Refusal Progress
  | .help => .error .help
  | .verbose => .ok { p with options := { p.options with verbose := true } }
  | _ => .ok p

def setValue (p : Progress) (flag : Flag) (value : String) : Except Refusal Progress :=
  match flag, value with
  | .file, "--" => .ok { p with options := { p.options with file := .pathless } }
  | .file, path => .ok { p with options := { p.options with file := .named path } }
  | .maxSteps, "--" => .ok { p with options := { p.options with maxSteps := 0 } }
  | .maxSteps, text =>
      match readSteps text with
      | .ok n => .ok { p with options := { p.options with maxSteps := n } }
      | .error fault => .error fault.refusal
  | _, _ => .ok p

def actOn (p : Progress) (cluster : Cluster) : Except Refusal Progress :=
  cluster.switches.foldlM switchOn p.atFlag >>= fun p' =>
    match cluster.last.value with
    | none => p'.switchOn cluster.last.flag
    | some value => p'.setValue cluster.last.flag value

end Progress

/-- The flag of a cluster that still waits for its value. -/
def Cluster.waiting? (c : Cluster) : Option Flag :=
  match c.last.value with
  | none => if c.last.flag.takesValue then some c.last.flag else none
  | some _ => none

def readWords (p : Progress) : List Word → Except Refusal Progress
  | [] => .ok p
  | .plain text :: rest => readWords (p.plainWord text) rest
  | .terminator :: rest => readWords p.terminatorWord rest
  | .unknown text :: rest => readWords (p.atFlag.leave text) rest
  | .flag flag short attached :: rest =>
      match Cluster.ofFlag flag short attached with
      | .error refusal => .error refusal
      | .ok cluster =>
          match cluster.waiting? with
          | none =>
              match p.actOn cluster with
              | .error refusal => .error refusal
              | .ok p' => readWords p' rest
          | some waiting =>
              match rest with
              | .plain value :: rest' =>
                  match p.actOn { cluster with last := ⟨waiting, some value⟩ } with
                  | .error refusal => .error refusal
                  | .ok p' => readWords p' rest'
              | _ => .error (aboutFlag waiting "expected one argument")

def Options.ofArguments (arguments : List String) : Except Refusal Options :=
  match Word.ofTexts arguments with
  | .error message => .error (.misuse message)
  | .ok words =>
      match readWords {} words with
      | .error refusal => .error refusal
      | .ok p =>
          if p.leftOver.isEmpty then .ok p.options
          else .error (.misuse ("unrecognized arguments: " ++ String.intercalate " " p.leftOver))

end LambdaCalculus.CommandLine
