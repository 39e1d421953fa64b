import LambdaCalculus.Term.Basic
import LambdaCalculus.Parser.Fault

/-!
# The parsing machine

Terms are read in one pass from left to right. The grammar is

    term        ::= atom (' ' atom)*
    atom        ::= '(' term ')' | abstraction | variable
    abstraction ::= 'λ' variable '.' term
    variable    ::= one or more characters other than 'λ' '.' '(' ')' ' '

where the body of an abstraction reaches as far as it can and a row of atoms is applied from the
left.

The machine keeps a *mode*, which says what the next character has to be, and a stack of *frames*,
one for each group and abstraction that is open, innermost first. One character either moves the
machine on, or ends the term in front of it, or is a fault. The machine never looks at more than one
character, and never back.
-/

namespace LambdaCalculus.Parser

variable {α : Type}

/-! ### Characters -/

/-- The characters with a meaning of their own. -/
def isToken (c : Char) : Bool := c == 'λ' || c == '.' || c == '(' || c == ')'

def isNameChar (c : Char) : Bool := !isToken c && c != ' '

/-! ### Configurations -/

/-- How an open construct began: a group at a position, or an abstraction with its bound name. -/
inductive Opening where
  | group (start : Nat)
  | binder (name : String)

/-- An open construct, and the part of the enclosing row of atoms that stands in front of it. -/
structure Frame (α : Type) where
  opening : Opening
  before : Option (Tree α)

/-- What has to come next. `before` is the part of the current row of atoms that has been read. -/
inductive Mode (α : Type) where
  | atom (before : Option (Tree α))
  /-- The name of a variable goes on or ends; its characters so far are in reverse. -/
  | name (before : Option (Tree α)) (reversed : List Char)
  /-- The bound name of the abstraction at `start` has to begin. -/
  | lambda (before : Option (Tree α)) (start : Nat)
  /-- A bound name goes on, or the dot behind it follows. -/
  | boundName (before : Option (Tree α)) (reversed : List Char)
  /-- An atom has just ended; `row` is the current row up to here. -/
  | complete (row : Tree α)

inductive Goal where
  | term
  | atom
deriving DecidableEq

structure State (α : Type) where
  mode : Mode α
  frames : List (Frame α)

/-! ### Moves -/

def extend (before : Option (Tree α)) (t : Tree α) : Tree α :=
  match before with
  | none => t
  | some f => .app f t

/-- Ends the abstractions whose bodies end with the current row: each becomes an atom of the row
around it. What remains is the row of the innermost group, or of the whole. -/
def closeBinders : Tree α → List (Frame α) → Tree α × List (Frame α)
  | row, ⟨.binder name, before⟩ :: frames => closeBinders (extend before (.lam name row)) frames
  | row, frames => (row, frames)

inductive Move (α : Type) where
  | shift (state : State α)
  /-- What was to be read ends in front of the character. -/
  | accept (t : Tree α)
  | reject (fault : Fault)

def moveBehindAtom (goal : Goal) (row : Tree α) (frames : List (Frame α)) (c : Char) : Move α :=
  if c = ' ' ∧ ¬ (goal = .atom ∧ frames.isEmpty) then .shift ⟨.atom (some row), frames⟩
  else
    match closeBinders row frames with
    | (t, ⟨.group start, before⟩ :: outer) =>
        if c = ')' then .shift ⟨.complete (extend before t), outer⟩
        else .reject (.here .openGroup start)
    | (t, _) => .accept t

/-- The move on a character at a position. -/
def move (goal : Goal) (position : Nat) (state : State α) (c : Char) : Move α :=
  match state.mode with
  | .atom before =>
      if c = '(' then .shift ⟨.atom none, ⟨.group position, before⟩ :: state.frames⟩
      else if c = 'λ' then .shift ⟨.lambda before position, state.frames⟩
      else if isNameChar c then .shift ⟨.name before [c], state.frames⟩
      else .reject (.here (.strayCharacter c) position)
  | .name before reversed =>
      if isNameChar c then .shift ⟨.name before (c :: reversed), state.frames⟩
      else
        moveBehindAtom goal (extend before (.var (String.ofList reversed.reverse))) state.frames c
  | .lambda before start =>
      if isNameChar c then .shift ⟨.boundName before [c], state.frames⟩
      else .reject (.here .missingBoundName start)
  | .boundName before reversed =>
      if isNameChar c then .shift ⟨.boundName before (c :: reversed), state.frames⟩
      else if c = '.' then
        .shift ⟨.atom none, ⟨.binder (String.ofList reversed.reverse), before⟩ :: state.frames⟩
      else .reject (.here .missingDot position)
  | .complete row => moveBehindAtom goal row state.frames c

/-- What the end of the text means behind a complete atom. -/
def endBehindAtom (row : Tree α) (frames : List (Frame α)) : Except Fault (Tree α) :=
  match closeBinders row frames with
  | (_, ⟨.group start, _⟩ :: _) => .error (.here .openGroup start)
  | (t, _) => .ok t

def atEnd (position : Nat) (state : State α) : Except Fault (Tree α) :=
  match state.mode with
  | .atom _ => .error (.here .missingTerm position)
  | .name before reversed =>
      endBehindAtom (extend before (.var (String.ofList reversed.reverse))) state.frames
  | .lambda _ start => .error (.here .missingBoundName start)
  | .boundName _ _ => .error (.here .missingDot position)
  | .complete row => endBehindAtom row state.frames

/-! ### Runs -/

/-- A place in a text: how many characters are read, and which are not. -/
structure Cursor where
  position : Nat
  rest : List Char
deriving DecidableEq

/-- Runs the machine from a place on. The answer comes with the place at which the machine stopped:
in front of the first character that it did not read. -/
def run (goal : Goal) (position : Nat) (state : State α) :
    List Char → Except Fault (Tree α) × Cursor
  | [] => (atEnd position state, ⟨position, []⟩)
  | c :: rest =>
      match move goal position state c with
      | .shift state' => run goal (position + 1) state' rest
      | .accept t => (.ok t, ⟨position, c :: rest⟩)
      | .reject fault => (.error fault, ⟨position, c :: rest⟩)

end LambdaCalculus.Parser
