import LambdaCalculus.Parser.Machine

/-!
# Reading from a source text

A `Reader` holds a source text and a place in it. Each production of the grammar can be read from
that place; whether it succeeds or not, the reader then stands in front of the first character that
was not read. `parse` reads a source text as a whole.
-/

namespace LambdaCalculus.Parser

variable {α : Type}

/-- A source text and a place in it. A place behind the end has no characters left. -/
structure Reader where
  source : String
  cursor : Cursor
deriving DecidableEq

namespace Reader

def ofSource (source : String) : Reader := ⟨source, ⟨0, source.toList⟩⟩

def peek (r : Reader) : Option Char := r.cursor.rest.head?

def runFrom (r : Reader) (goal : Goal) (cursor : Cursor) (mode : Mode α) :
    Except Fault (Tree α) × Reader :=
  let (result, cursor') := run goal cursor.position ⟨mode, []⟩ cursor.rest
  (result, { r with cursor := cursor' })

/-- Reads a term: a row of atoms as long as it goes. -/
def term (r : Reader) : Except Fault (Tree α) × Reader := r.runFrom .term r.cursor (.atom none)

/-- Reads a single atom. -/
def atom (r : Reader) : Except Fault (Tree α) × Reader := r.runFrom .atom r.cursor (.atom none)

/-- Reads the rest of an abstraction. The next character is taken for its `λ`, whatever it is. -/
def abstraction (r : Reader) : Except Fault (Tree α) × Reader :=
  r.runFrom .atom ⟨r.cursor.position + 1, r.cursor.rest.tail⟩ (.lambda none r.cursor.position)

/-- Reads the characters of a name, perhaps none, as a variable. -/
def name (r : Reader) : Tree α × Reader :=
  let taken := r.cursor.rest.takeWhile isNameChar
  let rest := r.cursor.rest.dropWhile isNameChar
  (.var (String.ofList taken), { r with cursor := ⟨r.cursor.position + taken.length, rest⟩ })

/-- Reads a term that has to reach to the end of the source text. -/
def parse (r : Reader) : Except Fault (Tree α) × Reader :=
  if r.source.isEmpty then (.error ⟨.emptySource, 0, 0⟩, r)
  else
    match r.term with
    | (.ok t, r') =>
        if r'.cursor.rest.isEmpty then (.ok t, r')
        else
          let position := r'.cursor.position
          (.error ⟨.trailingInput, position, position + r'.cursor.rest.length⟩, r')
    | (.error fault, r') => (.error fault, r')

/-! ### Productions by name -/

inductive Call where
  | peek | atom | term | abstraction | name | parse
deriving DecidableEq

inductive Answer (α : Type) where
  | character (c : Option Char)
  | tree (t : Tree α)

def call (r : Reader) : Call → Except Fault (Answer α) × Reader
  | .peek => (.ok (.character r.peek), r)
  | .name => let (t, r') := r.name; (.ok (.tree t), r')
  | .atom => let (result, r') := r.atom; (result.map .tree, r')
  | .term => let (result, r') := r.term; (result.map .tree, r')
  | .abstraction => let (result, r') := r.abstraction; (result.map .tree, r')
  | .parse => let (result, r') := r.parse; (result.map .tree, r')

end Reader

/-- The term that a source text spells. -/
def parse (source : String) : Except Fault (Tree α) := (Reader.ofSource source).parse.1

end LambdaCalculus.Parser
