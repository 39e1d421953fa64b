import LambdaCalculus.Text.FormatSpec
import LambdaCalculus.Text.Quoted

/-!
# Message templates

A template is a text with fields, which are filled with given texts. A field stands between braces
and has up to three parts:

    {name!conversion:specification}

The name tells which text is taken. An empty name takes the texts in turn, counted from zero, and a
number picks one; a template uses one way or the other. Behind either, an index in brackets takes
one character of the text. The conversion quotes the text, and the specification says how it is
formatted; in a specification there may be fields again, but not in those of its own fields. A
doubled brace outside of fields stands for itself.

A template is read from left to right and the first fault decides. Attributes of texts are left out:
what a name with a dot stands for is not told here.
-/

namespace LambdaCalculus.Template

inductive Fault where
  | loneOpening
  | loneClosing
  | unclosedField
  /-- The name of a field has a brace inside. -/
  | nestedOpening
  | noConversion
  /-- Something else than a specification follows a conversion. -/
  | noColon
  | unclosedSpec
  /-- A number behind fields that are counted. -/
  | countedThenNumbered
  /-- A counted field behind numbers. -/
  | numberedThenCounted
  | missing (index : Nat)
  | unknownField (name : String)
  | emptyAccess
  | strayBehindIndex
  | noCharacter
  /-- An index that is no number. -/
  | textIndex
  | unknownConversion (c : Char)
  /-- A specification has fields with specifications that have fields. -/
  | tooManyLevels
  | format (fault : Text.FormatSpec.Fault)
deriving DecidableEq

namespace Fault

def label : Fault → String
  | missing _ => "IndexError"
  | noCharacter => "IndexError"
  | unknownField _ => "KeyError"
  | textIndex => "TypeError"
  | format fault => fault.label
  | _ => "ValueError"

def message : Fault → String
  | loneOpening => "Single '\x7b' encountered in format string"
  | loneClosing => "Single '\x7d' encountered in format string"
  | unclosedField => "expected '\x7d' before end of string"
  | nestedOpening => "unexpected '\x7b' in field name"
  | noConversion => "end of string while looking for conversion specifier"
  | noColon => "expected ':' after conversion specifier"
  | unclosedSpec => "unmatched '\x7b' in format spec"
  | countedThenNumbered =>
      "cannot switch from automatic field numbering to manual field specification"
  | numberedThenCounted =>
      "cannot switch from manual field specification to automatic field numbering"
  | missing index =>
      "Replacement index " ++ toString index ++ " out of range for positional args tuple"
  | unknownField name => Text.quoted name
  | emptyAccess => "Empty attribute in format string"
  | strayBehindIndex => "Only '.' or '[' may follow ']' in format field specifier"
  | noCharacter => "string index out of range"
  | textIndex => "string indices must be integers, not 'str'"
  | unknownConversion c =>
      "Unknown conversion specifier " ++ Text.FormatSpec.shownBelow 127 c
  | tooManyLevels => "Max string recursion exceeded"
  | format fault => fault.message

end Fault

/-- Why a template is not filled. -/
inductive Stop where
  | fault (fault : Fault)
  /-- A field asks for an attribute of a text, which is left out. -/
  | attribute
deriving DecidableEq

/-! ### Names -/

/-- How the fields so far pick their texts. -/
inductive Numbering where
  | undecided
  | counted (next : Nat)
  | numbered

/-- The number that a text spells, if it is made of digits. -/
def number? (cs : List Char) : Except Stop (Option Nat) :=
  match Text.FormatSpec.readCount cs with
  | .error fault => .error (.fault (.format fault))
  | .ok (n, rest) => .ok (if rest.isEmpty then n else none)

/-- Which text a name picks, and how the fields are numbered from then on. -/
def pick (numbering : Numbering) (name : List Char) : Except Stop (Nat × Numbering) :=
  if name.isEmpty then
    match numbering with
    | .undecided => .ok (0, .counted 1)
    | .counted next => .ok (next, .counted (next + 1))
    | .numbered => .error (.fault .numberedThenCounted)
  else
    match number? name, numbering with
    | .error stop, _ => .error stop
    | .ok none, _ => .error (.fault (.unknownField (String.ofList name)))
    | .ok (some _), .counted _ => .error (.fault .countedThenNumbered)
    | .ok (some index), _ => .ok (index, .numbered)

/-- Takes the character at an index. -/
def characterAt (value index : List Char) : Except Stop (List Char) :=
  match number? index with
  | .error stop => .error stop
  | .ok none => .error (.fault (if index.isEmpty then .emptyAccess else .textIndex))
  | .ok (some n) =>
      match value[n]? with
      | none => .error (.fault .noCharacter)
      | some c => .ok [c]

/-- Takes from a text what stands behind the first part of a name. -/
def access (value : List Char) : List Char → Except Stop (List Char)
  | [] => .ok value
  | '.' :: rest =>
      if (rest.takeWhile fun c => c ≠ '.' ∧ c ≠ '[').isEmpty then .error (.fault .emptyAccess)
      else .error .attribute
  | '[' :: rest =>
      match characterAt value (rest.takeWhile (· ≠ ']')) with
      | .error stop => .error stop
      | .ok character => access character (rest.dropWhile (· ≠ ']')).tail
  | _ :: _ => .error (.fault .strayBehindIndex)
termination_by name => name.length
decreasing_by
  have hle : (rest.dropWhile (· ≠ ']')).length ≤ rest.length := (List.dropWhile_sublist _).length_le
  simp only [List.length_tail, List.length_cons]
  omega

/-- What a name stands for among some texts. -/
def resolve (values : List (List Char)) (numbering : Numbering) (name : List Char) :
    Except Stop (List Char × Numbering) :=
  match pick numbering (name.takeWhile fun c => c ≠ '.' ∧ c ≠ '[') with
  | .error stop => .error stop
  | .ok (index, numbering) =>
      match values[index]? with
      | none => .error (.fault (.missing index))
      | some value =>
          (access value (name.dropWhile fun c => c ≠ '.' ∧ c ≠ '[')).map (·, numbering)

/-! ### Fields -/

/-- The parts of a field. A field without a specification has an empty one. -/
structure Field where
  name : List Char
  conversion : Option Char
  spec : List Char

def convert (value : List Char) : Option Char → Except Stop (List Char)
  | none => .ok value
  | some 's' => .ok value
  | some 'r' => .ok (Text.quotedChars value)
  | some 'a' => .ok (Text.asciiQuotedChars value)
  | some c => .error (.fault (.unknownConversion c))

/-- Fills a field. `expand` fills the specification if it has fields. -/
def Field.fill (values : List (List Char))
    (expand : Numbering → List Char → Except Stop (List Char × Numbering)) (field : Field)
    (numbering : Numbering) : Except Stop (List Char × Numbering) :=
  match resolve values numbering field.name with
  | .error stop => .error stop
  | .ok (value, numbering) =>
      match convert value field.conversion with
      | .error stop => .error stop
      | .ok value =>
          let spec :=
            if '\x7b' ∈ field.spec then expand numbering field.spec else .ok (field.spec, numbering)
          match spec with
          | .error stop => .error stop
          | .ok (spec, numbering) =>
              match Text.format spec value with
              | .error fault => .error (.fault (.format fault))
              | .ok value => .ok (value, numbering)

/-! ### Templates -/

/-- Where a reader of a template stands. What has been read of a part is kept in reverse. -/
inductive Place where
  | text
  | name (reversed : List Char)
  /-- In brackets in a name. -/
  | index (reversed : List Char)
  | conversion (name : List Char)
  | behindConversion (name : List Char) (conversion : Char)
  /-- In a specification, inside of as many braces as its depth. -/
  | spec (name : List Char) (conversion : Option Char) (reversed : List Char) (depth : Nat)

/-- What a reader at some place makes of the end of a template. -/
def Place.atEnd (numbering : Numbering) : Place → Except Stop (List Char × Numbering)
  | text => .ok ([], numbering)
  | name _ => .error (.fault .unclosedField)
  | index _ => .error (.fault .unclosedField)
  | conversion _ => .error (.fault .noConversion)
  | behindConversion _ _ => .error (.fault .unclosedSpec)
  | spec _ _ _ _ => .error (.fault .unclosedSpec)

/-- What a reader does with a character inside a field. -/
inductive FieldMove where
  | goOn (place : Place)
  | close (field : Field)
  | stop (fault : Fault)

def Place.move (c : Char) : Place → FieldMove
  | text => .goOn text
  | name reversed =>
      match c with
      | '\x7b' => .stop .nestedOpening
      | '[' => .goOn (index (c :: reversed))
      | '\x7d' => .close ⟨reversed.reverse, none, []⟩
      | ':' => .goOn (spec reversed.reverse none [] 1)
      | '!' => .goOn (conversion reversed.reverse)
      | _ => .goOn (name (c :: reversed))
  | index reversed =>
      if c = ']' then .goOn (name (c :: reversed)) else .goOn (index (c :: reversed))
  | conversion taken => .goOn (behindConversion taken c)
  | behindConversion taken how =>
      match c with
      | '\x7d' => .close ⟨taken, some how, []⟩
      | ':' => .goOn (spec taken (some how) [] 1)
      | _ => .stop .noColon
  | spec taken how reversed depth =>
      match c with
      | '\x7b' => .goOn (spec taken how (c :: reversed) (depth + 1))
      | '\x7d' =>
          if depth = 1 then .close ⟨taken, how, reversed.reverse⟩
          else .goOn (spec taken how (c :: reversed) (depth - 1))
      | _ => .goOn (spec taken how (c :: reversed) depth)

def putFront (front : List Char) (behind : Except Stop (List Char × Numbering)) :
    Except Stop (List Char × Numbering) :=
  behind.map fun (text, numbering) => (front ++ text, numbering)

/-- Fills the rest of a template. -/
def fillFrom (values : List (List Char))
    (expand : Numbering → List Char → Except Stop (List Char × Numbering)) :
    Numbering → Place → List Char → Except Stop (List Char × Numbering)
  | numbering, place, [] => place.atEnd numbering
  | _, .text, ['\x7b'] => .error (.fault .loneOpening)
  | numbering, .text, '\x7b' :: '\x7b' :: rest =>
      putFront ['\x7b'] (fillFrom values expand numbering .text rest)
  | numbering, .text, '\x7b' :: rest => fillFrom values expand numbering (.name []) rest
  | numbering, .text, '\x7d' :: '\x7d' :: rest =>
      putFront ['\x7d'] (fillFrom values expand numbering .text rest)
  | _, .text, '\x7d' :: _ => .error (.fault .loneClosing)
  | numbering, .text, c :: rest => putFront [c] (fillFrom values expand numbering .text rest)
  | numbering, place, c :: rest =>
      match place.move c with
      | .stop fault => .error (.fault fault)
      | .goOn place => fillFrom values expand numbering place rest
      | .close field =>
          match field.fill values expand numbering with
          | .error stop => .error stop
          | .ok (filled, numbering) => putFront filled (fillFrom values expand numbering .text rest)

/-- Fills a template with texts. -/
def fill (template : String) (values : List String) : Except Stop String :=
  let values := values.map String.toList
  let tooDeep := fun _ _ => .error (.fault .tooManyLevels)
  let expand := fun numbering => fillFrom values tooDeep numbering .text
  (fillFrom values expand .undecided .text template.toList).map fun (text, _) => String.ofList text

end LambdaCalculus.Template
