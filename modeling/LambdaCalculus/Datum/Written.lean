import LambdaCalculus.Datum.Basic
import LambdaCalculus.Datum.Shortest
import LambdaCalculus.Term.Foreign
import LambdaCalculus.Text.Quoted

/-!
# The written form of data

`inline` writes a datum so that it can be told from any other; texts are quoted in it. `shown` is
the form for reading: a text stands for itself, and all else as in `inline`.
-/

namespace LambdaCalculus.Datum

mutual

/-- A datum on one line. -/
def inline : Datum → String
  | null => "None"
  | bool value => if value then "True" else "False"
  | int value => toString value
  | double value => value.written
  | text value => Text.quoted value
  | list items => "[" ++ String.intercalate ", " (inlineItems items) ++ "]"
  | record fields => "\x7b" ++ String.intercalate ", " (inlineFields fields) ++ "\x7d"

def inlineItems : List Datum → List String
  | [] => []
  | item :: rest => inline item :: inlineItems rest

def inlineFields : List (String × Datum) → List String
  | [] => []
  | (key, value) :: rest => (Text.quoted key ++ ": " ++ inline value) :: inlineFields rest

end

/-- A datum for reading. -/
def shown : Datum → String
  | text value => value
  | other => other.inline

instance : Foreign Datum := ⟨inline, typeName⟩

end LambdaCalculus.Datum
