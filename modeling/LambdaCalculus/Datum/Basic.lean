import LambdaCalculus.Datum.Double

/-!
# Data

A datum is a value from outside of the calculus: it may stand where a term should be, it may be what
someone asks a numeral for, or the code that a session is left with. Data are nested lists and
records over numbers, texts, truth values and nothing. A record keeps its fields in order.

Data are equal by what they mean. Numbers are equal by value, whatever their kind, and the truth
values count as one and zero. The order of a record's fields does not matter.
-/

namespace LambdaCalculus

/-- A value from outside of the calculus. -/
inductive Datum where
  | null
  | bool (value : Bool)
  | int (value : Int)
  | double (value : Double)
  | text (value : String)
  | list (items : List Datum)
  | record (fields : List (String × Datum))

namespace Datum

/-- The name of a datum's type, as it appears in refusals. -/
def typeName : Datum → String
  | null => "NoneType"
  | bool _ => "bool"
  | int _ => "int"
  | double _ => "float"
  | text _ => "str"
  | list _ => "list"
  | record _ => "dict"

/-! ### Equality -/

def whole? : Datum → Option Int
  | bool value => some (if value then 1 else 0)
  | int value => some value
  | double value => value.whole?
  | _ => none

/-- Equality of two data that are not made of others. Two doubles that are no whole numbers are
equal if they have the same bits. -/
def sameAtom : Datum → Datum → Bool
  | null, null => true
  | text s, text t => s == t
  | a, b =>
      match a.whole?, b.whole? with
      | some m, some n => m == n
      | none, none =>
          match a, b with
          | double x, double y => x == y
          | _, _ => false
      | _, _ => false

mutual

def same : Datum → Datum → Bool
  | list items, list others => sameItems items others
  | record fields, record others => fields.length == others.length && sameFields fields others
  | a, b => sameAtom a b

def sameItems : List Datum → List Datum → Bool
  | [], [] => true
  | item :: items, other :: others => same item other && sameItems items others
  | _, _ => false

/-- Whether each of some fields is equal to the field of the same name among others. -/
def sameFields : List (String × Datum) → List (String × Datum) → Bool
  | [], _ => true
  | (key, value) :: fields, others =>
      (match others.lookup key with
        | some other => same value other
        | none => false)
      && sameFields fields others

end

instance : BEq Datum := ⟨same⟩

end Datum

end LambdaCalculus
