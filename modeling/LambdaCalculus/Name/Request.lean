import LambdaCalculus.Failure.Unforeseen
import LambdaCalculus.Name.Bounded

/-!
# Names on request

A name can be asked for with any whole number, but subscripts have no sign, and the numbers in names
are read and written up to a length only. A request that is not refused is answered by `subscript`,
`split` or `fresh`.
-/

namespace LambdaCalculus.Name.Request

def bound : Bound := some Numeral.digitLimit

/-- A value as an answer, unless a number is too long. -/
def answer {β : Type} (fault : Option LongNumber) (value : β) : Except Unforeseen β :=
  match fault with
  | some fault => .error (.longNumber fault)
  | none => .ok value

/-- Writes a number behind a base in subscript digits. A negative number is refused like a text
whose first character is no digit. -/
def subscript (base : String) : Int → Except Unforeseen String
  | .ofNat n => answer (writingFault? bound n) (Name.subscript base n)
  | .negSucc _ => .error (.noNumber "-" .malformed)

def split (name : String) : Except Unforeseen (String × Option Nat) :=
  answer (splitFault? bound name) (Name.split name)

def fresh (seed : String) (used : List String) : Except Unforeseen String :=
  answer (freshFault? bound seed used) (Name.fresh seed used)

/-! ### Answers -/

theorem answer_eq_ok_iff {β : Type} {fault : Option LongNumber} {value result : β} :
    answer fault value = .ok result ↔ fault = none ∧ value = result := by
  cases fault <;> simp [answer]

/-- A number that is written behind a base is a natural one, and the name is the exact one. -/
theorem subscript_eq_ok_iff {base name : String} {number : Int} :
    subscript base number = .ok name ↔
      ∃ n : Nat, number = n ∧ writingFault? bound n = none ∧ Name.subscript base n = name := by
  cases number with
  | ofNat n =>
      rw [subscript, answer_eq_ok_iff]
      constructor
      · rintro ⟨hfault, rfl⟩
        exact ⟨n, rfl, hfault, rfl⟩
      · rintro ⟨m, hm, hfault, rfl⟩
        obtain rfl := Int.ofNat.inj hm
        exact ⟨hfault, rfl⟩
  | negSucc n =>
      constructor
      · intro h
        contradiction
      · rintro ⟨m, hm, -⟩
        contradiction

theorem split_eq_ok_iff {name : String} {parts : String × Option Nat} :
    split name = .ok parts ↔ splitFault? bound name = none ∧ Name.split name = parts :=
  answer_eq_ok_iff

theorem fresh_eq_ok_iff {seed name : String} {used : List String} :
    fresh seed used = .ok name ↔ freshFault? bound seed used = none ∧ Name.fresh seed used = name :=
  answer_eq_ok_iff

end LambdaCalculus.Name.Request
