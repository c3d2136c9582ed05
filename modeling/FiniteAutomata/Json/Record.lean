import FiniteAutomata.Json.Value
import FiniteAutomata.Decimal.Scaled

/-! # Reading records from JSON

A record is an object with named members, in any order, or the array of its fields in their order,
of which the last ones may be left out. Members with other names are passed over; a known name must
not be repeated.
-/
namespace FiniteAutomata
namespace Json

/-- The member of a name, which must not be repeated. -/
def member? (members : List (Quoted × Json)) (name : String) : Option (Option Json) :=
  match members.filter (·.1 == some name) with
  | [] => some none
  | [(_, v)] => some (some v)
  | _ => none

/-- The fields of a record in the order of their names, each if it is given. -/
def fields? (names : List String) : Json → Option (List (Option Json))
  | obj members => if members.any (·.1.isNone) then none else names.mapM (member? members)
  | arr items =>
    if names.length < items.length then none
    else some (items.map some ++ .replicate (names.length - items.length) none)
  | _ => none

def required {α : Type} (read : Json → Option α) (field : Option Json) : Option α := field.bind read

def optional {α : Type} (default : α) (read : Json → Option α) : Option Json → Option α
  | none => some default
  | some v => read v

def bool? : Json → Option Bool
  | bool b => some b
  | _ => none

def text? : Json → Option String
  | str s => s
  | _ => none

def char? (v : Json) : Option Char := do
  match (← v.text?).toList with
  | [c] => some c
  | _ => none

def float? : Json → Option Float
  | num n => n.float?
  | _ => none

def natUpTo? (bound : Nat) : Json → Option Nat
  | num n => do
    let value ← n.natural?
    if value ≤ bound then some value else none
  | _ => none

def list? {α : Type} (read : Json → Option α) : Json → Option (List α)
  | arr items => items.mapM read
  | _ => none

end Json
end FiniteAutomata
