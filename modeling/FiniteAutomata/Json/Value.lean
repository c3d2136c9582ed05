import FiniteAutomata.Decimal.Numeral

/-! # JSON values

A JSON value as it is written: numbers keep their numerals, and objects keep their members in order,
repeated keys included. An escape may name half of a surrogate pair; a quoted text in which that
happens is well-formed but spells no text.
-/
namespace FiniteAutomata

/-- What a quoted text spells, if it spells a text. -/
abbrev Quoted := Option String

inductive Json where
  | null
  | bool (b : Bool)
  | num (n : Numeral)
  | str (s : Quoted)
  | arr (items : List Json)
  | obj (members : List (Quoted × Json))
  deriving Inhabited

namespace Json

def text (s : String) : Json := str (some s)

def nat (n : Nat) : Json := num (.ofNat n)

def char (c : Char) : Json := text c.toString

/-- An object with distinct keys. -/
def record (members : List (String × Json)) : Json :=
  obj (members.map fun (key, value) => (some key, value))

def option {α : Type} (toJson : α → Json) : Option α → Json
  | none => null
  | some a => toJson a

def list {α : Type} (toJson : α → Json) (items : List α) : Json := arr (items.map toJson)

end Json
end FiniteAutomata
