import FiniteAutomata.Json.Quoted
import FiniteAutomata.Decimal.Shortest

/-! # Writing JSON

Two forms: without any blanks, and for people, each item and member on a line of its own, indented
by two blanks for each array or object around it.
-/
namespace FiniteAutomata
namespace Json

/-- A floating point number; what is not finite has no numeral and is written as null. -/
def float (x : Float) : Json := if x.isFinite then num (.ofFloat x) else null

def boolText (b : Bool) : List Char :=
  if b then ['t', 'r', 'u', 'e'] else ['f', 'a', 'l', 's', 'e']

def nullText : List Char := ['n', 'u', 'l', 'l']

mutual

def compact : Json → List Char
  | null => nullText
  | bool b => boolText b
  | num n => n.text
  | str s => Quoted.write s
  | arr items => '[' :: compactItems items
  | obj members => '\x7b' :: compactMembers members

def compactItems : List Json → List Char
  | [] => [']']
  | [v] => compact v ++ [']']
  | v :: w :: rest => compact v ++ ',' :: compactItems (w :: rest)

def compactMembers : List (Quoted × Json) → List Char
  | [] => ['\x7d']
  | [(k, v)] => Quoted.write k ++ ':' :: (compact v ++ ['\x7d'])
  | (k, v) :: m :: rest => Quoted.write k ++ ':' :: (compact v ++ ',' :: compactMembers (m :: rest))

end

/-- The beginning of a line at a depth of nesting. -/
def newLine (depth : Nat) : List Char := '\n' :: .replicate (2 * depth) ' '

mutual

/-- A value at a depth of nesting, for people. -/
def pretty (depth : Nat) : Json → List Char
  | null => nullText
  | bool b => boolText b
  | num n => n.text
  | str s => Quoted.write s
  | arr [] => ['[', ']']
  | arr (v :: rest) => '[' :: prettyItems depth (v :: rest)
  | obj [] => ['\x7b', '\x7d']
  | obj (m :: rest) => '\x7b' :: prettyMembers depth (m :: rest)

/-- The items of an array at a depth of nesting, each on its line, and the end of the array. -/
def prettyItems (depth : Nat) : List Json → List Char
  | [] => newLine depth ++ [']']
  | [v] => newLine (depth + 1) ++ pretty (depth + 1) v ++ newLine depth ++ [']']
  | v :: w :: rest =>
    newLine (depth + 1) ++ pretty (depth + 1) v ++ ',' :: prettyItems depth (w :: rest)

def prettyMembers (depth : Nat) : List (Quoted × Json) → List Char
  | [] => newLine depth ++ ['\x7d']
  | [(k, v)] =>
    newLine (depth + 1) ++ Quoted.write k ++ [':', ' '] ++ pretty (depth + 1) v ++ newLine depth
      ++ ['\x7d']
  | (k, v) :: m :: rest =>
    newLine (depth + 1) ++ Quoted.write k ++ [':', ' '] ++ pretty (depth + 1) v
      ++ ',' :: prettyMembers depth (m :: rest)

end

def compactText (v : Json) : String := .ofList v.compact

def prettyText (v : Json) : String := .ofList (v.pretty 0)

end Json
end FiniteAutomata
