import FiniteAutomata.Failure

/-! # Tokens of patterns

A pattern is written with ASCII letters and digits as symbols, `|` between alternatives, `*` after
what may be repeated, and parentheses. The letter `e` is refused, because it stands for epsilon in
written automata. Parts that follow each other are concatenated; the tokens make this explicit.
-/
namespace FiniteAutomata
namespace Regex

inductive Token where
  | symbol (c : Char)
  | union
  | concat
  | star
  | opening
  | closing
  deriving DecidableEq, Repr

/-- A token and the position in the pattern that it belongs to. -/
structure Placed where
  position : Nat
  token : Token
  deriving DecidableEq, Repr

namespace Token

/-- Operators that bind more tightly have a higher precedence. -/
def precedence : Token → Nat
  | union => 1
  | concat => 2
  | star => 3
  | _ => 0

def name : Token → Char
  | symbol c => c
  | union => '|'
  | concat => '.'
  | star => '*'
  | opening => '('
  | closing => ')'

/-- Whether something can be complete with this token. -/
def endsOperand : Token → Bool
  | symbol _ | closing | star => true
  | union | concat | opening => false

/-- Whether something can begin with this token. -/
def startsOperand : Token → Bool
  | symbol _ | opening => true
  | union | concat | star | closing => false

def ofChar (position : Nat) (c : Char) : Except SyntaxError Token :=
  if c = '|' then .ok union
  else if c = '*' then .ok star
  else if c = '(' then .ok opening
  else if c = ')' then .ok closing
  else if c = Label.epsilonMark then .error (.reservedSymbol position)
  else if c.isAlphanum then .ok (symbol c)
  else .error (.unexpectedCharacter c position)

/-- The tokens of the characters from a position on. -/
def scan (position : Nat) : List Char → Except SyntaxError (List Placed)
  | [] => .ok []
  | c :: rest => do
    let token ← ofChar position c
    let later ← scan (position + 1) rest
    return ⟨position, token⟩ :: later

/-- Inserts the concatenations that a pattern leaves out. Each has the position of what follows. -/
def joined : List Placed → List Placed
  | a :: b :: rest =>
    if a.token.endsOperand && b.token.startsOperand then
      a :: ⟨b.position, concat⟩ :: joined (b :: rest)
    else a :: joined (b :: rest)
  | tokens => tokens

end Token
end Regex
end FiniteAutomata
