/-! # Transition labels

A label is either a symbol of the alphabet or epsilon, which consumes nothing. Outside the program
both are written as one character; `e` stands for epsilon, and `ε` is understood as well, so neither
character can be a symbol of an automaton that was read from text.
-/
namespace FiniteAutomata

inductive Label where
  | epsilon
  | symbol (c : Char)
  deriving DecidableEq, Repr, Inhabited

namespace Label

/-- The character that stands for epsilon in written records. -/
def epsilonMark : Char := 'e'

/-- The label for an optional symbol, nothing meaning epsilon. -/
def ofSymbol? : Option Char → Label
  | none => epsilon
  | some c => symbol c

def symbol? : Label → Option Char
  | epsilon => none
  | symbol c => some c

def isEpsilon : Label → Bool
  | epsilon => true
  | symbol _ => false

def mark : Label → Char
  | epsilon => epsilonMark
  | symbol c => c

/-- Reading a written label: both spellings of epsilon, or any other character as itself. -/
def ofMark (c : Char) : Label :=
  if c = epsilonMark ∨ c = 'ε' then epsilon else symbol c

/-- Epsilon comes first, symbols follow in the order of their code points. -/
def le : Label → Label → Bool
  | epsilon, _ => true
  | symbol _, epsilon => false
  | symbol a, symbol b => a ≤ b

@[simp] theorem ofSymbol?_symbol? (l : Label) : ofSymbol? l.symbol? = l := by
  cases l <;> rfl

/-- Writing a label and reading it back loses exactly the symbols that spell epsilon. -/
theorem ofMark_mark (l : Label) :
    ofMark l.mark = if l = symbol epsilonMark ∨ l = symbol 'ε' then epsilon else l := by
  cases l with
  | epsilon => simp [mark, ofMark]
  | symbol c =>
    unfold mark ofMark
    simp only [symbol.injEq]

theorem ofMark_ne_reserved (c : Char) :
    ofMark c ≠ symbol epsilonMark ∧ ofMark c ≠ symbol 'ε' := by
  unfold ofMark
  split
  · simp
  · rename_i h
    simpa using h

end Label
end FiniteAutomata
