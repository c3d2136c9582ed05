import FiniteAutomata.Automaton

/-! # Why an operation stops

An operation stops either because it refuses its input, which is an `Error` with a kind and a text
for the user, or because one of its own tables lacks an entry that its construction promised, which
is a `Fault`. Faults are kept apart so that it can be stated, and proved, that none is ever met.
-/
namespace FiniteAutomata

/-- What is wrong with a pattern; positions count characters from 0. -/
inductive SyntaxError where
  | unmatchedParenthesis (position : Nat)
  | missingOperand (operator : Char) (position : Nat)
  | unexpectedCharacter (character : Char) (position : Nat)
  | reservedSymbol (position : Nat)
  | danglingOperands (count : Nat)
  deriving DecidableEq, Repr

namespace SyntaxError

def message : SyntaxError → String
  | unmatchedParenthesis position => "unmatched parenthesis at position " ++ toString position
  | missingOperand operator position =>
    "operator '" ++ operator.toString ++ "' at position " ++ toString position
      ++ " is missing an operand"
  | unexpectedCharacter character position =>
    "unexpected character '" ++ character.toString ++ "' at position " ++ toString position
  | reservedSymbol position =>
    "'e' at position " ++ toString position ++ " is reserved for epsilon and cannot be a symbol"
  | danglingOperands count =>
    "expression leaves " ++ toString count ++ " unconnected operands"

end SyntaxError

inductive Resource where
  | powerStates
  | pairChecks
  deriving DecidableEq, Repr

def Resource.name : Resource → String
  | powerStates => "subset construction states"
  | pairChecks => "minimization pair checks"

inductive Error where
  | malformed
  | emptyAutomaton
  | missingInitial
  | duplicateState (id : StateId)
  | unknownState (id : StateId)
  | danglingTransition (source target missing : StateId)
  | epsilonInDeterministic
  | notDeterministic (stateLabel : String) (symbol : Char)
  | badPattern (error : SyntaxError)
  | resourceLimit (resource : Resource) (limit : Nat)
  deriving DecidableEq, Repr

/-- The machine-readable classification of errors. -/
inductive ErrorKind where
  | malformed
  | invalidAutomaton
  | notDeterministic
  | regexSyntax
  | resourceLimit
  deriving DecidableEq, Repr

def ErrorKind.name : ErrorKind → String
  | malformed => "malformed"
  | invalidAutomaton => "invalid-automaton"
  | notDeterministic => "not-deterministic"
  | regexSyntax => "regex-syntax"
  | resourceLimit => "resource-limit"

namespace Error

def kind : Error → ErrorKind
  | malformed => .malformed
  | emptyAutomaton | missingInitial | duplicateState _ | unknownState _ | danglingTransition .. =>
    .invalidAutomaton
  | epsilonInDeterministic | notDeterministic .. => .notDeterministic
  | badPattern _ => .regexSyntax
  | resourceLimit .. => .resourceLimit

def message : Error → String
  | malformed => "malformed input"
  | emptyAutomaton => "automaton is empty"
  | missingInitial => "automaton has no initial state"
  | duplicateState id => "state id " ++ toString id.toNat ++ " is used more than once"
  | unknownState id => "state " ++ toString id.toNat ++ " does not exist"
  | danglingTransition source target missing =>
    "transition " ++ toString source.toNat ++ " -> " ++ toString target.toNat
      ++ " references state " ++ toString missing.toNat ++ ", which does not exist"
  | epsilonInDeterministic => "automaton contains epsilon transitions and is not a DFA"
  | notDeterministic stateLabel symbol =>
    "automaton is not deterministic (state " ++ stateLabel
      ++ " has more than one transition on '" ++ symbol.toString ++ "')"
  | badPattern error => error.message
  | resourceLimit resource limit =>
    resource.name ++ " exceeded the limit of " ++ toString limit

end Error

/-- An entry that should have been there and is not. -/
inductive Fault where
  | outOfRange
  | unknownKey
  /-- A class without a state of its own. -/
  | emptyClass
  /-- A parenthesis in an expression in postfix order. -/
  | strayParenthesis
  deriving DecidableEq, Repr

inductive Failure where
  | error (e : Error)
  | fault (f : Fault)
  deriving DecidableEq, Repr

/-- The value of an operation, or why there is none. -/
abbrev Outcome (α : Type) := Except Failure α

namespace Outcome

abbrev refuse {α : Type} (e : Error) : Outcome α := .error (.error e)

/-- A value that a table promised. -/
def promised {α : Type} (f : Fault) : Option α → Outcome α
  | some a => .ok a
  | none => .error (.fault f)

@[simp] theorem promised_some {α : Type} (f : Fault) (a : α) : promised f (some a) = .ok a := rfl

@[simp] theorem promised_none {α : Type} (f : Fault) :
    promised f (none : Option α) = .error (.fault f) := rfl

end Outcome
end FiniteAutomata
