import FiniteAutomata.Logged
import FiniteAutomata.Regex.Postfix

/-! # Thompson's construction

A pattern is compiled into an automaton with epsilon transitions by going through its postfix order
with a stack of fragments. A fragment has one state to enter and one to leave by; an operator joins
the topmost fragments by epsilon transitions, and alternatives and repetitions get two states of
their own. States are numbered in the order in which they are made.
-/
namespace FiniteAutomata
namespace Regex

/-- The number of the state that enters a part of the automaton, and of the one that leaves it. -/
structure Fragment where
  entry : Nat
  exit : Nat
  deriving DecidableEq, Repr

/-- What has been built: how many states, and the transitions between them. -/
structure Builder where
  size : Nat := 0
  transitions : Array Transition := #[]

namespace Builder

def connect (b : Builder) (source target : Nat) (label : Label) : Builder :=
  { b with transitions := b.transitions.push ⟨.ofNat source, .ofNat target, label⟩ }

/-- Makes two states, to enter and to leave a new part by. -/
def newPair (b : Builder) : Fragment × Builder :=
  (⟨b.size, b.size + 1⟩, { b with size := b.size + 2 })

def symbol (b : Builder) (c : Char) : Fragment × Builder :=
  let (f, b) := b.newPair
  (f, b.connect f.entry f.exit (.symbol c))

def concat (b : Builder) (first second : Fragment) : Fragment × Builder :=
  (⟨first.entry, second.exit⟩, b.connect first.exit second.entry .epsilon)

def union (b : Builder) (left right : Fragment) : Fragment × Builder :=
  let (f, b) := b.newPair
  (f, (((b.connect f.entry left.entry .epsilon).connect f.entry right.entry .epsilon).connect
    left.exit f.exit .epsilon).connect right.exit f.exit .epsilon)

def star (b : Builder) (inner : Fragment) : Fragment × Builder :=
  let (f, b) := b.newPair
  (f, (((b.connect f.entry f.exit .epsilon).connect f.entry inner.entry .epsilon).connect
    inner.exit f.exit .epsilon).connect inner.exit inner.entry .epsilon)

/-- The states made, none of them flagged yet. -/
def states (b : Builder) : List State :=
  (List.range b.size).map fun number =>
    .onGrid .patternLayout "q" (.ofNat number) false false

/-- Changes the state with a number, which has to be among those made. -/
def flag (states : List State) (number : Nat) (change : State → State) : Outcome (List State) := do
  let s ← .promised .outOfRange states[number]?
  return states.set number (change s)

/-- The automaton built, with the states of one fragment as its initial and its final state. -/
def finish (b : Builder) (f : Fragment) : Outcome Automaton := do
  let states ← flag b.states f.entry fun s => { s with isInitial := true }
  let states ← flag states f.exit fun s => { s with isFinal := true }
  return { states, transitions := b.transitions.toList }

end Builder

/-- The automaton under construction and the fragments not yet joined, the topmost first. -/
structure Assembly where
  builder : Builder := {}
  stack : List Fragment := []

namespace Assembly

def push (stack : List Fragment) (built : Fragment × Builder) : Assembly :=
  ⟨built.2, built.1 :: stack⟩

def missing (p : Placed) : Outcome Assembly :=
  .refuse (.badPattern (.missingOperand p.token.name p.position))

def apply (s : Assembly) (p : Placed) : Outcome Assembly :=
  match p.token, s.stack with
  | .symbol c, stack => .ok (push stack (s.builder.symbol c))
  | .concat, second :: first :: stack => .ok (push stack (s.builder.concat first second))
  | .concat, _ => missing p
  | .union, right :: left :: stack => .ok (push stack (s.builder.union left right))
  | .union, _ => missing p
  | .star, inner :: stack => .ok (push stack (s.builder.star inner))
  | .star, [] => missing p
  | .opening, _ | .closing, _ => .error (.fault .strayParenthesis)

end Assembly

def ofPostfix (tokens : Postfix) : Outcome Automaton := do
  let s ← tokens.foldlM Assembly.apply {}
  match s.stack with
  | [f] => s.builder.finish f
  | stack => .refuse (.badPattern (.danglingOperands stack.length))

/-- The automaton of the pattern without symbols: one state, initial and final. -/
def ofEmpty : Outcome Automaton := Builder.finish { size := 1 } ⟨0, 0⟩

/-- Compiles a pattern. The result has one initial and one final state. -/
def compile (pattern : String) : Logged Automaton :=
  match Postfix.ofPattern pattern.toList with
  | .error e => .refuse (.badPattern e)
  | .ok [] => .silent ofEmpty
  | .ok tokens => do
    let a ← .silent (ofPostfix tokens)
    .emit (.compiled pattern a.states.length a.transitions.length)
    return a

end Regex
end FiniteAutomata
