import FiniteAutomata.PowerState
import FiniteAutomata.Limits

/-! # Determinization

The power-states that words reach become the states of a deterministic automaton. They are numbered
in the order in which a breadth-first search finds them, the symbols taken in ascending order, from 0
for the power-state before the first symbol. The limit is tested each time a power-state is about to
get a new number.
-/
namespace FiniteAutomata

/-- A deterministic automaton, and for each of its states the ids that were merged into it. -/
structure Determinization where
  automaton : Automaton
  powerStates : List (List StateId)
  deriving DecidableEq

namespace Determinization
variable {n : Nat}

/-- The power-states numbered so far, each at its number, and the transitions found between them. -/
structure Progress (n : Nat) where
  sets : Array (StateSet n)
  /-- The number of each power-state, under its key. -/
  numbers : Std.TreeMap Nat Nat
  transitions : Array Transition

def Progress.start (s : StateSet n) : Progress n :=
  ⟨#[s], (∅ : Std.TreeMap Nat Nat).insert s.key 0, #[]⟩

def Progress.number? (p : Progress n) (s : StateSet n) : Option Nat := p.numbers[s.key]?

def Progress.add (p : Progress n) (s : StateSet n) : Progress n :=
  { p with sets := p.sets.push s, numbers := p.numbers.insert s.key p.sets.size }

def Progress.connect (p : Progress n) (source target : Nat) (c : Char) : Progress n :=
  { p with transitions := p.transitions.push ⟨.ofNat source, .ofNat target, .symbol c⟩ }

/-- Follows one symbol from a numbered power-state. When the limit forbids a new number, what was
found up to there is handed back. -/
def follow (ix : Index n) (limit source : Nat) (s : StateSet n) (p : Progress n) (c : Char) :
    Except (Progress n) (Progress n) :=
  let t := ix.step s c
  if t.isEmpty then .ok p
  else
    match p.number? t with
    | some target => .ok (p.connect source target c)
    | none =>
      if limit ≤ p.sets.size then .error p
      else .ok ((p.add t).connect source p.sets.size c)

/-- Expands the numbered power-states one after the other, from the given number on. As a new number
is below the limit, a budget of the limit suffices. -/
def expand (ix : Index n) (limit : Nat) : Nat → Nat → Progress n → Except (Progress n) (Progress n)
  | 0, _, p => .ok p
  | budget + 1, source, p =>
    match p.sets[source]? with
    | none => .ok p
    | some s => do
      let p ← ix.alphabet.foldlM (follow ix limit source s) p
      expand ix limit budget (source + 1) p

/-- All power-states that words reach, with the transitions between them. -/
def explore (ix : Index n) (limit : Nat) (initial : Fin n) : Except (Progress n) (Progress n) :=
  expand ix limit (max limit 1) 0 (.start (ix.start initial))

def discoveries (ix : Index n) (p : Progress n) : List Event :=
  (p.sets.toList.zipIdx.drop 1).map fun (s, number) => .newPowerState number (ix.ids s)

def stateOf (ix : Index n) (labelStart : String) (s : StateSet n) (number : Nat) : State :=
  .onGrid .resultLayout labelStart (.ofNat number) (number == 0) (ix.isAccepting s)

/-- The automaton of the power-states, its states labelled by the given text and their number. -/
def assemble (ix : Index n) (labelStart : String) (p : Progress n) : Determinization :=
  { automaton := {
      states := p.sets.toList.zipIdx.map fun (s, number) => stateOf ix labelStart s number
      transitions := p.transitions.toList }
    powerStates := p.sets.toList.map ix.ids }

def ofIndex (ix : Index n) (labelStart : String) (limits : Limits) (initial : Fin n) :
    Logged Determinization :=
  match explore ix limits.maxPowerStates initial with
  | .error p => do
    .emitAll (discoveries ix p)
    .refuse (.resourceLimit .powerStates limits.maxPowerStates)
  | .ok p => do
    .emitAll (discoveries ix p ++ [.determinized p.sets.size n])
    return assemble ix labelStart p

end Determinization

namespace Automaton

/-- Determinizes any automaton that has an initial state; the new states are `D0`, `D1`, … -/
def determinize (a : Automaton) (limits : Limits) : Logged Determinization := do
  let ix ← Index.ofAutomaton a
  let initial ← .silent ix.requireInitial
  Determinization.ofIndex ix "D" limits initial

def toDeterministic (a : Automaton) (limits : Limits) : Logged Automaton := do
  let d ← a.determinize limits
  return d.automaton

/-- An equivalent automaton without epsilon transitions, its states labelled `s0`, `s1`, …; without
an initial state it is empty. -/
def simplify (a : Automaton) (limits : Limits) : Logged Automaton := do
  let ix ← Index.ofAutomaton a
  match ix.initial with
  | none => return .empty
  | some initial =>
    let d ← Determinization.ofIndex ix "s" limits initial
    return d.automaton

end Automaton
end FiniteAutomata
