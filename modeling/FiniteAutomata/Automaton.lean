import FiniteAutomata.Label
import FiniteAutomata.Grid
import FiniteAutomata.Alphabet

/-! # Automata

An automaton is a list of states and a list of transitions between them, as a user drew them: ids are
chosen freely, and nothing is promised about repeated ids, transitions to states that do not exist,
or the number of initial states. Label, coordinates and radius of a state are presentation.
-/
namespace FiniteAutomata

abbrev StateId := UInt32

structure State where
  id : StateId
  label : String := ""
  isInitial : Bool := false
  isFinal : Bool := false
  x : Float := 0
  y : Float := 0
  radius : Float := 30
  deriving Inhabited, DecidableEq

namespace State

/-- A state that carries its id in its label and stands on a grid. -/
def onGrid (grid : Grid) (labelStart : String) (id : StateId) (isInitial isFinal : Bool) : State :=
  let corner := grid.cell id.toNat
  { id, label := labelStart ++ toString id.toNat, isInitial, isFinal, x := corner.1, y := corner.2 }

end State

structure Transition where
  source : StateId
  target : StateId
  label : Label
  deriving Inhabited, DecidableEq

structure Automaton where
  states : List State := []
  transitions : List Transition := []
  deriving Inhabited, DecidableEq

namespace Automaton

def empty : Automaton := {}

/-- Appends a state labelled `q` and its id. -/
def withState (a : Automaton) (id : StateId) (isInitial isFinal : Bool) : Automaton :=
  { a with states := a.states ++ [{ id, label := "q" ++ toString id.toNat, isInitial, isFinal }] }

/-- Appends a transition, no symbol standing for epsilon. -/
def withTransition (a : Automaton) (source target : StateId) (symbol : Option Char) : Automaton :=
  { a with transitions := a.transitions ++ [{ source, target, label := .ofSymbol? symbol }] }

def isEmpty (a : Automaton) : Bool := a.states.isEmpty

def state? (a : Automaton) (id : StateId) : Option State := a.states.find? (·.id == id)

/-- The first state flagged initial; the others so flagged have no effect. -/
def initialState? (a : Automaton) : Option State := a.states.find? (·.isInitial)

def finalStates (a : Automaton) : List State := a.states.filter (·.isFinal)

/-- The symbols on transitions, ascending. -/
def alphabet (a : Automaton) : Alphabet :=
  .ofSymbols (a.transitions.filterMap (·.label.symbol?))

def hasEpsilon (a : Automaton) : Bool := a.transitions.any (·.label.isEpsilon)

end Automaton
end FiniteAutomata
