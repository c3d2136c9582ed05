import FiniteAutomata.Automaton

/-! # Drawings

Automata as graphs in the DOT format. States are numbered in their order; initial states carry an
arrow before their label and final states a mark behind it. A transition is drawn between the first
states that have its ids, and left out if there are none.
-/
namespace FiniteAutomata
namespace Dot

/-- A character inside a quoted label. -/
def escape (c : Char) : List Char :=
  if c = '"' ∨ c = '\\' then ['\\', c] else if c = '\n' then ['\\', 'l'] else [c]

def quoted (label : String) : String := "\"" ++ .ofList (label.toList.flatMap escape) ++ "\""

def stateLabel (s : State) : String :=
  (if s.isInitial then "→ " else "") ++ s.label ++ (if s.isFinal then " ✓" else "")

def node (number : Nat) (s : State) : String :=
  "    " ++ toString number ++ " [ label = " ++ quoted (stateLabel s) ++ " ]\n"

def number? (a : Automaton) (id : StateId) : Option Nat := a.states.findIdx? (·.id == id)

def edge? (a : Automaton) (t : Transition) : Option String := do
  let source ← number? a t.source
  let target ← number? a t.target
  return "    " ++ toString source ++ " -> " ++ toString target ++ " [ label = "
    ++ quoted t.label.mark.toString ++ " ]\n"

end Dot

def Automaton.dot (a : Automaton) : String :=
  "digraph \x7b\n"
    ++ String.join (a.states.zipIdx.map fun (s, number) => Dot.node number s)
    ++ String.join (a.transitions.filterMap (Dot.edge? a))
    ++ "\x7d\n"

end FiniteAutomata
