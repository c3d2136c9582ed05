import FiniteAutomata.Index
import FiniteAutomata.Search

/-! # Power-states

A nondeterministic automaton is run by keeping the set of states it may be in. Such a power-state is
closed under epsilon transitions: it is the closure of a set, or the closure of what a set reaches on
one symbol.
-/
namespace FiniteAutomata
namespace Index
variable {n : Nat}

/-- Everything that epsilon transitions reach from a set, the set included. -/
def closure (ix : Index n) (s : StateSet n) : StateSet n := Search.reach (ix.targets .epsilon) s

/-- What one transition on the symbol reaches from a set. -/
def move (ix : Index n) (s : StateSet n) (c : Char) : StateSet n :=
  .ofList (s.toList.flatMap (ix.targets (.symbol c)))

def step (ix : Index n) (s : StateSet n) (c : Char) : StateSet n := ix.closure (ix.move s c)

/-- The power-state before the first symbol. -/
def start (ix : Index n) (initial : Fin n) : StateSet n := ix.closure (.singleton initial)

/-- The positions of a list of ids; the first id without a state is reported. -/
def locate (ix : Index n) (ids : List StateId) : Outcome (List (Fin n)) :=
  ids.mapM fun id =>
    match ix.positions[id]? with
    | some i => .ok i
    | none => .refuse (.unknownState id)

def closureOf (ix : Index n) (ids : List StateId) : Outcome (List StateId) := do
  let positions ← ix.locate ids
  return ix.ids (ix.closure (.ofList positions))

end Index

def Automaton.closureOf (a : Automaton) (ids : List StateId) : Logged (List StateId) := do
  let ix ← Index.ofAutomaton a
  .silent (ix.closureOf ids)

end FiniteAutomata
