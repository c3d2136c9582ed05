import Std.Data.TreeMap
import FiniteAutomata.Logged
import FiniteAutomata.StateSet

/-! # The index of an automaton

Every algorithm works on positions `0, …, n - 1`, given to the states in ascending order of their
ids. The index knows the state at a position, the position of an id, and the transitions that leave
and enter a position. Building it refuses repeated ids and transitions to states that do not exist,
so whoever holds an index holds a well-formed automaton.
-/
namespace FiniteAutomata

structure Edge (n : Nat) where
  source : Fin n
  target : Fin n
  label : Label
  deriving DecidableEq

structure Index (n : Nat) where
  /-- The states, ascending by id. -/
  states : Vector State n
  positions : Std.TreeMap StateId (Fin n)
  initial : Option (Fin n)
  accepting : StateSet n
  /-- Labels and targets of the transitions that leave a position, in their order of declaration. -/
  outgoing : Vector (List (Label × Fin n)) n
  /-- Sources of the transitions that enter a position, in their order of declaration. -/
  incoming : Vector (List (Fin n)) n
  alphabet : Alphabet

namespace Index
variable {n : Nat}

def sortedStates (a : Automaton) : Vector State a.states.length :=
  ⟨(a.states.mergeSort fun s t => s.id ≤ t.id).toArray, by simp⟩

/-- The first id of an ascending list that occurs again. -/
def firstRepeat? : List StateId → Option StateId
  | a :: b :: rest => if a = b then some a else firstRepeat? (b :: rest)
  | _ => none

def positionsOf (states : Vector State n) : Std.TreeMap StateId (Fin n) :=
  (List.finRange n).foldl (fun m i => m.insert (states.get i).id i) ∅

def initialPosition (a : Automaton) (positions : Std.TreeMap StateId (Fin n)) :
    Outcome (Option (Fin n)) :=
  match a.initialState? with
  | none => .ok none
  | some s => some <$> .promised .unknownKey positions[s.id]?

/-- The states whose initial flag is ignored. -/
def extraInitials (a : Automaton) : List Event :=
  ((a.states.filter (·.isInitial)).drop 1).map fun s => .extraInitial s.id

/-- The positions of a transition's ends; of two missing ends the source is named. -/
def resolve (positions : Std.TreeMap StateId (Fin n)) (t : Transition) : Outcome (Edge n) :=
  match positions[t.source]?, positions[t.target]? with
  | some source, some target => .ok ⟨source, target, t.label⟩
  | none, _ => .refuse (.danglingTransition t.source t.target t.source)
  | some _, none => .refuse (.danglingTransition t.source t.target t.target)

def outgoingOf (edges : List (Edge n)) : Vector (List (Label × Fin n)) n :=
  edges.foldr
    (fun e rows => rows.set e.source ((e.label, e.target) :: rows.get e.source) e.source.isLt)
    (.replicate n [])

def incomingOf (edges : List (Edge n)) : Vector (List (Fin n)) n :=
  edges.foldr (fun e rows => rows.set e.target (e.source :: rows.get e.target) e.target.isLt)
    (.replicate n [])

def acceptingOf (states : Vector State n) : StateSet n :=
  .ofList ((List.finRange n).filter fun i => (states.get i).isFinal)

/-- The index of an automaton. Of several repeated ids the smallest is reported; the initial flags
without effect are logged before the transitions are looked at. -/
def ofAutomaton (a : Automaton) : Logged (Index a.states.length) :=
  let states := sortedStates a
  match firstRepeat? (states.toList.map (·.id)) with
  | some id => .refuse (.duplicateState id)
  | none => do
    let positions := positionsOf states
    let initial ← .silent (initialPosition a positions)
    .emitAll (extraInitials a)
    let edges ← .silent (a.transitions.mapM (resolve positions))
    return {
      states
      positions
      initial
      accepting := acceptingOf states
      outgoing := outgoingOf edges
      incoming := incomingOf edges
      alphabet := a.alphabet }

/-- The initial position, for the operations that cannot do without. -/
def requireInitial (ix : Index n) : Outcome (Fin n) :=
  match ix.initial with
  | some i => .ok i
  | none => .refuse .missingInitial

def idAt (ix : Index n) (i : Fin n) : StateId := (ix.states.get i).id

/-- The ids of the members of a set, ascending. -/
def ids (ix : Index n) (s : StateSet n) : List StateId := s.toList.map ix.idAt

def isAccepting (ix : Index n) (s : StateSet n) : Bool := s.meets ix.accepting

def targets (ix : Index n) (label : Label) (i : Fin n) : List (Fin n) :=
  (ix.outgoing.get i).filterMap fun e => if e.1 = label then some e.2 else none

def successors (ix : Index n) (i : Fin n) : List (Fin n) := (ix.outgoing.get i).map (·.2)

end Index
end FiniteAutomata
