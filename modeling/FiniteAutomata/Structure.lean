import FiniteAutomata.Index
import FiniteAutomata.Search

/-! # Useless states

A state takes part in an accepting run exactly when it is reachable from the initial state and some
final state is reachable from it. The report lists the states that fail one or the other.
-/
namespace FiniteAutomata
namespace Index
variable {n : Nat}

/-- The positions reachable from the given one over any transitions. -/
def reachable (ix : Index n) (initial : Fin n) : StateSet n :=
  Search.reach ix.successors (.singleton initial)

/-- The positions from which a final state is reachable, found by searching backwards. -/
def productive (ix : Index n) : StateSet n := Search.reach (fun i => ix.incoming.get i) ix.accepting

end Index

structure StructureReport where
  /-- Not reachable from the initial state. -/
  unreachable : List StateId
  /-- Without a way to a final state. -/
  dead : List StateId
  /-- Dead, yet reachable. -/
  trap : List StateId
  deriving DecidableEq, Repr

def Automaton.structureReport (a : Automaton) : Logged StructureReport :=
  if a.isEmpty then .refuse .emptyAutomaton
  else do
    let ix ← Index.ofAutomaton a
    let initial ← .silent ix.requireInitial
    let reachable := ix.reachable initial
    let unreachable := StateSet.full.diff reachable
    let dead := StateSet.full.diff ix.productive
    let trap := dead.inter reachable
    .emit (.classified unreachable.size dead.size trap.size)
    return ⟨ix.ids unreachable, ix.ids dead, ix.ids trap⟩

end FiniteAutomata
