import FiniteAutomata.Search
import FiniteAutomata.Table

/-! # Strong components

A graph on positions, given by its arcs, some of which consume a symbol. The strong components are
listed and numbered as they come, in a table with an entry for each position. An arc that consumes a
symbol lies on a cycle exactly when both its ends have the same number.
-/
namespace FiniteAutomata

structure Arc (n : Nat) where
  source : Fin n
  target : Fin n
  /-- Whether a symbol is read on the way. -/
  consumes : Bool
  deriving DecidableEq

structure ArcGraph (n : Nat) where
  arcs : List (Arc n)

namespace ArcGraph
variable {n : Nat}

def successors (g : ArcGraph n) (i : Fin n) : List (Fin n) :=
  (g.arcs.filter fun e => e.source == i).map (·.target)

/-- What can be reached from each position. -/
def reached (g : ArcGraph n) : Vector (StateSet n) n :=
  let rows := Vector.ofFn g.successors
  Vector.ofFn fun i => Search.reach rows.get (.singleton i)

/-- The positions that one position reaches and is reached from, in ascending order. -/
def component (reached : Vector (StateSet n) n) (i : Fin n) : List (Fin n) :=
  (List.finRange n).filter fun j => (reached.get i).contains j && (reached.get j).contains i

/-- The strong components, each of them when its least position comes. -/
def strongComponents (g : ArcGraph n) : List (List (Fin n)) :=
  let reached := g.reached
  (List.finRange n).filterMap fun i =>
    let members := component reached i
    if members.head? = some i then some members else none

/-- For each position, the number of the component that it is listed in. -/
def numbers (components : List (List (Fin n))) : Outcome (Array Nat) :=
  components.zipIdx.foldlM
    (fun numbers e => e.1.foldlM (fun numbers i => Table.store numbers i.val e.2) numbers)
    (.replicate n 0)

/-- Whether an arc that consumes a symbol stays within one of the components. -/
def hasConsumingCycle (g : ArcGraph n) (components : List (List (Fin n))) : Outcome Bool := do
  let numbers ← numbers components
  g.arcs.anyM fun e =>
    if e.consumes then do
      let source ← Table.entry numbers e.source.val
      let target ← Table.entry numbers e.target.val
      return source == target
    else return false

end ArcGraph
end FiniteAutomata
