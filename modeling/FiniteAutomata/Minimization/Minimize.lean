import FiniteAutomata.Minimization.Pairs

/-! # Minimization

The states that no word reaches are dropped, and states from which the same words are accepted are
merged. A missing transition is compared as a transition to the sink, which is not itself a state:
a class that holds the sink alone is dropped, and a merged state has exactly the transitions of the
first of its members.
-/
namespace FiniteAutomata
namespace Minimization
variable {n : Nat}

/-- The reachable positions in ascending order, followed by the sink. -/
def points (d : Dfa n) : List (Fin (n + 1)) := d.reachable.toList.map Fin.castSucc ++ [Fin.last n]

/-- The classes that hold a state. -/
def stateClasses (marks : Marks (n + 1)) (points : List (Fin (n + 1))) :
    List (List (Fin (n + 1))) :=
  (marks.classes points).filter (· ≠ [Fin.last n])

def members (cls : List (Fin (n + 1))) : List (Fin n) :=
  cls.filterMap fun p => if h : p.val < n then some ⟨p.val, h⟩ else none

def classOf? (classes : List (List (Fin (n + 1)))) (i : Fin n) : Option Nat :=
  classes.findIdx? (·.contains i.castSucc)

def stateOf (d : Dfa n) (number : Nat) (cls : List (Fin n)) : State :=
  .onGrid .resultLayout "M" (.ofNat number) (cls.contains d.start)
    (cls.any fun i => d.accepting.get i)

/-- The transitions of a class, taken from the first of its states. -/
def transitionsOf (d : Dfa n) (alphabet : Alphabet) (classes : List (List (Fin (n + 1))))
    (number : Nat) (cls : List (Fin n)) : Outcome (List Transition) := do
  let first ← .promised .emptyClass cls.head?
  return (alphabet.zip (d.moves.get first)).filterMap fun (c, next) => do
    let target ← classOf? classes (← next)
    return ⟨.ofNat number, .ofNat target, .symbol c⟩

/-- The automaton of the classes, numbered in their order. -/
def assemble (d : Dfa n) (alphabet : Alphabet) (classes : List (List (Fin (n + 1)))) :
    Outcome Automaton := do
  let numbered := classes.zipIdx.map fun (cls, number) => (members cls, number)
  let transitions ← numbered.mapM fun (cls, number) =>
    transitionsOf d alphabet classes number cls
  return {
    states := numbered.map fun (cls, number) => stateOf d number cls
    transitions := transitions.flatten }

end Minimization

/-- The smallest automaton for the language of a deterministic one, its states labelled `M0`, `M1`, …
in the order of their smallest ids. Without states there is nothing to do. -/
def Automaton.minimize (a : Automaton) (limits : Limits) : Logged Automaton :=
  if a.isEmpty then pure .empty
  else do
    let table ← a.table
    let d ← .silent table.dfa
    let points := Minimization.points d
    .emit (.pruned (table.rowCount - d.reachable.size))
    match Marks.fill (d.completed table.alphabet.length) points limits with
    | .error e => .refuse e
    | .ok settled =>
      .emit (.pairsSettled settled.rounds settled.checks)
      let minimal ←
        .silent (Minimization.assemble d table.alphabet
          (Minimization.stateClasses settled.marks points))
      .emit (.minimized a.states.length minimal.states.length)
      return minimal

end FiniteAutomata
