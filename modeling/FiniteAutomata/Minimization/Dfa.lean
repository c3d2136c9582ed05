import FiniteAutomata.Search
import FiniteAutomata.Table

/-! # Deterministic automata on positions

A transition table with its rows as positions, so that every move stays within the automaton, and its
completion: one more position, the sink, takes all the moves that are missing. Two states are
equivalent in the completion exactly when the same words are accepted from them.
-/
namespace FiniteAutomata

structure Dfa (n : Nat) where
  start : Fin n
  accepting : Vector Bool n
  /-- For each position, where each symbol leads, the symbols in ascending order. -/
  moves : Vector (List (Option (Fin n))) n

namespace Table

def position (t : Table) (row : Nat) : Outcome (Fin t.rowCount) :=
  if h : row < t.rowCount then .ok ⟨row, h⟩ else .error (.fault .outOfRange)

def target (t : Table) (row : Fin t.rowCount) (column : Nat) :
    Outcome (Option (Fin t.rowCount)) := do
  match ← t.cell row column with
  | none => return none
  | some next => some <$> t.position next

def dfa (t : Table) : Outcome (Dfa t.rowCount) := do
  let start ← t.position t.initial
  let accepting ← Vector.ofFnM fun row : Fin t.rowCount => t.isAccepting row
  let moves ← Vector.ofFnM fun row : Fin t.rowCount =>
    (List.range t.alphabet.length).mapM (t.target row)
  return { start, accepting, moves }

end Table

/-- A deterministic automaton in which every symbol leads somewhere. -/
structure CompleteDfa (m : Nat) where
  accepting : Vector Bool m
  moves : Vector (List (Fin m)) m

namespace Dfa
variable {n : Nat}

def reachable (d : Dfa n) : StateSet n :=
  Search.reach (fun i => (d.moves.get i).filterMap fun next => next) (.singleton d.start)

/-- Adds the sink behind the positions, with as many moves as there are symbols. -/
def completed (d : Dfa n) (symbols : Nat) : CompleteDfa (n + 1) :=
  { accepting := d.accepting.push false
    moves := (d.moves.map fun row => row.map fun next => next.elim (Fin.last n) Fin.castSucc).push
      (.replicate symbols (Fin.last n)) }

end Dfa
end FiniteAutomata
