import FiniteAutomata.Index

/-! # Transition tables

A deterministic automaton flattened into a table: a row for each state in ascending order of ids, a
column for each symbol, and in each cell the row to go to or nothing. Building the table is the check
of determinism. A cell is addressed by its place in the flattened table, and a place outside it is
answered as such.
-/
namespace FiniteAutomata

structure Table where
  alphabet : Alphabet
  stateIds : List StateId
  /-- The cells, row after row. -/
  cells : Array (Option Nat)
  accepting : Array Bool
  initial : Nat
  deriving DecidableEq, Repr

namespace Table

/-- An entry of a table; outside of it there is none. -/
def entry {α : Type} (xs : Array α) (i : Nat) : Outcome α := .promised .outOfRange xs[i]?

/-- Writes an entry of a table; outside of it there is none to write. -/
def store {α : Type} (xs : Array α) (i : Nat) (a : α) : Outcome (Array α) :=
  if i < xs.size then .ok (xs.setIfInBounds i a) else .error (.fault .outOfRange)

def rowCount (t : Table) : Nat := t.stateIds.length

def stateId (t : Table) (row : Nat) : Outcome StateId := .promised .outOfRange t.stateIds[row]?

def isAccepting (t : Table) (row : Nat) : Outcome Bool := entry t.accepting row

def cell (t : Table) (row column : Nat) : Outcome (Option Nat) :=
  entry t.cells (row * t.alphabet.length + column)

/-- The row after a symbol; a symbol outside the alphabet leads nowhere, whatever the row. -/
def next (t : Table) (row : Nat) (c : Char) : Outcome (Option Nat) :=
  match t.alphabet.column? c with
  | none => .ok none
  | some column => t.cell row column

def run (t : Table) (row : Nat) : List Char → Outcome Bool
  | [] => t.isAccepting row
  | c :: rest => do
    match ← t.next row c with
    | none => return false
    | some row => run t row rest

def accepts (t : Table) (word : String) : Outcome Bool := t.run t.initial word.toList

/-- Enters a transition into its cell, which has to be free. -/
def enter {n : Nat} (ix : Index n) (cells : Array (Option Nat)) (t : Transition) :
    Outcome (Array (Option Nat)) :=
  match t.label with
  | .epsilon => .refuse .epsilonInDeterministic
  | .symbol c =>
    match ix.positions[t.source]?, ix.positions[t.target]?, ix.alphabet.column? c with
    | some source, some target, some column => do
      let place := source * ix.alphabet.length + column
      match ← entry cells place with
      | some _ => .refuse (.notDeterministic (ix.states.get source).label c)
      | none => return cells.setIfInBounds place (some target.val)
    | _, _, _ => .ok cells

/-- The table of an indexed automaton. The transitions are entered in their order of declaration,
and the initial state is asked for last. -/
def ofIndex {n : Nat} (ix : Index n) (transitions : List Transition) : Outcome Table := do
  let cells ← transitions.foldlM (enter ix) (Array.replicate (n * ix.alphabet.length) none)
  let initial ← ix.requireInitial
  return {
    alphabet := ix.alphabet
    stateIds := ix.ids .full
    cells
    accepting := ((List.finRange n).map ix.accepting.contains).toArray
    initial }

end Table

namespace Automaton

/-- The table of a deterministic automaton; any other is refused. -/
def table (a : Automaton) : Logged Table :=
  if a.isEmpty then .refuse .emptyAutomaton
  else do
    let ix ← Index.ofAutomaton a
    .silent (Table.ofIndex ix a.transitions)

/-- Refuses everything that is not a deterministic automaton. -/
def validate (a : Automaton) : Logged Unit := do
  let _ ← a.table
  return ()

end Automaton
end FiniteAutomata
