import FiniteAutomata.PowerState

/-! # Running a word

A word is run symbol by symbol on power-states, and every move and every closure is recorded. The run
ends early, blocked, when no state is left to be in.
-/
namespace FiniteAutomata

structure TraceEntry where
  description : String
  /-- The symbol that this entry consumes, if it consumes one. -/
  symbol : Option Char
  /-- The ids of the states that are active after this entry, ascending. -/
  active : List StateId
  deriving DecidableEq, Repr

structure SimulationReport where
  accepted : Bool
  /-- No state was left before the word was read to its end. -/
  blocked : Bool
  message : String
  trace : List TraceEntry
  deriving DecidableEq, Repr

namespace Simulation
variable {n : Nat}

/-- The rest of a run: what is recorded, the power-state at its end, and where it was blocked. -/
structure Walk (n : Nat) where
  entries : List TraceEntry
  last : StateSet n
  blockedOn : Option Char

def startEntry (active : List StateId) : TraceEntry := ⟨"Start (ε-closure)", none, active⟩

def moveEntry (c : Char) (active : List StateId) : TraceEntry :=
  ⟨"Reading '" ++ c.toString ++ "'", some c, active⟩

def closureEntry (c : Char) (active : List StateId) : TraceEntry :=
  ⟨"ε-close after '" ++ c.toString ++ "'", none, active⟩

/-- Reads the word from a power-state, up to the symbol that leaves no state. -/
def walk (ix : Index n) (s : StateSet n) : List Char → Walk n
  | [] => ⟨[], s, none⟩
  | c :: rest =>
    let moved := ix.move s c
    let closed := ix.closure moved
    let entries := [moveEntry c (ix.ids moved), closureEntry c (ix.ids closed)]
    if closed.isEmpty then ⟨entries, closed, some c⟩
    else
      let later := walk ix closed rest
      { later with entries := entries ++ later.entries }

/-- The report on a run that did not take place. -/
def notRun (message : String) : SimulationReport := ⟨false, false, message, []⟩

def report (ix : Index n) (initial : Fin n) (word : List Char) : Logged SimulationReport :=
  let first := ix.start initial
  let run := walk ix first word
  let trace := startEntry (ix.ids first) :: run.entries
  match run.blockedOn with
  | some c => do
    .emit (.blocked c)
    return ⟨false, true, "Not accepted string.", trace⟩
  | none =>
    if ix.isAccepting run.last then pure ⟨true, false, "String accepted.", trace⟩
    else pure ⟨false, false, "String refused.", trace⟩

end Simulation

/-- Runs a word. Without states or without an initial state the word is not accepted, and the
report says why. -/
def Automaton.simulate (a : Automaton) (word : String) : Logged SimulationReport :=
  if a.isEmpty then pure (Simulation.notRun "Automaton is empty.")
  else do
    let ix ← Index.ofAutomaton a
    match ix.initial with
    | none => return Simulation.notRun "No starting state defined."
    | some initial => Simulation.report ix initial word.toList

end FiniteAutomata
