import FiniteAutomata.Table

/-! # Summaries -/
namespace FiniteAutomata

structure Summary where
  stateCount : Nat
  transitionCount : Nat
  alphabet : Alphabet
  hasEpsilon : Bool
  isDeterministic : Bool
  deriving DecidableEq, Repr

/-- Summarizes any automaton; whatever keeps it from being deterministic only shows as a flag. -/
def Automaton.summary (a : Automaton) : Logged Summary :=
  let checked := a.validate
  { outcome := .ok {
      stateCount := a.states.length
      transitionCount := a.transitions.length
      alphabet := a.alphabet
      hasEpsilon := a.hasEpsilon
      isDeterministic := checked.outcome.isOk }
    log := checked.log }

end FiniteAutomata
