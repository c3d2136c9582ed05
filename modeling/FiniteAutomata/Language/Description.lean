import FiniteAutomata.PowerState
import FiniteAutomata.Structure
import FiniteAutomata.Limits
import FiniteAutomata.Language.Components
import FiniteAutomata.Language.Samples

/-! # Describing a language

Whether an automaton accepts nothing, whether it accepts the empty string, and whether it accepts
infinitely many strings, decided from its graph alone. A language is infinite exactly when a cycle
that consumes a symbol runs through useful states, those that are reachable and productive.
-/
namespace FiniteAutomata

structure LanguageDescription where
  empty : Bool
  acceptsEmptyString : Bool
  infinite : Bool
  hasSelfLoop : Bool
  text : String
  deriving DecidableEq, Repr

namespace Index
variable {n : Nat}

/-- The positions that lie on an accepting run. -/
def useful (ix : Index n) (initial : Fin n) : StateSet n :=
  (ix.reachable initial).inter ix.productive

/-- The transitions between useful positions. -/
def usefulGraph (ix : Index n) (useful : StateSet n) : ArcGraph n where
  arcs := useful.toList.flatMap fun i =>
    ((ix.outgoing.get i).filter fun e => useful.contains e.2).map fun e => ⟨i, e.2, !e.1.isEpsilon⟩

/-- Whether a transition on a symbol between useful positions lies on a cycle of such positions. -/
def hasUsefulCycle (ix : Index n) (useful : StateSet n) : Outcome Bool :=
  let graph := ix.usefulGraph useful
  graph.hasConsumingCycle graph.strongComponents

end Index

namespace Automaton

def hasSelfLoop (a : Automaton) : Bool := a.transitions.any fun t => t.source == t.target

def describe (a : Automaton) : Logged LanguageDescription := do
  let ix ← Index.ofAutomaton a
  let initial ← .silent ix.requireInitial
  let useful := ix.useful initial
  let nothing (text : String) : LanguageDescription :=
    ⟨true, false, false, a.hasSelfLoop, text⟩
  if ix.accepting.isEmpty then return nothing "Language is empty (no final state)."
  else if useful.isEmpty then return nothing "Language is empty (no final state is reachable)."
  else
    let acceptsEmpty := ix.isAccepting (ix.start initial)
    let infinite ← .silent (ix.hasUsefulCycle useful)
    let first :=
      if acceptsEmpty then "Accepts the empty string (ε)." else "Does not accept the empty string."
    let second :=
      if infinite then " Accepts infinitely many strings (a cycle lies on an accepting path)."
      else " Accepts finitely many strings."
    return ⟨false, acceptsEmpty, infinite, a.hasSelfLoop, first ++ second⟩

end Automaton

structure GenerationReport where
  strings : List String
  language : LanguageDescription
  deriving DecidableEq, Repr

/-- Samples the language and describes it, with the limits' defaults for what is not given. -/
def Automaton.generate (a : Automaton) (count length : Option Nat) (limits : Limits) :
    Logged GenerationReport := do
  let strings ← a.samples (count.getD limits.sampleCount) (length.getD limits.sampleLength)
  let language ← a.describe
  return ⟨strings, language⟩

end FiniteAutomata
