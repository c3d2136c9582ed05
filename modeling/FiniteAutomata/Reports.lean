import FiniteAutomata.Exchange
import FiniteAutomata.Determinization
import FiniteAutomata.Language.Description
import FiniteAutomata.Simulation
import FiniteAutomata.Structure
import FiniteAutomata.Summary

/-! # Reports as JSON

The records in which the results of the analyses are written.
-/
namespace FiniteAutomata

def Alphabet.toJson (alphabet : Alphabet) : Json := .list Json.char alphabet

def idsToJson (ids : List StateId) : Json := .list StateId.toJson ids

def TraceEntry.toJson (e : TraceEntry) : Json :=
  .record [("description", .text e.description), ("symbol", .option Json.char e.symbol),
    ("active", idsToJson e.active)]

def SimulationReport.toJson (r : SimulationReport) : Json :=
  .record [("accepted", .bool r.accepted), ("blocked", .bool r.blocked),
    ("message", .text r.message), ("trace", .list TraceEntry.toJson r.trace)]

def StructureReport.toJson (r : StructureReport) : Json :=
  .record [("unreachable", idsToJson r.unreachable), ("dead", idsToJson r.dead),
    ("trap", idsToJson r.trap)]

def LanguageDescription.toJson (d : LanguageDescription) : Json :=
  .record [("empty", .bool d.empty), ("accepts_empty_string", .bool d.acceptsEmptyString),
    ("infinite", .bool d.infinite), ("has_self_loop", .bool d.hasSelfLoop), ("text", .text d.text)]

def GenerationReport.toJson (r : GenerationReport) : Json :=
  .record [("strings", .list Json.text r.strings), ("language", r.language.toJson)]

def Table.toJson (t : Table) : Json :=
  .record [("alphabet", t.alphabet.toJson), ("state_ids", idsToJson t.stateIds),
    ("data", .list (Json.option Json.nat) t.cells.toList),
    ("accepting", .list Json.bool t.accepting.toList), ("initial_state", .nat t.initial)]

def Summary.toJson (s : Summary) : Json :=
  .record [("num_states", .nat s.stateCount), ("num_transitions", .nat s.transitionCount),
    ("alphabet", s.alphabet.toJson), ("has_epsilon", .bool s.hasEpsilon),
    ("is_deterministic", .bool s.isDeterministic)]

def Determinization.toJson (d : Determinization) : Json :=
  .record [("automaton", d.automaton.toJson), ("power_states", .list idsToJson d.powerStates)]

end FiniteAutomata
