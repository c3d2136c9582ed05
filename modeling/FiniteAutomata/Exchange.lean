import FiniteAutomata.Failure
import FiniteAutomata.Limits
import FiniteAutomata.Json.Reader
import FiniteAutomata.Json.Record
import FiniteAutomata.Json.Writer

/-! # The exchange format

Automata are exchanged as JSON records. Every field is written; when a record is read, all fields
but the id of a state and the ends and label of a transition may be left out.
-/
namespace FiniteAutomata

def StateId.ofJson? (v : Json) : Option StateId := (v.natUpTo? (UInt32.size - 1)).map UInt32.ofNat

def StateId.toJson (id : StateId) : Json := .nat id.toNat

def Json.count? (v : Json) : Option Nat := v.natUpTo? maxCount

def Label.toJson (l : Label) : Json := .char l.mark

def Label.ofJson? (v : Json) : Option Label := v.char?.map Label.ofMark

namespace State

def fieldNames : List String := ["id", "label", "isInitial", "isFinal", "x", "y", "radius"]

def toJson (s : State) : Json :=
  .record [("id", s.id.toJson), ("label", .text s.label), ("isInitial", .bool s.isInitial),
    ("isFinal", .bool s.isFinal), ("x", .float s.x), ("y", .float s.y), ("radius", .float s.radius)]

def ofJson? (v : Json) : Option State := do
  match ← v.fields? fieldNames with
  | [id, label, isInitial, isFinal, x, y, radius] =>
    return {
      id := ← Json.required StateId.ofJson? id
      label := ← Json.optional "" Json.text? label
      isInitial := ← Json.optional false Json.bool? isInitial
      isFinal := ← Json.optional false Json.bool? isFinal
      x := ← Json.optional 0 Json.float? x
      y := ← Json.optional 0 Json.float? y
      radius := ← Json.optional 30 Json.float? radius }
  | _ => none

end State

namespace Transition

def fieldNames : List String := ["from", "to", "label"]

def toJson (t : Transition) : Json :=
  .record [("from", t.source.toJson), ("to", t.target.toJson), ("label", t.label.toJson)]

def ofJson? (v : Json) : Option Transition := do
  match ← v.fields? fieldNames with
  | [source, target, label] =>
    return {
      source := ← Json.required StateId.ofJson? source
      target := ← Json.required StateId.ofJson? target
      label := ← Json.required Label.ofJson? label }
  | _ => none

end Transition

namespace Automaton

def fieldNames : List String := ["states", "transitions"]

def toJson (a : Automaton) : Json :=
  .record [("states", .list State.toJson a.states),
    ("transitions", .list Transition.toJson a.transitions)]

def ofJson? (v : Json) : Option Automaton := do
  match ← v.fields? fieldNames with
  | [states, transitions] =>
    return {
      states := ← Json.optional [] (Json.list? State.ofJson?) states
      transitions := ← Json.optional [] (Json.list? Transition.ofJson?) transitions }
  | _ => none

def write (a : Automaton) : String := a.toJson.prettyText

def read (text : String) : Outcome Automaton :=
  match (Json.read text.toList).bind ofJson? with
  | some a => .ok a
  | none => .refuse .malformed

end Automaton

namespace Limits

def fieldNames : List String :=
  ["max_subset_states", "max_pair_checks", "generate_count", "generate_length"]

def toJson (l : Limits) : Json :=
  .record [("max_subset_states", .nat l.maxPowerStates), ("max_pair_checks", .nat l.maxPairChecks),
    ("generate_count", .nat l.sampleCount), ("generate_length", .nat l.sampleLength)]

/-- Reads limits; those left out have their defaults. -/
def ofJson? (v : Json) : Option Limits := do
  let standard : Limits := {}
  match ← v.fields? fieldNames with
  | [powerStates, pairChecks, count, length] =>
    return {
      maxPowerStates := ← Json.optional standard.maxPowerStates Json.count? powerStates
      maxPairChecks := ← Json.optional standard.maxPairChecks Json.count? pairChecks
      sampleCount := ← Json.optional standard.sampleCount Json.count? count
      sampleLength := ← Json.optional standard.sampleLength Json.count? length }
  | _ => none

end Limits
end FiniteAutomata
