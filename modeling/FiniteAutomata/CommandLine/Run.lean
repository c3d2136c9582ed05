import FiniteAutomata.CommandLine.Arguments
import FiniteAutomata.Dot
import FiniteAutomata.Minimization.Minimize
import FiniteAutomata.Regex.Thompson
import FiniteAutomata.Reports

/-! # Carrying out commands

A command reads an automaton from a file or from the standard input and prints a record. The files
are given as a function, so that everything but the reading and printing itself is decided here.
-/
namespace FiniteAutomata
namespace CommandLine

/-- What a command can read. -/
structure Sources where
  /-- The bytes of a file, if it can be read. -/
  file : String → Option ByteArray
  standardInput : ByteArray

inductive CommandFailure where
  | unreadableFile (path : String)
  | unreadableInput
  | invalidLimits (path : String)
  | stopped (f : Failure)
  deriving DecidableEq, Repr

/-- The kind and the text of a failure for the user; a fault has neither. -/
def CommandFailure.describe? : CommandFailure → Option (String × String)
  | unreadableFile path => some ("io", "failed to read " ++ path)
  | unreadableInput => some ("io", "failed to read stdin")
  | invalidLimits path => some (ErrorKind.malformed.name, "invalid limits in " ++ path)
  | stopped (.error e) => some (e.kind.name, e.message)
  | stopped (.fault _) => none

def errorRecord (kind message : String) : Json :=
  .record [("error", .record [("kind", .text kind), ("message", .text message)])]

abbrev Answer (α : Type) := Except CommandFailure α

def readFile (sources : Sources) (path : String) : Answer String :=
  match (sources.file path).bind String.fromUTF8? with
  | some text => .ok text
  | none => .error (.unreadableFile path)

/-- The limits of a file or the standard ones, with those given as options in their place. -/
def readLimits (sources : Sources) (i : Invocation) : Answer Limits := do
  let limits : Limits ←
    match i.limitsFile with
    | none => pure {}
    | some path =>
      let text ← readFile sources path
      match (Json.read text.toList).bind Limits.ofJson? with
      | some limits => pure limits
      | none => .error (.invalidLimits path)
  return {
    limits with
    maxPowerStates := i.maxPowerStates.getD limits.maxPowerStates
    maxPairChecks := i.maxPairChecks.getD limits.maxPairChecks }

def readText (sources : Sources) : Option String → Answer String
  | some path => readFile sources path
  | none =>
    match String.fromUTF8? sources.standardInput with
    | some text => .ok text
    | none => .error .unreadableInput

/-- What a command prints, or why it fails, and what it logs. -/
structure Result where
  answer : Answer String
  log : List Event

def printed {α : Type} (print : α → String) (x : Logged α) : Result :=
  match x.outcome with
  | .ok a => ⟨.ok (print a ++ "\n"), x.log⟩
  | .error f => ⟨.error (.stopped f), x.log⟩

/-- Applies an operation to the automaton of a command and prints the result. -/
def applied {α : Type} (sources : Sources) (file : Option String) (print : α → String)
    (operation : Automaton → Logged α) : Result :=
  match readText sources file with
  | .error f => ⟨.error f, []⟩
  | .ok text => printed print do
    let a ← .silent (Automaton.read text)
    operation a

def recordText {α : Type} (toJson : α → Json) (a : α) : String := (toJson a).prettyText

/-- Carries out a command under limits. -/
def Command.run (sources : Sources) (limits : Limits) : Command → Result
  | compile pattern false => printed Automaton.write (Regex.compile pattern)
  | compile pattern true => printed Automaton.write do
    let a ← Regex.compile pattern
    a.simplify limits
  | simplify file => applied sources file Automaton.write (·.simplify limits)
  | convert file => applied sources file Automaton.write (·.toDeterministic limits)
  | minimize file => applied sources file Automaton.write (·.minimize limits)
  | simulate file word =>
    applied sources file (recordText SimulationReport.toJson) (·.simulate word)
  | analyze file => applied sources file (recordText StructureReport.toJson) (·.structureReport)
  | generate file count length =>
    applied sources file (recordText GenerationReport.toJson) (·.generate count length limits)
  | table file => applied sources file (recordText Table.toJson) (·.table)
  | info file => applied sources file (recordText Summary.toJson) (·.summary)
  | dot file => applied sources file id fun a => pure a.dot

/-- Carries out an invocation. The limits are read before the automaton. -/
def Invocation.run (sources : Sources) (i : Invocation) : Result :=
  match readLimits sources i with
  | .error f => ⟨.error f, []⟩
  | .ok limits => i.command.run sources limits

def Invocation.files (i : Invocation) : List String :=
  i.limitsFile.toList ++
    match i.command with
    | .compile .. => []
    | .simplify f | .convert f | .minimize f | .simulate f _ | .analyze f | .generate f _ _
    | .table f | .info f | .dot f => f.toList

def Invocation.readsInput (i : Invocation) : Bool :=
  match i.command with
  | .compile .. => false
  | .simplify f | .convert f | .minimize f | .simulate f _ | .analyze f | .generate f _ _
  | .table f | .info f | .dot f => f.isNone

def Invocation.levels (i : Invocation) : List Level :=
  if i.quiet then []
  else if i.verbosity ≤ 1 then [.warn]
  else if i.verbosity = 2 then [.warn, .debug]
  else [.warn, .debug, .trace]

end CommandLine
end FiniteAutomata
