import FiniteAutomata.CommandLine.Run

/-! # The program

Reads the arguments and the files that they name, prints the answer, and sets the exit code: 0 for an
answer, 1 for a failure, which is printed as a record, and 2 for arguments that make no sense.
-/
namespace FiniteAutomata
namespace CommandLine

def helpText : String :=
  "Builds, transforms and analyzes finite automata\n\nCommands: "
    ++ ", ".intercalate (CommandName.all.map (·.name))

def fileBytes? (path : String) : IO (Option ByteArray) := do
  try
    return some (← IO.FS.readBinFile path)
  catch _ =>
    return none

def gather (i : Invocation) : IO Sources := do
  let files ← i.files.mapM fun path => do return (path, ← fileBytes? path)
  let standardInput ← if i.readsInput then (← IO.getStdin).readBinToEnd else pure .empty
  return { file := fun path => (files.lookup path).join, standardInput }

/-- Carries out an invocation and prints what it answers and logs. -/
def perform (i : Invocation) : IO UInt32 := do
  let result := i.run (← gather i)
  for e in result.log do
    if i.levels.contains e.level then
      IO.eprintln (e.level.name ++ " " ++ e.text)
  match result.answer with
  | .ok text =>
    IO.print text
    return 0
  | .error f =>
    match f.describe? with
    | some (kind, message) =>
      IO.println (errorRecord kind message).prettyText
      return 1
    | none =>
      IO.eprintln "internal fault"
      return 101

end CommandLine
end FiniteAutomata

open FiniteAutomata.CommandLine in
def main (args : List String) : IO UInt32 :=
  match Invocation.ofArguments args with
  | .error .help => do
    IO.println helpText
    return 0
  | .error .usage => do
    IO.eprintln helpText
    return 2
  | .ok i => perform i
