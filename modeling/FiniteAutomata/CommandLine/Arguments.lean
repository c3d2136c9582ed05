import FiniteAutomata.Decimal.Digit
import FiniteAutomata.Limits

/-! # Command line arguments

A command line names a command, with options before and after it. The general options may stand on
either side of the command, and if one stands on both sides the one after the command counts. Names
are exact; an option is given at most once on a side, except for the one that is counted; and after
`--` everything is taken as it is.
-/
namespace FiniteAutomata
namespace CommandLine

inductive Stop where
  | usage
  | help
  deriving DecidableEq, Repr

inductive OptionName where
  | verbose
  | quiet
  | limits
  | maxPowerStates
  | maxPairChecks
  | simplify
  | word
  | count
  | length
  | help
  deriving DecidableEq, Repr

inductive Operand where
  | nothing
  | path
  | number
  | text
  deriving DecidableEq, Repr

namespace OptionName

def long : OptionName → String
  | verbose => "verbose"
  | quiet => "quiet"
  | limits => "limits"
  | maxPowerStates => "max-subset-states"
  | maxPairChecks => "max-pair-checks"
  | simplify => "simplify"
  | word => "string"
  | count => "count"
  | length => "length"
  | help => "help"

def short? : OptionName → Option Char
  | verbose => some 'v'
  | quiet => some 'q'
  | word => some 's'
  | help => some 'h'
  | _ => none

def operand : OptionName → Operand
  | verbose | quiet | simplify | help => .nothing
  | limits => .path
  | maxPowerStates | maxPairChecks | count | length => .number
  | word => .text

def general : List OptionName := [verbose, quiet, limits, maxPowerStates, maxPairChecks, help]

end OptionName

inductive CommandName where
  | compile
  | simplify
  | convert
  | minimize
  | simulate
  | analyze
  | generate
  | table
  | info
  | dot
  deriving DecidableEq, Repr

namespace CommandName

def all : List CommandName :=
  [compile, simplify, convert, minimize, simulate, analyze, generate, table, info, dot]

def name : CommandName → String
  | compile => "regex"
  | simplify => "simplify"
  | convert => "convert"
  | minimize => "minimize"
  | simulate => "simulate"
  | analyze => "analyze"
  | generate => "generate"
  | table => "table"
  | info => "info"
  | dot => "dot"

def ofName? (s : String) : Option CommandName := all.find? (·.name == s)

/-- The options of a command, the general ones included. -/
def options : CommandName → List OptionName
  | compile => .simplify :: OptionName.general
  | simulate => .word :: OptionName.general
  | generate => .count :: .length :: OptionName.general
  | _ => OptionName.general

/-- What a command is applied to: a pattern, or the file of an automaton. -/
def subject : CommandName → Operand
  | compile => .text
  | _ => .path

end CommandName

/-- The natural number below `2 ^ 64` that an argument spells, with or without a plus sign. -/
def number? (s : String) : Option Nat :=
  let digits :=
    match s.toList with
    | '+' :: rest => rest
    | text => text
  match Digit.span digits with
  | (d :: ds, []) =>
    let value := Digit.toNat (d :: ds)
    if value ≤ maxCount then some value else none
  | _ => none

/-- Whether a text is fit for an operand. -/
def Operand.admits (kind : Operand) (s : String) : Bool :=
  match kind with
  | nothing => false
  | path => s ≠ ""
  | number => (number? s).isSome
  | text => true

/-- What one side of the command gives: options with their operands, and other arguments. -/
structure Side where
  given : List (OptionName × String) := []
  subjects : List String := []
  deriving Repr

namespace Side

def has (s : Side) (o : OptionName) : Bool := s.given.any (·.1 == o)

def value? (s : Side) (o : OptionName) : Option String := (s.given.find? (·.1 == o)).map (·.2)

def switch (s : Side) (o : OptionName) : Except Stop Side :=
  if o = .help then .error .help
  else if s.has o && o ≠ .verbose then .error .usage
  else .ok { s with given := s.given ++ [(o, "")] }

def assign (s : Side) (o : OptionName) (operand : String) : Except Stop Side :=
  if s.has o || !o.operand.admits operand then .error .usage
  else .ok { s with given := s.given ++ [(o, operand)] }

def apply (s : Side) (kind : Operand) (subject : String) : Except Stop Side :=
  if s.subjects ≠ [] || !kind.admits subject then .error .usage
  else .ok { s with subjects := [subject] }

end Side

/-- Whether an argument can be an operand of the option before it. -/
def isOperand (s : String) : Bool := s = "-" || s.toList.head? ≠ some '-'

/-- What a short group of options leaves to be done. -/
inductive Group where
  | done (s : Side)
  /-- The last option of the group takes the next argument as its operand. -/
  | wants (s : Side) (o : OptionName)

/-- Takes up options written as single letters after one hyphen; what follows an option that takes
an operand is its operand, after an equals sign or at once. -/
def group (options : List OptionName) (s : Side) : List Char → Except Stop Group
  | [] => .ok (.done s)
  | c :: rest =>
    match options.find? (·.short? == some c) with
    | none => .error .usage
    | some o =>
      if o.operand = .nothing then do
        let s ← s.switch o
        group options s rest
      else
        match rest with
        | [] => .ok (.wants s o)
        | '=' :: operand => (s.assign o (.ofList operand)).map .done
        | operand => (s.assign o (.ofList operand)).map .done

/-- Takes up an option written with its name, with or without an operand after an equals sign. -/
def named (options : List OptionName) (s : Side) (text : List Char) : Except Stop Group :=
  let name := text.takeWhile (· ≠ '=')
  match options.find? (·.long.toList == name), text.dropWhile (· ≠ '=') with
  | none, _ => .error .usage
  | some o, [] =>
    if o.operand = .nothing then (s.switch o).map .done else .ok (.wants s o)
  | some o, _ :: operand => (s.assign o (.ofList operand)).map .done

def readSide (options : List OptionName) (subject : Operand) (s : Side) :
    List String → Except Stop Side
  | [] => .ok s
  | arg :: rest =>
    if arg = "--" then rest.foldlM (fun s a => s.apply subject a) s
    else if isOperand arg then do
      let s ← s.apply subject arg
      readSide options subject s rest
    else do
      let found ←
        match arg.toList with
        | '-' :: '-' :: name => named options s name
        | _ :: letters => group options s letters
        | [] => .error .usage
      match found, rest with
      | .done s, rest => readSide options subject s rest
      | .wants _ _, [] => .error .usage
      | .wants s o, operand :: rest =>
        if isOperand operand then do
          let s ← s.assign o operand
          readSide options subject s rest
        else .error .usage

/-- Reads the arguments up to the command; help may be asked for in place of one. -/
def readCommand (s : Side) : List String → Except Stop (Side × CommandName × List String)
  | [] => .error .usage
  | arg :: rest =>
    if isOperand arg then
      match CommandName.ofName? arg with
      | some c => .ok (s, c, rest)
      | none =>
        if arg = "help" ∧ rest.length ≤ 1
            ∧ rest.all (fun a => a == "help" || (CommandName.ofName? a).isSome)
        then .error .help else .error .usage
    else if arg = "--" then .error .usage
    else do
      let found ←
        match arg.toList with
        | '-' :: '-' :: name => named OptionName.general s name
        | _ :: letters => group OptionName.general s letters
        | [] => .error .usage
      match found, rest with
      | .done s, rest => readCommand s rest
      | .wants _ _, [] => .error .usage
      | .wants s o, operand :: rest =>
        if isOperand operand then do
          let s ← s.assign o operand
          readCommand s rest
        else .error .usage

inductive Command where
  | compile (pattern : String) (simplify : Bool)
  | simplify (file : Option String)
  | convert (file : Option String)
  | minimize (file : Option String)
  | simulate (file : Option String) (word : String)
  | analyze (file : Option String)
  | generate (file : Option String) (count length : Option Nat)
  | table (file : Option String)
  | info (file : Option String)
  | dot (file : Option String)
  deriving DecidableEq, Repr

structure Invocation where
  verbosity : Nat
  quiet : Bool
  limitsFile : Option String
  maxPowerStates : Option Nat
  maxPairChecks : Option Nat
  command : Command
  deriving DecidableEq, Repr

/-- The command that a name and the arguments after it stand for; a pattern has to be given. -/
def commandOf (name : CommandName) (after : Side) : Except Stop Command :=
  let file := after.subjects.head?
  let number (o : OptionName) : Option Nat := (after.value? o).bind number?
  match name with
  | .compile =>
    match file with
    | some pattern => .ok (.compile pattern (after.has .simplify))
    | none => .error .usage
  | .simplify => .ok (.simplify file)
  | .convert => .ok (.convert file)
  | .minimize => .ok (.minimize file)
  | .simulate => .ok (.simulate file ((after.value? .word).getD ""))
  | .analyze => .ok (.analyze file)
  | .generate => .ok (.generate file (number .count) (number .length))
  | .table => .ok (.table file)
  | .info => .ok (.info file)
  | .dot => .ok (.dot file)

def Invocation.ofArguments (args : List String) : Except Stop Invocation := do
  let (before, name, rest) ← readCommand {} args
  let after ← readSide name.options name.subject {} rest
  let command ← commandOf name after
  let value (o : OptionName) : Option String := after.value? o <|> before.value? o
  let counted (s : Side) : Nat := s.given.countP (·.1 == .verbose)
  return {
    verbosity := if after.has .verbose then counted after else counted before
    quiet := before.has .quiet || after.has .quiet
    limitsFile := value .limits
    maxPowerStates := (value .maxPowerStates).bind number?
    maxPairChecks := (value .maxPairChecks).bind number?
    command }

end CommandLine
end FiniteAutomata
