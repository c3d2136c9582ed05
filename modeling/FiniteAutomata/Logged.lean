import FiniteAutomata.Failure

/-! # Logged operations

What an operation has to say besides its result is a list of events, in the order in which they
happened. The events that precede a failure are kept. The outcome of a composition does not depend
on the events, which `outcome_bind` makes usable as a rewriting rule.
-/
namespace FiniteAutomata

inductive Level where
  | warn
  | debug
  | trace
  deriving DecidableEq, Repr

def Level.name : Level → String
  | warn => "WARN"
  | debug => "DEBUG"
  | trace => "TRACE"

inductive Event where
  /-- A state flagged initial after the first one so flagged. -/
  | extraInitial (id : StateId)
  | compiled (pattern : String) (states transitions : Nat)
  | blocked (symbol : Char)
  | newPowerState (number : Nat) (members : List StateId)
  | determinized (powerStates states : Nat)
  | classified (unreachable dead trap : Nat)
  /-- Sampling stopped at its count while there was more to explore. -/
  | samplesCut (count : Nat)
  | explored (powerStates : Nat)
  | pruned (states : Nat)
  | pairsSettled (rounds checks : Nat)
  | minimized (states classes : Nat)
  deriving DecidableEq, Repr

namespace Event

def level : Event → Level
  | extraInitial _ | samplesCut _ => .warn
  | blocked _ | newPowerState .. => .trace
  | _ => .debug

private def idList (ids : List StateId) : String :=
  "[" ++ ", ".intercalate (ids.map fun id => toString id.toNat) ++ "]"

def text : Event → String
  | extraInitial id => "ignoring additional initial state " ++ toString id.toNat
  | compiled pattern states transitions =>
    "compiled '" ++ pattern ++ "' into " ++ toString states ++ " states and "
      ++ toString transitions ++ " transitions"
  | blocked symbol => "blocked on '" ++ symbol.toString ++ "'"
  | newPowerState number members =>
    "new power-state " ++ toString number ++ " = " ++ idList members
  | determinized powerStates states =>
    "subset construction produced " ++ toString powerStates ++ " states from " ++ toString states
  | classified unreachable dead trap =>
    toString unreachable ++ " unreachable, " ++ toString dead ++ " dead, "
      ++ toString trap ++ " trap states"
  | samplesCut count => "stopped after " ++ toString count ++ " strings, more may exist"
  | explored powerStates => "explored " ++ toString powerStates ++ " power-states"
  | pruned states => "pruned " ++ toString states ++ " unreachable states"
  | pairsSettled rounds checks =>
    "pair table reached its fixed point after " ++ toString rounds ++ " rounds ("
      ++ toString checks ++ " pair checks)"
  | minimized states classes =>
    "minimized " ++ toString states ++ " states into " ++ toString classes

end Event

/-- The outcome of an operation and the events on the way to it. -/
structure Logged (α : Type) where
  outcome : Outcome α
  log : List Event

namespace Logged
variable {α β : Type}

protected def pure (a : α) : Logged α := ⟨.ok a, []⟩

protected def bind (x : Logged α) (f : α → Logged β) : Logged β :=
  match x.outcome with
  | .ok a => ⟨(f a).outcome, x.log ++ (f a).log⟩
  | .error e => ⟨.error e, x.log⟩

instance : Monad Logged where
  pure := Logged.pure
  bind := Logged.bind

def silent (r : Outcome α) : Logged α := ⟨r, []⟩

def emit (e : Event) : Logged Unit := ⟨.ok (), [e]⟩

def emitAll (es : List Event) : Logged Unit := ⟨.ok (), es⟩

def refuse (e : Error) : Logged α := silent (.refuse e)

@[simp] theorem outcome_pure (a : α) : (pure a : Logged α).outcome = .ok a := rfl
@[simp] theorem log_pure (a : α) : (pure a : Logged α).log = [] := rfl
@[simp] theorem outcome_silent (r : Outcome α) : (silent r).outcome = r := rfl
@[simp] theorem log_silent (r : Outcome α) : (silent r).log = [] := rfl
@[simp] theorem outcome_emit (e : Event) : (emit e).outcome = .ok () := rfl
@[simp] theorem log_emit (e : Event) : (emit e).log = [e] := rfl
@[simp] theorem outcome_emitAll (es : List Event) : (emitAll es).outcome = .ok () := rfl
@[simp] theorem log_emitAll (es : List Event) : (emitAll es).log = es := rfl
@[simp] theorem outcome_refuse (e : Error) : (refuse e : Logged α).outcome = .refuse e := rfl
@[simp] theorem log_refuse (e : Error) : (refuse e : Logged α).log = [] := rfl

@[simp] theorem outcome_bind (x : Logged α) (f : α → Logged β) :
    (x >>= f).outcome = x.outcome >>= fun a => (f a).outcome := by
  rcases x with ⟨_ | _, _⟩ <;> rfl

theorem log_bind (x : Logged α) (f : α → Logged β) :
    (x >>= f).log = match x.outcome with
      | .ok a => x.log ++ (f a).log
      | .error _ => x.log := by
  rcases x with ⟨_ | _, _⟩ <;> rfl

end Logged
end FiniteAutomata
