import FiniteAutomata.CommandLine.Run
import FiniteAutomata.Proofs.CanonicalOrder
import FiniteAutomata.Proofs.Pipes

/-! # Pipelines of commands

A chain of operations starts with a pattern that is compiled, or with a text that is read. Composed in
memory, by pipes, or as commands each of which reads what the one before it has printed, it gives the same
automaton, or fails in the same way at the same place.
-/
namespace FiniteAutomata

/-- Where a chain starts: a pattern to compile, or a text to read. -/
inductive Source where
  | pattern (text : String)
  | record (text : String)

def Source.automaton : Source → Outcome Automaton
  | pattern text => (Regex.compile text).outcome
  | record text => Automaton.read text

/-- A whole chain; its start has place 0. -/
def Source.chain (limits : Limits) (carry : Automaton → Outcome Automaton) (source : Source)
    (stages : List Stage) : Except (Nat × Failure) Automaton :=
  match source.automaton with
  | .error f => .error (0, f)
  | .ok a => Stage.chain limits carry 1 stages a

open CommandLine (Command Sources Answer)

def Stage.command : Stage → Command
  | simplify => .simplify none
  | convert => .convert none
  | minimize => .minimize none

namespace CommandLine
variable {limits : Limits} {a : Automaton}

/-- There are no files, and a text comes in. -/
def fed (text : String) : Sources := ⟨fun _ => none, text.toUTF8⟩

/-- Runs the commands of stages, each on what the one before it has printed. -/
def pipeline (limits : Limits) : List Stage → String → Answer String
  | [], text => .ok text
  | stage :: rest, text => do
    let printed ← (stage.command.run (fed text) limits).answer
    pipeline limits rest printed

/-- The automaton as it is printed, or why there is none. -/
def printedOutcome : Outcome Automaton → Answer String
  | .ok a => .ok (a.write ++ "\n")
  | .error f => .error (.stopped f)

theorem readText_fed (text : String) : readText (fed text) none = .ok text := by
  have hdecode : String.fromUTF8? text.toUTF8 = some text := dif_pos text.isValidUTF8
  rw [readText, fed, hdecode]

theorem answer_printed (x : Logged Automaton) :
    (printed Automaton.write x).answer = printedOutcome x.outcome := by
  unfold printed printedOutcome
  cases x.outcome <;> rfl

theorem answer_command (stage : Stage) (text : String) :
    (stage.command.run (fed text) limits).answer =
      printedOutcome (Automaton.read text >>= stage.apply limits) := by
  have happlied (operation : Automaton → Logged Automaton) :
      (applied (fed text) none Automaton.write operation).answer =
        printedOutcome (Automaton.read text >>= fun a => (operation a).outcome) := by
    rw [applied, readText_fed]
    dsimp only
    rw [answer_printed, Logged.outcome_bind, Logged.outcome_silent]
  cases stage <;> exact happlied _

theorem read_printed (h : ∀ s ∈ a.states, ∀ x ∈ s.coordinates, x.isFinite = true) :
    Automaton.read (a.write ++ "\n") = a.pipe := by
  have hline := Automaton.read_write_append h "\n" (List.forall_mem_singleton.mpr rfl)
  have hnothing := Automaton.read_write_append h "" (List.forall_mem_nil _)
  rw [String.append_empty] at hnothing
  exact hline.trans hnothing.symm

/-- A pipeline of commands is a chain of pipes. -/
theorem pipeline_eq_chain (h : ∀ s ∈ a.states, ∀ x ∈ s.coordinates, x.isFinite = true)
    (stages : List Stage) (place : Nat) :
    pipeline limits stages (a.write ++ "\n") =
      printedOutcome ((Stage.chain limits Automaton.pipe place stages a).mapError Prod.snd) := by
  induction stages generalizing a place with
  | nil => rfl
  | cons stage rest ih =>
    rw [pipeline, answer_command, read_printed h, Stage.chain]
    cases hb : a.pipe >>= stage.apply limits with
    | error f => rfl
    | ok b =>
      obtain ⟨c, hc, hb⟩ := Outcome.bind_eq_ok.mp hb
      have hlabels := (Automaton.finite_and_unreserved_of_read hc).2
      have hdrawn := (Stage.drawn_of_apply hlabels (Nat.le_max_left ..) (Nat.le_max_right ..) hb).1
      exact ih hdrawn.isFinite (place + 1)

end CommandLine

namespace Source
variable {source : Source} {limits : Limits} {a : Automaton}

/-- What comes in for the command of the first stage. -/
def print (limits : Limits) : Source → Answer String
  | pattern text => ((Command.compile text false).run (CommandLine.fed "") limits).answer
  | record text => .ok text

theorem exists_pipe (ha : source.automaton = .ok a)
    (hread : ∀ s ∈ a.states, ∀ x ∈ s.coordinates, x.isFinite = true →
      ∃ y, (Numeral.ofFloat x).float? = some y)
    (hgrid : ∀ g ∈ Grid.layouts, ∀ k < min UInt32.size a.states.length, ∀ x ∈ g.corner k,
      x.isFinite = true → (Numeral.ofFloat x).float? = some x) :
    (∀ s ∈ a.states, ∀ x ∈ s.coordinates, x.isFinite = true) ∧ a.Unreserved ∧
      ∃ c, a.pipe = .ok c ∧ a.Redrawn c := by
  cases source with
  | pattern text =>
    have hdrawn := Regex.drawn_of_compile ha
    have hlabels := Regex.unreserved_of_compile ha
    exact ⟨hdrawn.isFinite, hlabels, a, hdrawn.pipe_eq hlabels hgrid, .refl a⟩
  | record text =>
    obtain ⟨hfinite, hlabels⟩ := Automaton.finite_and_unreserved_of_read ha
    refine ⟨hfinite, hlabels, Automaton.exists_pipe hlabels fun s hs x hx => ?_⟩
    obtain ⟨y, hy⟩ := hread s hs x hx (hfinite s hs x hx)
    exact ⟨y, hfinite s hs x hx, hy⟩

/-- The first command cannot tell the text of a source from the text of its automaton. -/
theorem print_bind_pipeline (ha : source.automaton = .ok a)
    (hfinite : ∀ s ∈ a.states, ∀ x ∈ s.coordinates, x.isFinite = true)
    (hpipe : ∃ c, a.pipe = .ok c ∧ a.Redrawn c) {stages : List Stage} (hne : stages ≠ []) :
    (source.print limits >>= CommandLine.pipeline limits stages) =
      CommandLine.pipeline limits stages (a.write ++ "\n") := by
  cases source with
  | pattern text =>
    have hcompiled : (pattern text).print limits = .ok (a.write ++ "\n") := by
      rw [print, Command.run, CommandLine.answer_printed]
      exact congrArg CommandLine.printedOutcome ha
    rw [hcompiled]
    rfl
  | record text =>
    obtain ⟨c, hc, hredrawn⟩ := hpipe
    cases stages with
    | nil => exact absurd rfl hne
    | cons stage rest =>
      have happly : (Automaton.read text >>= stage.apply limits) =
          (a.pipe >>= stage.apply limits) := by
        rw [show Automaton.read text = .ok a from ha, hc]
        exact Stage.apply_eq hredrawn stage
      change CommandLine.pipeline limits (stage :: rest) text = _
      rw [CommandLine.pipeline, CommandLine.pipeline, CommandLine.answer_command,
        CommandLine.answer_command, CommandLine.read_printed hfinite, happly]

theorem print_bind_pipeline_of_error {f : Failure} (hf : source.automaton = .error f)
    {stages : List Stage} (hne : stages ≠ []) :
    (source.print limits >>= CommandLine.pipeline limits stages) = .error (.stopped f) := by
  cases source with
  | pattern text =>
    have hcompiled : (pattern text).print limits = .error (.stopped f) := by
      rw [print, Command.run, CommandLine.answer_printed]
      exact congrArg CommandLine.printedOutcome hf
    rw [hcompiled]
    rfl
  | record text =>
    cases stages with
    | nil => exact absurd rfl hne
    | cons stage rest =>
      change CommandLine.pipeline limits (stage :: rest) text = _
      rw [CommandLine.pipeline, CommandLine.answer_command, show Automaton.read text = .error f from hf]
      rfl

/-- A chain of operations gives the same automaton by pipes as in memory, or fails in the same way at the
same place, and if there are operations their commands print just this. The last automaton can be sent
through another pipe. It is enough that the numerals of the coordinates that the chain starts with are read
back at all, and those of the cells of grids that an id can name as they were. -/
theorem chain_pipe_eq (source : Source) (stages : List Stage) (limits : Limits)
    (hread : ∀ a, source.automaton = .ok a → ∀ s ∈ a.states, ∀ x ∈ s.coordinates,
      x.isFinite = true → ∃ y, (Numeral.ofFloat x).float? = some y)
    (hgrid : ∀ a, source.automaton = .ok a → ∀ g ∈ Grid.layouts,
      ∀ k < min UInt32.size (max a.states.length (max limits.maxPowerStates 1)), ∀ x ∈ g.corner k,
      x.isFinite = true → (Numeral.ofFloat x).float? = some x) :
    source.chain limits Automaton.pipe stages = source.chain limits .ok stages ∧
      (∀ b, source.chain limits .ok stages = .ok b →
        ∃ c, b.pipe = .ok c ∧ b.Redrawn c ∧ (stages ≠ [] → c = b)) ∧
      (stages ≠ [] → (source.print limits >>= CommandLine.pipeline limits stages) =
        CommandLine.printedOutcome ((source.chain limits .ok stages).mapError Prod.snd)) := by
  unfold chain
  cases ha : source.automaton with
  | error f =>
    refine ⟨rfl, fun b hb => (by cases hb), fun hne => ?_⟩
    exact print_bind_pipeline_of_error ha hne
  | ok a =>
    have hcells := hgrid a ha
    obtain ⟨hfinite, hlabels, hpipe⟩ := exists_pipe ha (hread a ha) fun g hg k hk =>
      hcells g hg k (Nat.lt_of_lt_of_le hk (min_le_min_left _ (Nat.le_max_left ..)))
    obtain ⟨heq, hfinal⟩ := Stage.chain_pipe (Nat.le_max_right ..) hcells stages 1 hlabels
      (Nat.le_max_left ..) hpipe
    refine ⟨heq, hfinal, fun hne => ?_⟩
    dsimp only
    rw [print_bind_pipeline ha hfinite hpipe hne, CommandLine.pipeline_eq_chain hfinite stages 1, heq]

/-- The automaton of the pattern `a`. -/
def singleStep : Automaton where
  states := [.onGrid .patternLayout "q" 0 true false, .onGrid .patternLayout "q" 1 false true]
  transitions := [⟨0, 1, .symbol 'a'⟩]

/-- Two states have four sets, and no count passes the largest. -/
def ampleLimits : Limits := { maxPowerStates := 4, maxPairChecks := maxCount }

theorem automaton_singleStep : (pattern "a").automaton = .ok singleStep := rfl

theorem chain_singleStep :
    ∃ m, (pattern "a").chain ampleLimits .ok [.convert, .minimize] = .ok m := by
  have hwell : singleStep.WellFormed := by decide
  have hsets : 2 ^ singleStep.states.length ≤ ampleLimits.maxPowerStates := by decide
  obtain ⟨d, hd⟩ := Automaton.exists_toDeterministic hwell rfl hsets
  have hdet := (Automaton.toDeterministic_keeps (by decide) hd).1
  have hpairs : maxCount ≤ ampleLimits.maxPairChecks := Nat.le_refl maxCount
  obtain ⟨m, hm⟩ := Automaton.exists_minimize hdet hpairs
  have hconvert : Stage.convert.apply ampleLimits singleStep = .ok d := hd
  have hminimize : Stage.minimize.apply ampleLimits d = .ok m := hm
  have hbind {b : Automaton} {stage : Stage} :
      ((.ok b : Outcome Automaton) >>= stage.apply ampleLimits) = stage.apply ampleLimits b := rfl
  refine ⟨m, ?_⟩
  rw [chain, automaton_singleStep]
  dsimp only
  rw [Stage.chain, hbind, hconvert]
  dsimp only
  rw [Stage.chain, hbind, hminimize]
  rfl

theorem chain_pipe_eq_singleStep :
    ∃ m, (pattern "a").chain ampleLimits Automaton.pipe [.convert, .minimize] = .ok m := by
  have hsame : ∀ a, (pattern "a").automaton = .ok a → a = singleStep := fun a ha =>
    Except.ok.inj (ha.symm.trans automaton_singleStep)
  have hread : ∀ s ∈ singleStep.states, ∀ x ∈ s.coordinates, (Numeral.ofFloat x).float? = some x := by
    decide +kernel
  have hgrid : ∀ g ∈ Grid.layouts, ∀ k < 4, ∀ x ∈ g.corner k, (Numeral.ofFloat x).float? = some x := by
    decide +kernel
  have heq : (pattern "a").chain ampleLimits Automaton.pipe [.convert, .minimize] =
      (pattern "a").chain ampleLimits .ok [.convert, .minimize] := by
    refine (chain_pipe_eq (pattern "a") [.convert, .minimize] ampleLimits ?_ ?_).1
    · intro a ha s hs x hx _
      obtain rfl := hsame a ha
      exact ⟨x, hread s hs x hx⟩
    · intro a ha g hg k hk x hx _
      obtain rfl := hsame a ha
      exact hgrid g hg k (Nat.lt_of_lt_of_le hk (Nat.min_le_right ..)) x hx
  rw [heq]
  exact chain_singleStep

end Source
end FiniteAutomata
