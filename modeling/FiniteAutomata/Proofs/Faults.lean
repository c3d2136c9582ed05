import FiniteAutomata.Proofs.Description
import FiniteAutomata.Proofs.Determinization
import FiniteAutomata.Proofs.Minimization.ClassTable
import FiniteAutomata.Proofs.Minimization.Minimize
import FiniteAutomata.Proofs.Refusal
import FiniteAutomata.Proofs.Regex.Verdict
import FiniteAutomata.Proofs.Tabulation

/-! # No fault is ever met

Every operation gives a result or refuses its input. Where one of its tables is asked for an entry, an
earlier step has put the entry there: ids have positions because they were all inserted, cells have
places because rows and columns are counted, a class has a state because it is not the sink's, fragments
have states because these are made first, a table of components has an entry for every position, and no
parenthesis gets into a postfix order.
-/
namespace FiniteAutomata
namespace Outcome
variable {α β : Type} {x : Outcome α}

/-- There is a value, or the input is refused. -/
def Answers (x : Outcome α) : Prop := (∃ a, x = .ok a) ∨ ∃ e, x = .refuse e

theorem answers_ok (a : α) : Answers (.ok a) := Or.inl ⟨a, rfl⟩

theorem answers_refuse (e : Error) : Answers (.refuse e : Outcome α) := Or.inr ⟨e, rfl⟩

theorem answers_iff : Answers x ↔ ∀ f, x ≠ .error (.fault f) := by
  constructor
  · rintro (⟨a, rfl⟩ | ⟨e, rfl⟩) f h <;> cases h
  · intro h
    match x with
    | .ok a => exact answers_ok a
    | .error (.error e) => exact answers_refuse e
    | .error (.fault f) => exact absurd rfl (h f)

theorem Answers.bind (h : Answers x) {f : α → Outcome β} (hf : ∀ a, x = .ok a → Answers (f a)) :
    Answers (x >>= f) := by
  rcases h with ⟨a, rfl⟩ | ⟨e, rfl⟩
  · exact hf a rfl
  · exact answers_refuse e

theorem answers_mapM {f : α → Outcome β} {xs : List α} (h : ∀ a ∈ xs, Answers (f a)) :
    Answers (xs.mapM f) := by
  rw [answers_iff]
  intro fault he
  obtain ⟨a, ha, hf⟩ := exists_of_mapM_eq_error he
  exact answers_iff.mp (h a ha) fault hf

end Outcome

open Outcome (Answers)

theorem Logged.answers_bind {α β : Type} {x : Logged α} (h : Answers x.outcome) {f : α → Logged β}
    (hf : ∀ a, x.outcome = .ok a → Answers (f a).outcome) : Answers (x >>= f).outcome := by
  rw [outcome_bind]
  exact h.bind hf

variable {n : Nat} {ix : Index n} {a : Automaton}

namespace Index

theorem answers_ofAutomaton (a : Automaton) : Answers (ofAutomaton a).outcome := by
  by_cases hw : a.WellFormed
  · obtain ⟨ix, hix, -⟩ := exists_index hw
    exact Or.inl ⟨ix, hix⟩
  · obtain ⟨e, he, -⟩ := exists_flaw hw
    exact Or.inr ⟨e, he⟩

/-- What asks for an index first needs to answer for represented automata only. -/
theorem answers_bind {α : Type} {f : Index a.states.length → Logged α}
    (hf : ∀ ix : Index a.states.length, ix.Represents a → Answers (f ix).outcome) :
    Answers (ofAutomaton a >>= f).outcome :=
  Logged.answers_bind (answers_ofAutomaton a) fun ix hix => hf ix (represents_of_eq_ok hix)

theorem answers_requireInitial (ix : Index n) : Answers ix.requireInitial := by
  unfold requireInitial
  cases ix.initial with
  | none => exact Outcome.answers_refuse _
  | some i => exact Outcome.answers_ok i

theorem answers_bind_initial {α : Type} (ix : Index n) {f : Fin n → Logged α}
    (hf : ∀ i, Answers (f i).outcome) : Answers (Logged.silent ix.requireInitial >>= f).outcome :=
  Logged.answers_bind (answers_requireInitial ix) fun i _ => hf i

theorem answers_closureOf (ix : Index n) (ids : List StateId) : Answers (ix.closureOf ids) := by
  refine (Outcome.answers_mapM fun id _ => ?_).bind fun _ _ => Outcome.answers_ok _
  split
  · exact Outcome.answers_ok _
  · exact Outcome.answers_refuse _

end Index

namespace Table

theorem answers_enter (h : ix.Represents a) {ts : List Transition} {cells : Array (Option Nat)}
    (hf : Filled ix ts cells) {t : Transition} (ht : t ∈ a.transitions) :
    Answers (enter ix cells t) := by
  obtain ⟨source, target, label⟩ := t
  cases label with
  | epsilon => exact Outcome.answers_refuse _
  | symbol c =>
    obtain ⟨i, j, rfl, rfl⟩ := h.resolved _ ht
    obtain ⟨column, hc⟩ := h.exists_column ht
    have hlt : i.val * ix.alphabet.length + column < cells.size := by
      rw [hf.size]
      exact place_lt i.isLt (List.getElem?_eq_some_iff.mp hc).1
    cases hcell : cells[i.val * ix.alphabet.length + column] with
    | none =>
      rw [enter_free h hc (by rw [Array.getElem?_eq_getElem hlt, hcell])]
      exact Outcome.answers_ok _
    | some k =>
      rw [enter_taken h hc (by rw [Array.getElem?_eq_getElem hlt, hcell])]
      exact Outcome.answers_refuse _

theorem answers_enterAll (h : ix.Represents a) (us : List Transition) {ts : List Transition}
    {cells : Array (Option Nat)} (hf : Filled ix ts cells) (hmem : ∀ t ∈ ts ++ us, t ∈ a.transitions) :
    Answers (us.foldlM (enter ix) cells) := by
  induction us generalizing ts cells with
  | nil => exact Outcome.answers_ok cells
  | cons t us ih =>
    have ht : t ∈ a.transitions := hmem t (by simp)
    have hts : ∀ u ∈ ts, u ∈ a.transitions := fun u hu => hmem u (List.mem_append_left _ hu)
    rw [List.foldlM_cons]
    refine (answers_enter h hf ht).bind fun cells' he => ?_
    exact ih ((enter_spec h hf ht hts).2 cells' he) (by simpa using hmem)

theorem answers_ofIndex (h : ix.Represents a) : Answers (ofIndex ix a.transitions) := by
  have hcells := answers_enterAll h a.transitions (filled_blank ix) fun _ ht => ht
  exact hcells.bind fun _ _ => (Index.answers_requireInitial ix).bind fun _ _ => Outcome.answers_ok _

end Table

namespace Automaton

theorem answers_table (a : Automaton) : Answers a.table.outcome := by
  unfold table
  split
  · exact Outcome.answers_refuse _
  · exact Index.answers_bind fun _ hr => Table.answers_ofIndex hr

theorem answers_accepts (a : Automaton) (word : String) :
    Answers (a.table.outcome >>= fun t => t.accepts word) := by
  refine (answers_table a).bind fun t ht => ?_
  obtain ⟨ix, hr, h⟩ := table_eq_ok ht
  have hf := h.faithful hr
  obtain ⟨s, -, hrow⟩ := hf.initial
  obtain ⟨b, hb, -⟩ := hf.exists_run (exists_table_iff.mp ⟨t, ht⟩) word.toList hrow
  exact Or.inl ⟨b, hb⟩

end Automaton

namespace Minimization

theorem exists_assemble_of_fill {d : Dfa n} {alphabet : Alphabet} {limits : Limits}
    {settled : Marks.Settled (n + 1)} (hlen : ∀ i : Fin n, (d.moves.get i).length = alphabet.length)
    (h : Marks.fill (d.completed alphabet.length) (points d) limits = .ok settled) :
    ∃ m, assemble d alphabet (stateClasses settled.marks (points d)) = .ok m :=
  (partitions_stateClasses (Marks.stable_of_fill h) hlen).exists_assemble

end Minimization

theorem Automaton.answers_minimize (a : Automaton) (limits : Limits) :
    Answers (a.minimize limits).outcome := by
  unfold minimize
  split
  · exact Outcome.answers_ok _
  · refine Logged.answers_bind (answers_table a) fun t ht => ?_
    obtain ⟨ix', hr', h'⟩ := table_eq_ok ht
    obtain ⟨ix, hr, h⟩ := h'.exists_index hr'
    refine Logged.answers_bind (Or.inl (Table.exists_dfa h)) fun d hd => ?_
    have hlen := (Table.represents_of_dfa hr h hd).length
    rw [← h.alphabet] at hlen
    refine Logged.answers_bind (Outcome.answers_ok ()) fun _ _ => ?_
    split
    · exact Outcome.answers_refuse _
    · rename_i settled hfill
      have hassemble := Minimization.exists_assemble_of_fill hlen hfill
      refine Logged.answers_bind (Outcome.answers_ok ()) fun _ _ => ?_
      refine Logged.answers_bind (Or.inl hassemble) fun m _ => ?_
      exact Logged.answers_bind (Outcome.answers_ok ()) fun _ _ => Outcome.answers_ok m

namespace Determinization
variable {first : StateSet n} {limit source : Nat} {p : Progress n}

/-- Expands power-states, with the number of each one that is taken up asked for under its key. -/
def expandChecked (ix : Index n) (limit : Nat) :
    Nat → Nat → Progress n → Outcome (Except (Progress n) (Progress n))
  | 0, _, p => .ok (.ok p)
  | budget + 1, source, p =>
    match p.sets[source]? with
    | none => .ok (.ok p)
    | some s => do
      let number ← .promised .unknownKey (p.number? s)
      match ix.alphabet.foldlM (follow ix limit number s) p with
      | .error q => return .error q
      | .ok q => expandChecked ix limit budget (source + 1) q

def exploreChecked (ix : Index n) (limit : Nat) (initial : Fin n) :
    Outcome (Except (Progress n) (Progress n)) :=
  expandChecked ix limit (max limit 1) 0 (.start (ix.start initial))

theorem expandChecked_eq (h : Explored ix first limit (pairsBelow ix source) p) (budget : Nat) :
    expandChecked ix limit budget source p = .ok (expand ix limit budget source p) := by
  induction budget generalizing source p with
  | zero => rfl
  | succ budget ih =>
    rw [expandChecked, expand]
    cases hs : p.sets[source]? with
    | none => rfl
    | some s =>
      dsimp only
      rw [(h.number s source).mpr hs, Outcome.promised_some, Outcome.ok_bind]
      cases hq : ix.alphabet.foldlM (follow ix limit source s) p with
      | error q => rfl
      | ok q =>
        have hq' := (h.followAll hs hq).1
        rw [← pairsBelow_succ] at hq'
        exact ih hq'

/-- Every power-state that a search takes up has the number of its turn. -/
theorem exploreChecked_eq (hr : ix.Represents a) (limit : Nat) (i : Fin n) :
    exploreChecked ix limit i = .ok (explore ix limit i) :=
  expandChecked_eq (explored_start (hr.isEmpty_start i)) _

theorem answers_ofIndex (ix : Index n) (labelStart : String) (limits : Limits) (i : Fin n) :
    Answers (ofIndex ix labelStart limits i).outcome := by
  unfold ofIndex
  split
  · exact Outcome.answers_refuse _
  · exact Outcome.answers_ok _

end Determinization

namespace Regex

theorem answers_compile (pattern : String) : Answers (compile pattern).outcome := by
  rcases exists_compile_or_diagnoses pattern with ⟨a, ha⟩ | ⟨e, he, -⟩
  · exact Or.inl ⟨a, ha⟩
  · exact Or.inr ⟨_, he⟩

end Regex

namespace Automaton

theorem answers_simulate (a : Automaton) (word : String) : Answers (a.simulate word).outcome := by
  unfold simulate
  split
  · exact Outcome.answers_ok _
  · refine Index.answers_bind fun ix hr => ?_
    split
    · exact Outcome.answers_ok _
    · rename_i i _
      obtain ⟨r, -, hrun, -⟩ := Simulation.exists_report hr i word.toList
      exact Or.inl ⟨r, hrun⟩

theorem answers_determinize (a : Automaton) (limits : Limits) :
    Answers (a.determinize limits).outcome :=
  Index.answers_bind fun ix _ =>
    ix.answers_bind_initial fun i => Determinization.answers_ofIndex ix "D" limits i

theorem answers_simplify (a : Automaton) (limits : Limits) :
    Answers (a.simplify limits).outcome := by
  refine Index.answers_bind fun ix _ => ?_
  split
  · exact Outcome.answers_ok _
  · exact Logged.answers_bind (Determinization.answers_ofIndex ix "s" limits _)
      fun d _ => Outcome.answers_ok d.automaton

theorem answers_structureReport (a : Automaton) : Answers a.structureReport.outcome := by
  unfold structureReport
  split
  · exact Outcome.answers_refuse _
  · refine Index.answers_bind fun ix _ => ix.answers_bind_initial fun i => ?_
    exact Logged.answers_bind (Outcome.answers_ok ()) fun _ _ => Outcome.answers_ok _

theorem answers_samples (a : Automaton) (count length : Nat) :
    Answers (a.samples count length).outcome := by
  refine Index.answers_bind fun ix _ => ix.answers_bind_initial fun i => ?_
  split
  · exact Outcome.answers_ok _
  · exact Outcome.answers_ok _

theorem answers_describe (a : Automaton) : Answers a.describe.outcome := by
  refine Index.answers_bind fun ix _ => ix.answers_bind_initial fun i => ?_
  dsimp only
  split
  · exact Outcome.answers_ok _
  · split
    · exact Outcome.answers_ok _
    · obtain ⟨b, hb, -⟩ := ix.exists_hasUsefulCycle (ix.useful i)
      exact Logged.answers_bind (Or.inl ⟨b, hb⟩) fun _ _ => Outcome.answers_ok _

/-- On any automaton, well-formed or not, and with any arguments, every operation gives a result or
refuses its input, and so do the compilation of any pattern and the run of any table that was built. The
flags of a compiled pattern are set and the components of a described automaton are numbered under
checks. Minimization answers even if all its tables are flat and every entry of them is checked, and no
search for power-states takes one up that has no number. -/
theorem operations_answer (a : Automaton) (limits : Limits) (ids : List StateId)
    (pattern word : String) (count length : Nat) :
    Answers (Regex.compile pattern).outcome ∧
      Answers (Index.ofAutomaton a).outcome ∧
      Answers (a.closureOf ids).outcome ∧
      Answers (a.simulate word).outcome ∧
      Answers (a.determinize limits).outcome ∧
      Answers (a.simplify limits).outcome ∧
      Answers (a.minimize limits).outcome ∧
      Answers a.table.outcome ∧
      Answers (a.table.outcome >>= fun t => t.accepts word) ∧
      Answers a.structureReport.outcome ∧
      Answers (a.samples count length).outcome ∧
      Answers a.describe.outcome ∧
      a.minimizeChecked limits = (a.minimize limits).outcome ∧
      ∀ ix, (Index.ofAutomaton a).outcome = .ok ix → ∀ i,
        Determinization.exploreChecked ix limits.maxPowerStates i =
          .ok (Determinization.explore ix limits.maxPowerStates i) := by
  refine ⟨Regex.answers_compile pattern, Index.answers_ofAutomaton a, ?_, a.answers_simulate word,
    a.answers_determinize limits, a.answers_simplify limits, a.answers_minimize limits,
    a.answers_table, a.answers_accepts word, a.answers_structureReport,
    a.answers_samples count length, a.answers_describe, a.minimizeChecked_eq limits, ?_⟩
  · exact Index.answers_bind fun ix _ => ix.answers_closureOf ids
  · intro ix hix i
    exact Determinization.exploreChecked_eq (Index.represents_of_eq_ok hix) _ i

/-- Limits under which four power-states may be found and no comparison of states is cut short. -/
def fourPowerStates : Limits := { maxPowerStates := 4, maxPairChecks := maxCount }

theorem operations_answer_turnstile :
    Answers (Regex.compile "(pc)*p").outcome ∧
      Answers turnstile.describe.outcome ∧
      (∃ m, turnstile.minimizeChecked fourPowerStates = .ok m) ∧
      ∃ ix, (Index.ofAutomaton turnstile).outcome = .ok ix ∧ ∀ i,
        Determinization.exploreChecked ix 4 i = .ok (Determinization.explore ix 4 i) := by
  have hdet := turnstile_deterministic
  obtain ⟨ix, hix, -⟩ := Index.exists_index hdet.wellFormed
  have hpairs : maxCount ≤ fourPowerStates.maxPairChecks := Nat.le_refl maxCount
  obtain ⟨m, hm⟩ := exists_minimize hdet hpairs
  obtain ⟨hcompile, -, -, -, -, -, -, -, -, -, -, hdescribe, hminimize, hsearch⟩ :=
    operations_answer turnstile fourPowerStates [] "(pc)*p" "" 0 0
  exact ⟨hcompile, hdescribe, ⟨m, hminimize.trans hm⟩, ix, hix, hsearch ix hix⟩

end Automaton
end FiniteAutomata
