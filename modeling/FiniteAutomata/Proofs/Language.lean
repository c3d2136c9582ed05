import Mathlib.Computability.MyhillNerode
import Mathlib.Data.Set.Card
import FiniteAutomata.Proofs.Simulation
import FiniteAutomata.Proofs.Table

/-! # The language of an automaton

The language holds the words on paths from the initial state to a final one. In a deterministic
automaton a word leads to one state at most, and what is accepted from there is the residual of the
language by the word.
-/
namespace FiniteAutomata

theorem ncard_eq_length {α : Type} {s : Set α} {l : List α} (hl : l.Nodup)
    (hmem : ∀ x, x ∈ s ↔ x ∈ l) : s.ncard = l.length := by
  classical
  have hs : s = ↑l.toFinset := Set.ext fun x => by simp [hmem]
  rw [hs, Set.ncard_coe_finset, List.toFinset_card_of_nodup hl]

theorem Reads.exists_symbol {ts : List Transition} {p q : StateId} {w : List Char}
    (h : Reads ts p w q) {c : Char} (hc : c ∈ w) : ∃ t ∈ ts, t.label = .symbol c := by
  obtain ⟨ls, hp, rfl⟩ := h
  induction hp with
  | nil => exact absurd hc List.not_mem_nil
  | @cons p r q l ls ht _ ih =>
    cases l with
    | epsilon => exact ih hc
    | symbol d =>
      rcases List.mem_cons.mp hc with rfl | hc
      · exact ⟨_, ht, rfl⟩
      · exact ih hc

instance : Std.Symm Transition.Compatible where
  symm := fun _ _ h hs hl => h hs.symm hl.symm

namespace Automaton
variable {a : Automaton} {p q r : StateId} {c : Char} {u v w : List Char}

/-- Some path over the word leads from the initial state to the given one. -/
def LeadsTo (a : Automaton) (w : List Char) (q : StateId) : Prop :=
  ∃ s, a.initialState? = some s ∧ Reads a.transitions s.id w q

/-- The words that are accepted from a state. -/
def languageFrom (a : Automaton) (p : StateId) : Language Char := {w | a.AcceptsFrom p w}

/-- The words that are accepted from the initial state. -/
def language (a : Automaton) : Language Char :=
  {w | ∃ s, a.initialState? = some s ∧ a.AcceptsFrom s.id w}

/-- Words lead to all states. -/
def Connected (a : Automaton) : Prop := ∀ q ∈ a.states, ∃ w, a.LeadsTo w q.id

/-- From every state that a word leads to some word is accepted. -/
def Live (a : Automaton) : Prop := ∀ w q, a.LeadsTo w q → ∃ v, v ∈ a.languageFrom q

/-- No two states accept the same words. -/
def Distinguished (a : Automaton) : Prop :=
  ∀ p ∈ a.states, ∀ q ∈ a.states, a.languageFrom p.id = a.languageFrom q.id → p = q

theorem mem_language : w ∈ a.language ↔ ∃ q ∈ a.states, q.isFinal = true ∧ a.LeadsTo w q.id := by
  constructor
  · rintro ⟨s, hs, q, hq, hf, hr⟩
    exact ⟨q, hq, hf, s, hs, hr⟩
  · rintro ⟨q, hq, hf, s, hs, hr⟩
    exact ⟨s, hs, q, hq, hf, hr⟩

theorem mem_language_of_initial {s : State} (hs : a.initialState? = some s) :
    w ∈ a.language ↔ a.AcceptsFrom s.id w := by
  constructor
  · rintro ⟨s', hs', hw⟩
    obtain rfl := Option.some.inj (hs.symm.trans hs')
    exact hw
  · intro hw
    exact ⟨s, hs, hw⟩

theorem leadsTo_of_initial {s : State} (hs : a.initialState? = some s) :
    a.LeadsTo w q ↔ Reads a.transitions s.id w q := by
  constructor
  · rintro ⟨s', hs', hr⟩
    obtain rfl := Option.some.inj (hs.symm.trans hs')
    exact hr
  · intro hr
    exact ⟨s, hs, hr⟩

theorem accepted_iff_mem_language (hw : a.WellFormed) {s : State} (hs : a.initialState? = some s)
    {word : String} {report : SimulationReport} (hr : (a.simulate word).outcome = .ok report) :
    report.accepted = true ↔ word.toList ∈ a.language := by
  obtain ⟨report', k, hr', hd⟩ := exists_simulate hw hs word
  obtain rfl := Except.ok.inj (hr.symm.trans hr')
  rw [hd.accepted, mem_language_of_initial hs]

/-- The strings whose runs end accepting. -/
def acceptedStrings (a : Automaton) : Set String :=
  {word | ∃ r, (a.simulate word).outcome = .ok r ∧ r.accepted = true}

theorem mem_acceptedStrings (hw : a.WellFormed) {s : State} (hs : a.initialState? = some s)
    {word : String} : word ∈ a.acceptedStrings ↔ word.toList ∈ a.language := by
  constructor
  · rintro ⟨r, hr, hacc⟩
    exact (accepted_iff_mem_language hw hs hr).mp hacc
  · intro hmem
    obtain ⟨r, k, hr, -⟩ := exists_simulate hw hs word
    exact ⟨r, hr, (accepted_iff_mem_language hw hs hr).mpr hmem⟩

theorem image_toList_acceptedStrings (hw : a.WellFormed) {s : State}
    (hs : a.initialState? = some s) : String.toList '' a.acceptedStrings = a.language := by
  apply Set.ext
  intro w
  constructor
  · rintro ⟨word, hword, rfl⟩
    exact (mem_acceptedStrings hw hs).mp hword
  · intro hmem
    refine ⟨String.ofList w, (mem_acceptedStrings hw hs).mpr ?_, String.toList_ofList⟩
    rwa [String.toList_ofList]

theorem LeadsTo.mem_alphabet (h : a.LeadsTo w q) (hc : c ∈ w) : c ∈ a.alphabet := by
  obtain ⟨s, -, hr⟩ := h
  exact Automaton.mem_alphabet.mpr (hr.exists_symbol hc)

theorem mem_alphabet_of_mem_language (h : w ∈ a.language) (hc : c ∈ w) : c ∈ a.alphabet := by
  obtain ⟨q, -, -, hq⟩ := mem_language.mp h
  exact hq.mem_alphabet hc

theorem LeadsTo.exists_state (h : a.LeadsTo w q) (hw : a.WellFormed) : ∃ s ∈ a.states, s.id = q := by
  obtain ⟨s, hs, hr⟩ := h
  have hmem : s.id ∈ a.ids := mem_ids.mpr ⟨s, List.mem_of_find?_eq_some hs, rfl⟩
  exact mem_ids.mp (hw.mem_ids_of_reads hmem hr)

theorem LeadsTo.trans (h : a.LeadsTo u p) (hw : Reads a.transitions p w q) : a.LeadsTo (u ++ w) q := by
  obtain ⟨s, hs, hu⟩ := h
  exact ⟨s, hs, hu.trans hw⟩

theorem mem_languageFrom_of_reads (hw : Reads a.transitions p w q) (hv : v ∈ a.languageFrom q) :
    w ++ v ∈ a.languageFrom p := by
  obtain ⟨r, hr, hf, hv⟩ := hv
  exact ⟨r, hr, hf, hw.trans hv⟩

/-- Every prefix of a word of the language leads to a state that accepts the rest. -/
theorem exists_leadsTo_of_mem (h : u ++ v ∈ a.language) :
    ∃ q, a.LeadsTo u q ∧ v ∈ a.languageFrom q := by
  obtain ⟨s, hs, q, hq, hf, hr⟩ := h
  obtain ⟨m, hu, hv⟩ := reads_append_iff.mp hr
  exact ⟨m, ⟨s, hs, hu⟩, q, hq, hf, hv⟩

theorem mem_language_of_leadsTo (hq : a.LeadsTo u q) (hv : v ∈ a.languageFrom q) :
    u ++ v ∈ a.language := by
  obtain ⟨s, hs, hu⟩ := hq
  obtain ⟨r, hr, hf, hv⟩ := hv
  exact ⟨s, hs, r, hr, hf, hu.trans hv⟩

namespace Deterministic

theorem target_unique (h : a.Deterministic) (hq : ⟨p, q, .symbol c⟩ ∈ a.transitions)
    (hr : ⟨p, r, .symbol c⟩ ∈ a.transitions) : q = r := by
  by_contra hne
  have hcompatible : Transition.Compatible ⟨p, q, .symbol c⟩ ⟨p, r, .symbol c⟩ := by
    apply h.compatible.forall hq hr
    intro he
    exact hne (Transition.mk.inj he).2.1
  exact hcompatible rfl rfl

theorem reads_unique (h : a.Deterministic) (hq : Reads a.transitions p w q)
    (hr : Reads a.transitions p w r) : q = r := by
  induction w generalizing p with
  | nil =>
    rw [(reads_nil_iff_of_symbols h.symbols).mp hq, (reads_nil_iff_of_symbols h.symbols).mp hr]
  | cons c w ih =>
    obtain ⟨q', hq', hq⟩ := (reads_cons_iff_of_symbols h.symbols).mp hq
    obtain ⟨r', hr', hr⟩ := (reads_cons_iff_of_symbols h.symbols).mp hr
    obtain rfl := h.target_unique hq' hr'
    exact ih hq hr

theorem leadsTo_unique (h : a.Deterministic) (hq : a.LeadsTo w q) (hr : a.LeadsTo w r) :
    q = r := by
  obtain ⟨s, hs, hq⟩ := hq
  exact h.reads_unique hq ((leadsTo_of_initial hs).mp hr)

theorem languageFrom_eq (h : a.Deterministic) (hq : a.LeadsTo w q) :
    a.languageFrom q = a.language.leftQuotient w := by
  apply Language.ext
  intro v
  constructor
  · intro hv
    exact mem_language_of_leadsTo hq hv
  · intro hv
    obtain ⟨r, hr, hv⟩ := exists_leadsTo_of_mem hv
    rwa [h.leadsTo_unique hq hr]

end Deterministic

/-- Every state is reached by some word, accepts some word, and accepts other words than the rest. -/
structure Minimal (a : Automaton) : Prop where
  deterministic : a.Deterministic
  distinguished : a.Distinguished
  connected : a.Connected
  live : a.Live

end Automaton
end FiniteAutomata
