import Mathlib.Data.List.FinRange
import Mathlib.Data.List.Perm.Basic
import FiniteAutomata.Proofs.Refusal
import FiniteAutomata.Proofs.Simulation

/-! # What an index holds

Three numberings meet in an index: the place of a state in its declaration, its id, and its position.
Positions follow the ids, while the rows of transitions and the choice of the initial state follow the
declaration. The rows of the sources and the rows of the targets hold the same transitions.
-/
namespace FiniteAutomata
namespace Index
variable {n : Nat} {a : Automaton}

/-- The ends of all transitions, read off the rows of their sources. -/
def forward (ix : Index n) : List (Fin n × Fin n) :=
  (List.finRange n).flatMap fun i => (ix.outgoing.get i).map fun e => (i, e.2)

/-- The ends of all transitions, read off the rows of their targets. -/
def backward (ix : Index n) : List (Fin n × Fin n) :=
  (List.finRange n).flatMap fun j => (ix.incoming.get j).map fun i => (i, j)

/-- Positions stand for the ids in ascending order, and hold what the automaton declares of them:
the rows in the order of declaration, and the first initial state in that order. -/
structure Arranges (ix : Index n) (a : Automaton) : Prop where
  states : ix.states.toList.Perm a.states
  ascending : ∀ i j, i < j → ix.idAt i < ix.idAt j
  mem_ids : ∀ id, id ∈ a.ids ↔ ∃ i, ix.idAt i = id
  positions : ∀ id i, ix.positions[id]? = some i ↔ ix.idAt i = id
  outgoing : ∀ i, (ix.outgoing.get i).map (fun e => (e.1, ix.idAt e.2)) =
    (a.transitions.filter (·.source = ix.idAt i)).map fun t => (t.label, t.target)
  incoming : ∀ j, (ix.incoming.get j).map ix.idAt =
    (a.transitions.filter (·.target = ix.idAt j)).map (·.source)
  mirrored : ix.forward.Perm ix.backward
  accepting : ∀ i, i ∈ ix.accepting ↔ ∃ s ∈ a.states, s.isFinal = true ∧ s.id = ix.idAt i
  initial : ix.initial.map ix.idAt = (a.states.find? (·.isInitial)).map (·.id)

/-- Items sorted into rows by their keys are all there, each as often as before. -/
theorem flatMap_filter_perm {α : Type} (key : α → Fin n) (xs : List α) :
    ((List.finRange n).flatMap fun i => xs.filter (key · = i)).Perm xs := by
  induction xs with
  | nil => simp
  | cons x xs ih =>
    -- only the row of the new item changes, and it stands at one place
    obtain ⟨before, after, hsplit⟩ := List.append_of_mem (List.mem_finRange (key x))
    have hnodup := List.nodup_finRange n
    rw [hsplit, List.nodup_middle, List.nodup_cons, List.mem_append, not_or] at hnodup
    obtain ⟨⟨hbefore, hafter⟩, -⟩ := hnodup
    have hother : ∀ i, key x ≠ i → (x :: xs).filter (key · = i) = xs.filter (key · = i) :=
      fun i hi => List.filter_cons_of_neg (by simpa using hi)
    rw [hsplit, List.flatMap_append, List.flatMap_cons] at ih ⊢
    rw [List.flatMap_congr fun i hi => hother i fun he => hbefore (he ▸ hi),
      List.flatMap_congr fun i hi => hother i fun he => hafter (he ▸ hi)]
    have hrow : (x :: xs).filter (key · = key x) = x :: xs.filter (key · = key x) :=
      List.filter_cons_of_pos (by simp)
    rw [hrow]
    exact List.perm_middle.trans (ih.cons x)

/-- What is read off rows that were filled by key is what was filled in. -/
theorem flatMap_rows_perm {α β γ : Type} (key : α → Fin n) (f : α → β) (g : Fin n → β → γ)
    (xs : List α) :
    ((List.finRange n).flatMap fun i => ((xs.filter (key · = i)).map f).map (g i)).Perm
      (xs.map fun x => g (key x) (f x)) := by
  have hrow : ∀ i, ((xs.filter (key · = i)).map f).map (g i) =
      (xs.filter (key · = i)).map fun x => g (key x) (f x) := by
    intro i
    rw [List.map_map]
    refine List.map_congr_left fun x hx => ?_
    simp [of_decide_eq_true (List.mem_filter.mp hx).2]
  simp only [hrow, ← List.map_flatMap]
  exact (flatMap_filter_perm key xs).map _

theorem forward_perm_backward {ix : Index n} {edges : List (Edge n)}
    (houtgoing : ix.outgoing = outgoingOf edges) (hincoming : ix.incoming = incomingOf edges) :
    ix.forward.Perm ix.backward := by
  have hforward : ix.forward.Perm (edges.map fun e => (e.source, e.target)) := by
    simp only [forward, houtgoing, get_outgoingOf]
    exact flatMap_rows_perm Edge.source _ _ edges
  have hbackward : ix.backward.Perm (edges.map fun e => (e.source, e.target)) := by
    simp only [backward, hincoming, get_incomingOf]
    exact flatMap_rows_perm Edge.target Edge.source (fun j i => (i, j)) edges
  exact hforward.trans hbackward.symm

theorem arranges_of_eq_ok {ix : Index a.states.length} (h : (ofAutomaton a).outcome = .ok ix) :
    ix.Arranges a := by
  have hr := represents_of_eq_ok h
  obtain ⟨hn, initial, edges, -, he, hix⟩ := ofAutomaton_eq_ok.mp h
  have hts : a.transitions = edges.map fun e => ⟨ix.idAt e.source, ix.idAt e.target, e.label⟩ := by
    rw [(mapM_resolve_eq_ok hn).mp he, hix]
    rfl
  have houtgoing : ix.outgoing = outgoingOf edges := by rw [hix]
  have hincoming : ix.incoming = incomingOf edges := by rw [hix]
  constructor
  case states => rw [hix]; exact sortedStates_perm a
  case ascending => exact hr.ascending
  case mem_ids => exact fun id => hr.mem_ids_iff
  case positions => exact hr.positions
  case outgoing =>
    intro i
    rw [houtgoing, get_outgoingOf, hts, List.filter_map]
    simp [hr.idAt_inj, Function.comp_def]
  case incoming =>
    intro j
    rw [hincoming, get_incomingOf, hts, List.filter_map]
    simp [hr.idAt_inj, Function.comp_def]
  case mirrored => exact forward_perm_backward houtgoing hincoming
  case accepting =>
    intro i
    rw [hr.accepting]
    constructor
    · exact fun hf => ⟨_, (hr.mem_states _).mpr ⟨i, rfl⟩, hf, rfl⟩
    · rintro ⟨s, hs, hf, hid⟩
      obtain ⟨j, rfl⟩ := (hr.mem_states s).mp hs
      rwa [← hr.idAt_inj.mp hid]
  case initial =>
    rw [← Automaton.initialState?, ← hr.initial, Option.map_map]
    rfl

theorem firstFlaw_of_find? {t : Transition} (hn : a.ids.Nodup)
    (ht : a.transitions.find? (fun t => t.source ∉ a.ids ∨ t.target ∉ a.ids) = some t) :
    a.FirstFlaw (.danglingTransition t.source t.target
      (if t.source ∈ a.ids then t.target else t.source)) := by
  obtain ⟨hmissing, before, after, hsplit, hbefore⟩ := List.find?_eq_some_iff_append.mp ht
  have hresolved : ∀ u ∈ before, u.source ∈ a.ids ∧ u.target ∈ a.ids := by
    intro u hu
    simpa using hbefore u hu
  by_cases hsource : t.source ∈ a.ids
  · have htarget : t.target ∉ a.ids := by simpa [hsource] using hmissing
    rw [if_pos hsource]
    exact .dangling hn hsplit hresolved htarget (Or.inr ⟨hsource, rfl⟩)
  · rw [if_neg hsource]
    exact .dangling hn hsplit hresolved hsource (Or.inl rfl)

theorem exists_least_repeated (h : ¬ a.ids.Nodup) :
    ∃ id, 2 ≤ a.ids.count id ∧ ∀ p, 2 ≤ a.ids.count p → id ≤ p := by
  cases hf : a.flaw? with
  | none => exact absurd (wellFormed_of_flaw? hf).nodup h
  | some e =>
    cases flaw?_eq_some_iff.mp hf with
    | repeated hcount hmin => exact ⟨_, hcount, hmin⟩
    | dangling hn => exact absurd hn h

/-- An automaton with repeated ids is refused for the smallest of them, any other for its first
transition with a missing end, and the source is named before the target. All others have an index,
which arranges their states by id and their transitions by declaration. -/
theorem ofAutomaton_arranges (a : Automaton) :
    (¬ a.ids.Nodup → ∃ id, 2 ≤ a.ids.count id ∧ (∀ p, 2 ≤ a.ids.count p → id ≤ p) ∧
      (ofAutomaton a).outcome = .refuse (.duplicateState id)) ∧
    (a.ids.Nodup → ∀ t,
      a.transitions.find? (fun t => t.source ∉ a.ids ∨ t.target ∉ a.ids) = some t →
      (ofAutomaton a).outcome = .refuse (.danglingTransition t.source t.target
        (if t.source ∈ a.ids then t.target else t.source))) ∧
    (a.ids.Nodup → (∀ t ∈ a.transitions, t.source ∈ a.ids ∧ t.target ∈ a.ids) →
      ∃ ix, (ofAutomaton a).outcome = .ok ix ∧ ix.Arranges a) := by
  refine ⟨fun h => ?_, fun hn t ht => ?_, fun hn hresolved => ?_⟩
  · obtain ⟨id, hcount, hmin⟩ := exists_least_repeated h
    exact ⟨id, hcount, hmin, outcome_eq_refuse_iff.mpr (.repeated hcount hmin)⟩
  · exact outcome_eq_refuse_iff.mpr (firstFlaw_of_find? hn ht)
  · obtain ⟨ix, hix, -⟩ := exists_index ⟨hn, hresolved⟩
    exact ⟨ix, hix, arranges_of_eq_ok hix⟩

end Index

namespace Automaton

/-- Two ids are repeated, and a transition leads nowhere. -/
def twins : Automaton where
  states := [{ id := 7 }, { id := 2 }, { id := 7 }, { id := 2 }]
  transitions := [⟨7, 4, .symbol 'a'⟩]

theorem index_slipCycle :
    (∃ ix, (Index.ofAutomaton slipCycle).outcome = .ok ix ∧
      ix.initial.map ix.idAt = some 5 ∧
      ∀ i, ix.idAt i = 3 → (ix.outgoing.get i).map (fun e => (e.1, ix.idAt e.2)) =
        [(.epsilon, 1), (.symbol 'a', 9)]) ∧
    (Index.ofAutomaton lostTarget).outcome = .refuse (.danglingTransition 0 4 4) ∧
    (Index.ofAutomaton twins).outcome = .refuse (.duplicateState 2) := by
  obtain ⟨-, -, hindex⟩ := Index.ofAutomaton_arranges slipCycle
  obtain ⟨-, hdangling, -⟩ := Index.ofAutomaton_arranges lostTarget
  obtain ⟨hrepeated, -, -⟩ := Index.ofAutomaton_arranges twins
  refine ⟨?_, hdangling (by decide) ⟨0, 4, .symbol 'b'⟩ rfl, ?_⟩
  · obtain ⟨ix, hix, harranges⟩ := hindex (by decide) (by decide)
    refine ⟨ix, hix, harranges.initial, fun i hi => ?_⟩
    rw [harranges.outgoing, hi]
    rfl
  · obtain ⟨id, hcount, hmin, hrefuse⟩ := hrepeated (by decide)
    have hids : twins.ids ⊆ [7, 2] := by decide
    have hmem : id ∈ twins.ids := List.count_pos_iff.mp (Nat.lt_of_lt_of_le Nat.zero_lt_two hcount)
    obtain rfl | rfl : id = 7 ∨ id = 2 := by simpa using hids hmem
    · exact absurd (hmin 2 (by decide)) (by decide)
    · exact hrefuse

end Automaton
end FiniteAutomata
