import Mathlib.Data.List.Forall2
import Mathlib.Data.Set.List
import FiniteAutomata.Proofs.Simulation

/-! # Closures of lists of states

Asked for the closure of some states, an automaton answers with the ids that epsilon transitions lead
to from any of them, or refuses the first id without a state. The members of the answer and their
order determine it, so the laws of closures are those of paths on epsilon transitions.
-/
namespace FiniteAutomata

namespace Automaton
variable {a : Automaton} {ids more closed closed' : List StateId}

/-- The list holds, ascending, what epsilon transitions lead to from the ids, all of which exist. -/
structure Closes (a : Automaton) (ids closed : List StateId) : Prop where
  known : ∀ id ∈ ids, id ∈ a.ids
  ascending : closed.Pairwise (· < ·)
  mem_iff : ∀ q, q ∈ closed ↔ ∃ p ∈ ids, Relation.ReflTransGen (Slips a.transitions) p q

namespace Closes

theorem unique (h : a.Closes ids closed) (h' : a.Closes ids closed') : closed = closed' :=
  eq_of_ascending h.ascending h'.ascending fun q => (h.mem_iff q).trans (h'.mem_iff q).symm

theorem subset (h : a.Closes ids closed) : ids ⊆ closed :=
  fun id hid => (h.mem_iff id).mpr ⟨id, hid, .refl⟩

theorem mono (h : a.Closes ids closed) (h' : a.Closes more closed') (hsub : ids ⊆ more) :
    closed ⊆ closed' := by
  intro q hq
  obtain ⟨p, hp, hr⟩ := (h.mem_iff q).mp hq
  exact (h'.mem_iff q).mpr ⟨p, hsub hp, hr⟩

theorem idem (hw : a.WellFormed) (h : a.Closes ids closed) : a.Closes closed closed where
  known := by
    intro q hq
    obtain ⟨p, hp, hr⟩ := (h.mem_iff q).mp hq
    exact hw.mem_ids_of_reads (h.known p hp) (Reads.of_slips hr)
  ascending := h.ascending
  mem_iff := by
    intro q
    constructor
    · exact fun hq => ⟨q, hq, .refl⟩
    · rintro ⟨r, hr, hrq⟩
      obtain ⟨p, hp, hpr⟩ := (h.mem_iff r).mp hr
      exact (h.mem_iff q).mpr ⟨p, hp, hpr.trans hrq⟩

theorem mem_append_iff {both : List StateId} (h : a.Closes ids closed)
    (h' : a.Closes more closed') (hboth : a.Closes (ids ++ more) both) {q : StateId} :
    q ∈ both ↔ q ∈ closed ∨ q ∈ closed' := by
  simp only [hboth.mem_iff, h.mem_iff, h'.mem_iff, List.mem_append, or_and_right, exists_or]

end Closes
end Automaton

namespace Index
variable {n : Nat} {ix : Index n} {a : Automaton} {ids closed : List StateId}
namespace Represents

theorem getElem?_positions_eq_none (h : ix.Represents a) {id : StateId} :
    ix.positions[id]? = none ↔ id ∉ a.ids := by
  simp [h.mem_ids_iff, Option.eq_none_iff_forall_ne_some, h.positions]

theorem locate_eq_ok (h : ix.Represents a) {is : List (Fin n)} :
    ix.locate ids = .ok is ↔ is.map ix.idAt = ids := by
  unfold locate
  rw [Outcome.mapM_eq_ok, eq_comm, ← List.forall₂_eq_eq_eq, List.forall₂_map_right_iff]
  refine ⟨fun hall => hall.imp fun id i hid => ?_, fun hall => hall.imp fun id i hid => ?_⟩
  · cases hp : ix.positions[id]? with
    | none => simp [hp] at hid
    | some j =>
      obtain rfl : j = i := by simpa [hp] using hid
      exact ((h.positions id j).mp hp).symm
  · simp [(h.positions id i).mpr hid.symm]

theorem locate_eq_refuse (h : ix.Represents a) {id : StateId}
    (hid : ids.find? (· ∉ a.ids) = some id) : ix.locate ids = .refuse (.unknownState id) := by
  unfold locate
  induction ids with
  | nil => cases hid
  | cons p ids ih =>
    rw [List.mapM_cons]
    by_cases hp : p ∈ a.ids
    · obtain ⟨i, hi⟩ := h.mem_ids_iff.mp hp
      rw [List.find?_cons_of_neg (by simpa using hp)] at hid
      rw [(h.positions p i).mpr hi, ih hid]
      rfl
    · obtain rfl : p = id := by simpa [hp] using hid
      rw [h.getElem?_positions_eq_none.mpr hp]
      rfl

theorem closes (h : ix.Represents a) (is : List (Fin n)) :
    a.Closes (is.map ix.idAt) (ix.ids (ix.closure (.ofList is))) where
  known := by
    intro id hid
    obtain ⟨i, -, hi⟩ := List.mem_map.mp hid
    exact h.mem_ids_iff.mpr ⟨i, hi⟩
  ascending := h.pairwise_ids _
  mem_iff := by
    intro q
    simp only [mem_ids, h.mem_closure, StateSet.mem_ofList, List.mem_map, exists_exists_and_eq_and,
      ← reads_nil_iff]
    constructor
    · rintro ⟨j, ⟨i, hi, hr⟩, rfl⟩
      exact ⟨i, hi, hr⟩
    · rintro ⟨i, hi, hr⟩
      obtain ⟨j, rfl⟩ := h.exists_position hr
      exact ⟨j, ⟨i, hi, hr⟩, rfl⟩

theorem exists_closureOf (h : ix.Represents a) (hids : ∀ id ∈ ids, id ∈ a.ids) :
    ∃ closed, ix.closureOf ids = .ok closed ∧ a.Closes ids closed := by
  obtain ⟨is, rfl⟩ : ids ∈ Set.range (List.map ix.idAt) := by
    rw [Set.range_list_map]
    exact fun id hid => h.mem_ids_iff.mp (hids id hid)
  refine ⟨_, ?_, h.closes is⟩
  rw [closureOf, h.locate_eq_ok.mpr rfl]
  rfl

theorem closureOf_eq_refuse (h : ix.Represents a) {id : StateId}
    (hid : ids.find? (· ∉ a.ids) = some id) : ix.closureOf ids = .refuse (.unknownState id) := by
  rw [closureOf, h.locate_eq_refuse hid]
  rfl

end Represents
end Index

namespace Automaton
variable {a : Automaton} {ids more closed closed' : List StateId}

theorem outcome_closureOf {ix : Index a.states.length} (hix : (Index.ofAutomaton a).outcome = .ok ix)
    (ids : List StateId) : (a.closureOf ids).outcome = ix.closureOf ids := by
  rw [closureOf, Logged.outcome_bind, hix]
  rfl

theorem exists_closureOf (hw : a.WellFormed) (hids : ∀ id ∈ ids, id ∈ a.ids) :
    ∃ closed, (a.closureOf ids).outcome = .ok closed ∧ a.Closes ids closed := by
  obtain ⟨ix, hix, hr⟩ := Index.exists_index hw
  rw [outcome_closureOf hix]
  exact hr.exists_closureOf hids

theorem closureOf_eq_refuse (hw : a.WellFormed) {id : StateId}
    (hid : ids.find? (· ∉ a.ids) = some id) :
    (a.closureOf ids).outcome = .refuse (.unknownState id) := by
  obtain ⟨ix, hix, hr⟩ := Index.exists_index hw
  rw [outcome_closureOf hix, hr.closureOf_eq_refuse hid]

theorem closureOf_eq_ok_iff (hw : a.WellFormed) :
    (a.closureOf ids).outcome = .ok closed ↔ a.Closes ids closed := by
  constructor
  · intro hok
    have hids : ∀ id ∈ ids, id ∈ a.ids := by
      cases hfind : ids.find? (· ∉ a.ids) with
      | none => simpa using hfind
      | some id =>
        rw [closureOf_eq_refuse hw hfind] at hok
        cases hok
    obtain ⟨closed', hok', hc⟩ := exists_closureOf hw hids
    rw [hok] at hok'
    cases hok'
    exact hc
  · intro hc
    obtain ⟨closed', hok, hc'⟩ := exists_closureOf hw hc.known
    rwa [hc.unique hc']

theorem closureOf_eq_error_iff (hw : a.WellFormed) {e : Failure} :
    (a.closureOf ids).outcome = .error e ↔
      ∃ id, ids.find? (· ∉ a.ids) = some id ∧ e = .error (.unknownState id) := by
  cases hfind : ids.find? (· ∉ a.ids) with
  | none =>
    have hids : ∀ id ∈ ids, id ∈ a.ids := by simpa using hfind
    obtain ⟨closed, hok, -⟩ := exists_closureOf hw hids
    simp [hok]
  | some id => simp [closureOf_eq_refuse hw hfind, eq_comm]

/-- The closure of a list of states is, ascending and without repetition, what paths of epsilon
transitions lead to from any of them; if some do not exist, the first of these is refused. So every
state is in its closure, closing again changes nothing, more states have a larger closure, and two
lists in a row are closed by the union of their closures. -/
theorem closureOf_follows_epsilon (hw : a.WellFormed) (ids : List StateId) :
    ((∀ id ∈ ids, id ∈ a.ids) → ∃ closed, (a.closureOf ids).outcome = .ok closed ∧
      closed.Pairwise (· < ·) ∧
      ∀ q, q ∈ closed ↔ ∃ p ∈ ids, Relation.ReflTransGen (Slips a.transitions) p q) ∧
    (∀ e, (a.closureOf ids).outcome = .error e ↔
      ∃ id, ids.find? (· ∉ a.ids) = some id ∧ e = .error (.unknownState id)) ∧
    (∀ closed, (a.closureOf ids).outcome = .ok closed →
      ids ⊆ closed ∧ (a.closureOf closed).outcome = .ok closed) ∧
    (∀ more closed', (a.closureOf more).outcome = .ok closed' → ids ⊆ more →
      ∃ closed, (a.closureOf ids).outcome = .ok closed ∧ closed ⊆ closed') ∧
    ∀ more closed closed', (a.closureOf ids).outcome = .ok closed →
      (a.closureOf more).outcome = .ok closed' →
      ∃ both, (a.closureOf (ids ++ more)).outcome = .ok both ∧
        ∀ q, q ∈ both ↔ q ∈ closed ∨ q ∈ closed' := by
  refine ⟨?_, fun e => closureOf_eq_error_iff hw, ?_, ?_, ?_⟩
  · intro hids
    obtain ⟨closed, hok, hc⟩ := exists_closureOf hw hids
    exact ⟨closed, hok, hc.ascending, hc.mem_iff⟩
  · intro closed hok
    have hc := (closureOf_eq_ok_iff hw).mp hok
    exact ⟨hc.subset, (closureOf_eq_ok_iff hw).mpr (hc.idem hw)⟩
  · intro more closed' hok' hsub
    have hc' := (closureOf_eq_ok_iff hw).mp hok'
    obtain ⟨closed, hok, hc⟩ := exists_closureOf hw fun id hid => hc'.known id (hsub hid)
    exact ⟨closed, hok, hc.mono hc' hsub⟩
  · intro more closed closed' hok hok'
    have hc := (closureOf_eq_ok_iff hw).mp hok
    have hc' := (closureOf_eq_ok_iff hw).mp hok'
    have hids : ∀ id ∈ ids ++ more, id ∈ a.ids := by
      intro id hid
      exact (List.mem_append.mp hid).elim (hc.known id) (hc'.known id)
    obtain ⟨both, hboth, hb⟩ := exists_closureOf hw hids
    exact ⟨both, hboth, fun q => hc.mem_append_iff hc' hb⟩

/-- The cycle is closed from any of its states, and 9 stands for itself. -/
theorem closureOf_slipCycle :
    slipCycle.WellFormed ∧ (slipCycle.closureOf [9, 5, 9]).outcome = .ok [1, 3, 5, 9] ∧
      (slipCycle.closureOf [1, 3, 5, 9]).outcome = .ok [1, 3, 5, 9] ∧
      (slipCycle.closureOf [5, 42, 7]).outcome = .refuse (.unknownState 42) := by
  obtain ⟨hanswer, -, hlaws, -, -⟩ := closureOf_follows_epsilon slipCycle_wellFormed [9, 5, 9]
  obtain ⟨-, hrefuse, -, -, -⟩ := closureOf_follows_epsilon slipCycle_wellFormed [5, 42, 7]
  have h53 : Slips slipCycle.transitions 5 3 := by unfold Slips; decide
  have h31 : Slips slipCycle.transitions 3 1 := by unfold Slips; decide
  have hknown : [9, 5, 9] ⊆ slipCycle.ids := by decide
  have hids : slipCycle.ids ⊆ [1, 3, 5, 9] := by decide
  obtain ⟨closed, hok, hascending, hmem⟩ := hanswer fun _ hp => hknown hp
  have hclosed : closed = [1, 3, 5, 9] := by
    refine eq_of_ascending hascending (by decide) fun q => ?_
    rw [hmem]
    constructor
    · rintro ⟨p, hp, hr⟩
      exact hids (slipCycle_wellFormed.mem_ids_of_reads (hknown hp) (Reads.of_slips hr))
    · intro hq
      simp only [List.mem_cons, List.not_mem_nil, or_false] at hq
      rcases hq with rfl | rfl | rfl | rfl
      · exact ⟨5, by decide, .tail (.single h53) h31⟩
      · exact ⟨5, by decide, .single h53⟩
      · exact ⟨5, by decide, .refl⟩
      · exact ⟨9, by decide, .refl⟩
  subst hclosed
  exact ⟨slipCycle_wellFormed, hok, (hlaws _ hok).2, (hrefuse _).mpr ⟨42, rfl, rfl⟩⟩

end Automaton
end FiniteAutomata
