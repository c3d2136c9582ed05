import Mathlib.Data.List.Sort
import FiniteAutomata.Determinization
import FiniteAutomata.Language.Description
import FiniteAutomata.Minimization.Minimize
import FiniteAutomata.Simulation
import FiniteAutomata.Proofs.Components
import FiniteAutomata.Proofs.PowerStates
import FiniteAutomata.Proofs.Table

/-! # Results do not depend on the presentation

An automaton can be written down in many ways: its states and transitions in any order, transitions more
than once, states labelled and drawn as one likes. The indices of two presentations of one automaton are
alike, that is, they differ in presentation and in the order within rows only, and no operation looks at
these.
-/
namespace FiniteAutomata

namespace Automaton

/-- The automata have the same ids, final states, initial state and transitions. How often and in which
order these are listed, and how states are labelled and drawn, is left open. -/
structure Same (a b : Automaton) : Prop where
  states : ∀ id final, (∃ s ∈ a.states, s.id = id ∧ s.isFinal = final) ↔
    ∃ s ∈ b.states, s.id = id ∧ s.isFinal = final
  initial : a.initialState?.map (·.id) = b.initialState?.map (·.id)
  transitions : ∀ t, t ∈ a.transitions ↔ t ∈ b.transitions

/-- Every state of one list has a state with its id and flag in the other. -/
def Covers (ss ts : List State) : Prop := ∀ s ∈ ss, ∃ t ∈ ts, t.id = s.id ∧ t.isFinal = s.isFinal

instance (ss ts : List State) : Decidable (Covers ss ts) :=
  inferInstanceAs (Decidable (∀ s ∈ ss, ∃ t ∈ ts, t.id = s.id ∧ t.isFinal = s.isFinal))

theorem covers_iff {ss ts : List State} :
    Covers ss ts ↔ ∀ id final, (∃ s ∈ ss, s.id = id ∧ s.isFinal = final) →
      ∃ t ∈ ts, t.id = id ∧ t.isFinal = final := by
  constructor
  · rintro h id final ⟨s, hs, rfl, rfl⟩
    exact h s hs
  · intro h s hs
    exact h s.id s.isFinal ⟨s, hs, rfl, rfl⟩

theorem same_iff {a b : Automaton} :
    a.Same b ↔ (Covers a.states b.states ∧ Covers b.states a.states) ∧
      a.initialState?.map (·.id) = b.initialState?.map (·.id) ∧
      a.transitions ⊆ b.transitions ∧ b.transitions ⊆ a.transitions := by
  rw [covers_iff, covers_iff]
  constructor
  · intro h
    exact ⟨⟨fun id final => (h.states id final).mp, fun id final => (h.states id final).mpr⟩,
      h.initial, fun t => (h.transitions t).mp, fun t => (h.transitions t).mpr⟩
  · rintro ⟨⟨hab, hba⟩, hinitial, hsub, hsup⟩
    exact ⟨fun id final => ⟨hab id final, hba id final⟩, hinitial,
      fun t => ⟨fun ht => hsub ht, fun ht => hsup ht⟩⟩

instance (a b : Automaton) : Decidable (a.Same b) := decidable_of_iff _ same_iff.symm

namespace Same
variable {a b : Automaton}

theorem mem_ids_iff (h : a.Same b) {p : StateId} : p ∈ a.ids ↔ p ∈ b.ids := by
  rw [mem_ids, mem_ids]
  constructor
  · rintro ⟨s, hs, rfl⟩
    obtain ⟨t, ht, hid, -⟩ := (h.states s.id s.isFinal).mp ⟨s, hs, rfl, rfl⟩
    exact ⟨t, ht, hid⟩
  · rintro ⟨t, ht, rfl⟩
    obtain ⟨s, hs, hid, -⟩ := (h.states t.id t.isFinal).mpr ⟨t, ht, rfl, rfl⟩
    exact ⟨s, hs, hid⟩

theorem isEmpty_eq (h : a.Same b) : a.isEmpty = b.isEmpty := by
  have hnil : ∀ c : Automaton, c.isEmpty = true ↔ ∀ p, p ∉ c.ids := by
    intro c
    rw [isEmpty, List.isEmpty_iff, ← List.eq_nil_iff_forall_not_mem, ids, List.map_eq_nil_iff]
  rw [Bool.eq_iff_iff, hnil, hnil]
  simp only [h.mem_ids_iff]

theorem alphabet_eq (h : a.Same b) : a.alphabet = b.alphabet := by
  have hpairwise (c : Automaton) : c.alphabet.Pairwise (· < ·) := Alphabet.pairwise_ofSymbols _
  refine (hpairwise a).eq_of_mem_iff (hpairwise b) fun c => ?_
  rw [mem_alphabet, mem_alphabet]
  simp only [h.transitions]

theorem hasSelfLoop_eq (h : a.Same b) : a.hasSelfLoop = b.hasSelfLoop := by
  unfold hasSelfLoop
  rw [Bool.eq_iff_iff, List.any_eq_true, List.any_eq_true]
  simp only [h.transitions]

end Same
end Automaton

namespace Index
variable {n : Nat} {ix jx : Index n} {a b : Automaton}

/-- The indices differ at most in labels and drawing of states and in the order within rows. -/
structure Alike (ix jx : Index n) : Prop where
  idAt : ix.idAt = jx.idAt
  positions : ∀ id : StateId, ix.positions[id]? = jx.positions[id]?
  initial : ix.initial = jx.initial
  accepting : ix.accepting = jx.accepting
  outgoing : ∀ i e, e ∈ ix.outgoing.get i ↔ e ∈ jx.outgoing.get i
  incoming : ∀ i j, i ∈ ix.incoming.get j ↔ i ∈ jx.incoming.get j
  alphabet : ix.alphabet = jx.alphabet

namespace Represents

theorem isFinal_iff (h : ix.Represents a) {i : Fin n} :
    i ∈ ix.accepting ↔ ∃ s ∈ a.states, s.id = ix.idAt i ∧ s.isFinal = true := by
  rw [h.accepting]
  constructor
  · intro hf
    exact ⟨ix.states.get i, (h.mem_states _).mpr ⟨i, rfl⟩, rfl, hf⟩
  · rintro ⟨s, hs, hid, hf⟩
    obtain ⟨j, rfl⟩ := (h.mem_states s).mp hs
    rwa [h.idAt_inj.mp hid] at hf

theorem ids_full_eq {m : Nat} {jx : Index m} (hi : ix.Represents a) (hj : jx.Represents b)
    (h : a.Same b) : ix.ids .full = jx.ids .full := by
  refine (hi.pairwise_ids _).eq_of_mem_iff (hj.pairwise_ids _) fun p => ?_
  simp only [mem_ids, StateSet.mem_full, true_and]
  rw [← hi.mem_ids_iff, ← hj.mem_ids_iff, h.mem_ids_iff]

theorem size_eq {m : Nat} {jx : Index m} (hi : ix.Represents a) (hj : jx.Represents b)
    (h : a.Same b) : n = m := by
  have hlength := congrArg List.length (hi.ids_full_eq hj h)
  simpa [ids, StateSet.toList_full] using hlength

/-- Presentations of one automaton have indices that are alike. -/
theorem alike (hi : ix.Represents a) (hj : jx.Represents b) (h : a.Same b) : ix.Alike jx := by
  have hid : ix.idAt = jx.idAt := by
    have hids := hi.ids_full_eq hj h
    unfold ids at hids
    rw [StateSet.toList_full] at hids
    funext i
    exact List.map_inj_left.mp hids i (List.mem_finRange i)
  have hinitial : ix.initial.map ix.idAt = jx.initial.map jx.idAt := by
    have hmap {kx : Index n} {c : Automaton} (hk : kx.Represents c) :
        kx.initial.map kx.idAt = c.initialState?.map (·.id) := by
      rw [← hk.initial, Option.map_map]
      rfl
    rw [hmap hi, hmap hj, h.initial]
  constructor
  case idAt => exact hid
  case positions =>
    intro id
    apply Option.ext
    intro i
    rw [hi.positions, hj.positions, hid]
  case initial =>
    rw [← hid] at hinitial
    exact Option.map_injective (fun i j hij => hi.idAt_inj.mp hij) hinitial
  case accepting =>
    apply StateSet.ext
    intro i
    rw [hi.isFinal_iff, hj.isFinal_iff, h.states, hid]
  case outgoing =>
    rintro i ⟨l, j⟩
    rw [hi.outgoing, hj.outgoing, h.transitions, hid]
  case incoming =>
    intro i j
    rw [hi.incoming, hj.incoming, hid]
    simp only [h.transitions]
  case alphabet => rw [hi.alphabet, hj.alphabet, h.alphabet_eq]

end Represents
end Index

theorem Search.reach_congr {n : Nat} {next next' : Fin n → List (Fin n)}
    (h : ∀ i j, j ∈ next i ↔ j ∈ next' i) (start : StateSet n) :
    reach next start = reach next' start := by
  have hleads : Leads next = Leads next' := by
    funext i j
    exact propext (h i j)
  apply StateSet.ext
  intro j
  rw [mem_reach, mem_reach, Reaches, Reaches, hleads]

namespace Index.Alike
variable {n : Nat} {ix jx : Index n}

theorem requireInitial_eq (h : ix.Alike jx) : ix.requireInitial = jx.requireInitial := by
  unfold requireInitial
  rw [h.initial]

theorem ids_eq (h : ix.Alike jx) : ix.ids = jx.ids := by
  unfold ids
  rw [h.idAt]

theorem isAccepting_eq (h : ix.Alike jx) : ix.isAccepting = jx.isAccepting := by
  unfold isAccepting
  rw [h.accepting]

theorem mem_targets_iff (h : ix.Alike jx) (l : Label) (i j : Fin n) :
    j ∈ ix.targets l i ↔ j ∈ jx.targets l i := by
  unfold targets
  rw [List.mem_filterMap, List.mem_filterMap]
  simp only [h.outgoing]

theorem mem_successors_iff (h : ix.Alike jx) (i j : Fin n) :
    j ∈ ix.successors i ↔ j ∈ jx.successors i := by
  unfold successors
  rw [List.mem_map, List.mem_map]
  simp only [h.outgoing]

theorem closure_eq (h : ix.Alike jx) : ix.closure = jx.closure :=
  funext (Search.reach_congr (h.mem_targets_iff .epsilon))

theorem move_eq (h : ix.Alike jx) : ix.move = jx.move := by
  funext s c
  apply StateSet.ext
  intro j
  unfold move
  rw [StateSet.mem_ofList, StateSet.mem_ofList, List.mem_flatMap, List.mem_flatMap]
  simp only [h.mem_targets_iff]

theorem step_eq (h : ix.Alike jx) : ix.step = jx.step := by
  unfold step
  rw [h.closure_eq, h.move_eq]

theorem start_eq (h : ix.Alike jx) : ix.start = jx.start := by
  unfold start
  rw [h.closure_eq]

theorem closureOf_eq (h : ix.Alike jx) : ix.closureOf = jx.closureOf := by
  unfold closureOf locate
  rw [h.ids_eq, h.closure_eq]
  simp only [h.positions]

theorem explore_eq (h : ix.Alike jx) : Determinization.explore ix = Determinization.explore jx := by
  have hfollow : Determinization.follow ix = Determinization.follow jx := by
    unfold Determinization.follow
    rw [h.step_eq]
  have hexpand : Determinization.expand ix = Determinization.expand jx := by
    funext limit budget source p
    induction budget generalizing source p with
    | zero => rfl
    | succ budget ih =>
      rw [Determinization.expand, Determinization.expand, h.alphabet, hfollow]
      simp only [ih]
  unfold Determinization.explore
  rw [hexpand, h.start_eq]

theorem assemble_eq (h : ix.Alike jx) :
    Determinization.assemble ix = Determinization.assemble jx := by
  unfold Determinization.assemble Determinization.stateOf
  rw [h.isAccepting_eq, h.ids_eq]

theorem ofIndex_eq (h : ix.Alike jx) : Determinization.ofIndex ix = Determinization.ofIndex jx := by
  unfold Determinization.ofIndex Determinization.discoveries
  rw [h.explore_eq, h.assemble_eq, h.ids_eq]

theorem search_eq (h : ix.Alike jx) : Samples.search ix = Samples.search jx := by
  have hfollow : Samples.follow ix = Samples.follow jx := by
    unfold Samples.follow
    rw [h.step_eq, h.isAccepting_eq]
  have hexpand : Samples.expand ix = Samples.expand jx := by
    funext count length budget place p
    induction budget generalizing place p with
    | zero => rfl
    | succ budget ih =>
      rw [Samples.expand, Samples.expand, h.alphabet, hfollow]
      simp only [ih]
  unfold Samples.search Samples.Progress.start
  rw [hexpand, h.start_eq, h.isAccepting_eq]

theorem sampleReport_eq (h : ix.Alike jx) : Samples.report ix = Samples.report jx := by
  unfold Samples.report
  rw [h.search_eq]

theorem walk_eq (h : ix.Alike jx) : Simulation.walk ix = Simulation.walk jx := by
  funext s word
  induction word generalizing s with
  | nil => rfl
  | cons c rest ih =>
    rw [Simulation.walk, Simulation.walk, h.move_eq, h.closure_eq, h.ids_eq]
    simp only [ih]

theorem report_eq (h : ix.Alike jx) : Simulation.report ix = Simulation.report jx := by
  unfold Simulation.report
  rw [h.walk_eq, h.start_eq, h.ids_eq, h.isAccepting_eq]

theorem reachable_eq (h : ix.Alike jx) : ix.reachable = jx.reachable :=
  funext fun i => Search.reach_congr h.mem_successors_iff (.singleton i)

theorem productive_eq (h : ix.Alike jx) : ix.productive = jx.productive := by
  unfold productive
  rw [h.accepting]
  exact Search.reach_congr (fun j i => h.incoming i j) _

theorem useful_eq (h : ix.Alike jx) : ix.useful = jx.useful := by
  unfold useful
  rw [h.reachable_eq, h.productive_eq]

theorem hasUsefulCycle_eq (h : ix.Alike jx) : ix.hasUsefulCycle = jx.hasUsefulCycle := by
  funext useful
  refine (ArcGraph.splits_strongComponents _).hasConsumingCycle_congr
    (ArcGraph.splits_strongComponents _) fun e => ?_
  simp only [usefulGraph, List.mem_flatMap, List.mem_map, List.mem_filter, h.outgoing]

end Index.Alike
end FiniteAutomata
