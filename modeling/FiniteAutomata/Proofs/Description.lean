import FiniteAutomata.Language.Description
import FiniteAutomata.Proofs.Components
import FiniteAutomata.Proofs.Pumping
import FiniteAutomata.Proofs.Structure

/-! # Descriptions are exact

What is decided on the graph of an automaton holds of its language. The language is empty when no
position is useful, and infinite when a transition on a symbol connects two useful positions of one
strong component: such a transition closes a cycle that can be pumped, and every cycle on an accepting
path runs through useful positions only.
-/
namespace FiniteAutomata

namespace Index
variable {n : Nat} {ix : Index n} {a : Automaton} {i j k : Fin n} {useful : StateSet n}

theorem mem_useful_iff (h : ix.Represents a) : k ∈ ix.useful i ↔
    Search.Reaches ix.successors i k ∧ ∃ j ∈ ix.accepting, Search.Reaches ix.successors k j := by
  rw [useful, StateSet.mem_inter, mem_reachable_iff, h.mem_productive_iff]

theorem mem_arcs_usefulGraph {e : Arc n} : e ∈ (ix.usefulGraph useful).arcs ↔
    e.source ∈ useful ∧ e.target ∈ useful ∧
      ∃ l, (l, e.target) ∈ ix.outgoing.get e.source ∧ e.consumes = !l.isEpsilon := by
  obtain ⟨i, j, b⟩ := e
  simp only [usefulGraph, List.mem_flatMap, StateSet.mem_toList, List.mem_map, List.mem_filter,
    StateSet.contains_iff]
  constructor
  · rintro ⟨_, hi, ⟨l, _⟩, ⟨hmem, hj⟩, heq⟩
    cases heq
    exact ⟨hi, hj, l, hmem, rfl⟩
  · rintro ⟨hi, hj, l, hmem, rfl⟩
    exact ⟨i, hi, (l, j), ⟨hmem, hj⟩, rfl⟩

theorem leads_usefulGraph_iff : Search.Leads (ix.usefulGraph useful).successors i j ↔
    i ∈ useful ∧ j ∈ useful ∧ Search.Leads ix.successors i j := by
  rw [ArcGraph.leads_successors_iff]
  constructor
  · rintro ⟨e, he, rfl, rfl⟩
    obtain ⟨hi, hj, l, hmem, -⟩ := mem_arcs_usefulGraph.mp he
    exact ⟨hi, hj, List.mem_map.mpr ⟨_, hmem, rfl⟩⟩
  · rintro ⟨hi, hj, he⟩
    obtain ⟨⟨l, _⟩, hmem, rfl⟩ := List.mem_map.mp he
    exact ⟨⟨i, _, _⟩, mem_arcs_usefulGraph.mpr ⟨hi, hj, l, hmem, rfl⟩, rfl, rfl⟩

theorem reaches_usefulGraph_iff (h : ix.Represents a) (hj : j ∈ ix.useful i)
    (hk : k ∈ ix.useful i) : Search.Reaches (ix.usefulGraph (ix.useful i)).successors j k ↔
      Search.Reaches ix.successors j k := by
  constructor
  · intro hr
    have hsub : Search.Leads (ix.usefulGraph (ix.useful i)).successors ≤ Search.Leads ix.successors :=
      fun _ _ he => (leads_usefulGraph_iff.mp he).2.2
    exact Relation.ReflTransGen.mono hsub j k hr
  · intro hr
    obtain ⟨-, f, hf, hkf⟩ := (mem_useful_iff h).mp hk
    induction hr using Relation.ReflTransGen.head_induction_on with
    | refl => exact Relation.ReflTransGen.refl
    | @head j m he hr ih =>
      obtain ⟨hij, -⟩ := (mem_useful_iff h).mp hj
      have hm : m ∈ ix.useful i := (mem_useful_iff h).mpr ⟨hij.tail he, f, hf, hr.trans hkf⟩
      exact Relation.ReflTransGen.head (leads_usefulGraph_iff.mpr ⟨hj, hm, he⟩) (ih hm)

/-- The search for a cycle has an answer. It finds the transitions on symbols within strong components
of the useful positions. -/
theorem exists_hasUsefulCycle (ix : Index n) (useful : StateSet n) :
    ∃ b, ix.hasUsefulCycle useful = .ok b ∧
      (b = true ↔ ∃ i ∈ useful, ∃ j ∈ useful, (∃ c, (.symbol c, j) ∈ ix.outgoing.get i) ∧
        (ix.usefulGraph useful).Connects i j) := by
  obtain ⟨b, hb, hcycle⟩ :=
    (ArcGraph.splits_strongComponents (ix.usefulGraph useful)).exists_hasConsumingCycle
  refine ⟨b, hb, hcycle.trans ?_⟩
  constructor
  · rintro ⟨e, he, hconsumes, hconnects⟩
    obtain ⟨hi, hj, l, hmem, hl⟩ := mem_arcs_usefulGraph.mp he
    cases l with
    | epsilon => exact absurd (hl.symm.trans hconsumes) Bool.false_ne_true
    | symbol c => exact ⟨e.source, hi, e.target, hj, ⟨c, hmem⟩, hconnects⟩
  · rintro ⟨i, hi, j, hj, ⟨c, hmem⟩, hconnects⟩
    exact ⟨⟨i, j, true⟩, mem_arcs_usefulGraph.mpr ⟨hi, hj, .symbol c, hmem, rfl⟩, rfl, hconnects⟩

theorem hasUsefulCycle_iff : ix.hasUsefulCycle useful = .ok true ↔
    ∃ i ∈ useful, ∃ j ∈ useful, (∃ c, (.symbol c, j) ∈ ix.outgoing.get i) ∧
      (ix.usefulGraph useful).Connects i j := by
  obtain ⟨b, hb, hcycle⟩ := ix.exists_hasUsefulCycle useful
  rw [hb, Except.ok.injEq]
  exact hcycle

theorem hasUsefulCycle_of_isEmpty (hu : useful.isEmpty = true) :
    ix.hasUsefulCycle useful = .ok false := by
  obtain ⟨b, hb, hcycle⟩ := ix.exists_hasUsefulCycle useful
  rw [hb, Except.ok.injEq, ← Bool.not_eq_true, hcycle]
  rintro ⟨i, hi, -⟩
  exact StateSet.isEmpty_iff.mp hu i hi

namespace Represents
open Automaton (mem_languageFrom_of_reads)

theorem mem_useful (h : ix.Represents a) {s : State} (hi : ix.states.get i = s)
    (hs : a.initialState? = some s) : k ∈ ix.useful i ↔
      (∃ u, a.LeadsTo u (ix.idAt k)) ∧ ∃ v, v ∈ a.languageFrom (ix.idAt k) := by
  subst hi
  rw [useful, StateSet.mem_inter, h.mem_reachable, h.mem_productive]
  simp only [Automaton.leadsTo_of_initial hs]
  exact Iff.rfl

theorem isEmpty_useful (h : ix.Represents a) {s : State} (hi : ix.states.get i = s)
    (hs : a.initialState? = some s) : (ix.useful i).isEmpty = true ↔ ∀ w, w ∉ a.language := by
  rw [StateSet.isEmpty_iff]
  constructor
  · intro hempty w hw
    have hstart : i ∈ ix.useful i := by
      rw [h.mem_useful hi hs, Index.idAt, hi]
      exact ⟨⟨[], s, hs, Reads.refl _ _⟩, w, (Automaton.mem_language_of_initial hs).mp hw⟩
    exact hempty i hstart
  · intro hnone k hk
    obtain ⟨⟨u, hu⟩, v, hv⟩ := (h.mem_useful hi hs).mp hk
    exact hnone (u ++ v) (Automaton.mem_language_of_leadsTo hu hv)

theorem isEmpty_useful_of_accepting (h : ix.Represents a) (hacc : ix.accepting.isEmpty = true) :
    (ix.useful i).isEmpty = true := by
  rw [StateSet.isEmpty_iff] at hacc ⊢
  intro k hk
  obtain ⟨-, j, hj, -⟩ := (mem_useful_iff h).mp hk
  exact hacc j hj

theorem isAccepting_start (h : ix.Represents a) {s : State} (hi : ix.states.get i = s)
    (hs : a.initialState? = some s) : ix.isAccepting (ix.start i) = true ↔ [] ∈ a.language := by
  subst hi
  rw [Automaton.mem_language_of_initial hs]
  exact h.isAccepting_after_start (w := [])

/-- A transition on a symbol within a component of useful positions is one on a cycle that can be
pumped, and there is no other such cycle. -/
theorem hasUsefulCycle_iff_pumps (h : ix.Represents a) {s : State} (hi : ix.states.get i = s)
    (hs : a.initialState? = some s) : ix.hasUsefulCycle (ix.useful i) = .ok true ↔ a.Pumps := by
  rw [hasUsefulCycle_iff]
  constructor
  · rintro ⟨j, hj, k, hk, ⟨c, hmem⟩, -, hback⟩
    obtain ⟨⟨u, hu⟩, v, hv⟩ := (h.mem_useful hi hs).mp hj
    obtain ⟨w, hw⟩ := h.reaches_successors_iff.mp ((reaches_usefulGraph_iff h hk hj).mp hback)
    have hcycle := hw.symbol ((h.outgoing j (.symbol c) k).mp hmem)
    exact ⟨u, c :: w, v, ix.idAt j, hu, hcycle, List.cons_ne_nil c w, hv⟩
  · rintro ⟨u, x, v, p, hu, hx, hne, hv⟩
    obtain ⟨c, w, rfl⟩ := List.exists_cons_of_ne_nil hne
    obtain ⟨r, t, hr, ht, hback⟩ := reads_cons_iff.mp hx
    obtain ⟨j, k, rfl, rfl⟩ := h.resolved _ ht
    have hj : j ∈ ix.useful i := (h.mem_useful hi hs).mpr ⟨⟨_, hu.trans hr⟩, _,
      mem_languageFrom_of_reads ((Reads.refl _ _).symbol ht) (mem_languageFrom_of_reads hback hv)⟩
    have hk : k ∈ ix.useful i := (h.mem_useful hi hs).mpr
      ⟨⟨_, (hu.trans hr).trans ((Reads.refl _ _).symbol ht)⟩, _, mem_languageFrom_of_reads hback hv⟩
    have hjk : Search.Leads ix.successors j k := h.leads_successors_iff.mpr ⟨_, ht⟩
    have hkj : Search.Reaches ix.successors k j :=
      h.reaches_successors_iff.mpr ⟨_, hback.trans hr⟩
    refine ⟨j, hj, k, hk, ⟨c, (h.outgoing j (.symbol c) k).mpr ht⟩, ?_, ?_⟩
    · exact Relation.ReflTransGen.single (leads_usefulGraph_iff.mpr ⟨hj, hk, hjk⟩)
    · exact (reaches_usefulGraph_iff h hk hj).mpr hkj

end Represents
end Index

namespace Automaton
variable {a : Automaton} {s : State}

/-- In every case the description can be read off the useful positions: without any of them the
initial power-state does not accept, and there is no cycle. -/
theorem exists_describe (hw : a.WellFormed) (hs : a.initialState? = some s) :
    ∃ (ix : Index a.states.length) (i : Fin a.states.length) (d : LanguageDescription),
      ix.Represents a ∧ ix.states.get i = s ∧ a.describe.outcome = .ok d ∧
      d.empty = (ix.useful i).isEmpty ∧ d.acceptsEmptyString = ix.isAccepting (ix.start i) ∧
      ix.hasUsefulCycle (ix.useful i) = .ok d.infinite := by
  obtain ⟨ix, hix, h⟩ := Index.exists_index hw
  obtain ⟨i, hi, hget⟩ := exists_initial h hs
  refine ⟨ix, i, ?_⟩
  rw [describe, Index.outcome_bind_of_initial hix hi]
  dsimp only
  obtain ⟨b, hb, -⟩ := ix.exists_hasUsefulCycle (ix.useful i)
  cases hu : (ix.useful i).isEmpty with
  | true =>
    have hstart : ix.isAccepting (ix.start i) = false := by
      rw [← Bool.not_eq_true, h.isAccepting_start hget hs]
      exact (h.isEmpty_useful hget hs).mp hu []
    rw [hstart, Index.hasUsefulCycle_of_isEmpty hu]
    cases ix.accepting.isEmpty with
    | true => refine ⟨_, h, hget, rfl, ?_, ?_, ?_⟩ <;> rfl
    | false => refine ⟨_, h, hget, rfl, ?_, ?_, ?_⟩ <;> rfl
  | false =>
    have hacc : ix.accepting.isEmpty = false := by
      rw [← Bool.not_eq_true]
      intro hnone
      rw [h.isEmpty_useful_of_accepting hnone] at hu
      cases hu
    rw [hacc, hb]
    refine ⟨_, h, hget, rfl, ?_, ?_, ?_⟩ <;> rfl

/-- A description says of the strings that runs accept whether there are any, whether the empty string
is one of them, and whether there are infinitely many, which is so when one of them has at least as many
symbols as there are states. -/
theorem describe_exact (hw : a.WellFormed) (hs : a.initialState? = some s) :
    ∃ d, a.describe.outcome = .ok d ∧
      (d.empty = true ↔ a.acceptedStrings = ∅) ∧
      (d.acceptsEmptyString = true ↔ "" ∈ a.acceptedStrings) ∧
      (d.infinite = true ↔ a.acceptedStrings.Infinite) ∧
      (d.infinite = true ↔ ∃ word ∈ a.acceptedStrings, a.states.length ≤ word.length) := by
  obtain ⟨ix, i, d, h, hget, hd, hempty, hstart, hcycle⟩ := exists_describe hw hs
  have hinfinite : d.infinite = true ↔ a.Pumps := by
    rw [← h.hasUsefulCycle_iff_pumps hget hs, hcycle, Except.ok.injEq]
  refine ⟨d, hd, ?_, ?_, ?_, ?_⟩
  · rw [hempty, h.isEmpty_useful hget hs, ← Set.image_eq_empty, image_toList_acceptedStrings hw hs]
    exact Set.eq_empty_iff_forall_notMem.symm
  · rw [hstart, h.isAccepting_start hget hs, mem_acceptedStrings hw hs]
    exact Iff.rfl
  · rw [hinfinite, ← infinite_language_iff hw,
      ← image_toList_acceptedStrings hw hs]
    exact Set.infinite_image_iff fun _ _ _ _ he => String.toList_inj.mp he
  · rw [hinfinite, ← infinite_language_iff hw,
      infinite_language_iff_exists_length_le hw, ← image_toList_acceptedStrings hw hs]
    exact Set.exists_mem_image

theorem reads_detours : Reads detours.transitions 4 ['a', 'b', 'a', 'b', 'a'] 2 := by
  have hround : Reads detours.transitions 4 ['a', 'b'] 4 :=
    ⟨[.symbol 'a', .epsilon, .symbol 'b'], .cons (r := 1) (by decide)
      (.cons (r := 2) (by decide) (.cons (by decide) (.nil 4))), rfl⟩
  have hend : Reads detours.transitions 4 ['a'] 2 :=
    ⟨[.symbol 'a', .epsilon], .cons (r := 1) (by decide) (.cons (by decide) (.nil 2)), rfl⟩
  exact hround.trans (hround.trans hend)

theorem describe_detours :
    ∃ d, detours.describe.outcome = .ok d ∧ d.empty = false ∧ d.acceptsEmptyString = false ∧
      d.infinite = true := by
  have hinitial : detours.initialState? = some { id := 4, isInitial := true } := rfl
  obtain ⟨d, hd, hempty, hstart, -, hlong⟩ := describe_exact detours_wellFormed hinitial
  have hword : "ababa" ∈ detours.acceptedStrings := by
    rw [mem_acceptedStrings detours_wellFormed hinitial, mem_language_of_initial hinitial]
    exact ⟨{ id := 2, isFinal := true }, by decide, rfl, reads_detours⟩
  have hnil : "" ∉ detours.acceptedStrings := by
    rw [mem_acceptedStrings detours_wellFormed hinitial, mem_language_of_initial hinitial]
    rintro ⟨q, hq, hf, hr⟩
    have hfinal : ∀ q ∈ detours.states, q.isFinal = true → q.id ≠ 4 := by decide
    have hleft : ∀ t ∈ detours.transitions, t.source = 4 → t.label ≠ .epsilon := by decide
    rcases (reads_nil_iff.mp hr).cases_head with he | ⟨r, hslip, -⟩
    · exact hfinal q hq hf he.symm
    · exact hleft _ hslip rfl rfl
  refine ⟨d, hd, ?_, ?_, hlong.mpr ⟨_, hword, by decide⟩⟩
  · rw [← Bool.not_eq_true, hempty]
    exact Set.nonempty_iff_ne_empty.mp ⟨_, hword⟩
  · rwa [← Bool.not_eq_true, hstart]

end Automaton
end FiniteAutomata
