import FiniteAutomata.Structure
import FiniteAutomata.Proofs.Language

/-! # Useful and useless states

The search forwards finds the positions that words lead to, the search backwards those from which
words are accepted. Both follow the same transitions, once along the rows of the states they leave
and once along the rows of the states they enter, so that a position is in both results exactly when
an accepting path goes through its state.
-/
namespace FiniteAutomata

namespace Index
variable {n : Nat} {ix : Index n} {a : Automaton} {i j : Fin n}

theorem mem_reachable_iff : j ∈ ix.reachable i ↔ Search.Reaches ix.successors i j := by
  unfold reachable
  rw [Search.mem_reach]
  simp only [StateSet.mem_singleton, exists_eq_left]

namespace Represents

theorem leads_successors_iff (h : ix.Represents a) :
    Search.Leads ix.successors i j ↔ ∃ l, ⟨ix.idAt i, ix.idAt j, l⟩ ∈ a.transitions := by
  unfold Search.Leads successors
  rw [List.mem_map]
  constructor
  · rintro ⟨⟨l, k⟩, hmem, rfl⟩
    exact ⟨l, (h.outgoing i l k).mp hmem⟩
  · rintro ⟨l, ht⟩
    exact ⟨(l, j), (h.outgoing i l j).mpr ht, rfl⟩

theorem leads_incoming_iff (h : ix.Represents a) :
    Search.Leads (fun k => ix.incoming.get k) j i ↔ Search.Leads ix.successors i j := by
  rw [h.leads_successors_iff]
  exact h.incoming i j

theorem reaches_successors_iff (h : ix.Represents a) :
    Search.Reaches ix.successors i j ↔ ∃ w, Reads a.transitions (ix.idAt i) w (ix.idAt j) := by
  constructor
  · intro hr
    induction hr with
    | refl => exact ⟨[], Reads.refl _ _⟩
    | tail _ he ih =>
      obtain ⟨w, hw⟩ := ih
      obtain ⟨l, ht⟩ := h.leads_successors_iff.mp he
      exact ⟨_, hw.trans (Reads.cons ht (Reads.refl _ _))⟩
  · rintro ⟨w, ls, hp, -⟩
    generalize hi : ix.idAt i = p at hp
    generalize hj : ix.idAt j = q at hp
    induction hp generalizing i with
    | nil p => rw [h.idAt_inj.mp (hi.trans hj.symm)]
    | cons ht _ ih =>
      obtain ⟨-, k, -, hk⟩ := h.resolved _ ht
      have he : Search.Leads ix.successors i k := h.leads_successors_iff.mpr ⟨_, by rwa [hi, hk]⟩
      exact Relation.ReflTransGen.head he (ih hk hj)

theorem mem_productive_iff (h : ix.Represents a) :
    i ∈ ix.productive ↔ ∃ j ∈ ix.accepting, Search.Reaches ix.successors i j := by
  have hswap : Search.Leads (fun k => ix.incoming.get k) =
      Function.swap (Search.Leads ix.successors) := by
    funext j i
    exact propext h.leads_incoming_iff
  unfold productive
  rw [Search.mem_reach]
  simp only [Search.Reaches, hswap, Relation.reflTransGen_swap]

theorem mem_reachable (h : ix.Represents a) :
    j ∈ ix.reachable i ↔ ∃ w, Reads a.transitions (ix.idAt i) w (ix.idAt j) := by
  rw [mem_reachable_iff, h.reaches_successors_iff]

theorem mem_productive (h : ix.Represents a) :
    i ∈ ix.productive ↔ ∃ w, a.AcceptsFrom (ix.idAt i) w := by
  rw [h.mem_productive_iff]
  simp only [h.reaches_successors_iff]
  constructor
  · rintro ⟨j, hj, w, hw⟩
    exact ⟨w, ix.states.get j, (h.mem_states _).mpr ⟨j, rfl⟩, (h.accepting j).mp hj, hw⟩
  · rintro ⟨w, q, hq, hf, hw⟩
    obtain ⟨j, rfl⟩ := (h.mem_states q).mp hq
    exact ⟨j, (h.accepting j).mpr hf, w, hw⟩

theorem mem_ids_iff_of (h : ix.Represents a) {s : StateSet n} {S : StateId → Prop}
    (hs : ∀ k, k ∈ s ↔ S (ix.idAt k)) {p : StateId} : p ∈ ix.ids s ↔ p ∈ a.ids ∧ S p := by
  rw [mem_ids, h.mem_ids_iff]
  constructor
  · rintro ⟨k, hk, rfl⟩
    exact ⟨⟨k, rfl⟩, (hs k).mp hk⟩
  · rintro ⟨⟨k, rfl⟩, hk⟩
    exact ⟨k, (hs k).mpr hk, rfl⟩

theorem mem_ids_unreachable (h : ix.Represents a) {p : StateId} :
    p ∈ ix.ids (StateSet.full.diff (ix.reachable i)) ↔
      p ∈ a.ids ∧ ¬ ∃ w, Reads a.transitions (ix.idAt i) w p := by
  refine h.mem_ids_iff_of (S := fun p => ¬ ∃ w, Reads a.transitions (ix.idAt i) w p) fun k => ?_
  rw [StateSet.mem_diff, h.mem_reachable]
  exact and_iff_right (StateSet.mem_full k)

theorem mem_ids_dead (h : ix.Represents a) {p : StateId} :
    p ∈ ix.ids (StateSet.full.diff ix.productive) ↔ p ∈ a.ids ∧ ¬ ∃ w, a.AcceptsFrom p w := by
  refine h.mem_ids_iff_of (S := fun p => ¬ ∃ w, a.AcceptsFrom p w) fun k => ?_
  rw [StateSet.mem_diff, h.mem_productive]
  exact and_iff_right (StateSet.mem_full k)

theorem mem_ids_trap (h : ix.Represents a) {p : StateId} :
    p ∈ ix.ids ((StateSet.full.diff ix.productive).inter (ix.reachable i)) ↔
      p ∈ ix.ids (StateSet.full.diff ix.productive) ∧
        p ∉ ix.ids (StateSet.full.diff (ix.reachable i)) := by
  have htrap : p ∈ ix.ids ((StateSet.full.diff ix.productive).inter (ix.reachable i)) ↔ p ∈ a.ids ∧
      (¬ ∃ w, a.AcceptsFrom p w) ∧ ∃ w, Reads a.transitions (ix.idAt i) w p := by
    refine h.mem_ids_iff_of (S := fun p => (¬ ∃ w, a.AcceptsFrom p w) ∧
      ∃ w, Reads a.transitions (ix.idAt i) w p) fun k => ?_
    rw [StateSet.mem_inter, StateSet.mem_diff, h.mem_productive, h.mem_reachable,
      and_iff_right (StateSet.mem_full k)]
  rw [htrap, h.mem_ids_unreachable, h.mem_ids_dead]
  constructor
  · rintro ⟨hp, hd, hreach⟩
    exact ⟨⟨hp, hd⟩, fun hun => hun.2 hreach⟩
  · rintro ⟨⟨hp, hd⟩, hun⟩
    exact ⟨hp, hd, by_contra fun hno => hun ⟨hp, hno⟩⟩

end Represents
end Index

theorem reads_iff_exists_path {ts : List Transition} {p q : StateId} :
    (∃ w, Reads ts p w q) ↔ ∃ ls, Path ts p ls q := by
  constructor
  · rintro ⟨w, ls, hp, -⟩
    exact ⟨ls, hp⟩
  · rintro ⟨ls, hp⟩
    exact ⟨_, ls, hp, rfl⟩

namespace Automaton
variable {a : Automaton} {s : State} {p : StateId}

/-- Some path over the word leads from the initial state through the given one to a final state. -/
def AcceptsThrough (a : Automaton) (p : StateId) (w : List Char) : Prop :=
  ∃ s, a.initialState? = some s ∧ ∃ q ∈ a.states, q.isFinal = true ∧
    ∃ ls ms, Path a.transitions s.id ls p ∧ Path a.transitions p ms q.id ∧ spelled (ls ++ ms) = w

theorem acceptsThrough_iff {w : List Char} :
    a.AcceptsThrough p w ↔ ∃ u v, a.LeadsTo u p ∧ v ∈ a.languageFrom p ∧ w = u ++ v := by
  constructor
  · rintro ⟨s, hs, q, hq, hf, ls, ms, hls, hms, rfl⟩
    exact ⟨_, _, ⟨s, hs, ls, hls, rfl⟩, ⟨q, hq, hf, ms, hms, rfl⟩, spelled_append ls ms⟩
  · rintro ⟨u, v, ⟨s, hs, ls, hls, rfl⟩, ⟨q, hq, hf, ms, hms, rfl⟩, rfl⟩
    exact ⟨s, hs, q, hq, hf, ls, ms, hls, hms, spelled_append ls ms⟩

theorem AcceptsThrough.mem_language {w : List Char} (h : a.AcceptsThrough p w) : w ∈ a.language := by
  obtain ⟨u, v, hu, hv, rfl⟩ := acceptsThrough_iff.mp h
  exact mem_language_of_leadsTo hu hv

theorem exists_acceptsThrough_iff (hw : a.WellFormed) (hs : a.initialState? = some s) :
    ((∃ u, a.LeadsTo u p) ∧ ∃ v, v ∈ a.languageFrom p) ↔
      ∃ word ∈ a.acceptedStrings, a.AcceptsThrough p word.toList := by
  constructor
  · rintro ⟨⟨u, hu⟩, v, hv⟩
    have hthrough : a.AcceptsThrough p (u ++ v) := acceptsThrough_iff.mpr ⟨u, v, hu, hv, rfl⟩
    rw [← String.toList_ofList (l := u ++ v)] at hthrough
    exact ⟨_, (mem_acceptedStrings hw hs).mpr hthrough.mem_language, hthrough⟩
  · rintro ⟨word, -, hthrough⟩
    obtain ⟨u, v, hu, hv, -⟩ := acceptsThrough_iff.mp hthrough
    exact ⟨⟨u, hu⟩, v, hv⟩

theorem exists_acceptsFrom_iff : (∃ w, a.AcceptsFrom p w) ↔
    ∃ q ∈ a.states, q.isFinal = true ∧ ∃ ls, Path a.transitions p ls q.id := by
  constructor
  · rintro ⟨w, q, hq, hf, ls, hp, -⟩
    exact ⟨q, hq, hf, ls, hp⟩
  · rintro ⟨q, hq, hf, ls, hp⟩
    exact ⟨_, q, hq, hf, ls, hp, rfl⟩

/-- The report exists for every well-formed automaton with an initial state, and its lists are those
of the sets that the two searches leave over. -/
theorem exists_structureReport (hw : a.WellFormed) (hs : a.initialState? = some s) :
    ∃ (ix : Index a.states.length) (i : Fin a.states.length), ix.Represents a ∧ ix.idAt i = s.id ∧
      a.structureReport.outcome = .ok
        ⟨ix.ids (StateSet.full.diff (ix.reachable i)), ix.ids (StateSet.full.diff ix.productive),
          ix.ids ((StateSet.full.diff ix.productive).inter (ix.reachable i))⟩ := by
  obtain ⟨ix, hix, h⟩ := Index.exists_index hw
  obtain ⟨i, hi, rfl⟩ := exists_initial h hs
  refine ⟨ix, i, h, rfl, ?_⟩
  rw [structureReport, isEmpty_eq_false hs, if_neg Bool.false_ne_true,
    Index.outcome_bind_of_initial hix hi]
  rfl

theorem structureReport_of_connected (hw : a.WellFormed) (hs : a.initialState? = some s)
    (hc : a.Connected) (hl : a.Live) : a.structureReport.outcome = .ok ⟨[], [], []⟩ := by
  obtain ⟨ix, i, h, hi, hr⟩ := exists_structureReport hw hs
  have hreached : ∀ p ∈ a.ids, ∃ w, a.LeadsTo w p := by
    intro p hp
    obtain ⟨q, hq, rfl⟩ := List.mem_map.mp hp
    exact hc q hq
  have hunreachable : ix.ids (StateSet.full.diff (ix.reachable i)) = [] := by
    refine List.eq_nil_iff_forall_not_mem.mpr fun p hp => ?_
    obtain ⟨hid, hno⟩ := h.mem_ids_unreachable.mp hp
    obtain ⟨w, hw⟩ := hreached p hid
    rw [hi] at hno
    exact hno ⟨w, (leadsTo_of_initial hs).mp hw⟩
  have hdead : ix.ids (StateSet.full.diff ix.productive) = [] := by
    refine List.eq_nil_iff_forall_not_mem.mpr fun p hp => ?_
    obtain ⟨hid, hno⟩ := h.mem_ids_dead.mp hp
    obtain ⟨w, hw⟩ := hreached p hid
    exact hno (hl w p hw)
  have htrap : ix.ids ((StateSet.full.diff ix.productive).inter (ix.reachable i)) = [] := by
    refine List.eq_nil_iff_forall_not_mem.mpr fun p hp => ?_
    have hin := (h.mem_ids_trap.mp hp).1
    rw [hdead] at hin
    cases hin
  rw [hr, hunreachable, hdead, htrap]

/-- The report lists, each in ascending order, the states to which no path leads from the initial
state, those from which no path leads to a final one, and of these the ones to which paths lead. The
states on neither of the first two lists are those that accepting paths go through. -/
theorem structureReport_classifies (hw : a.WellFormed) (hs : a.initialState? = some s) :
    ∃ r, a.structureReport.outcome = .ok r ∧
      r.unreachable.Pairwise (· < ·) ∧ r.dead.Pairwise (· < ·) ∧ r.trap.Pairwise (· < ·) ∧
      (∀ p, p ∈ r.unreachable ↔ p ∈ a.ids ∧ ¬ ∃ labels, Path a.transitions s.id labels p) ∧
      (∀ p, p ∈ r.dead ↔ p ∈ a.ids ∧
        ¬ ∃ q ∈ a.states, q.isFinal = true ∧ ∃ labels, Path a.transitions p labels q.id) ∧
      (∀ p, p ∈ r.trap ↔ p ∈ r.dead ∧ p ∉ r.unreachable) ∧
      ∀ p ∈ a.ids, (p ∉ r.unreachable ∧ p ∉ r.dead) ↔
        ∃ word ∈ a.acceptedStrings, a.AcceptsThrough p word.toList := by
  obtain ⟨ix, i, h, hi, hr⟩ := exists_structureReport hw hs
  refine ⟨_, hr, h.pairwise_ids _, h.pairwise_ids _, h.pairwise_ids _, ?_, ?_, ?_, ?_⟩
  · intro p
    rw [h.mem_ids_unreachable, hi, reads_iff_exists_path]
  · intro p
    rw [h.mem_ids_dead, exists_acceptsFrom_iff]
  · exact fun p => h.mem_ids_trap
  · intro p hp
    simp only [h.mem_ids_unreachable, h.mem_ids_dead, hp, true_and, not_not, hi]
    rw [← exists_acceptsThrough_iff hw hs]
    simp only [leadsTo_of_initial hs]
    exact Iff.rfl

/-- The state 7 is a trap, and 9 is final but reached from nowhere. -/
def detours : Automaton where
  states := [{ id := 4, isInitial := true }, { id := 2, isFinal := true }, { id := 7 },
    { id := 9, isFinal := true }, { id := 1 }]
  transitions := [⟨4, 1, .symbol 'a'⟩, ⟨1, 2, .epsilon⟩, ⟨2, 4, .symbol 'b'⟩, ⟨4, 7, .symbol 'b'⟩,
    ⟨7, 7, .symbol 'a'⟩, ⟨9, 2, .epsilon⟩]

theorem detours_wellFormed : detours.WellFormed := by decide

theorem structureReport_detours :
    ∃ r, detours.structureReport.outcome = .ok r ∧ 9 ∈ r.unreachable ∧ 7 ∈ r.trap ∧ 1 ∉ r.dead := by
  obtain ⟨r, hr, -, -, -, hunreachable, hdead, htrap, -⟩ :=
    structureReport_classifies detours_wellFormed (s := { id := 4, isInitial := true }) rfl
  have hentered : ∀ t ∈ detours.transitions, t.target ≠ 9 := by decide
  have hleft : ∀ t ∈ detours.transitions, t.target ≠ 7 → t.source ≠ 7 := by decide
  have hfinal : ∀ q ∈ detours.states, q.isFinal = true → q.id ≠ 7 := by decide
  have hnine : ¬ ∃ labels, Path detours.transitions 4 labels 9 := by
    rintro ⟨labels, hp⟩
    have hback : (4 : StateId) = 9 := Reads.backward (S := fun p _ => p = 9) rfl
      (fun t ht _ h9 => absurd h9 (hentered t ht)) ⟨labels, hp, rfl⟩
    exact absurd hback (by decide)
  have hseven : ¬ ∃ q ∈ detours.states, q.isFinal = true ∧
      ∃ labels, Path detours.transitions 7 labels q.id := by
    rintro ⟨q, hq, hf, labels, hp⟩
    have hback : (7 : StateId) ≠ 7 := Reads.backward (S := fun p _ => p ≠ 7) (hfinal q hq hf)
      (fun t ht _ h7 => hleft t ht h7) ⟨labels, hp, rfl⟩
    exact hback rfl
  refine ⟨r, hr, (hunreachable 9).mpr ⟨by decide, hnine⟩, ?_, ?_⟩
  · refine (htrap 7).mpr ⟨(hdead 7).mpr ⟨by decide, hseven⟩, fun hun => ?_⟩
    exact ((hunreachable 7).mp hun).2 ⟨[.symbol 'b'], .cons (by decide) (.nil 7)⟩
  · intro hun
    exact ((hdead 1).mp hun).2
      ⟨{ id := 2, isFinal := true }, by decide, rfl, [.epsilon], .cons (by decide) (.nil 2)⟩

end Automaton
end FiniteAutomata
