import Mathlib.Data.Set.List
import FiniteAutomata.Proofs.Lockstep
import FiniteAutomata.Proofs.PowerStateCeiling

/-! # Determinizing again

The numbers of a determinization follow the first words of its power-states and its transitions
ascend. So it is given by which words lead somewhere, which of them lead to the same states, and which
are accepted. All this it has in common with the automaton that it was made from, and determinizing it
again changes nothing.
-/
namespace FiniteAutomata

namespace Determinization
variable {n : Nat} {ix : Index n} {first : StateSet n} {limit : Nat} {p : Progress n} {a : Automaton}
  {words : List (List Char)} {w : List Char} {i : Fin n} {q : StateId} {labelStart : String}

theorem Explored.mem_transitions_iff (h : Complete ix first limit p) (hr : ix.Represents a)
    (hsets : p.sets.toList = words.map (ix.after first)) {t : Transition} :
    t ∈ p.transitions.toList ↔ ∃ (k l : Nat) (v w : List Char) (c : Char), words[k]? = some v ∧
      words[l]? = some w ∧ ix.after first (v ++ [c]) = ix.after first w ∧
      t = ⟨.ofNat k, .ofNat l, .symbol c⟩ := by
  have hget : ∀ (k : Nat) s, p.sets[k]? = some s ↔ ∃ w, words[k]? = some w ∧ ix.after first w = s := by
    intro k s
    rw [← Array.getElem?_toList, hsets, List.getElem?_map, Option.map_eq_some_iff]
  rw [h.mem_transitions]
  constructor
  · rintro ⟨k, c, s, l, -, hk, hl, rfl⟩
    obtain ⟨v, hv, rfl⟩ := (hget k s).mp hk
    obtain ⟨w, hw, he⟩ := (hget l _).mp hl
    exact ⟨k, l, v, w, c, hv, hw, (Index.after_concat ..).trans he.symm, rfl⟩
  · rintro ⟨k, l, v, w, c, hv, hw, he, rfl⟩
    rw [Index.after_concat] at he
    have hl := (hget l _).mpr ⟨w, hw, he.symm⟩
    have hc := (hr.of_step_nonempty (h.nonempty l _ hl)).1
    exact ⟨k, c, _, l, hc, (hget k _).mpr ⟨v, hv, rfl⟩, hl, rfl⟩

theorem states_assemble (labelStart : String) (hsets : p.sets.toList = words.map (ix.after first)) :
    (assemble ix labelStart p).automaton.states =
      words.zipIdx.map fun e => stateOf ix labelStart (ix.after first e.1) e.2 := by
  unfold assemble
  dsimp only
  rw [hsets, List.zipIdx_map, List.map_map]
  rfl

theorem Explored.mem_powerState (h : Complete ix first limit p) (hr : ix.Represents a)
    (hs : p.sets.size ≤ UInt32.size) :
    q ∈ (assemble ix labelStart p).automaton.powerState w ↔
      ∃ k : Nat, p.sets[k]? = some (ix.after first w) ∧ q = .ofNat k :=
  (Automaton.leadsTo_of_initial (h.initialState? labelStart)).trans (h.reads_iff hr hs)

theorem Explored.powerState_eq_singleton (h : Complete ix first limit p) (hr : ix.Represents a)
    (hs : p.sets.size ≤ UInt32.size) {k : Nat} (hk : p.sets[k]? = some (ix.after first w)) :
    (assemble ix labelStart p).automaton.powerState w = {.ofNat k} := by
  ext q
  rw [h.mem_powerState hr hs, Set.mem_singleton_iff]
  constructor
  · rintro ⟨l, hl, rfl⟩
    have hkl := (h.number _ l).mpr hl
    rw [(h.number _ k).mpr hk] at hkl
    rw [Option.some.inj hkl]
  · rintro rfl
    exact ⟨k, hk, rfl⟩

end Determinization

namespace Automaton
variable {a b : Automaton} {n n' : Nat} {ix : Index n} {ix' : Index n'} {i : Fin n} {i' : Fin n'}
  {limit : Nat} {limits : Limits} {p : Determinization.Progress n}
  {p' : Determinization.Progress n'} {d : Determinization} {w : List Char} {q : StateId}
  {words : List (List Char)}

/-- Words lead somewhere, lead where others lead, and are accepted in the one automaton exactly if they
are in the other. -/
structure TellsAlike (a b : Automaton) : Prop where
  nonempty : ∀ w, (a.powerState w).Nonempty ↔ (b.powerState w).Nonempty
  same : ∀ v w, a.powerState v = a.powerState w ↔ b.powerState v = b.powerState w
  language : a.language = b.language

namespace TellsAlike

theorem isFirst_iff (h : a.TellsAlike b) (hr : ix.Represents a) (hr' : ix'.Represents b)
    (hi : ix.initial = some i) (hi' : ix'.initial = some i') :
    ix.IsFirst (ix.start i) w ↔ ix'.IsFirst (ix'.start i') w := by
  rw [Automaton.isFirst_iff hr hi, Automaton.isFirst_iff hr' hi', h.nonempty]
  simp only [FirstInto, true_and, h.same]

/-- The searches meet the same words, and where the one is within the limit the other is. -/
theorem exists_explore (h : a.TellsAlike b) (hr : ix.Represents a) (hr' : ix'.Represents b)
    (hi : ix.initial = some i) (hi' : ix'.initial = some i')
    (hp : Determinization.explore ix limit i = .ok p) :
    ∃ p', Determinization.explore ix' limit i' = .ok p' ∧ ∃ words : List (List Char),
      p.sets.toList = words.map (ix.after (ix.start i)) ∧
      p'.sets.toList = words.map (ix'.after (ix'.start i')) := by
  obtain ⟨words, hsets, hasc, hmem⟩ := Determinization.exists_words_of_explore hr hp
  obtain ⟨p', hp'⟩ := Determinization.exists_explore (Nat.le_refl _) (hr'.isEmpty_start i')
  obtain ⟨words', hsets', hasc', hmem'⟩ := Determinization.exists_words_of_explore hr' hp'
  obtain rfl : words = words' := by
    refine hasc.eq_of_mem_iff hasc' fun w => ?_
    rw [hmem, hmem', h.isFirst_iff hr hr' hi hi']
  have hsize : p'.sets.size = p.sets.size := by
    rw [← Array.length_toList, ← Array.length_toList, hsets, hsets', List.length_map, List.length_map]
  have hroom : p'.sets.size ≤ max limit 1 :=
    hsize ▸ (Determinization.explored_explore (hr.isEmpty_start i) hp).small
  refine ⟨p', ?_, words, hsets, hsets'⟩
  rw [← Determinization.explore_max_one]
  exact Determinization.explore_eq_of_size_le hr' hp' hroom

theorem automaton_eq (h : a.TellsAlike b) (hr : ix.Represents a) (hr' : ix'.Represents b)
    (hi : ix.initial = some i) (hi' : ix'.initial = some i')
    (hp : Determinization.explore ix limit i = .ok p)
    (hp' : Determinization.explore ix' limit i' = .ok p')
    (hsets : p.sets.toList = words.map (ix.after (ix.start i)))
    (hsets' : p'.sets.toList = words.map (ix'.after (ix'.start i')))
    (hs : p.sets.size ≤ UInt32.size) (hs' : p'.sets.size ≤ UInt32.size) (labelStart : String) :
    (Determinization.assemble ix labelStart p).automaton =
      (Determinization.assemble ix' labelStart p').automaton := by
  have hx := Determinization.explored_explore (hr.isEmpty_start i) hp
  have hx' := Determinization.explored_explore (hr'.isEmpty_start i') hp'
  have htransitions : p.transitions.toList = p'.transitions.toList := by
    refine (hx.pairwise_transitions hr hs).eq_of_mem_iff (hx'.pairwise_transitions hr' hs') fun t => ?_
    rw [hx.mem_transitions_iff hr hsets, hx'.mem_transitions_iff hr' hsets']
    simp only [← powerState_eq_iff hr hi, ← powerState_eq_iff hr' hi', h.same]
  have hstates : (Determinization.assemble ix labelStart p).automaton.states =
      (Determinization.assemble ix' labelStart p').automaton.states := by
    rw [Determinization.states_assemble labelStart hsets,
      Determinization.states_assemble labelStart hsets']
    refine List.map_congr_left ?_
    rintro ⟨w, k⟩ -
    have haccepting : ix.isAccepting (ix.after (ix.start i) w) =
        ix'.isAccepting (ix'.after (ix'.start i') w) := by
      rw [Bool.eq_iff_iff, isAccepting_after_iff hr hi, isAccepting_after_iff hr' hi', h.language]
    exact congrArg (State.onGrid .resultLayout labelStart (.ofNat k) (k == 0)) haccepting
  unfold Determinization.assemble at hstates ⊢
  dsimp only at hstates ⊢
  rw [hstates, htransitions]

end TellsAlike

theorem tellsAlike_assemble (hr : ix.Represents a) (hi : ix.initial = some i)
    (hp : Determinization.explore ix limit i = .ok p) (hs : p.sets.size ≤ UInt32.size)
    (labelStart : String) : a.TellsAlike (Determinization.assemble ix labelStart p).automaton := by
  have hx := Determinization.explored_explore (hr.isEmpty_start i) hp
  have hnonempty : ∀ w, (a.powerState w).Nonempty ↔
      ((Determinization.assemble ix labelStart p).automaton.powerState w).Nonempty := by
    intro w
    rw [powerState_nonempty_iff hr hi]
    constructor
    · intro hfull
      obtain ⟨k, hk⟩ := hx.exists_number_after hr hfull
      exact ⟨.ofNat k, (hx.mem_powerState hr hs).mpr ⟨k, hk, rfl⟩⟩
    · rintro ⟨q, hq⟩
      obtain ⟨k, hk, -⟩ := (hx.mem_powerState hr hs).mp hq
      exact hx.nonempty k _ hk
  refine ⟨hnonempty, ?_, ?_⟩
  · intro v w
    constructor
    · intro he
      rw [powerState_eq_iff hr hi] at he
      ext q
      rw [hx.mem_powerState hr hs, hx.mem_powerState hr hs, he]
    · intro he
      by_cases hv : (a.powerState v).Nonempty
      · rw [powerState_eq_iff hr hi]
        obtain ⟨k, hk⟩ := hx.exists_number_after hr ((powerState_nonempty_iff hr hi).mp hv)
        have hmem : .ofNat k ∈ (Determinization.assemble ix labelStart p).automaton.powerState v :=
          (hx.mem_powerState hr hs).mpr ⟨k, hk, rfl⟩
        rw [he] at hmem
        obtain ⟨l, hl, hkl⟩ := (hx.mem_powerState hr hs).mp hmem
        have hlt := (Array.getElem?_eq_some_iff.mp hk).1
        have hlt' := (Array.getElem?_eq_some_iff.mp hl).1
        obtain rfl := (ofNat_inj hs hlt hlt').mp hkl
        exact Option.some.inj (hk.symm.trans hl)
      · have hw : ¬ (a.powerState w).Nonempty := by rwa [hnonempty, ← he, ← hnonempty]
        rw [Set.not_nonempty_iff_eq_empty.mp hv, Set.not_nonempty_iff_eq_empty.mp hw]
  · apply Language.ext
    intro w
    rw [mem_language_of_initial (hx.initialState? labelStart), ← isAccepting_after_iff hr hi]
    exact (hx.acceptsFrom_iff hr hs labelStart).symm

theorem ids_after_eq_singleton (hr : ix.Represents a) (hi : ix.initial = some i)
    (h : a.powerState w = {q}) : ix.ids (ix.after (ix.start i) w) = [q] := by
  refine eq_of_ascending (hr.pairwise_ids _) (List.pairwise_singleton _ _) fun r => ?_
  rw [← mem_powerState hr hi, h, Set.mem_singleton_iff, List.mem_singleton]

theorem Deterministic.exists_reached (hdet : a.Deterministic) (hr : ix.Represents a)
    (hi : ix.initial = some i) (hp : Determinization.explore ix limit i = .ok p) :
    ∃ ids : List StateId, p.sets.toList.map ix.ids = ids.map ([·]) ∧ ids.Nodup ∧
      ∀ q, q ∈ ids ↔ ∃ w, a.LeadsTo w q := by
  obtain ⟨words, hsets, -, hmem⟩ := Determinization.exists_words_of_explore hr hp
  have hsingle : ∀ {w q}, a.LeadsTo w q → ix.ids (ix.after (ix.start i) w) = [q] := by
    intro w q hq
    refine ids_after_eq_singleton hr hi (Set.eq_singleton_iff_unique_mem.mpr ⟨hq, ?_⟩)
    exact fun r hr' => hdet.leadsTo_unique hr' hq
  have hall : ∀ xs ∈ p.sets.toList.map ix.ids, xs ∈ Set.range fun q : StateId => [q] := by
    intro xs hxs
    rw [hsets, List.map_map] at hxs
    obtain ⟨w, hw, rfl⟩ := List.mem_map.mp hxs
    obtain ⟨q, hq⟩ := (isEmpty_after_eq_false_iff hr hi).mp ((hmem w).mp hw).nonempty
    exact ⟨q, (hsingle hq).symm⟩
  obtain ⟨ids, hids⟩ : p.sets.toList.map ix.ids ∈ Set.range (List.map fun q : StateId => [q]) := by
    rw [Set.range_list_map]
    exact hall
  refine ⟨ids, hids.symm, ?_, fun q => ?_⟩
  · have hnodup := (nodup_idSets hr hp).of_map _
    rw [← hids] at hnodup
    exact hnodup.of_map _
  · have hq : q ∈ ids ↔ [q] ∈ p.sets.toList.map ix.ids := by simp [← hids]
    rw [hq, hsets, List.map_map, List.mem_map]
    constructor
    · rintro ⟨w, -, he⟩
      refine ⟨w, (mem_powerState hr hi).mpr ?_⟩
      rw [show ix.ids (ix.after (ix.start i) w) = [q] from he]
      exact List.mem_singleton_self q
    · rintro ⟨w, hw⟩
      have hfull := (isEmpty_after_eq_false_iff hr hi).mpr ⟨q, hw⟩
      obtain ⟨v, hv, he⟩ := Index.exists_isFirst hfull
      refine ⟨v, (hmem v).mpr hv, ?_⟩
      rw [Function.comp_apply, he, hsingle hw]

/-- What is found is found again in itself, each number being a power-state of its own. -/
theorem determinize_assemble (hr : ix.Represents a) (hi : ix.initial = some i)
    (hp : Determinization.explore ix limits.maxPowerStates i = .ok p)
    (hl : max limits.maxPowerStates 1 ≤ UInt32.size) :
    ((Determinization.assemble ix "D" p).automaton.determinize limits).outcome =
      .ok ⟨(Determinization.assemble ix "D" p).automaton,
        (Determinization.assemble ix "D" p).automaton.ids.map ([·])⟩ := by
  have hx := Determinization.explored_explore (hr.isEmpty_start i) hp
  have hs := hx.small.trans hl
  have hdet := hx.deterministic hr hs "D"
  have halike := tellsAlike_assemble hr hi hp hs "D"
  obtain ⟨s, hinitial⟩ := hdet.initial
  obtain ⟨ix', hix', hr'⟩ := Index.exists_index hdet.wellFormed
  obtain ⟨i', hi', -⟩ := exists_initial hr' hinitial
  obtain ⟨p', hp', words, hsets, hsets'⟩ := halike.exists_explore hr hr' hi hi' hp
  have hs' := (Determinization.explored_explore (hr'.isEmpty_start i') hp').small.trans hl
  have hsize : p.sets.size = words.length := by
    rw [← Array.length_toList, hsets, List.length_map]
  have hpowerStates : p'.sets.toList.map ix'.ids =
      (Determinization.assemble ix "D" p).automaton.ids.map ([·]) := by
    rw [Determinization.numbered_assemble ix "D" p, hsize, hsets', List.map_map, List.map_map]
    refine List.ext_getElem (by simp) fun k hk _ => ?_
    have hlt : k < words.length := by simpa using hk
    have hset : p.sets[k]? = some (ix.after (ix.start i) words[k]) := by
      rw [← Array.getElem?_toList, hsets, List.getElem?_map, List.getElem?_eq_getElem hlt]
      rfl
    have hids := ids_after_eq_singleton hr' hi' (hx.powerState_eq_singleton hr hs hset)
    simpa using hids
  have hautomaton := halike.automaton_eq hr hr' hi hi' hp hp' hsets hsets' hs hs' "D"
  have houtcome := Index.outcome_bind_of_initial hix' hi' fun ix i =>
    Determinization.ofIndex ix "D" limits i
  exact houtcome.trans (Determinization.ofIndex_eq_ok.mpr
    ⟨p', hp', congrArg₂ Determinization.mk hautomaton.symm hpowerStates⟩)

/-- A determinization is numbered by the first words of its power-states, its transitions ascend, and
words lead from 0 to all its states. Determinized again under the same limits it stays as it is, each
state a power-state of its own. The power-states of a deterministic automaton are the states that words
lead to. -/
theorem determinize_determinize (hl : limits.maxPowerStates ≤ 2 ^ 32)
    (h : (a.determinize limits).outcome = .ok d) :
    (∃ words : List (List Char), words.Pairwise Precedes ∧ d.automaton.Numbered words.length ∧
      List.Forall₂ (fun ids w => a.FirstInto (idSet ids) w) d.powerStates words) ∧
    d.automaton.transitions.Pairwise Transition.Before ∧
    (∀ q ∈ d.automaton.states, ∃ w, Reads d.automaton.transitions 0 w q.id) ∧
    (d.automaton.determinize limits).outcome = .ok ⟨d.automaton, d.automaton.ids.map ([·])⟩ ∧
    (a.validate.outcome = .ok () → ∃ ids : List StateId, d.powerStates = ids.map ([·]) ∧ ids.Nodup ∧
      ∀ q, q ∈ ids ↔ ∃ w, a.LeadsTo w q) := by
  obtain ⟨ix, i, p, hix, hi, hp, rfl⟩ := determinize_eq_ok h
  have hr := Index.represents_of_eq_ok hix
  have hx := Determinization.explored_explore (hr.isEmpty_start i) hp
  have hroom : max limits.maxPowerStates 1 ≤ UInt32.size := Nat.max_le.mpr ⟨hl, by decide⟩
  have hs := hx.small.trans hroom
  obtain ⟨words, hsets, hasc, hmem⟩ := Determinization.exists_words_of_explore hr hp
  refine ⟨⟨words, hasc, ?_, ?_⟩, hx.pairwise_transitions hr hs, ?_, determinize_assemble hr hi hp hroom,
    fun hvalid => (validate_eq_ok_iff.mp hvalid).exists_reached hr hi hp⟩
  · have hnumbered := Determinization.numbered_assemble ix "D" p
    rwa [← Array.length_toList, hsets, List.length_map] at hnumbered
  · have hpowerStates : (Determinization.assemble ix "D" p).powerStates =
        words.map fun w => ix.ids (ix.after (ix.start i) w) := by
      rw [Determinization.assemble, hsets, List.map_map]
      rfl
    rw [hpowerStates, List.forall₂_map_left_iff, List.forall₂_same]
    intro w hw
    rw [idSet_ids_after hr hi]
    exact ((Automaton.isFirst_iff hr hi).mp ((hmem w).mp hw)).2
  · intro q hq
    obtain ⟨k, s, hk, rfl⟩ := Determinization.mem_states_assemble.mp hq
    have hmem : s ∈ p.sets.toList := Array.mem_toList_iff.mpr (Array.mem_of_getElem? hk)
    rw [hsets] at hmem
    obtain ⟨w, -, rfl⟩ := List.mem_map.mp hmem
    exact ⟨w, (hx.reads_iff hr hs).mpr ⟨k, hk, rfl⟩⟩

/-- No word leads to state 9. -/
def sideEntrance : Automaton where
  states := [{ id := 9 }, { id := 4, isInitial := true }, { id := 2, isFinal := true }]
  transitions := [⟨9, 4, .symbol 'a'⟩, ⟨4, 2, .symbol 'b'⟩, ⟨2, 4, .symbol 'a'⟩]

theorem sideEntrance_deterministic : sideEntrance.Deterministic := by decide

theorem determinize_sideEntrance :
    ∃ d, (sideEntrance.determinize { maxPowerStates := 2 }).outcome = .ok d ∧
      (d.automaton.determinize { maxPowerStates := 2 }).outcome =
        .ok ⟨d.automaton, d.automaton.ids.map ([·])⟩ ∧
      ∃ ids : List StateId, d.powerStates = ids.map ([·]) ∧ ids.Nodup ∧ 2 ∈ ids := by
  obtain ⟨d, hd, -⟩ := exists_determinize_of_explore (k := 2) sideEntrance { maxPowerStates := 2 }
    (by cbv)
  obtain ⟨-, -, -, hagain, hreached⟩ := determinize_determinize (by decide) hd
  obtain ⟨ids, hids, hnodup, hmem⟩ := hreached (validate_eq_ok_iff.mpr sideEntrance_deterministic)
  have htransition : ⟨4, 2, .symbol 'b'⟩ ∈ sideEntrance.transitions := by decide
  have hread : Reads sideEntrance.transitions 4 ['b'] 2 := .symbol htransition (.refl _ _)
  exact ⟨d, hd, hagain, ids, hids, hnodup, (hmem 2).mpr ⟨['b'], _, rfl, hread⟩⟩

end Automaton
end FiniteAutomata
