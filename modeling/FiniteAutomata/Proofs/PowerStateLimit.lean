import Mathlib
import FiniteAutomata.Proofs.FirstWords

/-! # Limits on power-states

A determinization numbers the power-states that words reach, each of them once and no others, in the
order of their first words. The limit takes no part in that: whatever leaves room for all of them
leads to the same result.
-/
namespace FiniteAutomata
namespace Determinization
variable {n : Nat} {ix : Index n} {a : Automaton} {first s : StateSet n} {p q : Progress n}
  {limit limit' budget budget' source : Nat} {c : Char} {done : List Char}
  {words : List (List Char)}

/-- The numbered power-states are those that a search by words has met, in that order. -/
structure Swept (ix : Index n) (first : StateSet n) (source : Nat) (done : List Char)
    (p : Progress n) (words : List (List Char)) : Prop where
  sets : p.sets.toList = words.map (ix.after first)
  sweeps : ix.Sweeps first words source done

theorem swept_start (h : first.isEmpty = false) : Swept ix first 0 [] (.start first) [[]] where
  sets := rfl
  sweeps := Index.sweeps_start h

namespace Swept

theorem mem_sets (h : Swept ix first source done p words) :
    s ∈ p.sets.toList ↔ ∃ w ∈ words, ix.after first w = s := by
  rw [h.sets, List.mem_map]

theorem exists_word (h : Swept ix first source done p words) (hs : p.sets[source]? = some s) :
    ∃ u, words[source]? = some u ∧ ix.after first u = s := by
  rw [← Array.getElem?_toList, h.sets, List.getElem?_map, Option.map_eq_some_iff] at hs
  exact hs

theorem follow (h : Swept ix first source done p words) (hr : ix.Represents a)
    {pairs : List (Nat × Char)} (hx : Explored ix first limit pairs p)
    (hs : p.sets[source]? = some s) (hc : done ++ [c] <+: ix.alphabet)
    (hq : Determinization.follow ix limit source s p c = .ok q) :
    ∃ words : List (List Char), Swept ix first source (done ++ [c]) q words := by
  obtain ⟨u, hu, rfl⟩ := h.exists_word hs
  rw [Determinization.follow, ← Index.after_concat] at hq
  split at hq
  · rename_i hempty
    cases hq
    exact ⟨words, h.sets, h.sweeps.skip_of_isEmpty hu hc hempty⟩
  · rename_i hfull
    rw [Bool.not_eq_true] at hfull
    split at hq
    · rename_i target hnumber
      cases hq
      obtain ⟨w, hw, he⟩ := h.mem_sets.mp (hx.mem_sets.mpr ⟨target, hnumber⟩)
      exact ⟨words, h.sets, h.sweeps.skip_of_met hu hc hw he⟩
    · rename_i hnumber
      split at hq
      · cases hq
      · cases hq
        have hnew : ∀ w ∈ words, ix.after first w ≠ ix.after first (u ++ [c]) := by
          intro w hw he
          obtain ⟨j, hj⟩ := hx.mem_sets.mp (h.mem_sets.mpr ⟨w, hw, he⟩)
          rw [hnumber] at hj
          cases hj
        refine ⟨words ++ [u ++ [c]], ?_, h.sweeps.add hr hu hc hfull hnew⟩
        simp [Progress.connect, Progress.add, h.sets]

theorem followAll (h : Swept ix first source done p words) (hr : ix.Represents a)
    {pairs : List (Nat × Char)} (hx : Explored ix first limit pairs p)
    (hs : p.sets[source]? = some s) {cs : List Char} (hcs : done ++ cs = ix.alphabet)
    (hq : cs.foldlM (Determinization.follow ix limit source s) p = .ok q) :
    ∃ words : List (List Char), Swept ix first source ix.alphabet q words := by
  induction cs generalizing done pairs p words with
  | nil =>
    cases hq
    rw [List.append_nil] at hcs
    exact ⟨words, hcs ▸ h⟩
  | cons c cs ih =>
    rw [List.append_cons] at hcs
    obtain ⟨m, hm, hq⟩ := Outcome.foldlM_cons_eq_ok.mp hq
    obtain ⟨words', h'⟩ := h.follow hr hx hs ⟨cs, hcs⟩ hm
    obtain ⟨hx', hs'⟩ := hx.follow hs hm
    exact ih h' hx' hs' hcs hq

theorem mem_iff (h : Swept ix first source done p words) (hr : ix.Represents a)
    (hsource : p.sets.size ≤ source) {w : List Char} : w ∈ words ↔ ix.IsFirst first w := by
  refine ⟨h.sweeps.isFirst w, fun hw => ?_⟩
  by_contra hnew
  obtain ⟨i, v, hi, hplace, -⟩ := h.sweeps.exists_unexpanded hr hw hnew
  have hlt := (List.getElem?_eq_some_iff.mp hi).1
  have hlen := congrArg List.length h.sets
  rw [Array.length_toList, List.length_map] at hlen
  omega

theorem expand (h : Swept ix first source [] p words) (hr : ix.Represents a)
    (hx : Explored ix first limit (pairsBelow ix source) p) (hb : max limit 1 ≤ source + budget)
    (hq : Determinization.expand ix limit budget source p = .ok q) :
    ∃ words : List (List Char), q.sets.toList = words.map (ix.after first) ∧ words.Pairwise Precedes ∧
      ∀ w, w ∈ words ↔ ix.IsFirst first w := by
  induction budget generalizing source p words with
  | zero =>
    cases hq
    exact ⟨words, h.sets, h.sweeps.ascending, fun w => h.mem_iff hr (hx.small.trans hb)⟩
  | succ budget ih =>
    rw [Determinization.expand] at hq
    split at hq
    · rename_i hnone
      cases hq
      have hsource := Array.getElem?_eq_none_iff.mp hnone
      exact ⟨words, h.sets, h.sweeps.ascending, fun w => h.mem_iff hr hsource⟩
    · rename_i s hs
      obtain ⟨m, hm, hq⟩ := Outcome.bind_eq_ok.mp hq
      obtain ⟨words', h'⟩ := h.followAll hr hx hs (List.nil_append _) hm
      obtain ⟨hx', -⟩ := hx.followAll hs hm
      rw [← pairsBelow_succ] at hx'
      exact ih ⟨h'.sets, h'.sweeps.turn hr⟩ hx' (by omega) hq

end Swept

theorem exists_words_of_explore (hr : ix.Represents a) {i : Fin n}
    (hp : explore ix limit i = .ok p) :
    ∃ words : List (List Char), p.sets.toList = words.map (ix.after (ix.start i)) ∧
      words.Pairwise Precedes ∧ ∀ w, w ∈ words ↔ ix.IsFirst (ix.start i) w := by
  have hfull := hr.isEmpty_start i
  exact (swept_start hfull).expand hr (explored_start hfull) (Nat.le_add_left _ 0) hp

theorem size_le_of_follow (hq : follow ix limit source s p c = .ok q) :
    p.sets.size ≤ q.sets.size := by
  unfold follow at hq
  dsimp only at hq
  split at hq
  · cases hq
    exact Nat.le_refl _
  · split at hq
    · cases hq
      exact Nat.le_refl _
    · split at hq
      · cases hq
      · cases hq
        simp [Progress.connect, Progress.add]

theorem size_le_of_followAll {cs : List Char} (hq : cs.foldlM (follow ix limit source s) p = .ok q) :
    p.sets.size ≤ q.sets.size := by
  induction cs generalizing p with
  | nil =>
    cases hq
    exact Nat.le_refl _
  | cons c cs ih =>
    obtain ⟨m, hm, hq⟩ := Outcome.foldlM_cons_eq_ok.mp hq
    exact (size_le_of_follow hm).trans (ih hq)

theorem size_le_of_expand (hq : expand ix limit budget source p = .ok q) :
    p.sets.size ≤ q.sets.size := by
  induction budget generalizing source p with
  | zero =>
    cases hq
    exact Nat.le_refl _
  | succ budget ih =>
    rw [expand] at hq
    split at hq
    · cases hq
      exact Nat.le_refl _
    · obtain ⟨m, hm, hq⟩ := Outcome.bind_eq_ok.mp hq
      exact (size_le_of_followAll hm).trans (ih hq)

/-- A limit that leaves room for what is found under another one changes nothing. -/
theorem follow_eq_of_size_le (hq : follow ix limit source s p c = .ok q)
    (hroom : q.sets.size ≤ limit') : follow ix limit' source s p c = .ok q := by
  unfold follow at hq ⊢
  dsimp only at hq ⊢
  split at hq
  · rename_i hempty
    rwa [if_pos hempty]
  · rename_i hfull
    rw [if_neg hfull]
    split at hq
    · exact hq
    · split at hq
      · cases hq
      · cases hq
        rw [Progress.connect, Progress.add, Array.size_push] at hroom
        exact if_neg (Nat.not_le.mpr hroom)

theorem followAll_eq_of_size_le {cs : List Char}
    (hq : cs.foldlM (follow ix limit source s) p = .ok q) (hroom : q.sets.size ≤ limit') :
    cs.foldlM (follow ix limit' source s) p = .ok q := by
  induction cs generalizing p with
  | nil => exact hq
  | cons c cs ih =>
    obtain ⟨m, hm, hq⟩ := Outcome.foldlM_cons_eq_ok.mp hq
    have hm' := follow_eq_of_size_le hm ((size_le_of_followAll hq).trans hroom)
    exact Outcome.foldlM_cons_eq_ok.mpr ⟨m, hm', ih hq⟩

/-- The budget may be another one, too, as long as it suffices. -/
theorem Explored.expand_eq_of_size_le (hx : Explored ix first limit (pairsBelow ix source) p)
    (hb : max limit 1 ≤ source + budget) (hq : Determinization.expand ix limit budget source p = .ok q)
    (hroom : q.sets.size ≤ limit') (hb' : q.sets.size ≤ source + budget') :
    Determinization.expand ix limit' budget' source p = .ok q := by
  induction budget generalizing source p budget' with
  | zero =>
    have hnone : p.sets[source]? = none := Array.getElem?_eq_none_iff.mpr (hx.small.trans hb)
    cases hq
    cases budget' with
    | zero => rfl
    | succ budget' => rw [Determinization.expand, hnone]
  | succ budget ih =>
    rw [Determinization.expand] at hq
    cases hs : p.sets[source]? with
    | none =>
      rw [hs] at hq
      cases hq
      cases budget' with
      | zero => rfl
      | succ budget' => rw [Determinization.expand, hs]
    | some s =>
      rw [hs] at hq
      obtain ⟨m, hm, hq⟩ := Outcome.bind_eq_ok.mp hq
      obtain ⟨hx', hs'⟩ := hx.followAll hs hm
      rw [← pairsBelow_succ] at hx'
      have hlt := (Array.getElem?_eq_some_iff.mp hs').1
      have hsize := size_le_of_expand hq
      cases budget' with
      | zero => omega
      | succ budget' =>
        rw [Determinization.expand, hs]
        have hm' := followAll_eq_of_size_le hm (hsize.trans hroom)
        exact Outcome.bind_eq_ok.mpr ⟨m, hm', ih hx' (by omega) hq (by omega)⟩

theorem explore_eq_of_size_le (hr : ix.Represents a) {i : Fin n} (hp : explore ix limit i = .ok p)
    (hroom : p.sets.size ≤ limit') : explore ix limit' i = .ok p := by
  refine Explored.expand_eq_of_size_le (explored_start (hr.isEmpty_start i))
    (Nat.le_add_left _ 0) hp hroom ?_
  rw [Nat.zero_add]
  exact hroom.trans (Nat.le_max_left limit' 1)

end Determinization

namespace Automaton
variable {a : Automaton}

/-- The sets of states to which words lead, but for the words that lead nowhere. -/
def powerStates (a : Automaton) : Set (Set StateId) := {S | S.Nonempty ∧ ∃ w, a.powerState w = S}

/-- The states on a list of ids. -/
def idSet (ids : List StateId) : Set StateId := {q | q ∈ ids}

section Listing
variable {n : Nat} {ix : Index n} {i : Fin n} {limit : Nat} {p : Determinization.Progress n}

theorem idSet_ids_after (hr : ix.Represents a) (hi : ix.initial = some i) (w : List Char) :
    idSet (ix.ids (ix.after (ix.start i) w)) = a.powerState w :=
  Set.ext fun _ => (mem_powerState hr hi).symm

theorem mem_powerStates_iff (hr : ix.Represents a) (hi : ix.initial = some i)
    (hp : Determinization.explore ix limit i = .ok p) {S : Set StateId} :
    S ∈ a.powerStates ↔ S ∈ (p.sets.toList.map ix.ids).map idSet := by
  obtain ⟨words, hsets, -, hmem⟩ := Determinization.exists_words_of_explore hr hp
  rw [hsets, List.map_map, List.map_map, List.mem_map]
  constructor
  · rintro ⟨hne, w, rfl⟩
    obtain ⟨v, hv, he⟩ := Index.exists_isFirst ((powerState_nonempty_iff hr hi).mp hne)
    refine ⟨v, (hmem v).mpr hv, ?_⟩
    rw [← idSet_ids_after hr hi w, ← he]
    rfl
  · rintro ⟨v, hv, rfl⟩
    have hne := (powerState_nonempty_iff hr hi).mpr ((hmem v).mp hv).nonempty
    rw [← idSet_ids_after hr hi v] at hne
    exact ⟨hne, v, (idSet_ids_after hr hi v).symm⟩

theorem nodup_idSets (hr : ix.Represents a) (hp : Determinization.explore ix limit i = .ok p) :
    ((p.sets.toList.map ix.ids).map idSet).Nodup := by
  rw [List.map_map]
  refine (Determinization.explored_explore (hr.isEmpty_start i) hp).nodup.map ?_
  intro s t he
  refine StateSet.ext fun j => ?_
  have hj : ix.idAt j ∈ idSet (ix.ids s) ↔ ix.idAt j ∈ idSet (ix.ids t) := by
    rw [show idSet (ix.ids s) = idSet (ix.ids t) from he]
  simpa [idSet, Index.mem_ids, hr.idAt_inj] using hj

theorem ncard_powerStates (hr : ix.Represents a) (hi : ix.initial = some i)
    (hp : Determinization.explore ix limit i = .ok p) : a.powerStates.ncard = p.sets.size := by
  rw [ncard_eq_length (nodup_idSets hr hp) fun S => mem_powerStates_iff hr hi hp]
  simp

end Listing

theorem ncard_powerStates_le (hw : a.WellFormed) {s : State} (hs : a.initialState? = some s) :
    a.powerStates.ncard ≤ 2 ^ a.states.length := by
  obtain ⟨ix, -, hr⟩ := Index.exists_index hw
  obtain ⟨i, hi, -⟩ := exists_initial hr hs
  obtain ⟨p, hp⟩ := Determinization.exists_explore (Nat.le_refl _) (hr.isEmpty_start i)
  have hnodup := (Determinization.explored_explore (hr.isEmpty_start i) hp).nodup
  rw [ncard_powerStates hr hi hp, ← Array.length_toList]
  exact StateSet.length_le_of_nodup hnodup

/-- Any limit that is at least the number of power-states that words reach lets a determinization
succeed, always with the same result, which lists each of them once. -/
theorem determinize_within_limit (hw : a.WellFormed) {s : State} (hs : a.initialState? = some s) :
    ∃ d : Determinization,
      (∀ limits : Limits, a.powerStates.ncard ≤ limits.maxPowerStates →
        (a.determinize limits).outcome = .ok d) ∧
      (∀ ids ∈ d.powerStates, ids.Pairwise (· < ·)) ∧
      (d.powerStates.map idSet).Nodup ∧
      (∀ S, S ∈ a.powerStates ↔ S ∈ d.powerStates.map idSet) ∧
      d.powerStates.length = a.powerStates.ncard := by
  obtain ⟨ix, hix, hr⟩ := Index.exists_index hw
  obtain ⟨i, hi, -⟩ := exists_initial hr hs
  obtain ⟨p, hp⟩ := Determinization.exists_explore (Nat.le_refl _) (hr.isEmpty_start i)
  have hcard := ncard_powerStates hr hi hp
  refine ⟨Determinization.assemble ix "D" p, ?_, ?_, nodup_idSets hr hp,
    fun S => mem_powerStates_iff hr hi hp, ?_⟩
  · intro limits hlimit
    have hsame := Determinization.explore_eq_of_size_le hr hp (hcard ▸ hlimit)
    have houtcome := Index.outcome_bind_of_initial hix hi fun ix i =>
      Determinization.ofIndex ix "D" limits i
    exact houtcome.trans (Determinization.ofIndex_eq_ok.mpr ⟨p, hsame, rfl⟩)
  · intro ids hids
    obtain ⟨t, -, rfl⟩ := List.mem_map.mp hids
    exact hr.pairwise_ids t
  · rw [hcard]
    simp [Determinization.assemble]

theorem explore_slipCycle :
    ((Index.ofAutomaton slipCycle).outcome >>= fun ix => ix.requireInitial >>= fun i =>
      match Determinization.explore ix 16 i with
      | .ok p => .ok (p.sets.toList.map ix.ids)
      | .error _ => .ok []) = .ok [[1, 3, 5], [9]] := by cbv

theorem determinize_slipCycle_within_limit :
    slipCycle.powerStates.ncard = 2 ∧
      ∃ d, (slipCycle.determinize { maxPowerStates := 2 }).outcome = .ok d ∧
        (slipCycle.determinize {}).outcome = .ok d ∧ d.powerStates = [[1, 3, 5], [9]] := by
  have hs : slipCycle.initialState? = some { id := 5, isInitial := true } := rfl
  obtain ⟨d, hd, -, -, -, hlength⟩ := determinize_within_limit slipCycle_wellFormed hs
  have hle : slipCycle.powerStates.ncard ≤ 2 ^ 4 := ncard_powerStates_le slipCycle_wellFormed hs
  obtain ⟨ix, i, p, hix, hi, hp, rfl⟩ :=
    determinize_eq_ok (hd { maxPowerStates := 16 } (hle.trans (by norm_num)))
  have hlisted := explore_slipCycle
  rw [hix, Outcome.ok_bind, Index.requireInitial_eq_ok.mpr hi, Outcome.ok_bind, hp] at hlisted
  have hsets : p.sets.toList.map ix.ids = [[1, 3, 5], [9]] := Except.ok.inj hlisted
  have hcard : slipCycle.powerStates.ncard = 2 := by
    rw [← hlength, Determinization.assemble, hsets]
    rfl
  exact ⟨hcard, _, hd { maxPowerStates := 2 } hcard.le, hd {} (hle.trans (by norm_num)), hsets⟩

end Automaton
end FiniteAutomata
