import Mathlib.Data.List.Forall2
import FiniteAutomata.Proofs.Determinization
import FiniteAutomata.Proofs.Language

/-! # The order of a determinization is canonical

Two searches over automata whose power-states correspond find corresponding power-states at every
step and give them the same numbers. In an automaton without dead or equal states the power-states are
given by what is accepted from them, so what such automata are determinized to depends only on their
language.
-/
namespace FiniteAutomata
namespace Determinization
variable {n n' : Nat} {ix : Index n} {ix' : Index n'} {R : StateSet n → StateSet n' → Prop}
  {p q : Progress n} {p' q' : Progress n'} {s : StateSet n} {s' : StateSet n'}
  {limit budget source : Nat} {c : Char}

/-- Steps of corresponding power-states correspond; either both are empty or none, either both accept
or none, and full ones correspond to one power-state only. -/
structure Corresponds (ix : Index n) (ix' : Index n') (R : StateSet n → StateSet n' → Prop) :
    Prop where
  alphabet : ix.alphabet = ix'.alphabet
  step : ∀ s s' c, R s s' → R (ix.step s c) (ix'.step s' c)
  isEmpty : ∀ s s', R s s' → s.isEmpty = s'.isEmpty
  isAccepting : ∀ s s', R s s' → ix.isAccepting s = ix'.isAccepting s'
  unique : ∀ s s' t t', R s s' → R t t' → s.isEmpty = false → t.isEmpty = false →
    (s = t ↔ s' = t')

/-- The searches have numbered corresponding power-states and found the same transitions. -/
structure Matches (R : StateSet n → StateSet n' → Prop) (p : Progress n) (p' : Progress n') :
    Prop where
  sets : List.Forall₂ R p.sets.toList p'.sets.toList
  number : ∀ s s', R s s' → s.isEmpty = false → p.number? s = p'.number? s'
  transitions : p.transitions = p'.transitions

theorem Matches.size_eq (h : Matches R p p') : p.sets.size = p'.sets.size := by
  rw [← Array.length_toList, ← Array.length_toList]
  exact h.sets.length_eq

theorem Matches.connect (h : Matches R p p') (source target : Nat) (c : Char) :
    Matches R (p.connect source target c) (p'.connect source target c) where
  sets := h.sets
  number := h.number
  transitions := by
    unfold Progress.connect
    rw [h.transitions]

theorem number?_start {s t : StateSet n} :
    (Progress.start s).number? t = if s = t then some 0 else none := by
  unfold Progress.start Progress.number?
  rw [Std.TreeMap.getElem?_insert]
  simp only [Std.compare_eq_iff_eq, StateSet.key_inj, Std.TreeMap.getElem?_emptyc]

namespace Corresponds

theorem matches_start (h : Corresponds ix ix' R) (hs : R s s') (hfull : s.isEmpty = false) :
    Matches R (.start s) (.start s') where
  sets := .cons hs .nil
  number := by
    intro t t' ht hne
    rw [number?_start, number?_start]
    have hiff := h.unique s s' t t' hs ht hfull hne
    by_cases hst : s = t
    · rw [if_pos hst, if_pos (hiff.mp hst)]
    · rw [if_neg hst, if_neg fun he => hst (hiff.mpr he)]
  transitions := rfl

theorem matches_add (h : Corresponds ix ix' R) (hm : Matches R p p') (hs : R s s')
    (hfull : s.isEmpty = false) : Matches R (p.add s) (p'.add s') where
  sets := by
    unfold Progress.add
    rw [Array.toList_push, Array.toList_push]
    exact List.rel_append hm.sets (.cons hs .nil)
  number := by
    intro t t' ht hne
    rw [number?_add, number?_add]
    have hiff := h.unique s s' t t' hs ht hfull hne
    by_cases hst : s = t
    · rw [if_pos hst, if_pos (hiff.mp hst), hm.size_eq]
    · rw [if_neg hst, if_neg fun he => hst (hiff.mpr he)]
      exact hm.number t t' ht hne
  transitions := hm.transitions

theorem matches_follow (h : Corresponds ix ix' R) (hm : Matches R p p') (hs : R s s')
    (hq : follow ix limit source s p c = .ok q) (hq' : follow ix' limit source s' p' c = .ok q') :
    Matches R q q' := by
  have ht := h.step s s' c hs
  unfold follow at hq hq'
  dsimp only at hq hq'
  rw [← h.isEmpty _ _ ht] at hq'
  split at hq
  · rename_i hempty
    rw [if_pos hempty] at hq'
    cases hq
    cases hq'
    exact hm
  · rename_i hfull
    rw [if_neg hfull] at hq'
    rw [Bool.not_eq_true] at hfull
    rw [← hm.number _ _ ht hfull, ← hm.size_eq] at hq'
    split at hq
    · rename_i target hnumber
      rw [hnumber] at hq'
      cases hq
      cases hq'
      exact hm.connect source target c
    · rename_i hnumber
      rw [hnumber] at hq'
      dsimp only at hq'
      split at hq
      · cases hq
      · rename_i hlimit
        rw [if_neg hlimit] at hq'
        cases hq
        cases hq'
        exact (h.matches_add hm ht hfull).connect source _ c

theorem matches_followAll (h : Corresponds ix ix' R) (hm : Matches R p p') (hs : R s s')
    {cs : List Char} (hq : cs.foldlM (follow ix limit source s) p = .ok q)
    (hq' : cs.foldlM (follow ix' limit source s') p' = .ok q') : Matches R q q' := by
  induction cs generalizing p p' with
  | nil =>
    cases hq
    cases hq'
    exact hm
  | cons c cs ih =>
    obtain ⟨r, hr, hq⟩ := Outcome.foldlM_cons_eq_ok.mp hq
    obtain ⟨r', hr', hq'⟩ := Outcome.foldlM_cons_eq_ok.mp hq'
    exact ih (h.matches_follow hm hs hr hr') hq hq'

theorem matches_expand (h : Corresponds ix ix' R) (hm : Matches R p p')
    (hq : expand ix limit budget source p = .ok q)
    (hq' : expand ix' limit budget source p' = .ok q') : Matches R q q' := by
  induction budget generalizing source p p' with
  | zero =>
    cases hq
    cases hq'
    exact hm
  | succ budget ih =>
    rw [expand] at hq hq'
    split at hq
    · rename_i hnone
      have hnone' : p'.sets[source]? = none := by
        rw [Array.getElem?_eq_none_iff] at hnone ⊢
        rwa [← hm.size_eq]
      rw [hnone'] at hq'
      cases hq
      cases hq'
      exact hm
    · rename_i s hs
      split at hq'
      · rename_i hnone
        rw [Array.getElem?_eq_none_iff, ← hm.size_eq] at hnone
        rw [Array.getElem?_eq_none hnone] at hs
        cases hs
      · rename_i s' hs'
        have hss' : R s s' := by
          rw [← Array.getElem?_toList] at hs hs'
          obtain ⟨hlt, rfl⟩ := List.getElem?_eq_some_iff.mp hs
          obtain ⟨hlt', rfl⟩ := List.getElem?_eq_some_iff.mp hs'
          exact hm.sets.get hlt hlt'
        obtain ⟨r, hr, hq⟩ := Outcome.bind_eq_ok.mp hq
        obtain ⟨r', hr', hq'⟩ := Outcome.bind_eq_ok.mp hq'
        rw [← h.alphabet] at hr'
        exact ih (h.matches_followAll hm hss' hr hr') hq hq'

theorem states_eq (h : Corresponds ix ix' R) {sets : List (StateSet n)}
    {sets' : List (StateSet n')} (hsets : List.Forall₂ R sets sets') (labelStart : String) (k : Nat) :
    ((sets.zipIdx k).map fun e => stateOf ix labelStart e.1 e.2) =
      (sets'.zipIdx k).map fun e => stateOf ix' labelStart e.1 e.2 := by
  induction hsets generalizing k with
  | nil => rfl
  | @cons s s' sets sets' hs _ ih =>
    rw [List.zipIdx_cons, List.zipIdx_cons, List.map_cons, List.map_cons, ih]
    unfold stateOf
    rw [h.isAccepting s s' hs]

theorem automaton_eq (h : Corresponds ix ix' R) {i : Fin n} {i' : Fin n'}
    (hs : R (ix.start i) (ix'.start i')) (hfull : (ix.start i).isEmpty = false)
    (hp : explore ix limit i = .ok p) (hp' : explore ix' limit i' = .ok p') (labelStart : String) :
    (assemble ix labelStart p).automaton = (assemble ix' labelStart p').automaton := by
  have hm := h.matches_expand (h.matches_start hs hfull) hp hp'
  have hstates : (assemble ix labelStart p).automaton.states =
      (assemble ix' labelStart p').automaton.states := h.states_eq hm.sets labelStart 0
  unfold assemble at hstates ⊢
  dsimp only at hstates ⊢
  rw [hstates, hm.transitions]

end Corresponds
end Determinization

namespace Automaton
variable {a b d e : Automaton} {limits : Limits} {v w : List Char} {n : Nat} {ix : Index n}
  {i : Fin n}

theorem toDeterministic_eq_ok (h : (a.toDeterministic limits).outcome = .ok d) :
    ∃ (n : Nat) (ix : Index n) (i : Fin n) (p : Determinization.Progress n),
      a.WellFormed ∧ ix.Represents a ∧ ix.initial = some i ∧
      Determinization.explore ix limits.maxPowerStates i = .ok p ∧
      (Determinization.assemble ix "D" p).automaton = d := by
  rw [toDeterministic, Logged.outcome_bind] at h
  obtain ⟨e, he, h⟩ := Outcome.bind_eq_ok.mp h
  obtain ⟨ix, i, p, hix, hi, hp, rfl⟩ := determinize_eq_ok he
  cases h
  exact ⟨_, ix, i, p, Index.wellFormed_of_eq_ok hix, Index.represents_of_eq_ok hix, hi, hp, rfl⟩

theorem exists_toDeterministic (hw : a.WellFormed) {s : State} (hs : a.initialState? = some s)
    (hl : 2 ^ a.states.length ≤ limits.maxPowerStates) :
    ∃ d, (a.toDeterministic limits).outcome = .ok d := by
  obtain ⟨e, he⟩ := exists_determinize hw hs hl
  refine ⟨e.automaton, ?_⟩
  rw [toDeterministic, Logged.outcome_bind]
  exact Outcome.bind_eq_ok.mpr ⟨e, he, rfl⟩

theorem initialState?_of_initial (hr : ix.Represents a) (hi : ix.initial = some i) :
    a.initialState? = some (ix.states.get i) := by
  rw [← hr.initial, hi]
  rfl

theorem isAccepting_after_iff (hr : ix.Represents a) (hi : ix.initial = some i) :
    ix.isAccepting (ix.after (ix.start i) w) = true ↔ w ∈ a.language := by
  rw [hr.isAccepting_after_start, mem_language_of_initial (initialState?_of_initial hr hi)]
  exact Iff.rfl

theorem isEmpty_after_eq_false_iff (hr : ix.Represents a) (hi : ix.initial = some i) :
    (ix.after (ix.start i) w).isEmpty = false ↔ ∃ q, a.LeadsTo w q := by
  rw [← Bool.not_eq_true, hr.isEmpty_after_start, not_forall]
  simp only [not_not, leadsTo_of_initial (initialState?_of_initial hr hi)]
  exact Iff.rfl

/-- A determinization is deterministic and keeps the language, and only words that lead somewhere in
the automaton lead somewhere in it. -/
theorem toDeterministic_keeps (hl : limits.maxPowerStates ≤ 2 ^ 32)
    (h : (a.toDeterministic limits).outcome = .ok d) :
    d.Deterministic ∧ d.language = a.language ∧ ∀ w q, d.LeadsTo w q → ∃ p, a.LeadsTo w p := by
  obtain ⟨n, ix, i, p, -, hr, hi, hp, rfl⟩ := toDeterministic_eq_ok h
  have hx := Determinization.explored_explore (hr.isEmpty_start i) hp
  have hs : p.sets.size ≤ UInt32.size := Nat.le_trans hx.small (Nat.max_le.mpr ⟨hl, by decide⟩)
  have hinitial := hx.initialState? "D"
  refine ⟨hx.deterministic hr hs "D", ?_, ?_⟩
  · apply Language.ext
    intro w
    rw [mem_language_of_initial hinitial, ← isAccepting_after_iff hr hi]
    exact hx.acceptsFrom_iff hr hs "D"
  · intro w q hw
    obtain ⟨j, hj, -⟩ := (hx.reads_iff hr hs).mp ((leadsTo_of_initial hinitial).mp hw)
    exact (isEmpty_after_eq_false_iff hr hi).mp (hx.nonempty j _ hj)

theorem Live.toDeterministic (ha : a.Live) (hl : limits.maxPowerStates ≤ 2 ^ 32)
    (h : (a.toDeterministic limits).outcome = .ok d) : d.Live := by
  obtain ⟨hdet, hlanguage, hleads⟩ := toDeterministic_keeps hl h
  intro w q hw
  obtain ⟨p, hp⟩ := hleads w q hw
  obtain ⟨v, hv⟩ := ha w p hp
  have hwv := mem_language_of_leadsTo hp hv
  rw [← hlanguage] at hwv
  obtain ⟨r, hr, hv⟩ := exists_leadsTo_of_mem hwv
  rw [hdet.leadsTo_unique hw hr]
  exact ⟨v, hv⟩

namespace Minimal

theorem exists_leadsTo_iff (h : a.Minimal) :
    (∃ q, a.LeadsTo w q) ↔ ∃ v, w ++ v ∈ a.language := by
  constructor
  · rintro ⟨q, hq⟩
    obtain ⟨v, hv⟩ := h.live w q hq
    exact ⟨v, mem_language_of_leadsTo hq hv⟩
  · rintro ⟨v, hv⟩
    obtain ⟨q, hq, -⟩ := exists_leadsTo_of_mem hv
    exact ⟨q, hq⟩

theorem mem_alphabet_iff (h : a.Minimal) {c : Char} : c ∈ a.alphabet ↔ ∃ w ∈ a.language, c ∈ w := by
  constructor
  · intro hc
    obtain ⟨t, ht, hlabel⟩ := mem_alphabet.mp hc
    obtain ⟨p, q, label⟩ := t
    obtain rfl : label = .symbol c := hlabel
    obtain ⟨s, hs, rfl⟩ := mem_ids.mp (h.deterministic.wellFormed.resolved _ ht).1
    obtain ⟨u, s', hs', hu⟩ := h.connected s hs
    have huc : a.LeadsTo (u ++ [c]) q := ⟨s', hs', hu.trans (.symbol ht (.refl _ _))⟩
    obtain ⟨v, hv⟩ := h.live _ q huc
    exact ⟨_, mem_language_of_leadsTo huc hv, by simp⟩
  · rintro ⟨w, hw, hc⟩
    exact mem_alphabet_of_mem_language hw hc

theorem after_eq_iff (h : a.Minimal) (hr : ix.Represents a) (hi : ix.initial = some i)
    (hv : (ix.after (ix.start i) v).isEmpty = false)
    (hw : (ix.after (ix.start i) w).isEmpty = false) :
    ix.after (ix.start i) v = ix.after (ix.start i) w ↔
      a.language.leftQuotient v = a.language.leftQuotient w := by
  constructor
  · intro he
    apply Language.ext
    intro u
    rw [Language.mem_leftQuotient, Language.mem_leftQuotient, ← isAccepting_after_iff hr hi,
      ← isAccepting_after_iff hr hi, Index.after_append, Index.after_append, he]
  · intro he
    obtain ⟨p, hp⟩ := (isEmpty_after_eq_false_iff hr hi).mp hv
    obtain ⟨q, hq⟩ := (isEmpty_after_eq_false_iff hr hi).mp hw
    have hinitial := initialState?_of_initial hr hi
    have hdet := h.deterministic
    obtain ⟨s, hs, rfl⟩ := hp.exists_state hdet.wellFormed
    obtain ⟨t, ht, rfl⟩ := hq.exists_state hdet.wellFormed
    rw [← hdet.languageFrom_eq hp, ← hdet.languageFrom_eq hq] at he
    obtain rfl := h.distinguished s hs t ht he
    apply StateSet.ext
    intro j
    rw [hr.mem_after_start, hr.mem_after_start]
    have hreads : ∀ {w}, a.LeadsTo w s.id →
        (Reads a.transitions (ix.idAt i) w (ix.idAt j) ↔ s.id = ix.idAt j) := by
      intro w hw
      have hw' : Reads a.transitions (ix.idAt i) w s.id := (leadsTo_of_initial hinitial).mp hw
      constructor
      · intro hj
        exact hdet.reads_unique hw' hj
      · intro hj
        rwa [← hj]
    exact (hreads hp).trans (hreads hq).symm

theorem corresponds {n' : Nat} {ix' : Index n'} {i' : Fin n'} (ha : a.Minimal) (hb : b.Minimal)
    (hr : ix.Represents a) (hr' : ix'.Represents b) (hi : ix.initial = some i)
    (hi' : ix'.initial = some i') (h : a.language = b.language) :
    Determinization.Corresponds ix ix' fun s s' =>
      ∃ w, ix.after (ix.start i) w = s ∧ ix'.after (ix'.start i') w = s' := by
  have hfull : ∀ w, (ix.after (ix.start i) w).isEmpty = (ix'.after (ix'.start i') w).isEmpty := by
    intro w
    rw [Bool.eq_iff_iff, ← not_iff_not, Bool.not_eq_true, Bool.not_eq_true,
      isEmpty_after_eq_false_iff hr hi, isEmpty_after_eq_false_iff hr' hi', ha.exists_leadsTo_iff,
      hb.exists_leadsTo_iff, h]
  constructor
  case alphabet =>
    apply hr.pairwise_alphabet.eq_of_mem_iff hr'.pairwise_alphabet
    intro c
    rw [hr.alphabet, hr'.alphabet, ha.mem_alphabet_iff, hb.mem_alphabet_iff, h]
  case step =>
    rintro s s' c ⟨w, rfl, rfl⟩
    exact ⟨w ++ [c], Index.after_concat .., Index.after_concat ..⟩
  case isEmpty =>
    rintro s s' ⟨w, rfl, rfl⟩
    exact hfull w
  case isAccepting =>
    rintro s s' ⟨w, rfl, rfl⟩
    rw [Bool.eq_iff_iff, isAccepting_after_iff hr hi, isAccepting_after_iff hr' hi', h]
  case unique =>
    rintro s s' t t' ⟨v, rfl, rfl⟩ ⟨w, rfl, rfl⟩ hv hw
    have hv' := hv
    have hw' := hw
    rw [hfull] at hv' hw'
    rw [ha.after_eq_iff hr hi hv hw, hb.after_eq_iff hr' hi' hv' hw', h]

/-- Minimal automata with the same language are determinized to the same automaton. -/
theorem toDeterministic_eq (ha : a.Minimal) (hb : b.Minimal) (h : a.language = b.language)
    (hd : (a.toDeterministic limits).outcome = .ok d)
    (he : (b.toDeterministic limits).outcome = .ok e) : d = e := by
  obtain ⟨n, ix, i, p, -, hr, hi, hp, rfl⟩ := toDeterministic_eq_ok hd
  obtain ⟨n', ix', i', p', -, hr', hi', hp', rfl⟩ := toDeterministic_eq_ok he
  have hcorresponds := ha.corresponds hb hr hr' hi hi' h
  exact hcorresponds.automaton_eq ⟨[], rfl, rfl⟩ (hr.isEmpty_start i) hp hp' "D"

end Minimal
end Automaton
end FiniteAutomata
