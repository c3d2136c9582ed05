import Mathlib
import FiniteAutomata.Language.Samples
import FiniteAutomata.Proofs.FirstWords

/-! # Which strings are sampled

The words of a search for samples are first words, and the strings listed are those of them that reach
accepting power-states. So each list is cut from one list, that of the first words of all accepting
power-states, at the count. A warning says that something may have been cut off, but none is given when
the count is reached in the middle of an expansion with nothing else waiting.
-/
namespace FiniteAutomata
namespace Samples
variable {n : Nat} {ix : Index n} {a : Automaton} {first : StateSet n} {count length place : Nat}
  {done : List Char} {p q : Progress n} {v : Visit n} {c : Char}

/-- The words by which a search has met its power-states, in their order. -/
def Progress.words (p : Progress n) : List (List Char) := p.visits.toList.map (·.word)

/-- The words among the given ones that lead to accepting power-states. -/
def accepted (ix : Index n) (first : StateSet n) (words : List (List Char)) : List (List Char) :=
  words.filter fun w => ix.isAccepting (ix.after first w)

/-- Of the words in reach, a search has met those that it should have met by now. -/
structure Searched (ix : Index n) (first : StateSet n) (length place : Nat) (done : List Char)
    (p : Progress n) : Prop where
  sweeps : ix.Sweeps first p.words place done
  set : ∀ v ∈ p.visits.toList, v.set = ix.after first v.word
  seen : ∀ t : StateSet n, p.seen.contains t.key = true ↔ ∃ w ∈ p.words, ix.after first w = t
  found : p.found.toList = accepted ix first p.words
  short : ∀ w ∈ p.words, w.length ≤ length

theorem words_visit (p : Progress n) (t : StateSet n) (w : List Char) :
    (p.visit t w).words = p.words ++ [w] := by
  simp [Progress.words, Progress.visit]

theorem contains_seen_visit {t t' : StateSet n} {w : List Char} :
    (p.visit t w).seen.contains t'.key = true ↔ t = t' ∨ p.seen.contains t'.key = true := by
  simp [Progress.visit, Std.TreeMap.contains_insert, StateSet.key_inj]

theorem getElem?_words (hv : p.visits[place]? = some v) : p.words[place]? = some v.word := by
  simp [Progress.words, hv]

theorem accepted_concat (words : List (List Char)) (w : List Char) :
    accepted ix first (words ++ [w]) =
      accepted ix first words ++ if ix.isAccepting (ix.after first w) then [w] else [] := by
  simp only [accepted, List.filter_append, List.filter_singleton, Bool.cond_eq_ite]

theorem mem_accepted {words : List (List Char)} {w : List Char} :
    w ∈ accepted ix first words ↔ w ∈ words ∧ ix.isAccepting (ix.after first w) = true :=
  List.mem_filter

theorem searched_start (hr : ix.Represents a) (i : Fin n) :
    Searched ix (ix.start i) length 0 [] (.start ix (ix.start i)) where
  sweeps := Index.sweeps_start (hr.isEmpty_start i)
  set := by simp [Progress.start]
  seen := by
    intro t
    simp [Progress.start, Progress.words, Std.TreeMap.contains_insert, StateSet.key_inj]
  found := by
    simp only [Progress.start, Progress.words, accepted]
    split <;> simp_all
  short := by simp [Progress.start, Progress.words]

namespace Searched

theorem after_concat (h : Searched ix first length place done p) (hv : p.visits[place]? = some v)
    (c : Char) : ix.after first (v.word ++ [c]) = ix.step v.set c := by
  rw [Index.after_concat, h.set v (Array.mem_toList_iff.mpr (Array.mem_of_getElem? hv))]

theorem skip (h : Searched ix first length place done p) (hv : p.visits[place]? = some v)
    (hc : done ++ [c] <+: ix.alphabet)
    (hknown : (ix.step v.set c).isEmpty = true ∨ p.seen.contains (ix.step v.set c).key = true) :
    Searched ix first length place (done ++ [c]) p := by
  refine { h with sweeps := ?_ }
  rw [← h.after_concat hv] at hknown
  rcases hknown with hempty | hseen
  · exact h.sweeps.skip_of_isEmpty (getElem?_words hv) hc hempty
  · obtain ⟨w, hw, he⟩ := (h.seen _).mp hseen
    exact h.sweeps.skip_of_met (getElem?_words hv) hc hw he

/-- What the search takes for new has not been met by any of its words. -/
theorem sweeps_add (h : Searched ix first length place done p) (hr : ix.Represents a)
    (hv : p.visits[place]? = some v) (hc : done ++ [c] <+: ix.alphabet)
    (hunknown : ¬ ((ix.step v.set c).isEmpty || p.seen.contains (ix.step v.set c).key) = true) :
    ix.Sweeps first (p.words ++ [v.word ++ [c]]) place (done ++ [c]) := by
  rw [Bool.or_eq_true, not_or, Bool.not_eq_true, ← h.after_concat hv] at hunknown
  obtain ⟨hfull, hnew⟩ := hunknown
  exact h.sweeps.add hr (getElem?_words hv) hc hfull fun w hw he => hnew ((h.seen _).mpr ⟨w, hw, he⟩)

theorem add (h : Searched ix first length place done p) (hv : p.visits[place]? = some v)
    (hsweeps : ix.Sweeps first (p.words ++ [v.word ++ [c]]) place (done ++ [c]))
    (hlen : v.word.length < length) {p' : Progress n} (hvisits : p'.visits = p.visits)
    (hseen : p'.seen = p.seen)
    (hfound : p'.found.toList = accepted ix first (p.words ++ [v.word ++ [c]])) :
    Searched ix first length place (done ++ [c]) (p'.visit (ix.step v.set c) (v.word ++ [c])) := by
  have hwords : p'.words = p.words := by rw [Progress.words, hvisits, Progress.words]
  have hafter := h.after_concat hv c
  constructor
  case sweeps => rwa [words_visit, hwords]
  case set =>
    intro u hu
    rw [Progress.visit, hvisits, Array.toList_push] at hu
    rcases List.mem_append.mp hu with hu | hu
    · exact h.set u hu
    · obtain rfl := List.mem_singleton.mp hu
      exact hafter.symm
  case seen =>
    intro t
    rw [contains_seen_visit, hseen, h.seen, words_visit, hwords]
    simp only [List.mem_append, List.mem_singleton, or_and_right, exists_or, exists_eq_left, hafter]
    exact or_comm
  case found =>
    rw [words_visit, hwords]
    exact hfound
  case short =>
    intro w hw
    rw [words_visit, hwords] at hw
    rcases List.mem_append.mp hw with hw | hw
    · exact h.short w hw
    · obtain rfl := List.mem_singleton.mp hw
      rwa [List.length_append, List.length_singleton]

theorem follow (h : Searched ix first length place done p) (hr : ix.Represents a)
    (hv : p.visits[place]? = some v) (hc : done ++ [c] <+: ix.alphabet)
    (hlen : v.word.length < length) (hroom : p.found.size < count)
    (hq : Samples.follow ix count v p c = .ok q) :
    Searched ix first length place (done ++ [c]) q ∧ q.visits[place]? = some v ∧
      q.found.size < count := by
  unfold Samples.follow at hq
  dsimp only at hq
  split at hq
  · rename_i hknown
    cases hq
    exact ⟨h.skip hv hc (Bool.or_eq_true_iff.mp hknown), hv, hroom⟩
  · rename_i hunknown
    have hsweeps := h.sweeps_add hr hv hc hunknown
    have hplace : ∀ u, (p.visits.push u)[place]? = some v := fun u => by
      rw [← Array.getElem?_toList, Array.toList_push]
      exact Index.getElem?_of_prefix (List.prefix_append _ _) (by rwa [Array.getElem?_toList])
    split at hq
    · rename_i hacc
      split at hq
      · cases hq
      · rename_i hlt
        cases hq
        refine ⟨h.add hv hsweeps hlen rfl rfl ?_, hplace _, Nat.not_le.mp hlt⟩
        rw [accepted_concat, h.after_concat hv, if_pos hacc, Array.toList_push, h.found]
    · rename_i hacc
      cases hq
      refine ⟨h.add hv hsweeps hlen rfl rfl ?_, hplace _, hroom⟩
      rw [accepted_concat, h.after_concat hv, if_neg hacc, List.append_nil, h.found]

end Searched

/-- The words that are first to lead to their power-states, which accept, among those not too long. -/
structure Wanted (ix : Index n) (first : StateSet n) (length : Nat) (w : List Char) : Prop where
  isFirst : ix.IsFirst first w
  accepting : ix.isAccepting (ix.after first w) = true
  short : w.length ≤ length

/-- What a search lists are wanted words, in their order. If it has left out any, it has listed as many
as asked for, and all that it has left out come later; if nothing was left to expand, they go on from
where the search was when it listed its last word. -/
structure Lists (ix : Index n) (first : StateSet n) (count length : Nat) (r : Result n) : Prop where
  ascending : r.progress.found.toList.Pairwise Precedes
  wanted : ∀ w ∈ r.progress.found.toList, Wanted ix first length w
  size_le : r.progress.found.size ≤ count
  rest : ∀ w, Wanted ix first length w → w ∉ r.progress.found.toList →
    r.progress.found.size = count ∧ ∀ v ∈ r.progress.found.toList, Precedes v w
  cut : r.left = 0 → ∀ w, Wanted ix first length w → w ∉ r.progress.found.toList →
    ∃ v, r.progress.found.toList.getLast? = some v ∧ v.dropLast <+: w

theorem lists_of_sweeps {words : List (List Char)} {r : Result n} (hr : ix.Represents a)
    (h : ix.Sweeps first words place done) (hfound : r.progress.found.toList = accepted ix first words)
    (hshort : ∀ w ∈ words, w.length ≤ length) (hsize : r.progress.found.size ≤ count)
    (hend : ∀ w, Wanted ix first length w → w ∉ words → r.progress.found.size = count ∧
      (r.left = 0 → ∃ v, r.progress.found.toList.getLast? = some v ∧ v.dropLast <+: w)) :
    Lists ix first count length r := by
  have hmissed : ∀ w, Wanted ix first length w → w ∉ r.progress.found.toList → w ∉ words := by
    intro w hw hnew hmem
    rw [hfound] at hnew
    exact hnew (mem_accepted.mpr ⟨hmem, hw.accepting⟩)
  constructor
  case ascending =>
    rw [hfound]
    exact h.ascending.filter _
  case wanted =>
    intro w hw
    rw [hfound] at hw
    obtain ⟨hmem, hacc⟩ := mem_accepted.mp hw
    exact ⟨h.isFirst w hmem, hacc, hshort w hmem⟩
  case size_le => exact hsize
  case rest =>
    intro w hw hnew
    have hwords := hmissed w hw hnew
    refine ⟨(hend w hw hwords).1, ?_⟩
    intro v hv
    rw [hfound] at hv
    exact h.precedes_of_notMem hr hw.isFirst hwords (mem_accepted.mp hv).1
  case cut => exact fun hleft w hw hnew => (hend w hw (hmissed w hw hnew)).2 hleft

namespace Searched

theorem lists_of_long (h : Searched ix first length place done p) (hr : ix.Represents a)
    (hsize : p.found.size ≤ count)
    (hlong : ∀ i w, p.words[i]? = some w → place ≤ i → length ≤ w.length) :
    Lists ix first count length ⟨p, 0⟩ := by
  refine lists_of_sweeps hr h.sweeps h.found h.short hsize ?_
  intro w hw hnew
  obtain ⟨i, v, hi, hplace, -, hlt⟩ := h.sweeps.exists_unexpanded hr hw.isFirst hnew
  have hv := hlong i v hi hplace
  have hshort := hw.short
  omega

theorem lists_of_beyond (h : Searched ix first length place done p) (hr : ix.Represents a)
    (hsize : p.found.size ≤ count) (hle : p.words.length ≤ place) :
    Lists ix first count length ⟨p, 0⟩ := by
  refine h.lists_of_long hr hsize fun i w hi hplace => ?_
  have hlt := (List.getElem?_eq_some_iff.mp hi).1
  omega

theorem prefix_of_last (h : Searched ix first length place done p) (hr : ix.Represents a)
    (hv : p.visits[place]? = some v) (hleft : p.visits.size - (place + 1) = 0) {w : List Char}
    (hw : ix.IsFirst first w) (hnew : w ∉ p.words) : v.word <+: w := by
  obtain ⟨i, u, hi, hplace, hu, -⟩ := h.sweeps.exists_unexpanded hr hw hnew
  have hlt := (List.getElem?_eq_some_iff.mp hi).1
  rw [Progress.words, List.length_map, Array.length_toList] at hlt
  obtain rfl : i = place := by omega
  rw [getElem?_words hv] at hi
  rwa [Option.some.inj hi]

/-- The count may be reached in the middle of an expansion. -/
theorem lists_of_follow (h : Searched ix first length place done p) (hr : ix.Represents a)
    (hv : p.visits[place]? = some v) (hc : done ++ [c] <+: ix.alphabet)
    (hlen : v.word.length < length) (hroom : p.found.size < count)
    (hq : Samples.follow ix count v p c = .error q) :
    Lists ix first count length ⟨q, q.visits.size - (place + 1)⟩ := by
  unfold Samples.follow at hq
  dsimp only at hq
  split at hq
  · cases hq
  · rename_i hunknown
    split at hq
    · rename_i hacc
      split at hq
      · rename_i hfull
        cases hq
        have hlist : p.found.toList ++ [v.word ++ [c]] =
            accepted ix first (p.words ++ [v.word ++ [c]]) := by
          rw [accepted_concat, h.after_concat hv, if_pos hacc, h.found]
        rw [Array.size_push] at hfull
        refine lists_of_sweeps hr (h.sweeps_add hr hv hc hunknown) (Array.toList_push.trans hlist)
          ?_ ?_ ?_
        · intro u hu
          rcases List.mem_append.mp hu with hu | hu
          · exact h.short u hu
          · obtain rfl := List.mem_singleton.mp hu
            rwa [List.length_append, List.length_singleton]
        · rwa [Array.size_push]
        · intro u hu hnew
          refine ⟨by rw [Array.size_push]; omega, fun hleft => ⟨v.word ++ [c], ?_, ?_⟩⟩
          · rw [Array.toList_push, List.getLast?_concat]
          · rw [List.dropLast_concat]
            exact h.prefix_of_last hr hv hleft hu.isFirst fun hu => hnew (List.mem_append_left _ hu)
      · cases hq
    · cases hq

theorem followAll (h : Searched ix first length place done p) (hr : ix.Represents a)
    (hv : p.visits[place]? = some v) (hlen : v.word.length < length) (hroom : p.found.size < count)
    {cs : List Char} (hcs : done ++ cs = ix.alphabet)
    (hq : cs.foldlM (Samples.follow ix count v) p = .ok q) :
    Searched ix first length place ix.alphabet q ∧ q.found.size < count := by
  induction cs generalizing done p with
  | nil =>
    cases hq
    rw [List.append_nil] at hcs
    exact ⟨hcs ▸ h, hroom⟩
  | cons c cs ih =>
    rw [List.append_cons] at hcs
    obtain ⟨m, hm, hq⟩ := Outcome.foldlM_cons_eq_ok.mp hq
    obtain ⟨h', hv', hroom'⟩ := h.follow hr hv ⟨cs, hcs⟩ hlen hroom hm
    exact ih h' hv' hroom' hcs hq

theorem lists_of_followAll (h : Searched ix first length place done p) (hr : ix.Represents a)
    (hv : p.visits[place]? = some v) (hlen : v.word.length < length) (hroom : p.found.size < count)
    {cs : List Char} (hcs : done ++ cs = ix.alphabet)
    (hq : cs.foldlM (Samples.follow ix count v) p = .error q) :
    Lists ix first count length ⟨q, q.visits.size - (place + 1)⟩ := by
  induction cs generalizing done p with
  | nil => cases hq
  | cons c cs ih =>
    rw [List.append_cons] at hcs
    rw [List.foldlM_cons] at hq
    cases hm : Samples.follow ix count v p c with
    | error q' =>
      rw [hm] at hq
      cases hq
      exact h.lists_of_follow hr hv ⟨cs, hcs⟩ hlen hroom hm
    | ok m =>
      rw [hm] at hq
      obtain ⟨h', hv', hroom'⟩ := h.follow hr hv ⟨cs, hcs⟩ hlen hroom hm
      exact ih h' hv' hroom' hcs hq

end Searched

theorem expand_of_long {budget : Nat} (hroom : p.found.size < count)
    (hlong : ∀ i w, p.words[i]? = some w → place ≤ i → length ≤ w.length) :
    expand ix count length budget place p = ⟨p, 0⟩ := by
  induction budget generalizing place with
  | zero => rfl
  | succ budget ih =>
    rw [expand]
    split
    · rfl
    · rename_i v hv
      rw [if_neg (Nat.not_le.mpr hroom), if_pos (hlong place _ (getElem?_words hv) (Nat.le_refl _))]
      exact ih fun i w hi hplace => hlong i w hi (Nat.le_of_succ_le hplace)

theorem Searched.long_of_le (h : Searched ix first length place done p)
    (hv : p.visits[place]? = some v) (hlen : length ≤ v.word.length) (i : Nat) (w : List Char)
    (hi : p.words[i]? = some w) (hplace : place ≤ i) : length ≤ w.length := by
  rcases Nat.eq_or_lt_of_le hplace with rfl | hlt
  · rw [getElem?_words hv] at hi
    rwa [← Option.some.inj hi]
  · have hprec := h.sweeps.precedes_of_lt (getElem?_words hv) hi hlt
    exact hlen.trans hprec.length_le

/-- The count may be reached before anything is expanded, by the empty word alone. -/
theorem Searched.lists_of_full (h : Searched ix first length 0 [] p) (hr : ix.Represents a)
    (hcount : 1 ≤ count) (hsize : p.found.size ≤ count) (hfull : count ≤ p.found.size) (left : Nat) :
    Lists ix first count length ⟨p, left⟩ := by
  refine lists_of_sweeps hr h.sweeps h.found h.short hsize ?_
  intro w _ _
  refine ⟨Nat.le_antisymm hsize hfull, fun _ => ?_⟩
  have hne : p.found.toList ≠ [] := by
    rw [← List.length_pos_iff, Array.length_toList]
    omega
  have hnil : ∀ u ∈ p.found.toList, u = [] := by
    intro u hu
    rw [h.found] at hu
    exact h.sweeps.eq_nil_of_start (mem_accepted.mp hu).1
  refine ⟨_, List.getLast?_eq_some_getLast hne, ?_⟩
  rw [hnil _ (List.getLast_mem hne)]
  exact List.nil_prefix

theorem Searched.lists_expand (hr : ix.Represents a) (hcount : 1 ≤ count) {budget : Nat}
    (hb : 2 ^ n ≤ place + budget) (h : Searched ix first length place [] p)
    (hsize : p.found.size ≤ count) (hroom : place = 0 ∨ p.found.size < count) :
    Lists ix first count length (expand ix count length budget place p) := by
  induction budget generalizing place p with
  | zero => exact h.lists_of_beyond hr hsize (h.sweeps.length_le.trans hb)
  | succ budget ih =>
    rw [expand]
    split
    · rename_i hnone
      refine h.lists_of_beyond hr hsize ?_
      rw [Progress.words, List.length_map, Array.length_toList]
      exact Array.getElem?_eq_none_iff.mp hnone
    · rename_i v hv
      split
      · rename_i hfull
        obtain rfl := hroom.resolve_right (Nat.not_lt.mpr hfull)
        exact h.lists_of_full hr hcount hsize hfull _
      · rename_i hlt
        rw [Nat.not_le] at hlt
        split
        · rename_i hlen
          have hlong := h.long_of_le hv hlen
          rw [expand_of_long hlt fun i w hi hplace => hlong i w hi (Nat.le_of_succ_le hplace)]
          exact h.lists_of_long hr hsize hlong
        · rename_i hlen
          rw [Nat.not_le] at hlen
          split
          · rename_i q hq
            obtain ⟨h', hlt'⟩ := h.followAll hr hv hlen hlt (List.nil_append _) hq
            have hturn : Searched ix first length (place + 1) [] q :=
              { h' with sweeps := h'.sweeps.turn hr }
            exact ih (by omega) hturn hlt'.le (Or.inr hlt')
          · rename_i q hq
            exact h.lists_of_followAll hr hv hlen hlt (List.nil_append _) hq

theorem lists_search (hr : ix.Represents a) (i : Fin n) (hcount : 1 ≤ count) (length : Nat) :
    Lists ix (ix.start i) count length (search ix count length i) := by
  have hstart : (Progress.start ix (ix.start i)).found.size ≤ 1 := by
    unfold Progress.start
    dsimp only
    split <;> simp
  exact (searched_start hr i).lists_expand hr hcount (Nat.le_add_left _ 0)
    (hstart.trans hcount) (Or.inl rfl)

/-- The wanted words are finitely many; a search that is asked for more lists them all. -/
theorem exists_wanted (hr : ix.Represents a) (i : Fin n) (length : Nat) :
    ∃ words : List (List Char), words.Pairwise Precedes ∧
      ∀ w, w ∈ words ↔ Wanted ix (ix.start i) length w := by
  have h := lists_search hr i (Nat.le_add_left 1 (2 ^ n)) length
  refine ⟨_, h.ascending, fun w => ⟨h.wanted w, fun hw => ?_⟩⟩
  by_contra hnew
  have hsize := (h.rest w hw hnew).1
  have hle := Index.length_le_of_isFirst h.ascending fun v hv => (h.wanted v hv).isFirst
  rw [Array.length_toList] at hle
  omega

theorem take_eq_of_rest {words found : List (List Char)} (hwords : words.Pairwise Precedes)
    (hfound : found.Pairwise Precedes) (hsub : ∀ w ∈ found, w ∈ words) (hle : found.length ≤ count)
    (hrest : ∀ w ∈ words, w ∉ found → found.length = count ∧ ∀ v ∈ found, Precedes v w) :
    words.take count = found := by
  let others := words.filter fun w => w ∉ found
  have hothers : ∀ w, w ∈ others ↔ w ∈ words ∧ w ∉ found := by simp [others]
  have hasc : (found ++ others).Pairwise Precedes := by
    refine List.pairwise_append.mpr ⟨hfound, hwords.filter _, fun v hv w hw => ?_⟩
    obtain ⟨hw, hnew⟩ := (hothers w).mp hw
    exact (hrest w hw hnew).2 v hv
  have hsplit : words = found ++ others := by
    refine hwords.eq_of_mem_iff hasc fun w => ?_
    rw [List.mem_append, hothers]
    by_cases hw : w ∈ found
    · simp [hw, hsub w hw]
    · simp [hw]
  rw [hsplit]
  cases hcases : others with
  | nil => rw [List.append_nil, List.take_of_length_le hle]
  | cons w rest =>
    have hw : w ∈ others := by simp [hcases]
    obtain ⟨hw, hnew⟩ := (hothers w).mp hw
    rw [List.take_left' (hrest w hw hnew).1]

theorem Lists.eq_take {r : Result n} (h : Lists ix first count length r) {words : List (List Char)}
    (hasc : words.Pairwise Precedes) (hmem : ∀ w, w ∈ words ↔ Wanted ix first length w) :
    words.take count = r.progress.found.toList := by
  refine take_eq_of_rest hasc h.ascending (fun w hw => (hmem w).mpr (h.wanted w hw)) ?_ ?_
  · rw [Array.length_toList]
    exact h.size_le
  · intro w hw hnew
    rw [Array.length_toList]
    exact h.rest w ((hmem w).mp hw) hnew

theorem eq_nil_of_isEmpty {words : List (List Char)} (hempty : ix.accepting.isEmpty = true)
    (hmem : ∀ w, w ∈ words ↔ Wanted ix first length w) : words = [] := by
  refine List.eq_nil_iff_forall_not_mem.mpr fun w hw => ?_
  obtain ⟨j, -, hj⟩ := StateSet.meets_iff.mp ((hmem w).mp hw).accepting
  exact StateSet.isEmpty_iff.mp hempty j hj

theorem exists_isFirst_of_accepting {w : List Char}
    (hacc : ix.isAccepting (ix.after first w) = true) :
    ∃ v, ix.IsFirst first v ∧ ix.isAccepting (ix.after first v) = true ∧ (w = v ∨ Precedes v w) := by
  obtain ⟨v, hv, he⟩ := Index.exists_isFirst (Determinization.isEmpty_of_isAccepting hacc)
  exact ⟨v, hv, he ▸ hacc, hv.least w he.symm⟩

theorem exists_head {words : List (List Char)} (hasc : words.Pairwise Precedes)
    (hmem : ∀ w, w ∈ words ↔ Wanted ix first length w) {w : List Char}
    (hacc : ix.isAccepting (ix.after first w) = true) (hlen : w.length ≤ length) :
    ∃ t rest, words = t :: rest ∧
      ∀ u, ix.isAccepting (ix.after first u) = true → u = t ∨ Precedes t u := by
  obtain ⟨v, hv, hvacc, hvw⟩ := exists_isFirst_of_accepting hacc
  have hvlen : v.length ≤ length := by
    rcases hvw with rfl | hvw
    · exact hlen
    · exact hvw.length_le.trans hlen
  have hvmem := (hmem v).mpr ⟨hv, hvacc, hvlen⟩
  cases words with
  | nil => exact absurd hvmem List.not_mem_nil
  | cons t rest =>
    refine ⟨t, rest, rfl, fun u hu => ?_⟩
    obtain ⟨v, hv, hvacc, hvu⟩ := exists_isFirst_of_accepting hu
    have htv : v = t ∨ Precedes t v := by
      by_cases hvlen : v.length ≤ length
      · rcases List.mem_cons.mp ((hmem v).mpr ⟨hv, hvacc, hvlen⟩) with rfl | hvrest
        · exact Or.inl rfl
        · exact Or.inr ((List.pairwise_cons.mp hasc).1 v hvrest)
      · have ht := ((hmem t).mp List.mem_cons_self).short
        exact Or.inr (.of_length_lt (ht.trans_lt (Nat.not_le.mp hvlen)))
    rcases hvu with rfl | hvu
    · exact htv
    · rcases htv with rfl | htv
      · exact Or.inr hvu
      · exact Or.inr (htv.trans hvu)

/-- Strings, with a log, that are cut from the list of all wanted words at the count. If the log has no
warning, all words that are cut off go on from where the last listed one was found. -/
structure Cut (words : List (List Char)) (count : Nat) (strings : List String) (log : List Event) :
    Prop where
  take : strings.map String.toList = words.take count
  drop : (∀ k, .samplesCut k ∉ log) → ∀ w ∈ words.drop count,
    ∃ v, strings.getLast? = some v ∧ v.toList.dropLast <+: w

theorem exists_report (hr : ix.Represents a) (i : Fin n) (hcount : 1 ≤ count)
    {words : List (List Char)} (hasc : words.Pairwise Precedes)
    (hmem : ∀ w, w ∈ words ↔ Wanted ix (ix.start i) length w) :
    ∃ strings, (report ix count length i).outcome = .ok strings ∧
      Cut words count strings (report ix count length i).log := by
  have h := lists_search hr i hcount length
  have htake := h.eq_take hasc hmem
  refine ⟨(search ix count length i).progress.found.toList.map String.ofList, rfl, ?_, ?_⟩
  · simp [htake, Function.comp_def]
  · intro hwarn w hw
    have hnew : w ∉ (search ix count length i).progress.found.toList := by
      rw [← htake]
      exact fun hw' => List.disjoint_take_drop hasc.nodup (Nat.le_refl count) hw' hw
    have hwanted := (hmem w).mp (List.mem_of_mem_drop hw)
    have hleft : (search ix count length i).left = 0 := by
      by_contra hne
      refine hwarn count ?_
      rw [report, Logged.mem_log_bind]
      exact Or.inl (by simp [(h.rest w hwanted hnew).1, hne])
    obtain ⟨v, hv, hprefix⟩ := h.cut hleft w hwanted hnew
    exact ⟨String.ofList v, by simp [hv], by simpa using hprefix⟩

end Samples

namespace Automaton
variable {a : Automaton} {count length n m : Nat} {w : List Char}

/-- Some final state is among these states. -/
def HasFinal (a : Automaton) (S : Set StateId) : Prop := ∃ q ∈ a.states, q.isFinal = true ∧ q.id ∈ S

theorem exists_samples {ix : Index a.states.length} {i : Fin a.states.length}
    (hix : (Index.ofAutomaton a).outcome = .ok ix) (hi : ix.initial = some i)
    {words : List (List Char)} (hasc : words.Pairwise Precedes)
    (hmem : ∀ w, w ∈ words ↔ Samples.Wanted ix (ix.start i) length w) (count : Nat) :
    ∃ strings, (a.samples count length).outcome = .ok strings ∧
      strings.map String.toList = words.take count ∧
      (1 ≤ count → Samples.Cut words count strings (a.samples count length).log) := by
  let rest (ix : Index a.states.length) (i : Fin a.states.length) : Logged (List String) :=
    if ix.accepting.isEmpty ∨ count = 0 then return [] else Samples.report ix count length i
  have houtcome : (a.samples count length).outcome = (rest ix i).outcome :=
    Index.outcome_bind_of_initial hix hi rest
  have hlog : ∀ e ∈ (rest ix i).log, e ∈ (a.samples count length).log :=
    fun e he => Index.mem_log_bind_of_initial hix hi rest he
  rw [houtcome]
  by_cases hnone : ix.accepting.isEmpty ∨ count = 0
  · refine ⟨[], by simp only [rest, if_pos hnone, Logged.outcome_pure], ?_⟩
    rcases hnone with hempty | rfl
    · obtain rfl := Samples.eq_nil_of_isEmpty hempty hmem
      exact ⟨by simp, fun _ => ⟨by simp, by simp⟩⟩
    · exact ⟨by simp, fun h => absurd h (Nat.not_succ_le_zero 0)⟩
  · have hcount : 1 ≤ count := Nat.one_le_iff_ne_zero.mpr fun h => hnone (Or.inr h)
    obtain ⟨strings, hstrings, hcut⟩ :=
      Samples.exists_report (Index.represents_of_eq_ok hix) i hcount hasc hmem
    simp only [rest, if_neg hnone] at hlog ⊢
    refine ⟨strings, hstrings, hcut.take, fun _ => ⟨hcut.take, fun hwarn => ?_⟩⟩
    exact hcut.drop fun k hk => hwarn k (hlog _ hk)

theorem wanted_iff {k : Nat} {ix : Index k} {i : Fin k} (hr : ix.Represents a)
    (hi : ix.initial = some i) : Samples.Wanted ix (ix.start i) length w ↔
      w.length ≤ length ∧ ∃ S, a.HasFinal S ∧ a.FirstInto S w := by
  have hfinal : ix.isAccepting (ix.after (ix.start i) w) = true ↔ a.HasFinal (a.powerState w) := by
    rw [isAccepting_after_iff hr hi]
    exact mem_language
  constructor
  · rintro ⟨hfirst, hacc, hshort⟩
    exact ⟨hshort, _, hfinal.mp hacc, ((isFirst_iff hr hi).mp hfirst).2⟩
  · rintro ⟨hshort, S, hS, rfl, hleast⟩
    obtain ⟨q, hq, hf, hqS⟩ := hS
    exact ⟨(isFirst_iff hr hi).mpr ⟨⟨q.id, hqS⟩, rfl, hleast⟩, hfinal.mpr ⟨q, hq, hf, hqS⟩, hshort⟩

/-- One list gives the samples for all counts: the words in reach that are first to lead to the states
of a power-state with a final state, in their order. Samples are its beginning, so they are in ascending
order and accepted, and the first sample is the first of all accepted strings. -/
theorem samples_firstWords (hw : a.WellFormed) {s : State} (hs : a.initialState? = some s)
    (length : Nat) :
    ∃ words : List (List Char), words.Pairwise Precedes ∧
      (∀ w, w ∈ words ↔ w.length ≤ length ∧ ∃ S, a.HasFinal S ∧ a.FirstInto S w) ∧
      ∀ count, ∃ strings, (a.samples count length).outcome = .ok strings ∧
        strings.map String.toList = words.take count ∧
        strings.Pairwise (fun t u => Precedes t.toList u.toList) ∧
        (∀ t ∈ strings, t ∈ a.acceptedStrings) ∧
        (1 ≤ count → (∃ t ∈ a.acceptedStrings, t.length ≤ length) →
          ∃ t ∈ a.acceptedStrings, strings.head? = some t ∧
            ∀ u ∈ a.acceptedStrings, u = t ∨ Precedes t.toList u.toList) := by
  obtain ⟨ix, hix, hr⟩ := Index.exists_index hw
  obtain ⟨i, hi, -⟩ := exists_initial hr hs
  obtain ⟨words, hasc, hmem⟩ := Samples.exists_wanted hr i length
  refine ⟨words, hasc, fun w => (hmem w).trans (wanted_iff hr hi), fun count => ?_⟩
  obtain ⟨strings, hstrings, htake, -⟩ := exists_samples hix hi hasc hmem count
  have haccepted : ∀ t : String, t ∈ a.acceptedStrings ↔
      ix.isAccepting (ix.after (ix.start i) t.toList) = true := by
    intro t
    rw [mem_acceptedStrings hw hs, isAccepting_after_iff hr hi]
  have hsound : ∀ t ∈ strings, t ∈ a.acceptedStrings := by
    intro t ht
    have hword := List.mem_map_of_mem (f := String.toList) ht
    rw [htake] at hword
    exact (haccepted t).mpr ((hmem _).mp (List.mem_of_mem_take hword)).accepting
  refine ⟨strings, hstrings, htake, ?_, hsound, ?_⟩
  · rw [← List.pairwise_map, htake]
    exact hasc.sublist (List.take_sublist ..)
  · rintro hcount ⟨t, ht, hlen⟩
    obtain ⟨v, rest, rfl, hleast⟩ := Samples.exists_head hasc hmem ((haccepted t).mp ht) hlen
    rw [← Nat.sub_add_cancel hcount, List.take_succ_cons, List.map_eq_cons_iff] at htake
    obtain ⟨t, others, rfl, rfl, -⟩ := htake
    refine ⟨t, hsound t List.mem_cons_self, rfl, fun u hu => ?_⟩
    exact (hleast _ ((haccepted u).mp hu)).imp_left String.toList_inj.mp

/-- Two words of one symbol are accepted, by different states. -/
def fork : Automaton where
  states := [{ id := 0, isInitial := true }, { id := 1, isFinal := true }, { id := 2, isFinal := true }]
  transitions := [⟨0, 1, .symbol 'a'⟩, ⟨0, 2, .symbol 'b'⟩]

theorem fork_wellFormed : fork.WellFormed := by decide

theorem outcome_samples_fork_one : (fork.samples 1 5).outcome = .ok ["a"] := by cbv

theorem log_samples_fork_one : (fork.samples 1 5).log = [.explored 1] := by cbv

theorem samples_fork_first :
    fork.WellFormed ∧ (fork.samples 1 5).outcome = .ok ["a"] ∧ "a" ∈ fork.acceptedStrings ∧
      ∀ u ∈ fork.acceptedStrings, u = "a" ∨ Precedes ['a'] u.toList := by
  obtain ⟨words, -, -, h⟩ :=
    samples_firstWords fork_wellFormed (s := { id := 0, isInitial := true }) rfl 5
  obtain ⟨strings, hstrings, -, -, hsound, hleast⟩ := h 1
  obtain rfl := Except.ok.inj (outcome_samples_fork_one.symm.trans hstrings)
  have hmem : "a" ∈ fork.acceptedStrings := hsound "a" List.mem_cons_self
  obtain ⟨t, -, ht, hleast⟩ := hleast (Nat.le_refl 1) ⟨"a", hmem, by decide⟩
  obtain rfl := Option.some.inj ht
  exact ⟨fork_wellFormed, outcome_samples_fork_one, hmem, hleast⟩

/-- What the absence of a warning means: there are more samples only if the list is full, and then
they all go on from where the search was when it found the last one listed. -/
theorem samples_uncut {strings : List String} (hn : 1 ≤ n) (hnm : n ≤ m)
    (h : (a.samples n length).outcome = .ok strings)
    (hwarn : ∀ k, .samplesCut k ∉ (a.samples n length).log) :
    (strings.length < n → (a.samples m length).outcome = .ok strings) ∧
      ∃ more, (a.samples m length).outcome = .ok (strings ++ more) ∧
        ∀ t ∈ more, ∃ last, strings.getLast? = some last ∧ last.toList.dropLast <+: t.toList := by
  obtain ⟨ix, i, hix, hi, -⟩ := Index.exists_of_bind_eq_ok
    (f := fun ix i => if ix.accepting.isEmpty ∨ n = 0 then return [] else
      Samples.report ix n length i) h
  obtain ⟨words, hasc, hmem⟩ := Samples.exists_wanted (Index.represents_of_eq_ok hix) i length
  obtain ⟨strings', h', htake, hcut⟩ := exists_samples hix hi hasc hmem n
  obtain rfl := Except.ok.inj (h.symm.trans h')
  obtain ⟨all, hall, htakeAll, -⟩ := exists_samples hix hi hasc hmem m
  have hinj : Function.Injective String.toList := fun _ _ => String.toList_inj.mp
  have hbegin : all.take n = strings := by
    refine hinj.list_map ?_
    rw [List.map_take, htakeAll, List.take_take, Nat.min_eq_left hnm, htake]
  constructor
  · intro hlt
    have hshort : words.length < n := by
      have hlen := congrArg List.length htake
      rw [List.length_map, List.length_take] at hlen
      omega
    have hsame : all = strings := by
      refine hinj.list_map ?_
      rw [htakeAll, htake, List.take_of_length_le hshort.le,
        List.take_of_length_le (hshort.le.trans hnm)]
    rw [hall, hsame]
  · refine ⟨all.drop n, ?_, fun t ht => ?_⟩
    · rw [hall, ← hbegin, List.take_append_drop]
    · have hword := List.mem_map_of_mem (f := String.toList) ht
      rw [List.map_drop, htakeAll, List.drop_take] at hword
      exact (hcut hn).drop hwarn _ (List.mem_of_mem_take hword)

/-- A list that is not full is the whole list. -/
theorem samples_fork_all :
    (fork.samples 3 5).outcome = .ok ["a", "b"] ∧ (fork.samples 3 5).log = [.explored 3] ∧
      (fork.samples 7 5).outcome = .ok ["a", "b"] := by
  have houtcome : (fork.samples 3 5).outcome = .ok ["a", "b"] := by cbv
  have hlog : (fork.samples 3 5).log = [.explored 3] := by cbv
  have hwarn : ∀ k, .samplesCut k ∉ (fork.samples 3 5).log := by simp [hlog]
  exact ⟨houtcome, hlog, (samples_uncut (by decide) (by decide) houtcome hwarn).1 (by decide)⟩

/-- A full list may be cut without a warning: the search is over as soon as it has found the last string
asked for, and nothing waits to be expanded although the second symbol has not been followed. -/
theorem samples_fork_cut :
    (fork.samples 1 5).outcome = .ok ["a"] ∧ (∀ k, .samplesCut k ∉ (fork.samples 1 5).log) ∧
      (fork.samples 2 5).outcome = .ok ["a", "b"] := by
  refine ⟨outcome_samples_fork_one, ?_, by cbv⟩
  simp [log_samples_fork_one]

end Automaton
end FiniteAutomata
