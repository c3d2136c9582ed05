import Mathlib.Algebra.Group.Nat.Defs
import Mathlib.Data.Fintype.Card
import Mathlib.Data.List.ProdSigma
import FiniteAutomata.Determinization
import FiniteAutomata.Proofs.Simulation
import FiniteAutomata.Proofs.Table

/-! # What a determinization finds

While the search goes on, each number belongs to one power-state, and every symbol that has been
followed from a numbered power-state leads to a numbered one or to none at all. When all of them have
been followed, the numbers and transitions make up a deterministic automaton that mirrors the
power-states after all words.
-/
namespace FiniteAutomata
namespace Determinization
variable {n : Nat} {ix : Index n} {first : StateSet n} {limit : Nat} {p : Progress n}

/-- The transition on a symbol from a numbered power-state, if it leads to one. -/
def arrow? (ix : Index n) (p : Progress n) (e : Nat × Char) : Option Transition := do
  let s ← p.sets[e.1]?
  let target ← p.number? (ix.step s e.2)
  return ⟨.ofNat e.1, .ofNat target, .symbol e.2⟩

theorem arrow?_eq_some_iff {e : Nat × Char} {t : Transition} :
    arrow? ix p e = some t ↔ ∃ s j, p.sets[e.1]? = some s ∧ p.number? (ix.step s e.2) = some j ∧
      t = ⟨.ofNat e.1, .ofNat j, .symbol e.2⟩ := by
  unfold arrow?
  simp only [Option.bind_eq_bind, Option.bind_eq_some_iff, Option.pure_def, Option.some.injEq]
  constructor
  · rintro ⟨s, hs, j, hj, rfl⟩
    exact ⟨s, j, hs, hj, rfl⟩
  · rintro ⟨s, j, hs, hj, rfl⟩
    exact ⟨s, hs, j, hj, rfl⟩

/-- The search has followed the listed symbols from the listed numbers. -/
structure Explored (ix : Index n) (first : StateSet n) (limit : Nat) (done : List (Nat × Char))
    (p : Progress n) : Prop where
  first : p.sets[0]? = some first
  number : ∀ (s : StateSet n) i, p.number? s = some i ↔ p.sets[i]? = some s
  nonempty : ∀ (i : Nat) (s : StateSet n), p.sets[i]? = some s → s.isEmpty = false
  small : p.sets.size ≤ max limit 1
  settled : ∀ e ∈ done, ∃ s, p.sets[e.1]? = some s ∧
    ((ix.step s e.2).isEmpty = false → ∃ i, p.number? (ix.step s e.2) = some i)
  transitions : p.transitions.toList = done.filterMap (arrow? ix p)

theorem explored_start (hs : first.isEmpty = false) :
    Explored ix first limit [] (.start first) where
  first := rfl
  number := by
    intro s i
    unfold Progress.start Progress.number?
    rw [Std.TreeMap.getElem?_insert]
    by_cases hk : first.key = s.key
    · obtain rfl := StateSet.key_inj.mp hk
      rw [if_pos (Std.compare_eq_iff_eq.mpr rfl)]
      cases i <;> simp
    · rw [if_neg (fun h => hk (Std.compare_eq_iff_eq.mp h))]
      cases i with
      | zero => simpa using fun h => hk (congrArg _ h)
      | succ i => simp
  nonempty := by
    intro i s hi
    cases i with
    | zero =>
      obtain rfl := Option.some.inj hi
      exact hs
    | succ i => cases hi
  small := Nat.le_max_right limit 1
  settled := fun e he => absurd he List.not_mem_nil
  transitions := rfl

theorem Explored.skip {done : List (Nat × Char)} (h : Explored ix first limit done p) {source : Nat}
    {s : StateSet n} (hs : p.sets[source]? = some s) {c : Char}
    (hempty : (ix.step s c).isEmpty = true) :
    Explored ix first limit (done ++ [(source, c)]) p := by
  refine { h with settled := ?_, transitions := ?_ }
  · intro e he
    rcases List.mem_append.mp he with he | he
    · exact h.settled e he
    · obtain rfl := List.mem_singleton.mp he
      refine ⟨s, hs, fun hfull => ?_⟩
      rw [hempty] at hfull
      cases hfull
  · have hnone : arrow? ix p (source, c) = none := by
      cases hn : p.number? (ix.step s c) with
      | none => simp [arrow?, hs, hn]
      | some i =>
        have hfull := h.nonempty i _ ((h.number _ i).mp hn)
        rw [hempty] at hfull
        cases hfull
    rw [List.filterMap_append, h.transitions, List.filterMap_cons_none hnone, List.filterMap_nil,
      List.append_nil]

theorem Explored.connect {done : List (Nat × Char)} (h : Explored ix first limit done p)
    {source target : Nat} {s : StateSet n} (hs : p.sets[source]? = some s) {c : Char}
    (ht : p.number? (ix.step s c) = some target) :
    Explored ix first limit (done ++ [(source, c)]) (p.connect source target c) where
  first := h.first
  number := h.number
  nonempty := h.nonempty
  small := h.small
  settled := by
    intro e he
    rcases List.mem_append.mp he with he | he
    · exact h.settled e he
    · obtain rfl := List.mem_singleton.mp he
      exact ⟨s, hs, fun _ => ⟨target, ht⟩⟩
  transitions := by
    have harrow : arrow? ix p (source, c) = some ⟨.ofNat source, .ofNat target, .symbol c⟩ :=
      arrow?_eq_some_iff.mpr ⟨s, target, hs, ht, rfl⟩
    have hsame : arrow? ix (p.connect source target c) = arrow? ix p := rfl
    rw [hsame, List.filterMap_append, ← h.transitions, List.filterMap_cons_some harrow,
      List.filterMap_nil]
    exact Array.toList_push

theorem number?_add {s t : StateSet n} :
    (p.add t).number? s = if t = s then some p.sets.size else p.number? s := by
  unfold Progress.add Progress.number?
  rw [Std.TreeMap.getElem?_insert]
  simp only [Std.compare_eq_iff_eq, StateSet.key_inj]

theorem getElem?_sets_add_iff {s t : StateSet n} {i : Nat} :
    (p.add t).sets[i]? = some s ↔ i = p.sets.size ∧ t = s ∨ p.sets[i]? = some s := by
  unfold Progress.add
  rw [Array.getElem?_push]
  by_cases hi : i = p.sets.size
  · subst hi
    simp
  · simp [hi]

theorem arrow?_add {s t : StateSet n} {e : Nat × Char} (hs : p.sets[e.1]? = some s)
    (hne : t ≠ ix.step s e.2) : arrow? ix (p.add t) e = arrow? ix p e := by
  have hs' := getElem?_sets_add_iff (t := t).mpr (Or.inr hs)
  unfold arrow?
  rw [hs, hs']
  simp only [Option.bind_eq_bind, Option.bind_some, number?_add, if_neg hne]

theorem Explored.add {done : List (Nat × Char)} (h : Explored ix first limit done p)
    {t : StateSet n} (hfull : t.isEmpty = false) (hnew : p.number? t = none)
    (hlimit : p.sets.size < limit) : Explored ix first limit done (p.add t) where
  first := getElem?_sets_add_iff.mpr (Or.inr h.first)
  number := by
    intro s i
    rw [number?_add, getElem?_sets_add_iff, ← h.number]
    by_cases hts : t = s
    · subst hts
      simp [hnew, eq_comm]
    · simp [hts]
  nonempty := by
    intro i s hi
    rcases getElem?_sets_add_iff.mp hi with ⟨-, rfl⟩ | hi
    · exact hfull
    · exact h.nonempty i s hi
  small := by
    unfold Progress.add
    rw [Array.size_push]
    exact Nat.le_trans hlimit (Nat.le_max_left limit 1)
  settled := by
    intro e he
    obtain ⟨s, hs, hnum⟩ := h.settled e he
    refine ⟨s, getElem?_sets_add_iff.mpr (Or.inr hs), fun hstep => ?_⟩
    rw [number?_add]
    by_cases hts : t = ix.step s e.2
    · exact ⟨_, if_pos hts⟩
    · rw [if_neg hts]
      exact hnum hstep
  transitions := by
    have hsame : ∀ e ∈ done, arrow? ix p e = arrow? ix (p.add t) e := by
      intro e he
      obtain ⟨s, hs, hnum⟩ := h.settled e he
      have hne : t ≠ ix.step s e.2 := by
        rintro rfl
        obtain ⟨i, hi⟩ := hnum hfull
        rw [hnew] at hi
        cases hi
      exact (arrow?_add hs hne).symm
    exact h.transitions.trans (List.filterMap_congr hsame)

theorem Explored.follow {done : List (Nat × Char)} (h : Explored ix first limit done p)
    {source : Nat} {s : StateSet n} (hs : p.sets[source]? = some s) {c : Char} {q : Progress n}
    (hq : follow ix limit source s p c = .ok q) :
    Explored ix first limit (done ++ [(source, c)]) q ∧ q.sets[source]? = some s := by
  unfold Determinization.follow at hq
  simp only at hq
  split at hq
  · rename_i hempty
    cases hq
    exact ⟨h.skip hs hempty, hs⟩
  · rename_i hfull
    split at hq
    · rename_i target ht
      cases hq
      exact ⟨h.connect hs ht, hs⟩
    · rename_i hnew
      split at hq
      · cases hq
      · rename_i hlimit
        cases hq
        have hadd := h.add ((Bool.not_eq_true _).mp hfull) hnew (Nat.not_le.mp hlimit)
        have hs' : (p.add (ix.step s c)).sets[source]? = some s :=
          getElem?_sets_add_iff.mpr (Or.inr hs)
        refine ⟨hadd.connect hs' ?_, hs'⟩
        rw [number?_add, if_pos rfl]

theorem Explored.followAll {done : List (Nat × Char)} (h : Explored ix first limit done p)
    {source : Nat} {s : StateSet n} (hs : p.sets[source]? = some s) {cs : List Char}
    {q : Progress n} (hq : cs.foldlM (Determinization.follow ix limit source s) p = .ok q) :
    Explored ix first limit (done ++ cs.map (source, ·)) q ∧ q.sets[source]? = some s := by
  induction cs generalizing done p with
  | nil =>
    cases hq
    rw [List.map_nil, List.append_nil]
    exact ⟨h, hs⟩
  | cons c cs ih =>
    obtain ⟨m, hm, hq⟩ := Outcome.foldlM_cons_eq_ok.mp hq
    obtain ⟨h', hs'⟩ := h.follow hs hm
    have hrest := ih h' hs' hq
    rwa [List.append_assoc, List.singleton_append] at hrest

/-- All symbols from all numbers below the given one. -/
def pairsBelow (ix : Index n) (k : Nat) : List (Nat × Char) :=
  (List.range k).flatMap fun source => ix.alphabet.map (source, ·)

theorem pairsBelow_succ (ix : Index n) (k : Nat) :
    pairsBelow ix (k + 1) = pairsBelow ix k ++ ix.alphabet.map (k, ·) := by
  simp [pairsBelow, List.range_succ]

theorem mem_pairsBelow {k : Nat} {e : Nat × Char} :
    e ∈ pairsBelow ix k ↔ e.1 < k ∧ e.2 ∈ ix.alphabet := by
  obtain ⟨i, c⟩ := e
  simp [pairsBelow]

theorem Explored.expand {budget source : Nat} (hb : max limit 1 ≤ source + budget)
    (hle : source ≤ p.sets.size) (h : Explored ix first limit (pairsBelow ix source) p)
    {q : Progress n} (hq : expand ix limit budget source p = .ok q) :
    Explored ix first limit (pairsBelow ix q.sets.size) q := by
  induction budget generalizing source p with
  | zero =>
    have hsource : source = p.sets.size := Nat.le_antisymm hle (Nat.le_trans h.small hb)
    cases hq
    rwa [hsource] at h
  | succ budget ih =>
    rw [Determinization.expand] at hq
    split at hq
    · rename_i hnone
      have hsource : source = p.sets.size := by
        rw [Array.getElem?_eq_none_iff] at hnone
        exact Nat.le_antisymm hle hnone
      cases hq
      rwa [hsource] at h
    · rename_i s hs
      obtain ⟨m, hm, hq⟩ := Outcome.bind_eq_ok.mp hq
      obtain ⟨h', hs'⟩ := h.followAll hs hm
      rw [← pairsBelow_succ] at h'
      have hlt := (Array.getElem?_eq_some_iff.mp hs').1
      exact ih (by omega) hlt h' hq

/-- A search that ends has followed every symbol from every number. -/
theorem explored_explore {initial : Fin n} (hne : (ix.start initial).isEmpty = false)
    (hp : explore ix limit initial = .ok p) :
    Explored ix (ix.start initial) limit (pairsBelow ix p.sets.size) p := by
  have h : Explored ix (ix.start initial) limit (pairsBelow ix 0) (.start (ix.start initial)) :=
    explored_start hne
  exact h.expand (Nat.le_add_left _ 0) (Nat.zero_le _) hp

theorem Explored.nodup {done : List (Nat × Char)} (h : Explored ix first limit done p) :
    p.sets.toList.Nodup := by
  rw [List.nodup_iff_getElem?_ne_getElem?]
  intro i j hij hj he
  rw [Array.getElem?_toList, Array.getElem?_toList] at he
  have hs := Array.getElem?_eq_getElem (Array.length_toList ▸ hj)
  have hi := (h.number _ _).mpr (he.trans hs)
  rw [(h.number _ _).mpr hs] at hi
  exact absurd (Option.some.inj hi) (Nat.ne_of_gt hij)

theorem Explored.mem_sets {done : List (Nat × Char)} (h : Explored ix first limit done p)
    {t : StateSet n} : t ∈ p.sets.toList ↔ ∃ i, p.number? t = some i := by
  rw [List.mem_iff_getElem?]
  simp only [Array.getElem?_toList, h.number]

theorem Explored.size_lt {done : List (Nat × Char)} (h : Explored ix first limit done p)
    {t : StateSet n} (ht : p.number? t = none) : p.sets.size < 2 ^ n := by
  have hnew : t ∉ p.sets.toList := by
    rw [h.mem_sets, ht]
    rintro ⟨i, hi⟩
    cases hi
  have hle := StateSet.length_le_of_nodup (List.nodup_cons.mpr ⟨hnew, h.nodup⟩)
  rwa [List.length_cons, Array.length_toList] at hle

theorem Explored.exists_follow (hl : 2 ^ n ≤ limit) {done : List (Nat × Char)}
    (h : Explored ix first limit done p) (source : Nat) (s : StateSet n) (c : Char) :
    ∃ q, Determinization.follow ix limit source s p c = .ok q := by
  unfold Determinization.follow
  dsimp only
  split
  · exact ⟨_, rfl⟩
  · split
    · exact ⟨_, rfl⟩
    · rename_i hnew
      have hlt := Nat.lt_of_lt_of_le (h.size_lt hnew) hl
      exact ⟨_, if_neg (Nat.not_le.mpr hlt)⟩

theorem Explored.exists_followAll (hl : 2 ^ n ≤ limit) {done : List (Nat × Char)}
    (h : Explored ix first limit done p) {source : Nat} {s : StateSet n}
    (hs : p.sets[source]? = some s) (cs : List Char) :
    ∃ q, cs.foldlM (Determinization.follow ix limit source s) p = .ok q := by
  induction cs generalizing done p with
  | nil => exact ⟨p, rfl⟩
  | cons c cs ih =>
    obtain ⟨m, hm⟩ := h.exists_follow hl source s c
    obtain ⟨h', hs'⟩ := h.follow hs hm
    obtain ⟨q, hq⟩ := ih h' hs'
    exact ⟨q, Outcome.foldlM_cons_eq_ok.mpr ⟨m, hm, hq⟩⟩

theorem Explored.exists_expand (hl : 2 ^ n ≤ limit) {done : List (Nat × Char)}
    (h : Explored ix first limit done p) (budget source : Nat) :
    ∃ q, Determinization.expand ix limit budget source p = .ok q := by
  induction budget generalizing source done p with
  | zero => exact ⟨p, rfl⟩
  | succ budget ih =>
    rw [Determinization.expand]
    split
    · exact ⟨p, rfl⟩
    · rename_i s hs
      obtain ⟨m, hm⟩ := h.exists_followAll hl hs ix.alphabet
      obtain ⟨h', -⟩ := h.followAll hs hm
      obtain ⟨q, hq⟩ := ih h' (source + 1)
      exact ⟨q, Outcome.bind_eq_ok.mpr ⟨m, hm, hq⟩⟩

theorem exists_explore (hl : 2 ^ n ≤ limit) {initial : Fin n}
    (hne : (ix.start initial).isEmpty = false) : ∃ p, explore ix limit initial = .ok p := by
  have h : Explored ix (ix.start initial) limit [] (.start (ix.start initial)) := explored_start hne
  exact h.exists_expand hl (max limit 1) 0

/-- Everything has been followed. -/
abbrev Complete (ix : Index n) (first : StateSet n) (limit : Nat) (p : Progress n) : Prop :=
  Explored ix first limit (pairsBelow ix p.sets.size) p

theorem Explored.mem_transitions (h : Complete ix first limit p) {t : Transition} :
    t ∈ p.transitions.toList ↔ ∃ (i : Nat) (c : Char) (s : StateSet n) (j : Nat), c ∈ ix.alphabet ∧
      p.sets[i]? = some s ∧ p.sets[j]? = some (ix.step s c) ∧
      t = ⟨.ofNat i, .ofNat j, .symbol c⟩ := by
  rw [h.transitions, List.mem_filterMap]
  constructor
  · rintro ⟨⟨i, c⟩, he, ht⟩
    obtain ⟨s, j, hs, hj, rfl⟩ := arrow?_eq_some_iff.mp ht
    exact ⟨i, c, s, j, (mem_pairsBelow.mp he).2, hs, (h.number _ _).mp hj, rfl⟩
  · rintro ⟨i, c, s, j, hc, hs, hj, rfl⟩
    have hlt := (Array.getElem?_eq_some_iff.mp hs).1
    exact ⟨(i, c), mem_pairsBelow.mpr ⟨hlt, hc⟩,
      arrow?_eq_some_iff.mpr ⟨s, j, hs, (h.number _ _).mpr hj, rfl⟩⟩

theorem pairwise_pairsBelow {a : Automaton} (h : ix.Represents a) (k : Nat) :
    (pairsBelow ix k).Pairwise fun e f => e.1 < f.1 ∨ e.1 = f.1 ∧ e.2 < f.2 := by
  rw [pairsBelow, List.pairwise_flatMap]
  constructor
  · intro i _
    rw [List.pairwise_map]
    exact h.pairwise_alphabet.imp fun hlt => Or.inr ⟨rfl, hlt⟩
  · refine List.pairwise_lt_range.imp fun hij => ?_
    intro e he f hf
    obtain ⟨c, -, rfl⟩ := List.mem_map.mp he
    obtain ⟨d, -, rfl⟩ := List.mem_map.mp hf
    exact Or.inl hij

theorem Explored.pairwise_transitions (h : Complete ix first limit p) {a : Automaton}
    (hr : ix.Represents a) (hs : p.sets.size ≤ UInt32.size) :
    p.transitions.toList.Pairwise Transition.Before := by
  rw [h.transitions, List.pairwise_filterMap]
  refine (pairwise_pairsBelow hr _).imp_of_mem ?_
  rintro ⟨i, c⟩ ⟨j, d⟩ hi hj hlt t ht u hu
  obtain ⟨-, k, -, -, rfl⟩ := arrow?_eq_some_iff.mp ht
  obtain ⟨-, l, -, -, rfl⟩ := arrow?_eq_some_iff.mp hu
  rcases hlt with hij | ⟨hij, hcd⟩
  · refine Or.inl (UInt32.lt_iff_toNat_lt.mpr ?_)
    rwa [Automaton.toNat_ofNat hs (mem_pairsBelow.mp hi).1,
      Automaton.toNat_ofNat hs (mem_pairsBelow.mp hj).1]
  · exact Or.inr ⟨congrArg UInt32.ofNat hij, c, d, rfl, rfl, hcd⟩

theorem Explored.exists_number_after (h : Complete ix first limit p) {a : Automaton}
    (hr : ix.Represents a) {w : List Char} (hne : (ix.after first w).isEmpty = false) :
    ∃ i : Nat, p.sets[i]? = some (ix.after first w) := by
  induction w using List.reverseRecOn with
  | nil => exact ⟨0, h.first⟩
  | append_singleton w c ih =>
    rw [Index.after_concat] at hne ⊢
    obtain ⟨hc, hw⟩ := hr.of_step_nonempty hne
    obtain ⟨i, hi⟩ := ih hw
    have hlt := (Array.getElem?_eq_some_iff.mp hi).1
    obtain ⟨s, hs, hnum⟩ := h.settled (i, c) (mem_pairsBelow.mpr ⟨hlt, hc⟩)
    obtain rfl := Option.some.inj (hi.symm.trans hs)
    obtain ⟨j, hj⟩ := hnum hne
    exact ⟨j, (h.number _ _).mp hj⟩

theorem Explored.reads_iff (h : Complete ix first limit p) {a : Automaton} (hr : ix.Represents a)
    (hs : p.sets.size ≤ UInt32.size) {w : List Char} {q : StateId} :
    Reads p.transitions.toList 0 w q ↔
      ∃ i : Nat, p.sets[i]? = some (ix.after first w) ∧ q = .ofNat i := by
  have hsymbols : ∀ t ∈ p.transitions.toList, ∃ c, t.label = .symbol c := by
    intro t ht
    obtain ⟨i, c, s, j, -, -, -, rfl⟩ := h.mem_transitions.mp ht
    exact ⟨c, rfl⟩
  induction w using List.reverseRecOn generalizing q with
  | nil =>
    constructor
    · intro hq
      exact ⟨0, h.first, (reads_nil_iff_of_symbols hsymbols).mp hq⟩
    · rintro ⟨i, hi, rfl⟩
      have hi0 := (h.number _ _).mpr hi
      rw [Index.after_nil, (h.number _ _).mpr h.first] at hi0
      obtain rfl := Option.some.inj hi0
      exact Reads.refl _ _
  | append_singleton w c ih =>
    rw [reads_concat_iff, Index.after_concat]
    constructor
    · rintro ⟨r, m, hm, ht, hmq⟩
      obtain rfl := (reads_nil_iff_of_symbols hsymbols).mp hmq
      obtain ⟨i, hi, rfl⟩ := ih.mp hm
      obtain ⟨i', d, s, j, -, hsi, hj, he⟩ := h.mem_transitions.mp ht
      obtain ⟨hid, rfl, hl⟩ := Transition.mk.inj he
      cases hl
      have hlt := (Array.getElem?_eq_some_iff.mp hi).1
      have hlt' := (Array.getElem?_eq_some_iff.mp hsi).1
      obtain rfl := (Automaton.ofNat_inj hs hlt hlt').mp hid
      obtain rfl := Option.some.inj (hi.symm.trans hsi)
      exact ⟨j, hj, rfl⟩
    · rintro ⟨j, hj, rfl⟩
      obtain ⟨hc, hw⟩ := hr.of_step_nonempty (h.nonempty j _ hj)
      obtain ⟨i, hi⟩ := h.exists_number_after hr hw
      refine ⟨.ofNat i, .ofNat j, ih.mpr ⟨i, hi, rfl⟩, ?_, Reads.refl _ _⟩
      exact h.mem_transitions.mpr ⟨i, c, _, j, hc, hi, hj, rfl⟩

theorem mem_states_assemble {labelStart : String} {q : State} :
    q ∈ (assemble ix labelStart p).automaton.states ↔
      ∃ (i : Nat) (s : StateSet n), p.sets[i]? = some s ∧ stateOf ix labelStart s i = q := by
  unfold assemble
  rw [List.mem_map]
  constructor
  · rintro ⟨⟨s, i⟩, hm, rfl⟩
    rw [List.mem_zipIdx_iff_getElem?, Array.getElem?_toList] at hm
    exact ⟨i, s, hm, rfl⟩
  · rintro ⟨i, s, hs, rfl⟩
    refine ⟨(s, i), ?_, rfl⟩
    rw [List.mem_zipIdx_iff_getElem?, Array.getElem?_toList]
    exact hs

theorem numbered_assemble (ix : Index n) (labelStart : String) (p : Progress n) :
    (assemble ix labelStart p).automaton.Numbered p.sets.size := by
  unfold Automaton.Numbered Automaton.ids assemble
  rw [List.map_map, List.range_eq_range', ← Array.length_toList, ← List.zipIdx_map_snd 0 p.sets.toList,
    List.map_map]
  rfl

theorem Explored.filter_isInitial {done : List (Nat × Char)} (h : Explored ix first limit done p)
    (labelStart : String) :
    (assemble ix labelStart p).automaton.states.filter (·.isInitial) =
      [stateOf ix labelStart first 0] := by
  have hfirst := h.first
  rw [← Array.getElem?_toList] at hfirst
  unfold assemble
  cases hl : p.sets.toList with
  | nil =>
    rw [hl] at hfirst
    cases hfirst
  | cons s rest =>
    rw [hl] at hfirst
    obtain rfl : s = first := by simpa using hfirst
    rw [List.zipIdx_cons, List.map_cons, List.filter_cons_of_pos rfl, List.cons.injEq]
    refine ⟨rfl, List.filter_eq_nil_iff.mpr ?_⟩
    rintro q hq
    obtain ⟨⟨t, i⟩, hm, rfl⟩ := List.mem_map.mp hq
    have hi : 0 < i := (List.mem_zipIdx hm).1
    simpa [stateOf, State.onGrid] using Nat.ne_of_gt hi

theorem Explored.initialState? {done : List (Nat × Char)} (h : Explored ix first limit done p)
    (labelStart : String) :
    (assemble ix labelStart p).automaton.initialState? = some (stateOf ix labelStart first 0) := by
  unfold Automaton.initialState?
  rw [← List.head?_filter, h.filter_isInitial labelStart]
  rfl

theorem Explored.deterministic (h : Complete ix first limit p) {a : Automaton}
    (hr : ix.Represents a) (hs : p.sets.size ≤ UInt32.size) (labelStart : String) :
    (assemble ix labelStart p).automaton.Deterministic := by
  have hnumbered := numbered_assemble ix labelStart p
  refine ⟨⟨hnumbered.nodup hs, ?_⟩, ⟨_, h.initialState? labelStart⟩, ?_,
    (h.pairwise_transitions hr hs).imp Transition.Before.compatible⟩
  · intro t ht
    obtain ⟨i, c, s, j, -, hi, hj, rfl⟩ := h.mem_transitions.mp ht
    exact ⟨hnumbered.mem_ids (Array.getElem?_eq_some_iff.mp hi).1,
      hnumbered.mem_ids (Array.getElem?_eq_some_iff.mp hj).1⟩
  · intro t ht
    obtain ⟨i, c, s, j, -, -, -, rfl⟩ := h.mem_transitions.mp ht
    exact ⟨c, rfl⟩

theorem isEmpty_of_isAccepting {s : StateSet n} (h : ix.isAccepting s = true) :
    s.isEmpty = false := by
  obtain ⟨i, hi, -⟩ := StateSet.meets_iff.mp h
  exact StateSet.isEmpty_eq_false_iff.mpr ⟨i, hi⟩

theorem Explored.acceptsFrom_iff (h : Complete ix first limit p) {a : Automaton}
    (hr : ix.Represents a) (hs : p.sets.size ≤ UInt32.size) (labelStart : String) {w : List Char} :
    (assemble ix labelStart p).automaton.AcceptsFrom 0 w ↔
      ix.isAccepting (ix.after first w) = true := by
  constructor
  · rintro ⟨q, hq, hfinal, hw⟩
    obtain ⟨i, s, hi, rfl⟩ := mem_states_assemble.mp hq
    obtain ⟨j, hj, hid⟩ := (h.reads_iff hr hs).mp hw
    have hlt := (Array.getElem?_eq_some_iff.mp hi).1
    have hlt' := (Array.getElem?_eq_some_iff.mp hj).1
    obtain rfl := (Automaton.ofNat_inj hs hlt hlt').mp hid
    obtain rfl := Option.some.inj (hi.symm.trans hj)
    exact hfinal
  · intro hacc
    obtain ⟨i, hi⟩ := h.exists_number_after hr (isEmpty_of_isAccepting hacc)
    exact ⟨_, mem_states_assemble.mpr ⟨i, _, hi, rfl⟩, hacc, (h.reads_iff hr hs).mpr ⟨i, hi, rfl⟩⟩

theorem Explored.starves_iff (h : Complete ix first limit p) {a : Automaton} (hr : ix.Represents a)
    (hs : p.sets.size ≤ UInt32.size) {w : List Char} :
    Starves p.transitions.toList 0 w ↔ (ix.after first w).isEmpty = true := by
  constructor
  · intro hw
    by_contra hne
    obtain ⟨i, hi⟩ := h.exists_number_after hr ((Bool.not_eq_true _).mp hne)
    exact hw _ ((h.reads_iff hr hs).mpr ⟨i, hi, rfl⟩)
  · intro he q hq
    obtain ⟨i, hi, -⟩ := (h.reads_iff hr hs).mp hq
    have hne := h.nonempty i _ hi
    rw [he] at hne
    cases hne

theorem ofIndex_eq_ok {i : Fin n} {labelStart : String} {limits : Limits} {d : Determinization} :
    (ofIndex ix labelStart limits i).outcome = .ok d ↔
      ∃ p, explore ix limits.maxPowerStates i = .ok p ∧ assemble ix labelStart p = d := by
  unfold ofIndex
  cases hp : explore ix limits.maxPowerStates i with
  | error p => simp [Outcome.bind_eq_ok]
  | ok p => simp [Outcome.bind_eq_ok]

end Determinization

namespace Automaton
variable {a : Automaton} {limits : Limits}

theorem determinize_eq_ok {d : Determinization} (h : (a.determinize limits).outcome = .ok d) :
    ∃ (ix : Index a.states.length) (i : Fin a.states.length) (p : Determinization.Progress _),
      (Index.ofAutomaton a).outcome = .ok ix ∧ ix.initial = some i ∧
      Determinization.explore ix limits.maxPowerStates i = .ok p ∧
      Determinization.assemble ix "D" p = d := by
  obtain ⟨ix, i, hix, hi, h⟩ := Index.exists_of_bind_eq_ok
    (f := fun ix i => Determinization.ofIndex ix "D" limits i) h
  obtain ⟨p, hp, hd⟩ := Determinization.ofIndex_eq_ok.mp h
  exact ⟨ix, i, p, hix, hi, hp, hd⟩

/-- A limit of as many power-states as there can be is never met. -/
theorem exists_determinize (hw : a.WellFormed) {s : State} (hs : a.initialState? = some s)
    (hl : 2 ^ a.states.length ≤ limits.maxPowerStates) :
    ∃ d, (a.determinize limits).outcome = .ok d := by
  obtain ⟨ix, hix, hr⟩ := Index.exists_index hw
  obtain ⟨i, hi, -⟩ := exists_initial hr hs
  obtain ⟨p, hp⟩ := Determinization.exists_explore hl (hr.isEmpty_start i)
  refine ⟨Determinization.assemble ix "D" p, ?_⟩
  have houtcome := Index.outcome_bind_of_initial hix hi fun ix i =>
    Determinization.ofIndex ix "D" limits i
  exact houtcome.trans (Determinization.ofIndex_eq_ok.mpr ⟨p, hp, rfl⟩)

end Automaton
end FiniteAutomata
