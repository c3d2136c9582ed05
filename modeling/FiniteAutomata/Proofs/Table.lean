import FiniteAutomata.Table
import FiniteAutomata.Proofs.WellFormed

/-! # What a transition table holds

Entering transitions one after the other succeeds exactly when none is labelled epsilon and no two
leave one state on one symbol, and then the cells hold just these transitions. So validation accepts
exactly the deterministic automata.
-/
namespace FiniteAutomata

/-- The two transitions may both be in a deterministic automaton. -/
def Transition.Compatible (t u : Transition) : Prop := t.source = u.source → t.label ≠ u.label

instance : DecidableRel Transition.Compatible := fun t u =>
  inferInstanceAs (Decidable (t.source = u.source → t.label ≠ u.label))

/-- The sources ascend from the first transition to the second, or at one source the symbols do. -/
def Transition.Before (t u : Transition) : Prop :=
  t.source < u.source ∨
    t.source = u.source ∧ ∃ c d, t.label = .symbol c ∧ u.label = .symbol d ∧ c < d

theorem Transition.Before.compatible {t u : Transition} (h : t.Before u) : t.Compatible u := by
  intro hsource hlabel
  rcases h with hlt | ⟨-, c, d, hc, hd, hlt⟩
  · rw [hsource] at hlt
    exact UInt32.lt_irrefl _ hlt
  · rw [hc, hd] at hlabel
    cases hlabel
    exact Char.lt_irrefl c hlt

instance : Std.Asymm Transition.Before where
  asymm := by
    intro t u h h'
    rcases h with hlt | ⟨hs, c, e, hc, he, hlt⟩
    · rcases h' with hlt' | ⟨hs, -⟩
      · exact UInt32.lt_asymm hlt hlt'
      · exact UInt32.ne_of_lt hlt hs.symm
    · rcases h' with hlt' | ⟨-, c', e', hc', he', hlt'⟩
      · exact UInt32.ne_of_lt hlt' hs.symm
      · obtain rfl := Label.symbol.inj (hc.symm.trans he')
        obtain rfl := Label.symbol.inj (he.symm.trans hc')
        exact Char.lt_asymm hlt hlt'

namespace Automaton

/-- Well-formed, with an initial state, and from no state two ways to go on. -/
structure Deterministic (a : Automaton) : Prop where
  wellFormed : a.WellFormed
  initial : ∃ s, a.initialState? = some s
  symbols : ∀ t ∈ a.transitions, ∃ c, t.label = .symbol c
  compatible : a.transitions.Pairwise Transition.Compatible

theorem symbols_iff_ne_epsilon {ts : List Transition} :
    (∀ t ∈ ts, ∃ c, t.label = .symbol c) ↔ ∀ t ∈ ts, t.label ≠ .epsilon := by
  refine forall₂_congr fun t _ => ?_
  cases t.label with
  | epsilon => simp
  | symbol c => simp

instance (a : Automaton) : Decidable a.Deterministic :=
  decidable_of_iff (a.WellFormed ∧ a.initialState?.isSome = true ∧
      (∀ t ∈ a.transitions, t.label ≠ .epsilon) ∧ a.transitions.Pairwise Transition.Compatible) <| by
    rw [← symbols_iff_ne_epsilon, Option.isSome_iff_exists]
    exact ⟨fun h => ⟨h.1, h.2.1, h.2.2.1, h.2.2.2⟩,
      fun h => ⟨h.wellFormed, h.initial, h.symbols, h.compatible⟩⟩

end Automaton

theorem Alphabet.column?_eq_some_iff {alphabet : Alphabet} (h : alphabet.Pairwise (· < ·)) {c : Char}
    {column : Nat} : alphabet.column? c = some column ↔ alphabet[column]? = some c := by
  unfold column?
  rw [List.idxOf?_eq_some_iff]
  constructor
  · rintro ⟨hlt, he, -⟩
    rw [List.getElem?_eq_getElem hlt, he]
  · intro hc
    obtain ⟨hlt, he⟩ := List.getElem?_eq_some_iff.mp hc
    refine ⟨hlt, he, ?_⟩
    intro j hj hjc
    have hlt' := List.pairwise_iff_getElem.mp h j column (Nat.lt_trans hj hlt) hlt hj
    rw [hjc, he] at hlt'
    exact Char.lt_irrefl c hlt'

namespace Table
variable {n : Nat} {ix : Index n} {a : Automaton}

theorem place_lt {i m column : Nat} (hi : i < n) (hc : column < m) : i * m + column < n * m := by
  have hle : (i + 1) * m ≤ n * m := Nat.mul_le_mul_right m hi
  rw [Nat.succ_mul] at hle
  omega

theorem place_inj {i j m column column' : Nat} (hc : column < m) (hc' : column' < m)
    (h : i * m + column = j * m + column') : i = j ∧ column = column' := by
  have hle : ∀ {i j : Nat}, i < j → i * m + m ≤ j * m := fun {i j} hij => by
    have hle := Nat.mul_le_mul_right m (Nat.succ_le_of_lt hij)
    rwa [Nat.succ_mul] at hle
  rcases Nat.lt_trichotomy i j with hij | rfl | hij
  · have := hle hij
    omega
  · exact ⟨rfl, Nat.add_left_cancel h⟩
  · have := hle hij
    omega

/-- The cells hold the targets of the transitions entered so far. -/
structure Filled (ix : Index n) (ts : List Transition) (cells : Array (Option Nat)) : Prop where
  size : cells.size = n * ix.alphabet.length
  cell : ∀ (i : Fin n) (column : Nat) (c : Char), ix.alphabet[column]? = some c → ∀ k,
    cells[i.val * ix.alphabet.length + column]? = some (some k) ↔
      ∃ j : Fin n, j.val = k ∧ ⟨ix.idAt i, ix.idAt j, .symbol c⟩ ∈ ts

theorem filled_blank (ix : Index n) :
    Filled ix [] (Array.replicate (n * ix.alphabet.length) none) where
  size := Array.size_replicate
  cell := by
    intro i column c hc k
    simp [Array.getElem?_replicate]

theorem Filled.set (h : ix.Represents a) {ts : List Transition} {cells : Array (Option Nat)}
    (hf : Filled ix ts cells) {i j : Fin n} {column : Nat} {c : Char}
    (hc : ix.alphabet[column]? = some c)
    (hfree : cells[i.val * ix.alphabet.length + column]? = some none) :
    Filled ix (ts ++ [⟨ix.idAt i, ix.idAt j, .symbol c⟩])
      (cells.setIfInBounds (i.val * ix.alphabet.length + column) (some j.val)) where
  size := by rw [Array.size_setIfInBounds, hf.size]
  cell := by
    intro i' column' c' hc' k
    have hlt : column < ix.alphabet.length := (List.getElem?_eq_some_iff.mp hc).1
    have hlt' : column' < ix.alphabet.length := (List.getElem?_eq_some_iff.mp hc').1
    have hin : i.val * ix.alphabet.length + column < cells.size := by
      rw [hf.size]
      exact place_lt i.isLt hlt
    have hold := hf.cell i' column' c' hc' k
    rw [Array.getElem?_setIfInBounds, if_pos hin]
    split
    · rename_i hplace
      obtain ⟨hi, rfl⟩ := place_inj hlt hlt' hplace
      obtain rfl : i = i' := Fin.ext hi
      obtain rfl : c = c' := Option.some.inj (hc.symm.trans hc')
      rw [hfree] at hold
      constructor
      · intro he
        have hk : j.val = k := Option.some.inj (Option.some.inj he)
        exact ⟨j, hk, List.mem_append_right _ (List.mem_singleton_self _)⟩
      · rintro ⟨j', rfl, hm⟩
        rcases List.mem_append.mp hm with hm | hm
        · cases hold.mpr ⟨j', rfl, hm⟩
        · obtain ⟨-, hj, -⟩ := Transition.mk.inj (List.mem_singleton.mp hm)
          rw [h.idAt_inj.mp hj]
    · rename_i hplace
      rw [hold]
      constructor
      · rintro ⟨j', hj', hm⟩
        exact ⟨j', hj', List.mem_append_left _ hm⟩
      · rintro ⟨j', hj', hm⟩
        rcases List.mem_append.mp hm with hm | hm
        · exact ⟨j', hj', hm⟩
        · obtain ⟨hi, -, hl⟩ := Transition.mk.inj (List.mem_singleton.mp hm)
          obtain rfl := h.idAt_inj.mp hi
          cases hl
          have hcolumn : column = column' := by
            have hcol := (Alphabet.column?_eq_some_iff h.pairwise_alphabet).mpr hc
            rw [(Alphabet.column?_eq_some_iff h.pairwise_alphabet).mpr hc'] at hcol
            exact (Option.some.inj hcol).symm
          exact absurd (by rw [hcolumn]) hplace

theorem enter_free (h : ix.Represents a) {cells : Array (Option Nat)} {i j : Fin n} {column : Nat}
    {c : Char} (hc : ix.alphabet[column]? = some c)
    (hfree : cells[i.val * ix.alphabet.length + column]? = some none) :
    enter ix cells ⟨ix.idAt i, ix.idAt j, .symbol c⟩ =
      .ok (cells.setIfInBounds (i.val * ix.alphabet.length + column) (some j.val)) := by
  unfold enter
  simp only [(h.positions _ _).mpr rfl, (Alphabet.column?_eq_some_iff h.pairwise_alphabet).mpr hc,
    entry, hfree]
  rfl

theorem enter_taken (h : ix.Represents a) {cells : Array (Option Nat)} {i j : Fin n} {column k : Nat}
    {c : Char} (hc : ix.alphabet[column]? = some c)
    (hfull : cells[i.val * ix.alphabet.length + column]? = some (some k)) :
    enter ix cells ⟨ix.idAt i, ix.idAt j, .symbol c⟩ =
      .refuse (.notDeterministic (ix.states.get i).label c) := by
  unfold enter
  simp only [(h.positions _ _).mpr rfl, (Alphabet.column?_eq_some_iff h.pairwise_alphabet).mpr hc,
    entry, hfull]
  rfl

/-- The transition has a symbol, on which its source has not been left yet. -/
def Enters (ts : List Transition) (t : Transition) : Prop :=
  (∃ c, t.label = .symbol c) ∧ ∀ u ∈ ts, u.Compatible t

theorem enter_spec (h : ix.Represents a) {ts : List Transition} {cells : Array (Option Nat)}
    (hf : Filled ix ts cells) {t : Transition} (ht : t ∈ a.transitions)
    (hts : ∀ u ∈ ts, u ∈ a.transitions) :
    ((∃ cells', enter ix cells t = .ok cells') ↔ Enters ts t) ∧
      ∀ cells', enter ix cells t = .ok cells' → Filled ix (ts ++ [t]) cells' := by
  obtain ⟨source, target, label⟩ := t
  cases label with
  | epsilon =>
    refine ⟨⟨?_, ?_⟩, ?_⟩
    · rintro ⟨cells', he⟩
      cases he
    · rintro ⟨⟨c, he⟩, -⟩
      cases he
    · intro cells' he
      cases he
  | symbol c =>
    obtain ⟨i, j, rfl, rfl⟩ := h.resolved _ ht
    obtain ⟨column, hc⟩ := h.exists_column ht
    have hlt : i.val * ix.alphabet.length + column < cells.size := by
      rw [hf.size]
      exact place_lt i.isLt (List.getElem?_eq_some_iff.mp hc).1
    cases hcell : cells[i.val * ix.alphabet.length + column] with
    | none =>
      have hfree : cells[i.val * ix.alphabet.length + column]? = some none := by
        rw [Array.getElem?_eq_getElem hlt, hcell]
      rw [enter_free h hc hfree]
      refine ⟨⟨fun _ => ⟨⟨c, rfl⟩, ?_⟩, fun _ => ⟨_, rfl⟩⟩, ?_⟩
      · rintro ⟨p, q, l⟩ hu hs hl
        dsimp only at hs hl
        subst hs hl
        obtain ⟨-, j', -, rfl⟩ := h.resolved _ (hts _ hu)
        have hfull := (hf.cell i column c hc j'.val).mpr ⟨j', rfl, hu⟩
        rw [hfree] at hfull
        cases hfull
      · intro cells' he
        cases he
        exact hf.set h hc hfree
    | some k =>
      have hfull : cells[i.val * ix.alphabet.length + column]? = some (some k) := by
        rw [Array.getElem?_eq_getElem hlt, hcell]
      obtain ⟨j', -, hm⟩ := (hf.cell i column c hc k).mp hfull
      rw [enter_taken h hc hfull]
      refine ⟨⟨?_, ?_⟩, ?_⟩
      · rintro ⟨cells', he⟩
        cases he
      · rintro ⟨-, hnew⟩
        exact absurd hm fun hm => hnew _ hm rfl rfl
      · intro cells' he
        cases he

theorem Enters.pairwise {ts : List Transition} {t : Transition} (h : Enters ts t)
    (hts : ts.Pairwise Transition.Compatible) : (ts ++ [t]).Pairwise Transition.Compatible := by
  rw [List.pairwise_append]
  refine ⟨hts, List.pairwise_singleton _ _, ?_⟩
  intro u hu v hv
  obtain rfl := List.mem_singleton.mp hv
  exact h.2 u hu

theorem enterAll_spec (h : ix.Represents a) {us ts : List Transition} {cells : Array (Option Nat)}
    (hf : Filled ix ts cells) (hmem : ∀ t ∈ ts ++ us, t ∈ a.transitions)
    (hts : ts.Pairwise Transition.Compatible) :
    ((∃ cells', us.foldlM (enter ix) cells = .ok cells') ↔
        (∀ t ∈ us, ∃ c, t.label = .symbol c) ∧ (ts ++ us).Pairwise Transition.Compatible) ∧
      ∀ cells', us.foldlM (enter ix) cells = .ok cells' → Filled ix (ts ++ us) cells' := by
  induction us generalizing ts cells with
  | nil =>
    rw [List.append_nil]
    refine ⟨⟨fun _ => ⟨fun t ht => absurd ht List.not_mem_nil, hts⟩, fun _ => ⟨cells, rfl⟩⟩, ?_⟩
    rintro cells' he
    cases he
    exact hf
  | cons t us ih =>
    have hsplit : ts ++ t :: us = ts ++ [t] ++ us := by simp
    obtain ⟨hiff, hfill⟩ := enter_spec h hf (hmem t (by simp))
      (fun u hu => hmem u (List.mem_append_left _ hu))
    rw [hsplit] at hmem ⊢
    simp only [Outcome.foldlM_cons_eq_ok]
    constructor
    · constructor
      · rintro ⟨cells'', cells', he, hrest⟩
        have hnew := hiff.mp ⟨cells', he⟩
        have hts' := hnew.pairwise hts
        obtain ⟨hsyms, hp⟩ := (ih (hfill cells' he) hmem hts').1.mp ⟨cells'', hrest⟩
        exact ⟨List.forall_mem_cons.mpr ⟨hnew.1, hsyms⟩, hp⟩
      · rintro ⟨hsyms, hp⟩
        obtain ⟨hsym, hsyms⟩ := List.forall_mem_cons.mp hsyms
        have hts' := (List.pairwise_append.mp hp).1
        have hnew : Enters ts t :=
          ⟨hsym, fun u hu => (List.pairwise_append.mp hts').2.2 u hu t (List.mem_singleton_self t)⟩
        obtain ⟨cells', he⟩ := hiff.mpr hnew
        obtain ⟨cells'', hrest⟩ := (ih (hfill cells' he) hmem hts').1.mpr ⟨hsyms, hp⟩
        exact ⟨cells'', cells', he, hrest⟩
    · rintro cells'' ⟨cells', he, hrest⟩
      have hts' := (hiff.mp ⟨cells', he⟩).pairwise hts
      exact (ih (hfill cells' he) hmem hts').2 cells'' hrest

/-- A table agrees with an index on everything, its cells with the transitions. -/
structure Describes (t : Table) (ix : Index n) (a : Automaton) : Prop where
  alphabet : t.alphabet = ix.alphabet
  stateIds : t.stateIds = ix.ids .full
  filled : Filled ix a.transitions t.cells
  accepting : t.accepting = ((List.finRange n).map ix.accepting.contains).toArray
  initial : ∃ i, ix.initial = some i ∧ t.initial = i.val

theorem Describes.rowCount_eq {t : Table} (h : t.Describes ix a) : t.rowCount = n := by
  rw [rowCount, h.stateIds, Index.ids, List.length_map, StateSet.toList_full, List.length_finRange]

theorem Describes.exists_index {t : Table} (h : t.Describes ix a) (hr : ix.Represents a) :
    ∃ ix : Index t.rowCount, ix.Represents a ∧ t.Describes ix a := by
  have hn := h.rowCount_eq
  subst hn
  exact ⟨ix, hr, h⟩

theorem Describes.exists_cell {t : Table} (h : t.Describes ix a) (i : Fin n) {column : Nat} {c : Char}
    (hc : ix.alphabet[column]? = some c) :
    ∃ target, t.cell i.val column = .ok target ∧
      ∀ k, target = some k ↔
        ∃ j : Fin n, j.val = k ∧ ⟨ix.idAt i, ix.idAt j, .symbol c⟩ ∈ a.transitions := by
  have hplace : i.val * ix.alphabet.length + column < t.cells.size := by
    rw [h.filled.size]
    exact place_lt i.isLt (List.getElem?_eq_some_iff.mp hc).1
  have hentry := Array.getElem?_eq_getElem hplace
  refine ⟨t.cells[i.val * ix.alphabet.length + column], ?_, fun k => ?_⟩
  · rw [cell, entry, h.alphabet, Outcome.promised_eq_ok, hentry]
  · rw [← h.filled.cell i column c hc k, hentry, Option.some.injEq]

theorem Describes.isAccepting_eq {t : Table} (h : t.Describes ix a) (i : Fin n) :
    t.isAccepting i.val = .ok (ix.accepting.contains i) := by
  rw [isAccepting, entry, h.accepting, Outcome.promised_eq_ok]
  simp

theorem ofIndex_spec (h : ix.Represents a) :
    ((∃ t, ofIndex ix a.transitions = .ok t) ↔
        (∀ t ∈ a.transitions, ∃ c, t.label = .symbol c) ∧
          a.transitions.Pairwise Transition.Compatible ∧ ∃ i, ix.initial = some i) ∧
      ∀ t, ofIndex ix a.transitions = .ok t → t.Describes ix a := by
  have hmem : ∀ t ∈ [] ++ a.transitions, t ∈ a.transitions := fun t ht => ht
  obtain ⟨hiff, hfill⟩ := enterAll_spec h (filled_blank ix) hmem List.Pairwise.nil
  rw [List.nil_append] at hiff hfill
  unfold ofIndex Index.requireInitial
  constructor
  · rw [← and_assoc, ← hiff]
    cases hi : ix.initial with
    | none =>
      simp [Outcome.bind_eq_ok]
    | some i =>
      simp [Outcome.bind_eq_ok]
  · intro t ht
    obtain ⟨cells, hcells, ht⟩ := Outcome.bind_eq_ok.mp ht
    obtain ⟨i, hi, ht⟩ := Outcome.bind_eq_ok.mp ht
    cases ht
    split at hi
    · rename_i j hj
      cases hi
      exact ⟨rfl, rfl, hfill cells hcells, rfl, i, hj, rfl⟩
    · cases hi

end Table

namespace Automaton
variable {a : Automaton}

theorem table_eq_ok {t : Table} (h : a.table.outcome = .ok t) :
    ∃ ix : Index a.states.length, ix.Represents a ∧ t.Describes ix a := by
  unfold table at h
  split at h
  · cases h
  · rw [Logged.outcome_bind] at h
    obtain ⟨ix, hix, ht⟩ := Outcome.bind_eq_ok.mp h
    have hr := Index.represents_of_eq_ok hix
    exact ⟨ix, hr, (Table.ofIndex_spec hr).2 t ht⟩

theorem exists_table_iff : (∃ t, a.table.outcome = .ok t) ↔ a.Deterministic := by
  constructor
  · rintro ⟨t, ht⟩
    unfold table at ht
    split at ht
    · cases ht
    · rw [Logged.outcome_bind] at ht
      obtain ⟨ix, hix, ht⟩ := Outcome.bind_eq_ok.mp ht
      have hr := Index.represents_of_eq_ok hix
      obtain ⟨hsyms, hcompatible, i, hi⟩ := (Table.ofIndex_spec hr).1.mp ⟨t, ht⟩
      refine ⟨Index.wellFormed_of_eq_ok hix, ⟨ix.states.get i, ?_⟩, hsyms, hcompatible⟩
      rw [← hr.initial, hi]
      rfl
  · rintro ⟨hw, ⟨s, hs⟩, hsyms, hcompatible⟩
    obtain ⟨ix, hix, hr⟩ := Index.exists_index hw
    obtain ⟨i, hi, -⟩ := exists_initial hr hs
    obtain ⟨t, ht⟩ := (Table.ofIndex_spec hr).1.mpr ⟨hsyms, hcompatible, i, hi⟩
    refine ⟨t, ?_⟩
    rw [table, isEmpty_eq_false hs, if_neg Bool.false_ne_true, Logged.outcome_bind, hix]
    exact ht

theorem validate_eq_ok_iff : a.validate.outcome = .ok () ↔ a.Deterministic := by
  rw [← exists_table_iff, validate, Logged.outcome_bind, Outcome.bind_eq_ok]
  simp

end Automaton
end FiniteAutomata
