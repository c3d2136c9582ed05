import FiniteAutomata.Proofs.Language

/-! # Tables are faithful

What can be asked of a table is answered with what its automaton says: which states and symbols there
are, where a state goes on a symbol, whether it is final, and where runs begin. Nothing else is needed to
see that the run of a table ends as the run of the automaton does.
-/
namespace FiniteAutomata

namespace Table
variable {n : Nat} {ix : Index n} {a : Automaton} {t : Table} {row : Nat} {p : StateId} {c : Char}

/-- A table says what the automaton says. States stand in rows and symbols in columns, both in their
order, and a cell that leads anywhere leads to a row. -/
structure Faithful (t : Table) (a : Automaton) : Prop where
  ids_ascending : t.stateIds.Pairwise (· < ·)
  mem_stateIds : ∀ p, p ∈ t.stateIds ↔ p ∈ a.ids
  alphabet_ascending : t.alphabet.Pairwise (· < ·)
  mem_alphabet : ∀ c, c ∈ t.alphabet ↔ ∃ u ∈ a.transitions, u.label = .symbol c
  next : ∀ row p, t.stateIds[row]? = some p → ∀ c, ∃ target, t.next row c = .ok target ∧
    ∀ k, target = some k ↔ ∃ q, t.stateIds[k]? = some q ∧ ⟨p, q, .symbol c⟩ ∈ a.transitions
  accepting_size : t.accepting.size = t.rowCount
  accepting : ∀ row, ∀ s ∈ a.states, t.stateIds[row]? = some s.id →
    t.isAccepting row = .ok s.isFinal
  initial : ∃ s, a.initialState? = some s ∧ t.stateIds[t.initial]? = some s.id
  cells_size : t.cells.size = t.rowCount * t.alphabet.length
  target_lt : ∀ place k : Nat, t.cells[place]? = some (some k) → k < t.rowCount

namespace Describes

theorem getElem?_stateIds (h : t.Describes ix a) :
    t.stateIds[row]? = some p ↔ ∃ i : Fin n, i.val = row ∧ ix.idAt i = p := by
  rw [h.stateIds, Index.ids, StateSet.toList_full, List.getElem?_map, Option.map_eq_some_iff]
  constructor
  · rintro ⟨i, hi, rfl⟩
    obtain ⟨hrow, rfl⟩ := List.getElem?_eq_some_iff.mp hi
    exact ⟨_, by simp, rfl⟩
  · rintro ⟨i, rfl, rfl⟩
    exact ⟨i, by simp, rfl⟩

theorem exists_place (h : t.Describes ix a) {place : Nat} (hplace : place < t.cells.size) :
    ∃ (i : Fin n) (column : Nat) (c : Char), ix.alphabet[column]? = some c ∧
      place = i.val * ix.alphabet.length + column := by
  rw [h.filled.size] at hplace
  have hpos : 0 < ix.alphabet.length := Nat.pos_of_lt_mul_left hplace
  have hrow : place / ix.alphabet.length < n := (Nat.div_lt_iff_lt_mul hpos).mpr hplace
  have hcolumn : place % ix.alphabet.length < ix.alphabet.length := Nat.mod_lt _ hpos
  exact ⟨⟨_, hrow⟩, _, _, List.getElem?_eq_getElem hcolumn, (Nat.div_add_mod' _ _).symm⟩

theorem exists_next (h : t.Describes ix a) (hr : ix.Represents a) (i : Fin n) (c : Char) :
    ∃ target, t.next i.val c = .ok target ∧
      ∀ k, target = some k ↔
        ∃ j : Fin n, j.val = k ∧ ⟨ix.idAt i, ix.idAt j, .symbol c⟩ ∈ a.transitions := by
  unfold next
  rw [h.alphabet]
  cases hc : ix.alphabet.column? c with
  | none =>
    refine ⟨none, rfl, fun k => ⟨fun hk => (by cases hk), ?_⟩⟩
    rintro ⟨j, -, ht⟩
    obtain ⟨column, hcolumn⟩ := hr.exists_column ht
    rw [(Alphabet.column?_eq_some_iff hr.pairwise_alphabet).mpr hcolumn] at hc
    cases hc
  | some column =>
    exact h.exists_cell i ((Alphabet.column?_eq_some_iff hr.pairwise_alphabet).mp hc)

theorem faithful (h : t.Describes ix a) (hr : ix.Represents a) : t.Faithful a where
  ids_ascending := by
    rw [h.stateIds]
    exact hr.pairwise_ids _
  mem_stateIds := by
    intro p
    rw [h.stateIds, Index.mem_ids, hr.mem_ids_iff]
    simp
  alphabet_ascending := by
    rw [h.alphabet]
    exact hr.pairwise_alphabet
  mem_alphabet := by
    intro c
    rw [h.alphabet, hr.alphabet]
    exact Automaton.mem_alphabet
  next := by
    intro row p hp c
    obtain ⟨i, rfl, rfl⟩ := h.getElem?_stateIds.mp hp
    obtain ⟨target, hnext, htarget⟩ := h.exists_next hr i c
    refine ⟨target, hnext, fun k => (htarget k).trans ?_⟩
    constructor
    · rintro ⟨j, hj, ht⟩
      exact ⟨_, h.getElem?_stateIds.mpr ⟨j, hj, rfl⟩, ht⟩
    · rintro ⟨q, hq, ht⟩
      obtain ⟨j, hj, rfl⟩ := h.getElem?_stateIds.mp hq
      exact ⟨j, hj, ht⟩
  accepting_size := by
    rw [h.accepting, h.rowCount_eq]
    simp
  accepting := by
    intro row s hs hrow
    obtain ⟨i, rfl, hid⟩ := h.getElem?_stateIds.mp hrow
    obtain ⟨j, rfl⟩ := (hr.mem_states s).mp hs
    obtain rfl := hr.idAt_inj.mp hid
    rw [h.isAccepting_eq, Except.ok.injEq, Bool.eq_iff_iff]
    exact hr.accepting i
  initial := by
    obtain ⟨i, hi, hinitial⟩ := h.initial
    refine ⟨ix.states.get i, ?_, h.getElem?_stateIds.mpr ⟨i, hinitial.symm, rfl⟩⟩
    rw [← hr.initial, hi]
    rfl
  cells_size := by rw [h.filled.size, h.rowCount_eq, h.alphabet]
  target_lt := by
    intro place k hk
    obtain ⟨i, column, c, hc, rfl⟩ := h.exists_place (Array.getElem?_eq_some_iff.mp hk).1
    obtain ⟨j, rfl, -⟩ := (h.filled.cell i column c hc k).mp hk
    rw [h.rowCount_eq]
    exact j.isLt

end Describes

namespace Faithful

theorem exists_state (h : t.Faithful a) (hp : t.stateIds[row]? = some p) :
    ∃ s ∈ a.states, s.id = p := by
  rw [← Automaton.mem_ids, ← h.mem_stateIds]
  exact List.mem_of_getElem? hp

theorem exists_row (h : t.Faithful a) (hd : a.Deterministic) {u : Transition}
    (hu : u ∈ a.transitions) : ∃ k : Nat, t.stateIds[k]? = some u.target :=
  List.getElem?_of_mem ((h.mem_stateIds _).mpr (hd.wellFormed.resolved u hu).2)

/-- From the row of a state a run ends, and it accepts the words that are accepted from there. -/
theorem exists_run (h : t.Faithful a) (hd : a.Deterministic) (w : List Char)
    (hp : t.stateIds[row]? = some p) :
    ∃ b, t.run row w = .ok b ∧ (b = true ↔ a.AcceptsFrom p w) := by
  induction w generalizing row p with
  | nil =>
    obtain ⟨s, hmem, rfl⟩ := h.exists_state hp
    refine ⟨s.isFinal, h.accepting row s hmem hp, ?_⟩
    rw [Automaton.acceptsFrom_nil_iff hd.symbols]
    constructor
    · intro hf
      exact ⟨s, hmem, hf, rfl⟩
    · rintro ⟨r, hr, hf, hid⟩
      have hrow := h.accepting row r hr (by rw [hid, hp])
      rw [h.accepting row s hmem hp, Except.ok.injEq] at hrow
      rw [hrow, hf]
  | cons c w ih =>
    obtain ⟨target, hnext, htarget⟩ := h.next row p hp c
    rw [run, hnext, Automaton.acceptsFrom_cons_iff hd.symbols]
    cases target with
    | none =>
      refine ⟨false, rfl, fun hb => (by cases hb), ?_⟩
      rintro ⟨r, hr, -⟩
      obtain ⟨k, hk⟩ := h.exists_row hd hr
      cases (htarget k).mpr ⟨r, hk, hr⟩
    | some k =>
      obtain ⟨q, hq, ht⟩ := (htarget k).mp rfl
      obtain ⟨b, hb, hiff⟩ := ih hq
      refine ⟨b, hb, hiff.trans ⟨fun hw => ⟨q, ht, hw⟩, ?_⟩⟩
      rintro ⟨r, hr, hw⟩
      obtain rfl := hd.target_unique ht hr
      exact hw

end Faithful
end Table

namespace Automaton
variable {a : Automaton}

/-- What passes validation has a faithful table, and running the table over a string says whether the
automaton accepts it, whatever characters there are in the string. -/
theorem table_faithful (hv : a.validate.outcome = .ok ()) :
    ∃ t, a.table.outcome = .ok t ∧ t.Faithful a ∧
      ∀ word, ∃ r, (a.simulate word).outcome = .ok r ∧ t.accepts word = .ok r.accepted := by
  have hd := validate_eq_ok_iff.mp hv
  obtain ⟨t, ht⟩ := exists_table_iff.mpr hd
  obtain ⟨ix, hr, h⟩ := table_eq_ok ht
  have hf := h.faithful hr
  refine ⟨t, ht, hf, fun word => ?_⟩
  obtain ⟨s, hs, hrow⟩ := hf.initial
  obtain ⟨r, k, hrun, hreport⟩ := exists_simulate hd.wellFormed hs word
  obtain ⟨b, hb, hiff⟩ := hf.exists_run hd word.toList hrow
  refine ⟨r, hrun, ?_⟩
  rw [Table.accepts, hb, Except.ok.injEq, Bool.eq_iff_iff, hiff, hreport.accepted]

/-- Pay and pass by turns. Ids and symbols are declared against their order. -/
def turnstile : Automaton where
  states := [{ id := 9, isInitial := true }, { id := 3, isFinal := true }]
  transitions := [⟨9, 3, .symbol 'p'⟩, ⟨3, 9, .symbol 'c'⟩]

theorem turnstile_deterministic : turnstile.Deterministic := by decide

theorem acceptsFrom_turnstile : turnstile.AcceptsFrom 9 ['p', 'c', 'p'] := by
  have hpay : ⟨9, 3, .symbol 'p'⟩ ∈ turnstile.transitions := by decide
  have hpass : ⟨3, 9, .symbol 'c'⟩ ∈ turnstile.transitions := by decide
  have hread : Reads turnstile.transitions 9 ['p', 'c', 'p'] 3 :=
    (((Reads.refl _ 3).symbol hpay).symbol hpass).symbol hpay
  exact ⟨{ id := 3, isFinal := true }, by decide, rfl, hread⟩

theorem table_turnstile :
    ∃ t, turnstile.table.outcome = .ok t ∧
      (∃ k, t.stateIds[k]? = some 3 ∧ t.next t.initial 'p' = .ok (some k)) ∧
      t.accepts "pcp" = .ok true ∧ t.accepts "p?" = .ok false := by
  have hd := turnstile_deterministic
  have hinitial : turnstile.initialState? = some { id := 9, isInitial := true } := rfl
  obtain ⟨t, ht, hf, hruns⟩ := table_faithful (validate_eq_ok_iff.mpr hd)
  refine ⟨t, ht, ?_, ?_, ?_⟩
  · obtain ⟨s, hs, hrow⟩ := hf.initial
    obtain rfl := Option.some.inj (hinitial.symm.trans hs)
    obtain ⟨target, hnext, htarget⟩ := hf.next _ _ hrow 'p'
    have hpay : ⟨9, 3, .symbol 'p'⟩ ∈ turnstile.transitions := by decide
    obtain ⟨k, hk⟩ := hf.exists_row hd hpay
    exact ⟨k, hk, by rw [hnext, (htarget k).mpr ⟨3, hk, hpay⟩]⟩
  · obtain ⟨r, hr, hword⟩ := hruns "pcp"
    rw [hword, Except.ok.injEq, accepted_iff_mem_language hd.wellFormed hinitial hr,
      mem_language_of_initial hinitial]
    exact acceptsFrom_turnstile
  · obtain ⟨r, hr, hword⟩ := hruns "p?"
    rw [hword, Except.ok.injEq, Bool.eq_false_iff]
    intro hacc
    have hmem := (accepted_iff_mem_language hd.wellFormed hinitial hr).mp hacc
    have hforeign : '?' ∉ turnstile.alphabet := by decide
    exact hforeign (mem_alphabet_of_mem_language hmem (by decide))

end Automaton
end FiniteAutomata
