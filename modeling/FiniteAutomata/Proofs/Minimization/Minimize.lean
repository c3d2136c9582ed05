import FiniteAutomata.Proofs.Minimization.Quotient

/-! # Minimization keeps the language

What is left of a deterministic automaton once it is minimized is deterministic, has its states
numbered from 0 and one of them initial, and accepts the same words.
-/
namespace FiniteAutomata
variable {n : Nat} {ix : Index n} {a m : Automaton} {limits : Limits}

namespace Automaton

theorem outcome_minimize (hdet : a.Deterministic) :
    (a.minimize limits).outcome = a.table.outcome >>= fun t => t.dfa >>= fun d =>
      match Marks.fill (d.completed t.alphabet.length) (Minimization.points d) limits with
      | .error e => .refuse e
      | .ok settled => Minimization.assemble d t.alphabet
          (Minimization.stateClasses settled.marks (Minimization.points d)) := by
  obtain ⟨s, hs⟩ := hdet.initial
  rw [minimize, isEmpty_eq_false hs, if_neg Bool.false_ne_true, Logged.outcome_bind]
  refine congrArg _ (funext fun t => ?_)
  rw [Logged.outcome_bind]
  refine congrArg _ (funext fun d => ?_)
  rw [Logged.outcome_bind, Logged.outcome_emit, Outcome.ok_bind]
  cases Marks.fill (d.completed t.alphabet.length) (Minimization.points d) limits with
  | error e => rfl
  | ok settled =>
    simp only [Logged.outcome_bind, Logged.outcome_emit, Outcome.ok_bind, Logged.outcome_silent,
      Logged.outcome_pure]
    cases Minimization.assemble d t.alphabet
      (Minimization.stateClasses settled.marks (Minimization.points d)) <;> rfl

theorem minimize_eq_ok (hdet : a.Deterministic) :
    (a.minimize limits).outcome = .ok m ↔
      ∃ (t : Table) (d : Dfa t.rowCount) (settled : Marks.Settled (t.rowCount + 1)),
        a.table.outcome = .ok t ∧ t.dfa = .ok d ∧
        Marks.fill (d.completed t.alphabet.length) (Minimization.points d) limits = .ok settled ∧
        Minimization.assemble d t.alphabet
          (Minimization.stateClasses settled.marks (Minimization.points d)) = .ok m := by
  simp only [outcome_minimize hdet, Outcome.bind_eq_ok]
  constructor
  · rintro ⟨t, ht, d, hd, h⟩
    split at h
    · cases h
    · rename_i settled hfill
      exact ⟨t, d, settled, ht, hd, hfill, h⟩
  · rintro ⟨t, d, settled, ht, hd, hfill, hm⟩
    refine ⟨t, ht, d, hd, ?_⟩
    rwa [hfill]

/-- Minimization settles the marks of an automaton that has been numbered by positions, and merges its
states. -/
theorem exists_settled (hdet : a.Deterministic) (h : (a.minimize limits).outcome = .ok m) :
    ∃ (n : Nat) (ix : Index n) (d : Dfa n) (settled : Marks.Settled (n + 1)),
      ix.Represents a ∧ d.Represents ix a ∧
      Marks.fill (d.completed ix.alphabet.length) (Minimization.points d) limits = .ok settled ∧
      Minimization.assemble d ix.alphabet
        (Minimization.stateClasses settled.marks (Minimization.points d)) = .ok m := by
  obtain ⟨t, d, settled, ht, hd, hfill, hm⟩ := (minimize_eq_ok hdet).mp h
  obtain ⟨ix', hr', h'⟩ := table_eq_ok ht
  obtain ⟨ix, hr, h⟩ := h'.exists_index hr'
  rw [h.alphabet] at hfill hm
  exact ⟨t.rowCount, ix, d, settled, hr, Table.represents_of_dfa hr h hd, hfill, hm⟩

theorem exists_partitions (hdet : a.Deterministic) (h : (a.minimize limits).outcome = .ok m) :
    ∃ (n : Nat) (ix : Index n) (d : Dfa n) (classes : List (List (Fin (n + 1)))),
      ix.Represents a ∧ d.Represents ix a ∧ Minimization.Partitions d ix.alphabet classes ∧
        Minimization.assemble d ix.alphabet classes = .ok m := by
  obtain ⟨n, ix, d, settled, hr, hdr, hfill, hm⟩ := exists_settled hdet h
  have hp := Minimization.partitions_stateClasses (Marks.stable_of_fill hfill) hdr.length
  exact ⟨n, ix, d, _, hr, hdr, hp, hm⟩

theorem exists_dfa (hdet : a.Deterministic) :
    ∃ (t : Table) (ix : Index t.rowCount) (d : Dfa t.rowCount), a.table.outcome = .ok t ∧
      t.dfa = .ok d ∧ ix.Represents a ∧ d.Represents ix a ∧ t.alphabet = ix.alphabet := by
  obtain ⟨t, ht⟩ := exists_table_iff.mpr hdet
  obtain ⟨ix', hr', h'⟩ := table_eq_ok ht
  obtain ⟨ix, hr, h⟩ := h'.exists_index hr'
  obtain ⟨d, hd⟩ := Table.exists_dfa h
  exact ⟨t, ix, d, ht, hd, hr, Table.represents_of_dfa hr h hd, h.alphabet⟩

theorem exists_minimize_of_fill (hdet : a.Deterministic) {t : Table} {d : Dfa t.rowCount}
    (ht : a.table.outcome = .ok t) (hd : t.dfa = .ok d)
    (hlen : ∀ i, (d.moves.get i).length = t.alphabet.length)
    {settled : Marks.Settled (t.rowCount + 1)}
    (hfill : Marks.fill (d.completed t.alphabet.length) (Minimization.points d) limits =
      .ok settled) : ∃ m, (a.minimize limits).outcome = .ok m := by
  have hp := Minimization.partitions_stateClasses (Marks.stable_of_fill hfill) hlen
  obtain ⟨m, hm⟩ := hp.exists_assemble
  exact ⟨m, (minimize_eq_ok hdet).mpr ⟨t, d, settled, ht, hd, hfill, hm⟩⟩

theorem exists_minimize (hdet : a.Deterministic) (hl : maxCount ≤ limits.maxPairChecks) :
    ∃ m, (a.minimize limits).outcome = .ok m := by
  obtain ⟨t, ix, d, ht, hd, -, hdr, halphabet⟩ := exists_dfa hdet
  obtain ⟨settled, hfill⟩ :=
    Marks.exists_fill hl (d.completed t.alphabet.length) (Minimization.points d)
  exact exists_minimize_of_fill hdet ht hd (halphabet ▸ hdr.length) hfill

end Automaton

theorem Automaton.initialState?_of_filter {q : State} (h : a.states.filter (·.isInitial) = [q]) :
    a.initialState? = some q := by
  rw [Automaton.initialState?, ← List.head?_filter, h]
  rfl

namespace Minimization
variable {d : Dfa n} {classes : List (List (Fin (n + 1)))}

theorem deterministic_assemble (hr : ix.Represents a) (hd : d.Represents ix a)
    (hp : Partitions d ix.alphabet classes) (hm : assemble d ix.alphabet classes = .ok m) :
    m.Deterministic := by
  have hs : classes.length ≤ UInt32.size := Nat.le_trans hp.length_le hr.length_le
  obtain ⟨k, q, -, -, hq⟩ := exists_filter_isInitial hm hp hs
  constructor
  case wellFormed => exact wellFormed_assemble hm hp hs
  case initial => exact ⟨q, Automaton.initialState?_of_filter hq⟩
  case symbols => exact symbols_assemble hm hp
  case compatible => exact compatible_assemble hm hr.pairwise_alphabet hd.length hs

theorem acceptsFrom_initial_assemble (hdet : a.Deterministic) (hr : ix.Represents a)
    (hd : d.Represents ix a) (hp : Partitions d ix.alphabet classes)
    (hm : assemble d ix.alphabet classes = .ok m) {k : Nat}
    (hk : classOf? classes d.start = some k) (w : List Char) :
    m.AcceptsFrom (.ofNat k) w ↔ a.AcceptsFrom (ix.idAt d.start) w := by
  have hs : classes.length ≤ UInt32.size := Nat.le_trans hp.length_le hr.length_le
  obtain ⟨cls, hcls, hstart⟩ := hp.classOf?_eq_some_iff.mp hk
  have hmem := List.mem_of_getElem? hcls
  obtain ⟨i, rest, rfl⟩ := hp.headed cls hmem
  have hhead := hp.equivalent _ hmem _ List.mem_cons_self _ hstart w
  calc m.AcceptsFrom (.ofNat k) w
      ↔ d.AcceptsAt ix.alphabet i.castSucc w := acceptsFrom_assemble hm hp hs hcls
    _ ↔ d.AcceptsAt ix.alphabet d.start.castSucc w := hhead
    _ ↔ d.Accepts ix.alphabet d.start w := Dfa.acceptsAt_castSucc
    _ ↔ a.AcceptsFrom (ix.idAt d.start) w := hd.accepts_iff hr hdet.symbols

end Minimization

namespace Automaton

/-- A minimized automaton is deterministic, with one initial state and its states numbered in their
order, and it accepts exactly the words that the automaton accepts that it was made from. -/
theorem minimize_keeps_language (hv : a.validate.outcome = .ok ())
    (h : (a.minimize limits).outcome = .ok m) :
    m.validate.outcome = .ok () ∧ (m.states.filter (·.isInitial)).length = 1 ∧
    m.ids.map UInt32.toNat = List.range m.states.length ∧
    ∀ word, ∃ r r', (a.simulate word).outcome = .ok r ∧ (m.simulate word).outcome = .ok r' ∧
      r'.accepted = r.accepted := by
  have hdet := validate_eq_ok_iff.mp hv
  obtain ⟨n, ix, d, classes, hr, hdr, hp, hm⟩ := exists_partitions hdet h
  have hs : classes.length ≤ UInt32.size := Nat.le_trans hp.length_le hr.length_le
  have hdet' := Minimization.deterministic_assemble hr hdr hp hm
  obtain ⟨k, q, hk, hid, hq⟩ := Minimization.exists_filter_isInitial hm hp hs
  refine ⟨validate_eq_ok_iff.mpr hdet', by rw [hq]; rfl, ?_, ?_⟩
  · exact (Minimization.numbered_assemble hm).map_toNat hs
  · intro word
    have hinitial : m.initialState? = some q := by
      rw [initialState?, ← List.head?_filter, hq]
      rfl
    obtain ⟨r, l, hrun, hd⟩ := exists_simulate hdet.wellFormed (hdr.initialState? hr) word
    obtain ⟨r', l', hrun', hd'⟩ := exists_simulate hdet'.wellFormed hinitial word
    refine ⟨r, r', hrun, hrun', ?_⟩
    rw [Bool.eq_iff_iff, hd'.accepted, hd.accepted, hid]
    exact Minimization.acceptsFrom_initial_assemble hdet hr hdr hp hm hk word.toList

/-- The state 7 accepts nothing, and no word leads to 9. -/
def partialMoves : Automaton where
  states := [{ id := 4, isInitial := true }, { id := 2, isFinal := true }, { id := 7 }, { id := 9 }]
  transitions := [⟨4, 2, .symbol 'a'⟩, ⟨4, 7, .symbol 'b'⟩, ⟨2, 2, .symbol 'a'⟩, ⟨9, 2, .symbol 'b'⟩]

theorem partialMoves_deterministic : partialMoves.Deterministic := by decide

theorem acceptsFrom_partialMoves : partialMoves.AcceptsFrom 4 ['a', 'a'] := by
  have hs := partialMoves_deterministic.symbols
  have hend : partialMoves.AcceptsFrom 2 [] :=
    (acceptsFrom_nil_iff hs).mpr ⟨{ id := 2, isFinal := true }, by decide, rfl, rfl⟩
  have hloop : partialMoves.AcceptsFrom 2 ['a'] :=
    (acceptsFrom_cons_iff hs).mpr ⟨2, by decide, hend⟩
  exact (acceptsFrom_cons_iff hs).mpr ⟨2, by decide, hloop⟩

theorem not_acceptsFrom_partialMoves : ¬ partialMoves.AcceptsFrom 4 ['b'] := by
  have hs := partialMoves_deterministic.symbols
  have hmove : ∀ t ∈ partialMoves.transitions, t.source = 4 → t.label = .symbol 'b' →
      t.target = 7 := by decide
  have hdead : ∀ q ∈ partialMoves.states, q.isFinal = true → q.id ≠ 7 := by decide
  intro h
  obtain ⟨r, ht, hr⟩ := (acceptsFrom_cons_iff hs).mp h
  obtain ⟨q, hq, hfinal, hid⟩ := (acceptsFrom_nil_iff hs).mp hr
  exact hdead q hq hfinal (hid.trans (hmove _ ht rfl rfl))

theorem minimize_partialMoves :
    ∃ m r r', (partialMoves.minimize { maxPairChecks := maxCount }).outcome = .ok m ∧
      m.validate.outcome = .ok () ∧ (m.simulate "aa").outcome = .ok r ∧ r.accepted = true ∧
      (m.simulate "b").outcome = .ok r' ∧ r'.accepted = false := by
  have hl : maxCount ≤ ({ maxPairChecks := maxCount } : Limits).maxPairChecks := Nat.le_refl _
  obtain ⟨m, hm⟩ := exists_minimize partialMoves_deterministic hl
  obtain ⟨hvalid, -, -, hruns⟩ :=
    minimize_keeps_language (validate_eq_ok_iff.mpr partialMoves_deterministic) hm
  obtain ⟨r, r', hrun, hrun', haccepted⟩ := hruns "aa"
  obtain ⟨u, u', hstop, hstop', hrefused⟩ := hruns "b"
  have hinitial : partialMoves.initialState? = some { id := 4, isInitial := true } := rfl
  obtain ⟨s, k, hs, hd⟩ := exists_simulate partialMoves_deterministic.wellFormed hinitial "aa"
  obtain rfl := Except.ok.inj (hrun.symm.trans hs)
  obtain ⟨v, l, hv, hd'⟩ := exists_simulate partialMoves_deterministic.wellFormed hinitial "b"
  obtain rfl := Except.ok.inj (hstop.symm.trans hv)
  refine ⟨m, r', u', hm, hvalid, hrun', ?_, hstop', ?_⟩
  · rw [haccepted]
    exact hd.accepted.mpr acceptsFrom_partialMoves
  · rw [hrefused, Bool.eq_false_iff]
    exact fun hacc => not_acceptsFrom_partialMoves (hd'.accepted.mp hacc)

end Automaton
end FiniteAutomata
