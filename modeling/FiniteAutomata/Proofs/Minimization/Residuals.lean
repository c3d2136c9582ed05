import FiniteAutomata.Proofs.Language
import FiniteAutomata.Proofs.Minimization.Minimize
import FiniteAutomata.Proofs.Minimization.Separation

/-! # Minimized states are residuals

A minimized automaton has one state for each residual of the language by a word that leads somewhere,
and no two states for the same one. A complete automaton for the language needs a state for each of
these residuals as well, so none is smaller.
-/
namespace FiniteAutomata
variable {n : Nat} {ix : Index n} {d : Dfa n} {a m : Automaton} {limits : Limits} {w : List Char}

namespace Dfa.Represents
variable {i j : Fin n}

theorem exists_leadsTo (h : d.Represents ix a) (hr : ix.Represents a) (hi : i ∈ d.reachable) :
    ∃ w, a.LeadsTo w (ix.idAt i) := by
  obtain ⟨s, hs, hreach⟩ := Search.mem_reach.mp hi
  obtain rfl := StateSet.mem_singleton.mp hs
  clear hi
  induction hreach with
  | refl => exact ⟨[], _, h.initialState? hr, Reads.refl _ _⟩
  | @tail j k _ hk ih =>
    obtain ⟨w, s, hs, hw⟩ := ih
    obtain ⟨next, hnext, rfl⟩ := List.mem_filterMap.mp hk
    obtain ⟨column, hcolumn⟩ := List.getElem?_of_mem hnext
    have hlt := (List.getElem?_eq_some_iff.mp hcolumn).1
    rw [h.length j] at hlt
    have ht := (h.moves j k column _ (List.getElem?_eq_getElem hlt)).mp hcolumn
    exact ⟨w ++ [_], s, hs, hw.trans (.symbol ht (.refl _ _))⟩

theorem mem_reachable_of_reads (h : d.Represents ix a) (hr : ix.Represents a)
    (hs : ∀ t ∈ a.transitions, ∃ c, t.label = .symbol c) (hi : i ∈ d.reachable)
    (hw : Reads a.transitions (ix.idAt i) w (ix.idAt j)) : j ∈ d.reachable := by
  induction w generalizing i with
  | nil =>
    have hid := (reads_nil_iff_of_symbols hs).mp hw
    rwa [hr.idAt_inj.mp hid]
  | cons c w ih =>
    obtain ⟨r, ht, hw⟩ := (reads_cons_iff_of_symbols hs).mp hw
    obtain ⟨-, k, -, rfl⟩ := hr.resolved _ ht
    obtain ⟨column, hc⟩ := hr.exists_column ht
    have hmove := (h.moves i k column c hc).mpr ht
    exact ih (Minimization.mem_reachable_of_move hi hmove) hw

theorem exists_mem_reachable (h : d.Represents ix a) (hdet : a.Deterministic) (hr : ix.Represents a)
    {q : StateId} (hq : a.LeadsTo w q) : ∃ i ∈ d.reachable, ix.idAt i = q := by
  obtain ⟨p, hp, rfl⟩ := hq.exists_state hdet.wellFormed
  obtain ⟨j, rfl⟩ := (hr.mem_states p).mp hp
  have hw := (Automaton.leadsTo_of_initial (h.initialState? hr)).mp hq
  have hstart := Minimization.start_mem_reachable d
  exact ⟨j, h.mem_reachable_of_reads hr hdet.symbols hstart hw, rfl⟩

theorem languageFrom_eq_iff (h : d.Represents ix a) (hdet : a.Deterministic)
    (hr : ix.Represents a) : a.languageFrom (ix.idAt i) = a.languageFrom (ix.idAt j) ↔
      ∀ w, d.AcceptsAt ix.alphabet i.castSucc w ↔ d.AcceptsAt ix.alphabet j.castSucc w := by
  have haccepts : ∀ (k : Fin n) w, d.AcceptsAt ix.alphabet k.castSucc w ↔
      w ∈ a.languageFrom (ix.idAt k) := by
    intro k w
    rw [Dfa.acceptsAt_castSucc]
    exact h.accepts_iff hr hdet.symbols
  rw [Language.ext_iff]
  simp only [haccepts]

end Dfa.Represents

namespace Automaton

/-- The states of the one automaton stand for what is accepted behind the words of the other. -/
structure Condenses (m a : Automaton) : Prop where
  deterministic : m.Deterministic
  language : m.language = a.language
  distinguished : m.Distinguished
  residual : ∀ q ∈ m.states, ∃ w p, a.LeadsTo w p ∧ m.languageFrom q.id = a.languageFrom p
  covers : ∀ w p, a.LeadsTo w p → ∃ q ∈ m.states, m.languageFrom q.id = a.languageFrom p

end Automaton

namespace Minimization
variable {classes : List (List (Fin (n + 1)))} {k l : Nat} {cls : List (Fin (n + 1))}
  {i j : Fin n}

theorem languageFrom_assemble (hdet : a.Deterministic) (hr : ix.Represents a)
    (hd : d.Represents ix a) (hp : Partitions d ix.alphabet classes)
    (hm : assemble d ix.alphabet classes = .ok m) (hk : classes[k]? = some cls)
    (hi : i.castSucc ∈ cls) : m.languageFrom (.ofNat k) = a.languageFrom (ix.idAt i) := by
  have hs : classes.length ≤ UInt32.size := Nat.le_trans hp.length_le hr.length_le
  have hcls := List.mem_of_getElem? hk
  apply Language.ext
  intro w
  obtain ⟨j, rest, rfl⟩ := hp.headed cls hcls
  calc m.AcceptsFrom (.ofNat k) w
      ↔ d.AcceptsAt ix.alphabet j.castSucc w := acceptsFrom_assemble hm hp hs hk
    _ ↔ d.AcceptsAt ix.alphabet i.castSucc w :=
        hp.equivalent _ hcls _ List.mem_cons_self _ hi w
    _ ↔ d.Accepts ix.alphabet i w := Dfa.acceptsAt_castSucc
    _ ↔ a.AcceptsFrom (ix.idAt i) w := hd.accepts_iff hr hdet.symbols

theorem Separates.number_eq (hsep : Separates d ix.alphabet classes) (hdet : a.Deterministic)
    (hr : ix.Represents a) (hd : d.Represents ix a) (hp : Partitions d ix.alphabet classes)
    (hi : classOf? classes i = some k) (hj : classOf? classes j = some l)
    (h : a.languageFrom (ix.idAt i) = a.languageFrom (ix.idAt j)) : k = l := by
  obtain ⟨cls, hk, hi⟩ := hp.classOf?_eq_some_iff.mp hi
  obtain ⟨cls', hl, hj⟩ := hp.classOf?_eq_some_iff.mp hj
  exact hsep.eq_of_equivalent hp hk hl hi hj ((hd.languageFrom_eq_iff hdet hr).mp h)

theorem condenses_assemble (hdet : a.Deterministic) (hr : ix.Represents a)
    (hd : d.Represents ix a) (hp : Partitions d ix.alphabet classes)
    (hsep : Separates d ix.alphabet classes) (hm : assemble d ix.alphabet classes = .ok m) :
    m.Condenses a := by
  have hs : classes.length ≤ UInt32.size := Nat.le_trans hp.length_le hr.length_le
  constructor
  case deterministic => exact deterministic_assemble hr hd hp hm
  case language =>
    obtain ⟨k, q, hk, hid, hq⟩ := exists_filter_isInitial hm hp hs
    apply Language.ext
    intro w
    rw [Automaton.mem_language_of_initial (Automaton.initialState?_of_filter hq), hid,
      acceptsFrom_initial_assemble hdet hr hd hp hm hk]
    exact (Automaton.mem_language_of_initial (hd.initialState? hr)).symm
  case distinguished =>
    intro p hpm q hqm h
    obtain ⟨k, cls, hk, rfl⟩ := (mem_states_assemble hm).mp hpm
    obtain ⟨l, cls', hl, rfl⟩ := (mem_states_assemble hm).mp hqm
    obtain ⟨i, rest, rfl⟩ := hp.headed cls (List.mem_of_getElem? hk)
    obtain ⟨j, rest', rfl⟩ := hp.headed cls' (List.mem_of_getElem? hl)
    have hi := hp.classOf?_eq_some_iff.mpr ⟨_, hk, List.mem_cons_self⟩
    have hj := hp.classOf?_eq_some_iff.mpr ⟨_, hl, List.mem_cons_self⟩
    have hij : a.languageFrom (ix.idAt i) = a.languageFrom (ix.idAt j) := by
      rw [← languageFrom_assemble hdet hr hd hp hm hk List.mem_cons_self,
        ← languageFrom_assemble hdet hr hd hp hm hl List.mem_cons_self]
      exact h
    obtain rfl := hsep.number_eq hdet hr hd hp hi hj hij
    rw [Option.some.inj (hk.symm.trans hl)]
  case residual =>
    intro q hq
    obtain ⟨k, cls, hk, rfl⟩ := (mem_states_assemble hm).mp hq
    have hcls := List.mem_of_getElem? hk
    obtain ⟨i, rest, rfl⟩ := hp.headed cls hcls
    have hi := hp.reachable _ hcls i List.mem_cons_self
    obtain ⟨w, hw⟩ := hd.exists_leadsTo hr hi
    exact ⟨w, _, hw, languageFrom_assemble hdet hr hd hp hm hk List.mem_cons_self⟩
  case covers =>
    intro w p hw
    obtain ⟨i, hi, rfl⟩ := hd.exists_mem_reachable hdet hr hw
    obtain ⟨cls, hcls, hmem⟩ := hp.covered i hi
    obtain ⟨k, hk⟩ := List.getElem?_of_mem hcls
    exact ⟨_, (mem_states_assemble hm).mpr ⟨k, cls, hk, rfl⟩,
      languageFrom_assemble hdet hr hd hp hm hk hmem⟩

end Minimization

namespace Automaton

/-- What minimization returns was assembled from classes of equivalent states, each apart from the
others. -/
theorem exists_classes (hdet : a.Deterministic) (h : (a.minimize limits).outcome = .ok m) :
    ∃ (n : Nat) (ix : Index n) (d : Dfa n) (classes : List (List (Fin (n + 1)))),
      ix.Represents a ∧ d.Represents ix a ∧ Minimization.Partitions d ix.alphabet classes ∧
      Minimization.Separates d ix.alphabet classes ∧
      Minimization.assemble d ix.alphabet classes = .ok m := by
  obtain ⟨n, ix, d, settled, hr, hd, hfill, hm⟩ := exists_settled hdet h
  have hp := Minimization.partitions_stateClasses (Marks.stable_of_fill hfill) hd.length
  have hsep := Minimization.separates_stateClasses hr.pairwise_alphabet hd.length hfill
  exact ⟨n, ix, d, _, hr, hd, hp, hsep, hm⟩

theorem condenses_minimize (hdet : a.Deterministic) (h : (a.minimize limits).outcome = .ok m) :
    m.Condenses a := by
  obtain ⟨n, ix, d, classes, hr, hd, hp, hsep, hm⟩ := exists_classes hdet h
  exact Minimization.condenses_assemble hdet hr hd hp hsep hm

/-- Words of the alphabet lead a complete automaton for the language to different states when they
leave different residuals. -/
theorem leftQuotient_eq_of_eval_eq {σ : Type} {D : DFA {c // c ∈ a.alphabet} σ}
    (hD : ∀ w, w ∈ D.accepts ↔ w.map Subtype.val ∈ a.language) {u v : List {c // c ∈ a.alphabet}}
    (h : D.eval u = D.eval v) :
    a.language.leftQuotient (u.map Subtype.val) = a.language.leftQuotient (v.map Subtype.val) := by
  have hquotient : D.accepts.leftQuotient u = D.accepts.leftQuotient v := by
    rw [Language.leftQuotient_accepts_apply, Language.leftQuotient_accepts_apply, h]
  have hsub : ∀ {u v : List {c // c ∈ a.alphabet}},
      D.accepts.leftQuotient u = D.accepts.leftQuotient v → ∀ w,
      u.map Subtype.val ++ w ∈ a.language → v.map Subtype.val ++ w ∈ a.language := by
    intro u v h w hw
    have hsymbols : ∀ c ∈ w, c ∈ a.alphabet := by
      intro c hc
      exact mem_alphabet_of_mem_language hw (List.mem_append_right _ hc)
    have hword : (w.attachWith _ hsymbols).map Subtype.val = w := List.attachWith_map_subtype_val _
    rw [← hword, ← List.map_append] at hw ⊢
    have hmem : w.attachWith _ hsymbols ∈ D.accepts.leftQuotient u := (hD _).mpr hw
    rw [h] at hmem
    exact (hD _).mp hmem
  apply Language.ext
  intro w
  exact ⟨hsub hquotient w, hsub hquotient.symm w⟩

namespace Condenses

theorem bijOn_residuals (h : m.Condenses a) (hdet : a.Deterministic) :
    Set.BijOn (fun q : State => m.languageFrom q.id) {q | q ∈ m.states}
      {L | ∃ w q, a.LeadsTo w q ∧ L = a.language.leftQuotient w} := by
  refine ⟨?_, ?_, ?_⟩
  · intro q hq
    obtain ⟨w, p, hw, hL⟩ := h.residual q hq
    exact ⟨w, p, hw, hL.trans (hdet.languageFrom_eq hw)⟩
  · intro p hp q hq hpq
    exact h.distinguished p hp q hq hpq
  · intro L hL
    obtain ⟨w, p, hw, rfl⟩ := hL
    obtain ⟨q, hq, hL⟩ := h.covers w p hw
    exact ⟨q, hq, hL.trans (hdet.languageFrom_eq hw)⟩

theorem exists_separator (h : m.Condenses a) {p q : State} (hp : p ∈ m.states) (hq : q ∈ m.states)
    (hne : p ≠ q) : ∃ w, ¬ (m.AcceptsFrom p.id w ↔ m.AcceptsFrom q.id w) := by
  by_contra hall
  rw [not_exists] at hall
  apply hne
  apply h.distinguished p hp q hq
  apply Language.ext
  intro w
  exact Classical.not_not.mp (hall w)

theorem length_le_card (h : m.Condenses a) (hdet : a.Deterministic) {σ : Type} [Fintype σ]
    {D : DFA {c // c ∈ a.alphabet} σ}
    (hD : ∀ w, w ∈ D.accepts ↔ w.map Subtype.val ∈ a.language) :
    m.states.length ≤ Fintype.card σ := by
  have hword : ∀ k : Fin m.states.length, ∃ u : List {c // c ∈ a.alphabet},
      m.languageFrom (m.states.get k).id = a.language.leftQuotient (u.map Subtype.val) := by
    intro k
    obtain ⟨w, p, hw, hL⟩ := h.residual _ (List.get_mem m.states k)
    refine ⟨w.attachWith _ fun c hc => hw.mem_alphabet hc, ?_⟩
    rw [List.attachWith_map_subtype_val, hL, hdet.languageFrom_eq hw]
  choose word hword using hword
  have hinj : Function.Injective fun k => D.eval (word k) := by
    intro k l hkl
    have hstates : m.states.get k = m.states.get l := by
      apply h.distinguished _ (List.get_mem _ k) _ (List.get_mem _ l)
      rw [hword k, hword l]
      exact leftQuotient_eq_of_eval_eq hD hkl
    exact (h.deterministic.wellFormed.nodup.of_map _).injective_get hstates
  have hcard := Fintype.card_le_of_injective _ hinj
  rwa [Fintype.card_fin] at hcard

theorem exists_leadsTo (h : m.Condenses a) (hdet : a.Deterministic) {q : State}
    (hq : q ∈ m.states) (hw : w ∈ m.languageFrom q.id) : ∃ u, m.LeadsTo u q.id := by
  obtain ⟨u, p, hu, hL⟩ := h.residual q hq
  have huw : u ++ w ∈ m.language := by
    rw [h.language]
    rw [hL] at hw
    exact mem_language_of_leadsTo hu hw
  obtain ⟨r, hr, -⟩ := exists_leadsTo_of_mem huw
  obtain ⟨s, hs, rfl⟩ := hr.exists_state h.deterministic.wellFormed
  have hsq : s = q := by
    apply h.distinguished s hs q hq
    rw [h.deterministic.languageFrom_eq hr, hL, hdet.languageFrom_eq hu, h.language]
  rw [← hsq]
  exact ⟨u, hr⟩

/-- From an automaton without dead states nothing dead is left, and all of what is left is in reach. -/
theorem minimal (h : m.Condenses a) (hdet : a.Deterministic) (hl : a.Live) : m.Minimal where
  deterministic := h.deterministic
  distinguished := h.distinguished
  connected := by
    intro q hq
    obtain ⟨u, p, hu, hL⟩ := h.residual q hq
    obtain ⟨v, hv⟩ := hl u p hu
    rw [← hL] at hv
    exact h.exists_leadsTo hdet hq hv
  live := by
    intro w q hw
    obtain ⟨s, hs, rfl⟩ := hw.exists_state h.deterministic.wellFormed
    obtain ⟨u, p, hu, hL⟩ := h.residual s hs
    obtain ⟨v, hv⟩ := hl u p hu
    rw [← hL] at hv
    exact ⟨v, hv⟩

end Condenses

/-- The states of a minimized automaton correspond to the residuals of the language by the words that
lead somewhere, so a word tells any two of them apart, and no complete automaton over the alphabet
accepts the language with fewer states. -/
theorem minimize_states_residuals (hv : a.validate.outcome = .ok ())
    (h : (a.minimize limits).outcome = .ok m) :
    Set.BijOn (fun q : State => m.languageFrom q.id) {q | q ∈ m.states}
        {L | ∃ w q, a.LeadsTo w q ∧ L = a.language.leftQuotient w} ∧
      (∀ p ∈ m.states, ∀ q ∈ m.states, p ≠ q →
        ∃ w, ¬ (m.AcceptsFrom p.id w ↔ m.AcceptsFrom q.id w)) ∧
      ∀ (σ : Type) [Fintype σ] (D : DFA {c // c ∈ a.alphabet} σ),
        (∀ w, w ∈ D.accepts ↔ w.map Subtype.val ∈ a.language) →
        m.states.length ≤ Fintype.card σ := by
  have hdet := validate_eq_ok_iff.mp hv
  have hcondenses := condenses_minimize hdet h
  refine ⟨hcondenses.bijOn_residuals hdet, ?_, ?_⟩
  · intro p hp q hq hne
    exact hcondenses.exists_separator hp hq hne
  · intro σ _ D hD
    exact hcondenses.length_le_card hdet hD

/-- The word `b` leads to a state from which nothing is accepted. -/
theorem minimize_partialMoves_dead :
    ∃ m, partialMoves.validate.outcome = .ok () ∧
      (partialMoves.minimize { maxPairChecks := maxCount }).outcome = .ok m ∧
      ∃ q ∈ m.states, m.languageFrom q.id = partialMoves.language.leftQuotient ['b'] := by
  have hl : maxCount ≤ ({ maxPairChecks := maxCount } : Limits).maxPairChecks := Nat.le_refl _
  have hv := validate_eq_ok_iff.mpr partialMoves_deterministic
  obtain ⟨m, hm⟩ := exists_minimize partialMoves_deterministic hl
  obtain ⟨hbij, -, -⟩ := minimize_states_residuals hv hm
  have hread : Reads partialMoves.transitions 4 ['b'] 7 := .symbol (by decide) (.refl _ 7)
  have hb : partialMoves.LeadsTo ['b'] 7 := ⟨{ id := 4, isInitial := true }, rfl, hread⟩
  obtain ⟨q, hq, hL⟩ := hbij.surjOn ⟨['b'], 7, hb, rfl⟩
  exact ⟨m, hv, hm, q, hq, hL⟩

end Automaton
end FiniteAutomata
