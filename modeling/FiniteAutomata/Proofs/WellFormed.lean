import Mathlib.Data.Fintype.Card
import Mathlib.Data.List.Forall2
import Mathlib.Data.List.Nodup
import FiniteAutomata.Index
import FiniteAutomata.Proofs.Outcome

/-! # Well-formed automata and their indices

An automaton is well-formed when its ids are distinct and its transitions stay among them. Exactly the
well-formed automata have an index, and what the index says about positions is what the automaton says
about ids.
-/
namespace FiniteAutomata

namespace Automaton

def ids (a : Automaton) : List StateId := a.states.map (·.id)

/-- No id is used twice, and transitions stay among the ids. -/
structure WellFormed (a : Automaton) : Prop where
  nodup : a.ids.Nodup
  resolved : ∀ t ∈ a.transitions, t.source ∈ a.ids ∧ t.target ∈ a.ids

instance (a : Automaton) : Decidable a.WellFormed :=
  decidable_of_iff (a.ids.Nodup ∧ ∀ t ∈ a.transitions, t.source ∈ a.ids ∧ t.target ∈ a.ids)
    ⟨fun h => ⟨h.1, h.2⟩, fun h => ⟨h.nodup, h.resolved⟩⟩

theorem mem_ids {a : Automaton} {id : StateId} : id ∈ a.ids ↔ ∃ s ∈ a.states, s.id = id :=
  List.mem_map

theorem mem_alphabet {a : Automaton} {c : Char} :
    c ∈ a.alphabet ↔ ∃ t ∈ a.transitions, t.label = .symbol c := by
  unfold alphabet
  rw [Alphabet.mem_ofSymbols, List.mem_filterMap]
  constructor
  · rintro ⟨t, ht, hc⟩
    refine ⟨t, ht, ?_⟩
    cases hl : t.label with
    | epsilon =>
      rw [hl] at hc
      cases hc
    | symbol d =>
      rw [hl] at hc
      cases hc
      rfl
  · rintro ⟨t, ht, hc⟩
    exact ⟨t, ht, by rw [hc]; rfl⟩

end Automaton

namespace Index
variable {n : Nat} {a : Automaton}

/-- What an index says about positions is what the automaton says about ids. -/
structure Represents (ix : Index n) (a : Automaton) : Prop where
  ascending : ∀ i j, i < j → ix.idAt i < ix.idAt j
  mem_states : ∀ s, s ∈ a.states ↔ ∃ i : Fin n, ix.states.get i = s
  positions : ∀ id i, ix.positions[id]? = some i ↔ ix.idAt i = id
  initial : ix.initial.map (fun i => ix.states.get i) = a.initialState?
  accepting : ∀ i, i ∈ ix.accepting ↔ (ix.states.get i).isFinal = true
  resolved : ∀ t ∈ a.transitions, ∃ i j, ix.idAt i = t.source ∧ ix.idAt j = t.target
  outgoing : ∀ i l j, (l, j) ∈ ix.outgoing.get i ↔ ⟨ix.idAt i, ix.idAt j, l⟩ ∈ a.transitions
  incoming : ∀ i j, i ∈ ix.incoming.get j ↔ ∃ l, ⟨ix.idAt i, ix.idAt j, l⟩ ∈ a.transitions
  alphabet : ix.alphabet = a.alphabet

theorem Represents.idAt_inj {ix : Index n} (h : ix.Represents a) {i j : Fin n} :
    ix.idAt i = ix.idAt j ↔ i = j := by
  constructor
  · intro he
    rcases Nat.lt_trichotomy i j with hij | hij | hij
    · exact absurd (he ▸ h.ascending i j hij) (UInt32.lt_irrefl _)
    · exact Fin.ext hij
    · exact absurd (he ▸ h.ascending j i hij) (UInt32.lt_irrefl _)
  · exact fun he => he ▸ rfl

theorem Represents.mem_ids_iff {ix : Index n} (h : ix.Represents a) {p : StateId} :
    p ∈ a.ids ↔ ∃ i, ix.idAt i = p := by
  rw [Automaton.mem_ids]
  constructor
  · rintro ⟨q, hq, rfl⟩
    obtain ⟨i, rfl⟩ := (h.mem_states q).mp hq
    exact ⟨i, rfl⟩
  · rintro ⟨i, rfl⟩
    exact ⟨ix.states.get i, (h.mem_states _).mpr ⟨i, rfl⟩, rfl⟩

theorem Represents.length_le {ix : Index n} (h : ix.Represents a) : n ≤ UInt32.size := by
  have hinj : Function.Injective fun i : Fin n => (ix.idAt i).toBitVec.toFin := by
    intro i j hij
    exact h.idAt_inj.mp (UInt32.toBitVec_inj.mp (BitVec.eq_of_toFin_eq hij))
  have hcard := Fintype.card_le_of_injective _ hinj
  rwa [Fintype.card_fin, Fintype.card_fin] at hcard

theorem Represents.pairwise_alphabet {ix : Index n} (h : ix.Represents a) :
    ix.alphabet.Pairwise (· < ·) := by
  rw [h.alphabet]
  exact Alphabet.pairwise_ofSymbols _

theorem Represents.exists_column {ix : Index n} (h : ix.Represents a) {p q : StateId} {c : Char}
    (ht : ⟨p, q, .symbol c⟩ ∈ a.transitions) : ∃ column : Nat, ix.alphabet[column]? = some c := by
  refine List.getElem?_of_mem ?_
  rw [h.alphabet]
  exact Automaton.mem_alphabet.mpr ⟨_, ht, rfl⟩

theorem firstRepeat?_eq_none_iff {ids : List StateId} (h : ids.Pairwise (· ≤ ·)) :
    firstRepeat? ids = none ↔ ids.Pairwise (· < ·) := by
  fun_induction firstRepeat? ids with
  | case1 b rest =>
    constructor
    · intro he
      cases he
    · intro hp
      exact absurd ((List.pairwise_cons.mp hp).1 b (List.mem_cons_self ..)) (UInt32.lt_irrefl b)
  | case2 a b rest hne ih =>
    obtain ⟨ha, hrest⟩ := List.pairwise_cons.mp h
    rw [ih hrest, List.pairwise_cons (a := a)]
    constructor
    · intro hp
      refine ⟨?_, hp⟩
      have hab : a < b := UInt32.lt_of_le_of_ne (ha b (List.mem_cons_self ..)) hne
      intro c hc
      rcases List.mem_cons.mp hc with rfl | hc
      · exact hab
      · exact UInt32.lt_trans hab ((List.pairwise_cons.mp hp).1 c hc)
    · exact fun hp => hp.2
  | case3 ids hshort =>
    match ids, hshort with
    | [], _ => simp
    | [a], _ => simp
    | a :: b :: rest, hshort => exact absurd rfl (hshort a b rest)

theorem toList_sortedStates (a : Automaton) :
    (sortedStates a).toList = a.states.mergeSort fun s t => s.id ≤ t.id := by
  simp [sortedStates, Vector.toList]

theorem sortedStates_perm (a : Automaton) : (sortedStates a).toList.Perm a.states := by
  rw [toList_sortedStates]
  exact List.mergeSort_perm ..

theorem pairwise_sortedStates (a : Automaton) :
    ((sortedStates a).toList.map (·.id)).Pairwise (· ≤ ·) := by
  rw [toList_sortedStates, List.pairwise_map]
  let le := fun s t : State => decide (s.id ≤ t.id)
  have htrans : ∀ r s t : State, le r s = true → le s t = true → le r t = true := by
    intro r s t hrs hst
    simp only [le, decide_eq_true_eq] at hrs hst ⊢
    exact UInt32.le_trans hrs hst
  have htotal : ∀ s t : State, (le s t || le t s) = true := by
    intro s t
    simp only [le, Bool.or_eq_true, decide_eq_true_eq]
    exact UInt32.le_total s.id t.id
  exact (List.pairwise_mergeSort htrans htotal a.states).imp fun hst => of_decide_eq_true hst

theorem firstRepeat?_sortedStates (a : Automaton) :
    firstRepeat? ((sortedStates a).toList.map (·.id)) = none ↔ a.ids.Nodup := by
  have hperm : ((sortedStates a).toList.map (·.id)).Perm a.ids := (sortedStates_perm a).map _
  rw [firstRepeat?_eq_none_iff (pairwise_sortedStates a), ← hperm.nodup_iff]
  constructor
  · exact fun h => h.imp fun hlt => UInt32.ne_of_lt hlt
  · intro h
    exact ((pairwise_sortedStates a).and h).imp fun hst => UInt32.lt_of_le_of_ne hst.1 hst.2

theorem ascending_of_pairwise {states : Vector State n}
    (h : (states.toList.map (·.id)).Pairwise (· < ·)) (i j : Fin n) (hij : i < j) :
    (states.get i).id < (states.get j).id := by
  rw [List.pairwise_iff_getElem] at h
  have hlt := h i.val j.val (by simp) (by simp) hij
  rw [List.getElem_map, List.getElem_map, Vector.getElem_toList, Vector.getElem_toList] at hlt
  exact hlt

private theorem getElem?_foldl_insert {states : Vector State n} {is : List (Fin n)}
    {m : Std.TreeMap StateId (Fin n)} {id : StateId}
    (hinj : ∀ i j : Fin n, (states.get i).id = (states.get j).id → i = j) (i : Fin n) :
    (is.foldl (fun m i => m.insert (states.get i).id i) m)[id]? = some i ↔
      (i ∈ is ∧ (states.get i).id = id) ∨ ((∀ j ∈ is, (states.get j).id ≠ id) ∧ m[id]? = some i) := by
  induction is generalizing m with
  | nil => simp
  | cons k is ih =>
    rw [List.foldl_cons, ih, Std.TreeMap.getElem?_insert]
    by_cases hk : (states.get k).id = id
    · subst hk
      simp only [Std.compare_eq_iff_eq, if_true, Option.some.injEq, List.mem_cons]
      constructor
      · rintro (⟨hi, he⟩ | ⟨-, rfl⟩)
        · exact Or.inl ⟨Or.inr hi, he⟩
        · exact Or.inl ⟨Or.inl rfl, rfl⟩
      · rintro (⟨-, he⟩ | ⟨hne, -⟩)
        · obtain rfl := hinj _ _ he
          by_cases hi : ∃ j ∈ is, (states.get j).id = (states.get i).id
          · obtain ⟨j, hj, hji⟩ := hi
            obtain rfl := hinj _ _ hji
            exact Or.inl ⟨hj, rfl⟩
          · exact Or.inr ⟨fun j hj hji => hi ⟨j, hj, hji⟩, rfl⟩
        · exact absurd rfl (hne k (Or.inl rfl))
    · have hc : compare (states.get k).id id ≠ .eq := fun he => hk (Std.compare_eq_iff_eq.mp he)
      simp only [if_neg hc, List.mem_cons]
      constructor
      · rintro (⟨hi, he⟩ | ⟨hne, he⟩)
        · exact Or.inl ⟨Or.inr hi, he⟩
        · refine Or.inr ⟨?_, he⟩
          rintro j (rfl | hj)
          · exact hk
          · exact hne j hj
      · rintro (⟨rfl | hi, he⟩ | ⟨hne, he⟩)
        · exact absurd he hk
        · exact Or.inl ⟨hi, he⟩
        · exact Or.inr ⟨fun j hj => hne j (Or.inr hj), he⟩

theorem getElem?_positionsOf {states : Vector State n}
    (hinj : ∀ i j : Fin n, (states.get i).id = (states.get j).id → i = j) (id : StateId) (i : Fin n) :
    (positionsOf states)[id]? = some i ↔ (states.get i).id = id := by
  unfold positionsOf
  rw [getElem?_foldl_insert hinj]
  simp

theorem resolve_eq_ok {states : Vector State n} {positions : Std.TreeMap StateId (Fin n)}
    (hpos : ∀ id (i : Fin n), positions[id]? = some i ↔ (states.get i).id = id)
    {t : Transition} {e : Edge n} :
    resolve positions t = .ok e ↔
      t = ⟨(states.get e.source).id, (states.get e.target).id, e.label⟩ := by
  unfold resolve
  split
  · rename_i source target hs ht
    rw [hpos] at hs ht
    constructor
    · intro he
      cases he
      rw [hs, ht]
    · intro he
      have hi : source = e.source :=
        Option.some.inj (((hpos t.source source).mpr hs).symm.trans ((hpos _ _).mpr (by rw [he])))
      have hj : target = e.target :=
        Option.some.inj (((hpos t.target target).mpr ht).symm.trans ((hpos _ _).mpr (by rw [he])))
      rw [hi, hj, he]
  · rename_i hs
    refine ⟨fun he => (by cases he), fun he => ?_⟩
    rw [(hpos t.source e.source).mpr (by rw [he])] at hs
    cases hs
  · rename_i hs ht
    refine ⟨fun he => (by cases he), fun he => ?_⟩
    rw [(hpos t.target e.target).mpr (by rw [he])] at ht
    cases ht

/-- Items put into the rows of their keys, the last of them first. -/
theorem get_foldr_set {α β : Type} (key : α → Fin n) (f : α → β) (xs : List α) (i : Fin n) :
    (xs.foldr (fun x (rows : Vector (List β) n) =>
      rows.set (key x) (f x :: rows.get (key x)) (key x).isLt) (.replicate n [])).get i =
      (xs.filter (key · = i)).map f := by
  induction xs with
  | nil => exact Vector.getElem_replicate i.isLt
  | cons x xs ih =>
    rw [List.foldr_cons]
    refine (Vector.getElem_set (key x).isLt i.isLt).trans ?_
    by_cases hx : key x = i
    · subst hx
      simp [ih]
    · rw [if_neg fun h => hx (Fin.ext h), List.filter_cons_of_neg (by simpa using hx)]
      exact ih

theorem get_outgoingOf (edges : List (Edge n)) (i : Fin n) :
    (outgoingOf edges).get i = (edges.filter (·.source = i)).map fun e => (e.label, e.target) :=
  get_foldr_set Edge.source (fun e => (e.label, e.target)) edges i

theorem get_incomingOf (edges : List (Edge n)) (j : Fin n) :
    (incomingOf edges).get j = (edges.filter (·.target = j)).map (·.source) :=
  get_foldr_set Edge.target Edge.source edges j

theorem initialPosition_eq_ok {states : Vector State n} {positions : Std.TreeMap StateId (Fin n)}
    (hpos : ∀ id (i : Fin n), positions[id]? = some i ↔ (states.get i).id = id)
    (hmem : ∀ s, s ∈ a.states ↔ ∃ i : Fin n, states.get i = s) :
    ∃ initial, initialPosition a positions = .ok initial ∧
      initial.map (fun i => states.get i) = a.initialState? := by
  unfold initialPosition
  cases hs : a.initialState? with
  | none => exact ⟨none, rfl, rfl⟩
  | some s =>
    obtain ⟨i, hi⟩ := (hmem s).mp (List.mem_of_find?_eq_some hs)
    have hp : positions[s.id]? = some i := (hpos _ _).mpr (by rw [hi])
    exact ⟨some i, by simp [hp, Functor.map, Except.map], congrArg some hi⟩

theorem sorted_of_nodup (h : a.ids.Nodup) :
    (∀ i j : Fin a.states.length, i < j →
        ((sortedStates a).get i).id < ((sortedStates a).get j).id) ∧
      (∀ id (i : Fin a.states.length),
        (positionsOf (sortedStates a))[id]? = some i ↔ ((sortedStates a).get i).id = id) ∧
      ∀ s, s ∈ a.states ↔ ∃ i : Fin a.states.length, (sortedStates a).get i = s := by
  have hp : ((sortedStates a).toList.map (·.id)).Pairwise (· < ·) :=
    (firstRepeat?_eq_none_iff (pairwise_sortedStates a)).mp ((firstRepeat?_sortedStates a).mpr h)
  have hasc := ascending_of_pairwise hp
  refine ⟨hasc, getElem?_positionsOf ?_, ?_⟩
  · intro i j he
    rcases Nat.lt_trichotomy i j with hij | hij | hij
    · exact absurd (he ▸ hasc i j hij) (UInt32.lt_irrefl _)
    · exact Fin.ext hij
    · exact absurd (he ▸ hasc j i hij) (UInt32.lt_irrefl _)
  · intro s
    rw [← (sortedStates_perm a).mem_iff, Vector.mem_toList_iff, Vector.mem_iff_getElem]
    exact ⟨fun ⟨i, hi, he⟩ => ⟨⟨i, hi⟩, he⟩, fun ⟨i, he⟩ => ⟨i, i.isLt, he⟩⟩

theorem ofAutomaton_eq_ok {ix : Index a.states.length} :
    (ofAutomaton a).outcome = .ok ix ↔
      a.ids.Nodup ∧ ∃ initial edges,
        initialPosition a (positionsOf (sortedStates a)) = .ok initial ∧
        a.transitions.mapM (resolve (positionsOf (sortedStates a))) = .ok edges ∧
        ix = {
          states := sortedStates a
          positions := positionsOf (sortedStates a)
          initial
          accepting := acceptingOf (sortedStates a)
          outgoing := outgoingOf edges
          incoming := incomingOf edges
          alphabet := a.alphabet } := by
  unfold ofAutomaton
  rw [← firstRepeat?_sortedStates]
  cases hf : firstRepeat? ((sortedStates a).toList.map (·.id)) with
  | some id =>
    simp only [hf, Logged.outcome_refuse, reduceCtorEq, false_and]
  | none =>
    simp only [hf, Logged.outcome_bind, Logged.outcome_silent, Logged.outcome_emitAll,
      Logged.outcome_pure, Outcome.bind_eq_ok, true_and, Except.ok.injEq]
    constructor
    · rintro ⟨initial, hi, _, edges, he, rfl⟩
      exact ⟨initial, edges, hi, he, rfl⟩
    · rintro ⟨initial, edges, hi, he, rfl⟩
      exact ⟨initial, hi, (), edges, he, rfl⟩

theorem mapM_resolve_eq_ok (h : a.ids.Nodup) {edges : List (Edge a.states.length)} :
    a.transitions.mapM (resolve (positionsOf (sortedStates a))) = .ok edges ↔
      a.transitions = edges.map fun e =>
        ⟨((sortedStates a).get e.source).id, ((sortedStates a).get e.target).id, e.label⟩ := by
  obtain ⟨-, hpos, -⟩ := sorted_of_nodup h
  rw [Outcome.mapM_eq_ok, ← List.forall₂_eq_eq_eq, List.forall₂_map_right_iff]
  simp only [resolve_eq_ok hpos]

theorem represents_of_eq_ok {ix : Index a.states.length} (h : (ofAutomaton a).outcome = .ok ix) :
    ix.Represents a := by
  obtain ⟨hn, initial, edges, hi, he, rfl⟩ := ofAutomaton_eq_ok.mp h
  obtain ⟨hasc, hpos, hmem⟩ := sorted_of_nodup hn
  have hts := (mapM_resolve_eq_ok hn).mp he
  have hinj : ∀ i j : Fin a.states.length,
      ((sortedStates a).get i).id = ((sortedStates a).get j).id → i = j := by
    intro i j hij
    exact Option.some.inj (((hpos _ i).mpr rfl).symm.trans ((hpos _ j).mpr hij.symm))
  obtain ⟨initial', hi', hs⟩ := initialPosition_eq_ok hpos hmem
  rw [hi, Except.ok.injEq] at hi'
  subst hi'
  constructor
  case ascending => exact hasc
  case mem_states => exact hmem
  case positions => exact hpos
  case initial => exact hs
  case accepting => simp [acceptingOf]
  case resolved =>
    intro t ht
    rw [hts] at ht
    obtain ⟨e, -, rfl⟩ := List.mem_map.mp ht
    exact ⟨e.source, e.target, rfl, rfl⟩
  case outgoing =>
    intro i l j
    rw [get_outgoingOf, hts]
    simp only [List.mem_map, List.mem_filter, decide_eq_true_eq, idAt]
    constructor
    · rintro ⟨e, ⟨hmem, rfl⟩, heq⟩
      cases heq
      exact ⟨e, hmem, rfl⟩
    · rintro ⟨e, hmem, heq⟩
      obtain ⟨hsource, htarget, rfl⟩ := Transition.mk.inj heq
      exact ⟨e, ⟨hmem, hinj _ _ hsource⟩, by rw [hinj _ _ htarget]⟩
  case incoming =>
    intro i j
    rw [get_incomingOf, hts]
    simp only [List.mem_map, List.mem_filter, decide_eq_true_eq, idAt]
    constructor
    · rintro ⟨e, ⟨hmem, rfl⟩, rfl⟩
      exact ⟨e.label, e, hmem, rfl⟩
    · rintro ⟨l, e, hmem, heq⟩
      obtain ⟨hsource, htarget, rfl⟩ := Transition.mk.inj heq
      exact ⟨e, ⟨hmem, hinj _ _ htarget⟩, hinj _ _ hsource⟩
  case alphabet => rfl

theorem wellFormed_of_eq_ok {ix : Index a.states.length} (h : (ofAutomaton a).outcome = .ok ix) :
    a.WellFormed := by
  have hr := represents_of_eq_ok h
  refine ⟨(ofAutomaton_eq_ok.mp h).1, ?_⟩
  intro t ht
  obtain ⟨i, j, hi, hj⟩ := hr.resolved t ht
  exact ⟨hr.mem_ids_iff.mpr ⟨i, hi⟩, hr.mem_ids_iff.mpr ⟨j, hj⟩⟩

theorem exists_index (h : a.WellFormed) :
    ∃ ix, (ofAutomaton a).outcome = .ok ix ∧ ix.Represents a := by
  obtain ⟨-, hpos, hmem⟩ := sorted_of_nodup h.nodup
  obtain ⟨initial, hi, -⟩ := initialPosition_eq_ok hpos hmem
  have hedge : ∀ t ∈ a.transitions, ∃ e, resolve (positionsOf (sortedStates a)) t = .ok e := by
    intro t ht
    obtain ⟨hs, ht⟩ := h.resolved t ht
    obtain ⟨s, hs, hsid⟩ := Automaton.mem_ids.mp hs
    obtain ⟨r, hr, hrid⟩ := Automaton.mem_ids.mp ht
    obtain ⟨i, rfl⟩ := (hmem s).mp hs
    obtain ⟨j, rfl⟩ := (hmem r).mp hr
    refine ⟨⟨i, j, t.label⟩, (resolve_eq_ok hpos).mpr ?_⟩
    rw [hsid, hrid]
  obtain ⟨edges, he⟩ := Outcome.exists_mapM_eq_ok hedge
  have hok := ofAutomaton_eq_ok.mpr ⟨h.nodup, initial, edges, hi, he, rfl⟩
  exact ⟨_, hok, represents_of_eq_ok hok⟩

theorem requireInitial_eq_ok {ix : Index n} {i : Fin n} :
    ix.requireInitial = .ok i ↔ ix.initial = some i := by
  unfold requireInitial
  cases ix.initial <;> simp

/-- Behind the index and the initial position an operation goes on with both of them. -/
theorem outcome_bind_of_initial {α : Type} {ix : Index a.states.length} {i : Fin a.states.length}
    (hix : (ofAutomaton a).outcome = .ok ix) (hi : ix.initial = some i)
    (f : Index a.states.length → Fin a.states.length → Logged α) :
    (ofAutomaton a >>= fun ix => .silent ix.requireInitial >>= f ix).outcome = (f ix i).outcome := by
  rw [Logged.outcome_bind, hix]
  change (Logged.silent ix.requireInitial >>= f ix).outcome = _
  rw [Logged.outcome_bind, Logged.outcome_silent, requireInitial_eq_ok.mpr hi]
  rfl

theorem exists_of_bind_eq_ok {α : Type} {f : Index a.states.length → Fin a.states.length → Logged α}
    {x : α} (h : (ofAutomaton a >>= fun ix => .silent ix.requireInitial >>= f ix).outcome = .ok x) :
    ∃ ix i, (ofAutomaton a).outcome = .ok ix ∧ ix.initial = some i ∧ (f ix i).outcome = .ok x := by
  rw [Logged.outcome_bind] at h
  obtain ⟨ix, hix, h⟩ := Outcome.bind_eq_ok.mp h
  rw [Logged.outcome_bind] at h
  obtain ⟨i, hi, h⟩ := Outcome.bind_eq_ok.mp h
  exact ⟨ix, i, hix, requireInitial_eq_ok.mp hi, h⟩

theorem mem_log_bind_of_initial {α : Type} {ix : Index a.states.length} {i : Fin a.states.length}
    (hix : (ofAutomaton a).outcome = .ok ix) (hi : ix.initial = some i)
    (f : Index a.states.length → Fin a.states.length → Logged α) {e : Event}
    (he : e ∈ (f ix i).log) :
    e ∈ (ofAutomaton a >>= fun ix => .silent ix.requireInitial >>= f ix).log := by
  have hinitial : (Logged.silent ix.requireInitial).outcome = .ok i := requireInitial_eq_ok.mpr hi
  exact Logged.mem_log_bind.mpr (Or.inr ⟨ix, hix, Logged.mem_log_bind.mpr (Or.inr ⟨i, hinitial, he⟩)⟩)

theorem exists_of_mem_log {e : Event} (h : e ∈ (ofAutomaton a).log) : ∃ id, e = .extraInitial id := by
  unfold ofAutomaton at h
  dsimp only at h
  split at h
  · simp at h
  · simp only [Logged.mem_log_bind, Logged.log_silent, Logged.log_emitAll, Logged.log_pure,
      List.not_mem_nil, false_or, and_false, exists_false, or_false] at h
    obtain ⟨-, -, h⟩ := h
    obtain ⟨s, -, rfl⟩ := List.mem_map.mp h
    exact ⟨s.id, rfl⟩

end Index

namespace Automaton
variable {a : Automaton}

theorem isEmpty_eq_false {s : State} (hs : a.initialState? = some s) : a.isEmpty = false := by
  have hmem : s ∈ a.states := List.mem_of_find?_eq_some hs
  rw [isEmpty, List.isEmpty_eq_false_iff]
  exact List.ne_nil_of_mem hmem

theorem WellFormed.length_le (h : a.WellFormed) : a.states.length ≤ UInt32.size := by
  obtain ⟨ix, -, hr⟩ := Index.exists_index h
  exact hr.length_le

theorem exists_initial {n : Nat} {ix : Index n} (h : ix.Represents a) {s : State}
    (hs : a.initialState? = some s) : ∃ i, ix.initial = some i ∧ (ix.states.get i) = s :=
  Option.map_eq_some_iff.mp (h.initial.trans hs)

theorem toNat_ofNat {i k : Nat} (hk : k ≤ UInt32.size) (hi : i < k) :
    (UInt32.ofNat i).toNat = i := UInt32.toNat_ofNat_of_lt' (Nat.lt_of_lt_of_le hi hk)

theorem ofNat_inj {i j k : Nat} (hk : k ≤ UInt32.size) (hi : i < k) (hj : j < k) :
    UInt32.ofNat i = UInt32.ofNat j ↔ i = j := by
  constructor
  · intro h
    rw [← toNat_ofNat hk hi, h, toNat_ofNat hk hj]
  · exact fun h => h ▸ rfl

theorem ofNat_lt {i j k : Nat} (hk : k ≤ UInt32.size) (hi : i < k) (hj : j < k) :
    UInt32.ofNat i < UInt32.ofNat j ↔ i < j := by
  rw [UInt32.lt_iff_toNat_lt, toNat_ofNat hk hi, toNat_ofNat hk hj]

/-- The ids are the numbers of the states in their order. -/
def Numbered (a : Automaton) (k : Nat) : Prop := a.ids = (List.range k).map UInt32.ofNat

theorem Numbered.nodup {k : Nat} (h : a.Numbered k) (hk : k ≤ UInt32.size) : a.ids.Nodup := by
  rw [h]
  refine List.Nodup.map_on ?_ List.nodup_range
  intro i hi j hj he
  exact (ofNat_inj hk (List.mem_range.mp hi) (List.mem_range.mp hj)).mp he

theorem Numbered.map_toNat {k : Nat} (h : a.Numbered k) (hk : k ≤ UInt32.size) :
    a.ids.map UInt32.toNat = List.range a.states.length := by
  have hlength : a.states.length = k := by
    rw [← List.length_map (State.id), ← ids, h, List.length_map, List.length_range]
  rw [h, hlength, List.map_map]
  refine (List.map_congr_left fun i hi => ?_).trans (List.map_id _)
  exact toNat_ofNat hk (List.mem_range.mp hi)

theorem Numbered.mem_ids {i k : Nat} (h : a.Numbered k) (hi : i < k) : UInt32.ofNat i ∈ a.ids := by
  rw [h]
  exact List.mem_map.mpr ⟨i, List.mem_range.mpr hi, rfl⟩

end Automaton
end FiniteAutomata
