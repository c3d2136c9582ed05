import FiniteAutomata.Determinization
import FiniteAutomata.Simulation
import FiniteAutomata.Language.Description
import FiniteAutomata.Minimization.Minimize
import FiniteAutomata.Proofs.WellFormed

/-! # Ill-formed automata are refused

An ill-formed automaton has no index, and the error that stands in its place says what is wrong with
it first: the smallest id that is repeated, or else the first transition with a missing end. So every
operation that asks for an index first is refused. Two of them look at automata without states before:
for them there is nothing to run and nothing to minimize.
-/
namespace FiniteAutomata

namespace Automaton
variable {a : Automaton} {e : Error}

/-- The error says what is wrong with the automaton. -/
inductive Flaw (a : Automaton) : Error → Prop where
  | repeated {id : StateId} : 2 ≤ a.ids.count id → Flaw a (.duplicateState id)
  | dangling {t : Transition} {missing : StateId} : t ∈ a.transitions →
    missing = t.source ∨ missing = t.target → missing ∉ a.ids →
    Flaw a (.danglingTransition t.source t.target missing)

/-- The error says what is wrong first: of all repeated ids the smallest, or else the first transition
with a missing end; of two missing ends the source. -/
inductive FirstFlaw (a : Automaton) : Error → Prop where
  | repeated {id : StateId} : 2 ≤ a.ids.count id → (∀ p, 2 ≤ a.ids.count p → id ≤ p) →
    FirstFlaw a (.duplicateState id)
  | dangling {ts us : List Transition} {t : Transition} {missing : StateId} : a.ids.Nodup →
    a.transitions = ts ++ t :: us → (∀ u ∈ ts, u.source ∈ a.ids ∧ u.target ∈ a.ids) →
    missing ∉ a.ids → missing = t.source ∨ t.source ∈ a.ids ∧ missing = t.target →
    FirstFlaw a (.danglingTransition t.source t.target missing)

/-- The error of a transition with an end outside a list of ids; of two such ends the source is named. -/
def dangling? (ids : List StateId) (t : Transition) : Option Error :=
  if t.source ∉ ids then some (.danglingTransition t.source t.target t.source)
  else if t.target ∉ ids then some (.danglingTransition t.source t.target t.target)
  else none

/-- What is found to be wrong with an automaton: the smallest repeated id, or else the first transition
with a missing end. -/
def flaw? (a : Automaton) : Option Error :=
  match Index.firstRepeat? (a.ids.mergeSort fun p q => p ≤ q) with
  | some id => some (.duplicateState id)
  | none => a.transitions.findSome? (dangling? a.ids)

theorem dangling?_eq_none_iff {ids : List StateId} {t : Transition} :
    dangling? ids t = none ↔ t.source ∈ ids ∧ t.target ∈ ids := by
  unfold dangling?
  by_cases hsource : t.source ∈ ids <;> by_cases htarget : t.target ∈ ids <;>
    simp [hsource, htarget]

theorem dangling?_eq_some_iff {ids : List StateId} {t : Transition} :
    dangling? ids t = some e ↔ ∃ missing, missing ∉ ids ∧
      (missing = t.source ∨ t.source ∈ ids ∧ missing = t.target) ∧
      .danglingTransition t.source t.target missing = e := by
  unfold dangling?
  by_cases hsource : t.source ∈ ids
  · by_cases htarget : t.target ∈ ids
    · simp only [hsource, htarget, not_true_eq_false, if_false, reduceCtorEq, false_iff]
      rintro ⟨missing, hmissing, rfl | ⟨-, rfl⟩, -⟩
      · exact hmissing hsource
      · exact hmissing htarget
    · simp only [hsource, htarget, not_true_eq_false, not_false_eq_true, if_false, if_true,
        Option.some.injEq, true_and]
      constructor
      · exact fun he => ⟨_, htarget, Or.inr rfl, he⟩
      · rintro ⟨missing, hmissing, rfl | rfl, he⟩
        · exact absurd hsource hmissing
        · exact he
  · simp only [hsource, not_false_eq_true, if_true, Option.some.injEq, false_and, or_false]
    constructor
    · exact fun he => ⟨_, hsource, rfl, he⟩
    · rintro ⟨missing, -, rfl, he⟩
      exact he

theorem FirstFlaw.flaw (h : a.FirstFlaw e) : a.Flaw e := by
  cases h with
  | repeated hcount _ => exact .repeated hcount
  | dangling _ hsplit _ hmissing hend =>
    refine .dangling (by simp [hsplit]) ?_ hmissing
    exact hend.imp_right And.right

theorem Flaw.kind_eq (h : a.Flaw e) : e.kind = .invalidAutomaton := by
  cases h <;> rfl

theorem Flaw.not_wellFormed (h : a.Flaw e) : ¬ a.WellFormed := by
  intro hw
  cases h with
  | repeated hcount =>
    have hle := List.nodup_iff_count_le_one.mp hw.nodup
    exact absurd (hle _) (Nat.not_le_of_lt hcount)
  | dangling ht hend hmissing =>
    obtain ⟨hsource, htarget⟩ := hw.resolved _ ht
    rcases hend with rfl | rfl
    · exact hmissing hsource
    · exact hmissing htarget

end Automaton

namespace Index
variable {n : Nat} {a : Automaton} {e : Error}

theorem firstRepeat?_eq_some_iff {ids : List StateId} (h : ids.Pairwise (· ≤ ·)) {id : StateId} :
    firstRepeat? ids = some id ↔ 2 ≤ ids.count id ∧ ∀ p, 2 ≤ ids.count p → id ≤ p := by
  fun_induction firstRepeat? ids with
  | case1 b rest =>
    have hb : 2 ≤ (b :: b :: rest).count b := by simp
    have hle : ∀ p, 2 ≤ (b :: b :: rest).count p → b ≤ p := by
      intro p hp
      rcases List.mem_cons.mp (List.count_pos_iff.mp (Nat.lt_of_lt_of_le Nat.zero_lt_two hp)) with
        rfl | hp
      · exact UInt32.le_refl _
      · exact List.rel_of_pairwise_cons h hp
    rw [Option.some.injEq]
    constructor
    · rintro rfl
      exact ⟨hb, hle⟩
    · rintro ⟨hid, hmin⟩
      exact UInt32.le_antisymm (hle id hid) (hmin b hb)
  | case2 b c rest hne ih =>
    have htail := List.Pairwise.of_cons h
    have hnew : b ∉ c :: rest := by
      intro hb
      have hbc := List.rel_of_pairwise_cons h List.mem_cons_self
      rcases List.mem_cons.mp hb with rfl | hb
      · exact hne rfl
      · exact hne (UInt32.le_antisymm hbc (List.rel_of_pairwise_cons htail hb))
    have hcount : ∀ p, 2 ≤ (b :: c :: rest).count p ↔ 2 ≤ (c :: rest).count p := by
      intro p
      by_cases hp : p = b
      · subst hp
        rw [List.count_cons_self, List.count_eq_zero_of_not_mem hnew]
        decide
      · rw [List.count_cons_of_ne (Ne.symm hp)]
    rw [ih htail]
    simp only [hcount]
  | case3 ids hshort =>
    refine iff_of_false (fun he => by cases he) ?_
    rintro ⟨hcount, -⟩
    rcases ids with _ | ⟨b, _ | ⟨c, rest⟩⟩
    · exact absurd hcount (by simp)
    · exact absurd hcount (Nat.not_le_of_lt (Nat.lt_succ_of_le List.count_le_length))
    · exact hshort b c rest rfl

theorem ids_sortedStates (a : Automaton) :
    (sortedStates a).toList.map (·.id) = a.ids.mergeSort fun p q => p ≤ q := by
  rw [toList_sortedStates]
  exact List.map_mergeSort fun _ _ _ _ => rfl

theorem getElem?_positionsOf_eq_none (h : a.ids.Nodup) (id : StateId) :
    (positionsOf (sortedStates a))[id]? = none ↔ id ∉ a.ids := by
  obtain ⟨-, hpos, hmem⟩ := sorted_of_nodup h
  rw [Automaton.mem_ids, Option.eq_none_iff_forall_ne_some]
  constructor
  · rintro hnone ⟨s, hs, rfl⟩
    obtain ⟨i, rfl⟩ := (hmem s).mp hs
    exact hnone i ((hpos _ i).mpr rfl)
  · intro hmissing i hi
    exact hmissing ⟨_, (hmem _).mpr ⟨i, rfl⟩, (hpos id i).mp hi⟩

theorem resolve_spec (h : a.ids.Nodup) (t : Transition) :
    match Automaton.dangling? a.ids t with
    | some e => resolve (positionsOf (sortedStates a)) t = .refuse e
    | none => ∃ edge, resolve (positionsOf (sortedStates a)) t = .ok edge := by
  have hnone := getElem?_positionsOf_eq_none h
  unfold Automaton.dangling? resolve
  cases hs : (positionsOf (sortedStates a))[t.source]? with
  | none => rw [if_pos ((hnone _).mp hs)]
  | some source =>
    have hsource : ¬ t.source ∉ a.ids := fun hm => by simp [(hnone _).mpr hm] at hs
    rw [if_neg hsource]
    cases ht : (positionsOf (sortedStates a))[t.target]? with
    | none => rw [if_pos ((hnone _).mp ht)]
    | some target =>
      have htarget : ¬ t.target ∉ a.ids := fun hm => by simp [(hnone _).mpr hm] at ht
      rw [if_neg htarget]
      exact ⟨_, rfl⟩

theorem mapM_resolve_of_findSome? (h : a.ids.Nodup) {ts : List Transition}
    (he : ts.findSome? (Automaton.dangling? a.ids) = some e) :
    ts.mapM (resolve (positionsOf (sortedStates a))) = .refuse e := by
  induction ts with
  | nil => cases he
  | cons t ts ih =>
    have ht := resolve_spec h t
    rw [List.findSome?_cons] at he
    rw [List.mapM_cons]
    cases hd : Automaton.dangling? a.ids t with
    | some e' =>
      rw [hd] at he ht
      cases he
      rw [ht]
      rfl
    | none =>
      rw [hd] at he ht
      obtain ⟨edge, hedge⟩ := ht
      rw [hedge, ih he]
      rfl

theorem outcome_of_flaw? (h : a.flaw? = some e) : (ofAutomaton a).outcome = .refuse e := by
  unfold Automaton.flaw? at h
  rw [← ids_sortedStates] at h
  unfold ofAutomaton
  cases hf : firstRepeat? ((sortedStates a).toList.map (·.id)) with
  | some id =>
    rw [hf] at h
    cases h
    simp only [hf, Logged.outcome_refuse]
  | none =>
    rw [hf] at h
    have hn := (firstRepeat?_sortedStates a).mp hf
    obtain ⟨-, hpos, hmem⟩ := sorted_of_nodup hn
    obtain ⟨initial, hi, -⟩ := initialPosition_eq_ok hpos hmem
    simp only [hf, Logged.outcome_bind, Logged.outcome_silent, Logged.outcome_emitAll, hi,
      mapM_resolve_of_findSome? hn h]
    rfl

theorem wellFormed_of_flaw? (h : a.flaw? = none) : a.WellFormed := by
  unfold Automaton.flaw? at h
  rw [← ids_sortedStates] at h
  cases hf : firstRepeat? ((sortedStates a).toList.map (·.id)) with
  | some id =>
    rw [hf] at h
    cases h
  | none =>
    rw [hf] at h
    refine ⟨(firstRepeat?_sortedStates a).mp hf, fun t ht => ?_⟩
    exact Automaton.dangling?_eq_none_iff.mp (List.findSome?_eq_none_iff.mp h t ht)

theorem flaw?_eq_some_iff : a.flaw? = some e ↔ a.FirstFlaw e := by
  have hperm : ((sortedStates a).toList.map (·.id)).Perm a.ids := (sortedStates_perm a).map _
  have hnodup : ∀ {id}, a.ids.Nodup → ¬ 2 ≤ a.ids.count id := fun {id} hn =>
    Nat.not_le_of_lt (Nat.lt_succ_of_le (List.nodup_iff_count_le_one.mp hn id))
  unfold Automaton.flaw?
  rw [← ids_sortedStates]
  cases hf : firstRepeat? ((sortedStates a).toList.map (·.id)) with
  | some id =>
    obtain ⟨hcount, hmin⟩ := (firstRepeat?_eq_some_iff (pairwise_sortedStates a)).mp hf
    simp only [hperm.count_eq] at hcount hmin
    constructor
    · rintro ⟨⟩
      exact .repeated hcount hmin
    · intro h
      cases h with
      | repeated hcount' hmin' => rw [UInt32.le_antisymm (hmin _ hcount') (hmin' _ hcount)]
      | dangling hn => exact absurd hcount (hnodup hn)
  | none =>
    have hn := (firstRepeat?_sortedStates a).mp hf
    dsimp only
    rw [List.findSome?_eq_some_iff]
    constructor
    · rintro ⟨ts, t, us, hsplit, ht, hts⟩
      obtain ⟨missing, hmissing, hend, rfl⟩ := Automaton.dangling?_eq_some_iff.mp ht
      exact .dangling hn hsplit (fun u hu => Automaton.dangling?_eq_none_iff.mp (hts u hu)) hmissing
        hend
    · intro h
      cases h with
      | repeated hcount => exact absurd hcount (hnodup hn)
      | dangling _ hsplit hts hmissing hend =>
        exact ⟨_, _, _, hsplit, Automaton.dangling?_eq_some_iff.mpr ⟨_, hmissing, hend, rfl⟩,
          fun u hu => Automaton.dangling?_eq_none_iff.mpr (hts u hu)⟩

theorem outcome_eq_refuse_iff : (ofAutomaton a).outcome = .refuse e ↔ a.FirstFlaw e := by
  rw [← flaw?_eq_some_iff]
  refine ⟨fun h => ?_, outcome_of_flaw?⟩
  cases hf : a.flaw? with
  | none =>
    obtain ⟨ix, hix, -⟩ := exists_index (wellFormed_of_flaw? hf)
    rw [hix] at h
    cases h
  | some e' =>
    rw [outcome_of_flaw? hf] at h
    cases h
    rfl

theorem exists_flaw (h : ¬ a.WellFormed) : ∃ e, (ofAutomaton a).outcome = .refuse e ∧ a.Flaw e := by
  cases hf : a.flaw? with
  | none => exact absurd (wellFormed_of_flaw? hf) h
  | some e => exact ⟨e, outcome_of_flaw? hf, (flaw?_eq_some_iff.mp hf).flaw⟩

end Index

namespace Logged
variable {α β : Type} {k : ErrorKind} {x : Logged α}

/-- The operation ends in an error of the kind. -/
def Refuses (x : Logged α) (k : ErrorKind) : Prop := ∃ e, x.outcome = .refuse e ∧ e.kind = k

theorem Refuses.bind (h : x.Refuses k) (f : α → Logged β) : (x >>= f).Refuses k := by
  obtain ⟨e, he, hk⟩ := h
  exact ⟨e, by rw [outcome_bind, he]; rfl, hk⟩

end Logged

namespace Automaton
variable {a : Automaton}

theorem refuses_ofAutomaton (h : ¬ a.WellFormed) :
    (Index.ofAutomaton a).Refuses .invalidAutomaton := by
  obtain ⟨e, he, hflaw⟩ := Index.exists_flaw h
  exact ⟨e, he, hflaw.kind_eq⟩

/-- Looking for states first changes the error, but not its kind. -/
theorem refuses_unless_empty {α : Type} (h : ¬ a.WellFormed) (f : Index a.states.length → Logged α) :
    (if a.isEmpty then .refuse .emptyAutomaton
      else Index.ofAutomaton a >>= f).Refuses .invalidAutomaton := by
  split
  · exact ⟨.emptyAutomaton, rfl, rfl⟩
  · exact (refuses_ofAutomaton h).bind f

/-- Every operation refuses an ill-formed automaton as invalid, but for the two that have an answer
for automata without states, whatever transitions these have. No word is run on them: the report is
not accepting and says why. -/
theorem refuses_of_not_wellFormed (h : ¬ a.WellFormed) (limits : Limits) (count length : Nat)
    (word : String) :
    (a.determinize limits).Refuses .invalidAutomaton ∧
      (a.toDeterministic limits).Refuses .invalidAutomaton ∧
      (a.simplify limits).Refuses .invalidAutomaton ∧
      a.table.Refuses .invalidAutomaton ∧
      a.structureReport.Refuses .invalidAutomaton ∧
      (a.samples count length).Refuses .invalidAutomaton ∧
      a.describe.Refuses .invalidAutomaton ∧
      (a.states ≠ [] → (a.simulate word).Refuses .invalidAutomaton ∧
        (a.minimize limits).Refuses .invalidAutomaton) ∧
      (a.states = [] →
        (a.simulate word).outcome = .ok (Simulation.notRun "Automaton is empty.")) := by
  have hindex := refuses_ofAutomaton h
  have hdeterminize : (a.determinize limits).Refuses .invalidAutomaton := hindex.bind _
  have htable : a.table.Refuses .invalidAutomaton := refuses_unless_empty h _
  refine ⟨hdeterminize, hdeterminize.bind _, hindex.bind _, htable, refuses_unless_empty h _,
    hindex.bind _, hindex.bind _, ?_, ?_⟩
  · intro hne
    have hempty : a.isEmpty = false := List.isEmpty_eq_false_iff.mpr hne
    constructor
    · rw [simulate, hempty]
      exact hindex.bind _
    · rw [minimize, hempty]
      exact htable.bind _
  · intro hnone
    have hempty : a.isEmpty = true := List.isEmpty_iff.mpr hnone
    rw [simulate, hempty]
    rfl

/-- A transition leads to a state that does not exist. -/
def lostTarget : Automaton where
  states := [{ id := 0, isInitial := true, isFinal := true }]
  transitions := [⟨0, 0, .symbol 'a'⟩, ⟨0, 4, .symbol 'b'⟩]

theorem lostTarget_flaw : lostTarget.Flaw (.danglingTransition 0 4 4) :=
  .dangling (t := ⟨0, 4, .symbol 'b'⟩) (by decide) (Or.inr rfl) (by decide)

theorem refuses_lostTarget :
    ¬ lostTarget.WellFormed ∧ lostTarget.describe.Refuses .invalidAutomaton ∧
      (lostTarget.simulate "a").Refuses .invalidAutomaton ∧
      (lostTarget.minimize {}).Refuses .invalidAutomaton := by
  have h := lostTarget_flaw.not_wellFormed
  obtain ⟨-, -, -, -, -, -, hdescribe, hstates, -⟩ := refuses_of_not_wellFormed h {} 5 15 "a"
  exact ⟨h, hdescribe, hstates (List.cons_ne_nil _ _)⟩

/-- There are no states for the transition. -/
def strayTransition : Automaton where
  states := []
  transitions := [⟨0, 1, .symbol 'a'⟩]

theorem strayTransition_not_refused :
    ¬ strayTransition.WellFormed ∧
      (strayTransition.simulate "a").outcome = .ok (Simulation.notRun "Automaton is empty.") ∧
      (strayTransition.minimize {}).outcome = .ok .empty := by
  have hflaw : strayTransition.Flaw (.danglingTransition 0 1 0) :=
    .dangling (t := ⟨0, 1, .symbol 'a'⟩) (by decide) (Or.inl rfl) (by decide)
  exact ⟨hflaw.not_wellFormed, rfl, rfl⟩

end Automaton
end FiniteAutomata
