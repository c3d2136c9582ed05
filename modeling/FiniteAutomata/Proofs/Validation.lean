import FiniteAutomata.Proofs.Refusal
import FiniteAutomata.Proofs.Table

/-! # What validation reports

An automaton is deterministic if nothing is wrong with it, and otherwise validation reports what is
wrong first. Transitions are entered into the table in their order of declaration, so the one that is
blamed is the first that cannot be entered after all those before it.
-/
namespace FiniteAutomata

namespace Table
variable {n : Nat} {ix : Index n} {a : Automaton} {ts us : List Transition} {t u : Transition}
  {cells : Array (Option Nat)} {e : Error}

/-- The transitions can be entered one after the other. -/
structure Enterable (ts : List Transition) : Prop where
  symbols : ∀ t ∈ ts, ∃ c, t.label = .symbol c
  compatible : ts.Pairwise Transition.Compatible

theorem enterable_nil : Enterable [] where
  symbols := fun _ ht => absurd ht List.not_mem_nil
  compatible := .nil

theorem Enterable.concat (h : Enterable ts) (ht : Enters ts t) : Enterable (ts ++ [t]) where
  symbols := by
    intro u hu
    rcases List.mem_append.mp hu with hu | hu
    · exact h.symbols u hu
    · obtain rfl := List.mem_singleton.mp hu
      exact ht.1
  compatible := ht.pairwise h.compatible

theorem exists_first_of_not_enterable (h : ¬ Enterable ts) :
    ∃ us t vs, ts = us ++ t :: vs ∧ Enterable us ∧ ¬ Enters us t := by
  induction ts using List.reverseRecOn with
  | nil => exact absurd enterable_nil h
  | append_singleton ts t ih =>
    by_cases hts : Enterable ts
    · exact ⟨ts, t, [], rfl, hts, fun ht => h (hts.concat ht)⟩
    · obtain ⟨us, u, vs, rfl, hus, hu⟩ := ih hts
      exact ⟨us, u, vs ++ [t], by simp, hus, hu⟩

theorem not_enters_iff : ¬ Enters ts t ↔ t.label = .epsilon ∨
    ∃ c, t.label = .symbol c ∧ ∃ u ∈ ts, u.source = t.source ∧ u.label = .symbol c := by
  unfold Enters Transition.Compatible
  cases hl : t.label with
  | epsilon => simp
  | symbol c => simp

theorem exists_filled (hr : ix.Represents a) (hts : ∀ t ∈ ts, t ∈ a.transitions)
    (h : Enterable ts) :
    ∃ cells, ts.foldlM (enter ix) (Array.replicate (n * ix.alphabet.length) none) = .ok cells ∧
      Filled ix ts cells := by
  have hmem : ∀ t ∈ [] ++ ts, t ∈ a.transitions := hts
  obtain ⟨hiff, hfill⟩ := enterAll_spec hr (filled_blank ix) hmem List.Pairwise.nil
  obtain ⟨cells, hcells⟩ := hiff.mpr ⟨h.symbols, h.compatible⟩
  exact ⟨cells, hcells, hfill cells hcells⟩

/-- The table is refused with the error of the first transition that cannot be entered. -/
theorem ofIndex_eq_refuse (hr : ix.Represents a) (hsplit : a.transitions = ts ++ t :: us)
    (h : Enterable ts) (he : ∀ cells, Filled ix ts cells → enter ix cells t = .refuse e) :
    ofIndex ix a.transitions = .refuse e := by
  have hts : ∀ u ∈ ts, u ∈ a.transitions := fun u hu => hsplit ▸ List.mem_append_left _ hu
  obtain ⟨cells, hcells, hfilled⟩ := exists_filled hr hts h
  rw [ofIndex, hsplit, List.foldlM_append, hcells, Outcome.ok_bind, List.foldlM_cons, he cells hfilled]
  rfl

theorem enter_epsilon (h : t.label = .epsilon) :
    enter ix cells t = .refuse .epsilonInDeterministic := by
  unfold enter
  rw [h]

theorem enter_clash (hr : ix.Represents a) (hf : Filled ix ts cells) (ht : t ∈ a.transitions)
    (hts : ∀ u ∈ ts, u ∈ a.transitions) {c : Char} (hc : t.label = .symbol c) (hu : u ∈ ts)
    (hsource : u.source = t.source) (hlabel : u.label = .symbol c) {s : State} (hs : s ∈ a.states)
    (hid : s.id = t.source) : enter ix cells t = .refuse (.notDeterministic s.label c) := by
  obtain ⟨source, target, label⟩ := t
  obtain ⟨source', target', label'⟩ := u
  dsimp only at hc hsource hlabel hid
  subst hc hsource hlabel hid
  obtain ⟨k, rfl⟩ := (hr.mem_states s).mp hs
  obtain ⟨-, j, -, rfl⟩ := hr.resolved _ ht
  obtain ⟨-, j', -, rfl⟩ := hr.resolved _ (hts _ hu)
  obtain ⟨column, hcolumn⟩ := hr.exists_column ht
  exact enter_taken hr hcolumn ((hf.cell k column c hcolumn j'.val).mpr ⟨j', rfl, hu⟩)

end Table

namespace Automaton
variable {a : Automaton} {e : Error}

/-- The error says what keeps an automaton from being deterministic first: it has no states, it is
ill-formed, a transition cannot be entered after those before it, or no state is initial. -/
inductive FirstFault (a : Automaton) : Error → Prop where
  | empty : a.states = [] → FirstFault a .emptyAutomaton
  | flaw {e : Error} : a.states ≠ [] → a.FirstFlaw e → FirstFault a e
  | epsilon {ts us : List Transition} {t : Transition} : a.states ≠ [] → a.WellFormed →
    a.transitions = ts ++ t :: us → Table.Enterable ts → t.label = .epsilon →
    FirstFault a .epsilonInDeterministic
  | clash {ts us : List Transition} {t u : Transition} {c : Char} {s : State} : a.states ≠ [] →
    a.WellFormed → a.transitions = ts ++ t :: us → Table.Enterable ts → t.label = .symbol c →
    u ∈ ts → u.source = t.source → u.label = .symbol c → s ∈ a.states → s.id = t.source →
    FirstFault a (.notDeterministic s.label c)
  | noInitial : a.states ≠ [] → a.WellFormed → Table.Enterable a.transitions →
    (∀ s ∈ a.states, s.isInitial = false) → FirstFault a .missingInitial

theorem table_of_index {ix : Index a.states.length} (hne : a.states ≠ [])
    (hix : (Index.ofAutomaton a).outcome = .ok ix) :
    a.table.outcome = Table.ofIndex ix a.transitions := by
  have hempty : a.isEmpty = false := List.isEmpty_eq_false_iff.mpr hne
  rw [table, hempty, if_neg Bool.false_ne_true, Logged.outcome_bind, hix]
  rfl

theorem FirstFault.outcome_table (h : a.FirstFault e) : a.table.outcome = .refuse e := by
  cases h with
  | empty hnone =>
    have hempty : a.isEmpty = true := List.isEmpty_iff.mpr hnone
    rw [table, hempty]
    rfl
  | flaw hne hflaw =>
    have hempty : a.isEmpty = false := List.isEmpty_eq_false_iff.mpr hne
    rw [table, hempty, if_neg Bool.false_ne_true, Logged.outcome_bind,
      Index.outcome_eq_refuse_iff.mpr hflaw]
    rfl
  | epsilon hne hw hsplit hts hepsilon =>
    obtain ⟨ix, hix, hr⟩ := Index.exists_index hw
    rw [table_of_index hne hix]
    exact Table.ofIndex_eq_refuse hr hsplit hts fun _ _ => Table.enter_epsilon hepsilon
  | @clash ts us t u c s hne hw hsplit hts hc hu hsource hlabel hs hid =>
    obtain ⟨ix, hix, hr⟩ := Index.exists_index hw
    have ht : t ∈ a.transitions := by simp [hsplit]
    have hmem : ∀ u ∈ ts, u ∈ a.transitions := fun u hu => hsplit ▸ List.mem_append_left _ hu
    rw [table_of_index hne hix]
    exact Table.ofIndex_eq_refuse hr hsplit hts fun _ hf =>
      Table.enter_clash hr hf ht hmem hc hu hsource hlabel hs hid
  | noInitial hne hw hts hnone =>
    obtain ⟨ix, hix, hr⟩ := Index.exists_index hw
    obtain ⟨cells, hcells, -⟩ := Table.exists_filled hr (fun _ ht => ht) hts
    have hinitial : ix.initial = none := by
      have hfind : a.initialState? = none := by simpa [initialState?] using hnone
      simpa [hfind] using hr.initial
    rw [table_of_index hne hix, Table.ofIndex, hcells, Outcome.ok_bind, Index.requireInitial, hinitial]
    rfl

theorem exists_firstFault (h : ¬ a.Deterministic) : ∃ e, a.FirstFault e := by
  by_cases hne : a.states = []
  · exact ⟨_, .empty hne⟩
  cases hf : a.flaw? with
  | some e => exact ⟨e, .flaw hne (Index.flaw?_eq_some_iff.mp hf)⟩
  | none =>
    have hw := Index.wellFormed_of_flaw? hf
    by_cases hts : Table.Enterable a.transitions
    · refine ⟨_, .noInitial hne hw hts fun s hs => ?_⟩
      rw [← Bool.not_eq_true]
      intro hinitial
      have hsome : a.initialState?.isSome = true := List.find?_isSome.mpr ⟨s, hs, hinitial⟩
      exact h ⟨hw, Option.isSome_iff_exists.mp hsome, hts.symbols, hts.compatible⟩
    · obtain ⟨ts, t, us, hsplit, hts, ht⟩ := Table.exists_first_of_not_enterable hts
      rcases Table.not_enters_iff.mp ht with hepsilon | ⟨c, hc, u, hu, hsource, hlabel⟩
      · exact ⟨_, .epsilon hne hw hsplit hts hepsilon⟩
      · have hmem : t ∈ a.transitions := by simp [hsplit]
        obtain ⟨s, hs, hid⟩ := mem_ids.mp (hw.resolved t hmem).1
        exact ⟨_, .clash hne hw hsplit hts hc hu hsource hlabel hs hid⟩

theorem deterministic_iff : a.Deterministic ↔ a.states ≠ [] ∧ a.ids.Nodup ∧
    (∀ t ∈ a.transitions, t.source ∈ a.ids ∧ t.target ∈ a.ids) ∧
    (∀ t ∈ a.transitions, t.label ≠ .epsilon) ∧ a.transitions.Pairwise Transition.Compatible ∧
    ∃ s ∈ a.states, s.isInitial = true := by
  have hinitial : (∃ s, a.initialState? = some s) ↔ ∃ s ∈ a.states, s.isInitial = true := by
    rw [← Option.isSome_iff_exists]
    exact List.find?_isSome
  constructor
  · rintro ⟨hw, hs, hsymbols, hcompatible⟩
    obtain ⟨s, hs, hflag⟩ := hinitial.mp hs
    exact ⟨List.ne_nil_of_mem hs, hw.nodup, hw.resolved, symbols_iff_ne_epsilon.mp hsymbols,
      hcompatible, s, hs, hflag⟩
  · rintro ⟨-, hnodup, hresolved, hsymbols, hcompatible, hs⟩
    exact ⟨⟨hnodup, hresolved⟩, hinitial.mpr hs, symbols_iff_ne_epsilon.mpr hsymbols, hcompatible⟩

theorem outcome_validate : a.validate.outcome = a.table.outcome.map fun _ => () := by
  rw [validate, Logged.outcome_bind]
  cases a.table.outcome <;> rfl

/-- Validation accepts the deterministic automata, and refuses every other with what is wrong first. -/
theorem validate_verdict (a : Automaton) :
    (a.validate.outcome = .ok () ↔ a.states ≠ [] ∧ a.ids.Nodup ∧
      (∀ t ∈ a.transitions, t.source ∈ a.ids ∧ t.target ∈ a.ids) ∧
      (∀ t ∈ a.transitions, t.label ≠ .epsilon) ∧
      a.transitions.Pairwise (fun t u => t.source = u.source → t.label ≠ u.label) ∧
      ∃ s ∈ a.states, s.isInitial = true) ∧
    (∀ e, a.validate.outcome = .refuse e ↔ a.FirstFault e) ∧
    (a.validate.outcome = .ok () ∨ ∃ e, a.FirstFault e) := by
  have hrefuse : ∀ {e}, a.FirstFault e → a.validate.outcome = .refuse e := by
    intro e h
    rw [outcome_validate, h.outcome_table]
    rfl
  refine ⟨validate_eq_ok_iff.trans deterministic_iff, fun e => ⟨fun h => ?_, hrefuse⟩, ?_⟩
  · have hnot : ¬ a.Deterministic := by
      intro hdet
      rw [validate_eq_ok_iff.mpr hdet] at h
      cases h
    obtain ⟨e', hfault⟩ := exists_firstFault hnot
    have he := hrefuse hfault
    rw [h] at he
    cases he
    exact hfault
  · by_cases hdet : a.Deterministic
    · exact Or.inl (validate_eq_ok_iff.mpr hdet)
    · exact Or.inr (exists_firstFault hdet)

/-- The second transition from 3 is blamed, not the label of the third. -/
example : ({ states := [{ id := 3, label := "q" }]
             transitions := [⟨3, 3, .symbol 'a'⟩, ⟨3, 3, .symbol 'a'⟩, ⟨3, 3, .epsilon⟩] } :
    Automaton).validate.outcome = .refuse (.notDeterministic "q" 'a') := by cbv

end Automaton
end FiniteAutomata
