import FiniteAutomata.Proofs.PowerStateLimit

/-! # How many states a determinization has

The limit is tested before a power-state is given a number, but for the one before the first symbol,
which has its number from the beginning. So a limit of none is a limit of one, a limit of at least one
is never exceeded, and no limit refuses what it leaves room for.
-/
namespace FiniteAutomata
namespace Determinization
variable {n : Nat} {ix : Index n} {a : Automaton} {s : StateSet n} {p : Progress n}
  {limit budget source : Nat} {c : Char} {i : Fin n}

/-- Behind the first number a limit of none forbids what a limit of one forbids. -/
theorem follow_max_one (hp : 0 < p.sets.size) :
    follow ix (max limit 1) source s p c = follow ix limit source s p c := by
  have hiff : max limit 1 ≤ p.sets.size ↔ limit ≤ p.sets.size := by omega
  unfold follow
  simp only [hiff]

theorem followAll_max_one {cs : List Char} (hp : 0 < p.sets.size) :
    cs.foldlM (follow ix (max limit 1) source s) p = cs.foldlM (follow ix limit source s) p := by
  induction cs generalizing p with
  | nil => rfl
  | cons c cs ih =>
    rw [List.foldlM_cons, List.foldlM_cons, follow_max_one hp]
    cases hq : follow ix limit source s p c with
    | error q => rfl
    | ok q => exact ih (Nat.lt_of_lt_of_le hp (size_le_of_follow hq))

theorem expand_max_one (hp : 0 < p.sets.size) :
    expand ix (max limit 1) budget source p = expand ix limit budget source p := by
  induction budget generalizing source p with
  | zero => rfl
  | succ budget ih =>
    rw [expand, expand]
    split
    · rfl
    · rw [followAll_max_one hp]
      cases hq : ix.alphabet.foldlM (follow ix limit source _) p with
      | error q => rfl
      | ok q => exact ih (Nat.lt_of_lt_of_le hp (size_le_of_followAll hq))

theorem explore_max_one : explore ix (max limit 1) i = explore ix limit i := by
  unfold explore
  rw [Nat.max_assoc, Nat.max_self]
  exact expand_max_one Nat.zero_lt_one

theorem length_states_assemble (ix : Index n) (labelStart : String) (p : Progress n) :
    (assemble ix labelStart p).automaton.states.length = p.sets.size := by
  simp [assemble]

theorem exists_explore_iff (hr : ix.Represents a) (hi : ix.initial = some i) :
    (∃ p, explore ix limit i = .ok p) ↔ a.powerStates.ncard ≤ max limit 1 := by
  have hfull := hr.isEmpty_start i
  constructor
  · rintro ⟨p, hp⟩
    rw [Automaton.ncard_powerStates hr hi hp]
    exact (explored_explore hfull hp).small
  · intro hroom
    obtain ⟨p, hp⟩ := exists_explore (Nat.le_refl _) hfull
    rw [Automaton.ncard_powerStates hr hi hp] at hroom
    refine ⟨p, ?_⟩
    rw [← explore_max_one]
    exact explore_eq_of_size_le hr hp hroom

theorem length_states_le_of_ofIndex {labelStart : String} {limits : Limits} {d : Determinization}
    (hr : ix.Represents a) (h : (ofIndex ix labelStart limits i).outcome = .ok d) :
    d.automaton.states.length ≤ max limits.maxPowerStates 1 := by
  obtain ⟨p, hp, rfl⟩ := ofIndex_eq_ok.mp h
  rw [length_states_assemble]
  exact (explored_explore (hr.isEmpty_start i) hp).small

end Determinization

namespace Automaton
variable {a b : Automaton} {limits : Limits} {d : Determinization}

theorem length_states_le_of_determinize (h : (a.determinize limits).outcome = .ok d) :
    d.automaton.states.length ≤ max limits.maxPowerStates 1 := by
  obtain ⟨ix, i, hix, -, h⟩ := Index.exists_of_bind_eq_ok
    (f := fun ix i => Determinization.ofIndex ix "D" limits i) h
  exact Determinization.length_states_le_of_ofIndex (Index.represents_of_eq_ok hix) h

theorem length_states_le_of_toDeterministic (h : (a.toDeterministic limits).outcome = .ok b) :
    b.states.length ≤ max limits.maxPowerStates 1 := by
  rw [toDeterministic, Logged.outcome_bind] at h
  obtain ⟨d, hd, h⟩ := Outcome.bind_eq_ok.mp h
  cases h
  exact length_states_le_of_determinize hd

theorem length_states_le_of_simplify (h : (a.simplify limits).outcome = .ok b) :
    b.states.length ≤ max limits.maxPowerStates 1 := by
  rw [simplify, Logged.outcome_bind] at h
  obtain ⟨ix, hix, h⟩ := Outcome.bind_eq_ok.mp h
  cases hi : ix.initial with
  | none =>
    rw [hi] at h
    cases h
    exact Nat.zero_le _
  | some i =>
    rw [hi] at h
    dsimp only at h
    rw [Logged.outcome_bind] at h
    obtain ⟨d, hd, h⟩ := Outcome.bind_eq_ok.mp h
    cases h
    exact Determinization.length_states_le_of_ofIndex (Index.represents_of_eq_ok hix) hd

theorem exists_determinize_iff (hw : a.WellFormed) (hs : a.initialState?.isSome = true) :
    (∃ d, (a.determinize limits).outcome = .ok d) ↔
      a.powerStates.ncard ≤ max limits.maxPowerStates 1 := by
  obtain ⟨s, hs⟩ := Option.isSome_iff_exists.mp hs
  obtain ⟨ix, hix, hr⟩ := Index.exists_index hw
  obtain ⟨i, hi, -⟩ := exists_initial hr hs
  have houtcome : (a.determinize limits).outcome = (Determinization.ofIndex ix "D" limits i).outcome :=
    Index.outcome_bind_of_initial hix hi fun ix i => Determinization.ofIndex ix "D" limits i
  rw [← Determinization.exists_explore_iff hr hi, houtcome]
  simp only [Determinization.ofIndex_eq_ok]
  constructor
  · rintro ⟨d, p, hp, -⟩
    exact ⟨p, hp⟩
  · rintro ⟨p, hp⟩
    exact ⟨_, p, hp, rfl⟩

/-- No result has more states than the limit allows, where a limit of none allows one state. A
determinization is not refused unless it would have more. -/
theorem states_within_limit (a : Automaton) (limits : Limits) :
    (∀ d, (a.determinize limits).outcome = .ok d →
      d.automaton.states.length ≤ max limits.maxPowerStates 1) ∧
    (∀ b, (a.toDeterministic limits).outcome = .ok b →
      b.states.length ≤ max limits.maxPowerStates 1) ∧
    (∀ b, (a.simplify limits).outcome = .ok b → b.states.length ≤ max limits.maxPowerStates 1) ∧
    (a.WellFormed → a.initialState?.isSome = true →
      ((∃ d, (a.determinize limits).outcome = .ok d) ↔
        a.powerStates.ncard ≤ max limits.maxPowerStates 1)) :=
  ⟨fun _ => length_states_le_of_determinize, fun _ => length_states_le_of_toDeterministic,
    fun _ => length_states_le_of_simplify, exists_determinize_iff⟩

/-- What is evaluated to see that a search stays within its limit, and with how many numbers. -/
theorem exists_determinize_of_explore {k : Nat} (a : Automaton) (limits : Limits)
    (h : ((Index.ofAutomaton a).outcome >>= fun ix => ix.requireInitial >>= fun i =>
      .ok ((Determinization.explore ix limits.maxPowerStates i).toOption.map (·.sets.size))) =
        .ok (some k)) :
    ∃ d, (a.determinize limits).outcome = .ok d ∧ d.automaton.states.length = k := by
  obtain ⟨ix, hix, h⟩ := Outcome.bind_eq_ok.mp h
  obtain ⟨i, hi, h⟩ := Outcome.bind_eq_ok.mp h
  obtain ⟨p, hp, rfl⟩ := Option.map_eq_some_iff.mp (Except.ok.inj h)
  have hp : Determinization.explore ix limits.maxPowerStates i = .ok p := by
    cases he : Determinization.explore ix limits.maxPowerStates i with
    | error q =>
      rw [he] at hp
      cases hp
    | ok q =>
      rw [he] at hp
      cases hp
      rfl
  have houtcome := Index.outcome_bind_of_initial hix (Index.requireInitial_eq_ok.mp hi) fun ix i =>
    Determinization.ofIndex ix "D" limits i
  exact ⟨_, houtcome.trans (Determinization.ofIndex_eq_ok.mpr ⟨p, hp, rfl⟩),
    Determinization.length_states_assemble ix "D" p⟩

theorem slipCycle_within_limit :
    ∃ d, (slipCycle.determinize { maxPowerStates := 2 }).outcome = .ok d ∧
      d.automaton.states.length ≤ 2 ∧ slipCycle.powerStates.ncard ≤ 2 := by
  obtain ⟨hbound, -, -, hiff⟩ := states_within_limit slipCycle { maxPowerStates := 2 }
  obtain ⟨d, hd, -⟩ := exists_determinize_of_explore (k := 2) slipCycle { maxPowerStates := 2 }
    (by cbv)
  exact ⟨d, hd, hbound d hd, (hiff slipCycle_wellFormed rfl).mp ⟨d, hd⟩⟩

/-- The one state has a loop, on which nothing new is found. -/
def oneLoop : Automaton where
  states := [{ id := 7, isInitial := true, isFinal := true }]
  transitions := [⟨7, 7, .symbol 'a'⟩]

/-- A limit of none lets a determinization with one state pass. -/
theorem oneLoop_beyond_limit :
    ∃ d, (oneLoop.determinize { maxPowerStates := 0 }).outcome = .ok d ∧
      ¬ d.automaton.states.length ≤ 0 := by
  obtain ⟨d, hd, hlength⟩ := exists_determinize_of_explore (k := 1) oneLoop { maxPowerStates := 0 }
    (by cbv)
  refine ⟨d, hd, ?_⟩
  rw [hlength]
  decide

end Automaton
end FiniteAutomata
