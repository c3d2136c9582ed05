import Mathlib.Order.Bounds.Basic
import FiniteAutomata.Simulation
import FiniteAutomata.Proofs.PowerStates

/-! # What a run reports

A run reads a word up to the shortest prefix that no path reads. Its entries list the states to which
paths read the prefixes, before and after epsilon transitions, and its verdict is whether a path to a
final state reads all of the word.
-/
namespace FiniteAutomata
namespace Simulation
variable {n : Nat}

/-- A walk over the first symbols of a word, entry by entry. -/
structure Walked (ix : Index n) (s : StateSet n) (word : List Char) (w : Walk n) (k : Nat) :
    Prop where
  le : k ≤ word.length
  length : w.entries.length = 2 * k
  moved : ∀ i c, i < k → word[i]? = some c →
    w.entries[2 * i]? = some (moveEntry c (ix.ids (ix.move (ix.after s (word.take i)) c)))
  closed : ∀ i c, i < k → word[i]? = some c →
    w.entries[2 * i + 1]? = some (closureEntry c (ix.ids (ix.after s (word.take (i + 1)))))
  empty_iff : ∀ i, 0 < i → i ≤ k →
    ((ix.after s (word.take i)).isEmpty = true ↔ i = k ∧ w.blockedOn.isSome = true)
  blocked : w.blockedOn.isSome = true → 0 < k
  done : w.blockedOn = none → k = word.length ∧ w.last = ix.after s word

theorem Walked.nil (ix : Index n) (s : StateSet n) : Walked ix s [] ⟨[], s, none⟩ 0 where
  le := Nat.le_refl 0
  length := rfl
  moved := fun i _ hi => absurd hi (Nat.not_lt_zero i)
  closed := fun i _ hi => absurd hi (Nat.not_lt_zero i)
  empty_iff := fun i hi hle => absurd hi (Nat.not_lt.mpr hle)
  blocked := by simp
  done := fun _ => ⟨rfl, rfl⟩

theorem Walked.block {ix : Index n} {s : StateSet n} {c : Char} {rest : List Char}
    (h : (ix.step s c).isEmpty = true) :
    Walked ix s (c :: rest)
      ⟨[moveEntry c (ix.ids (ix.move s c)), closureEntry c (ix.ids (ix.step s c))],
        ix.step s c, some c⟩ 1 where
  le := by simp
  length := rfl
  moved := by
    intro i d hi hd
    obtain rfl : i = 0 := by omega
    obtain rfl : c = d := by simpa using hd
    rfl
  closed := by
    intro i d hi hd
    obtain rfl : i = 0 := by omega
    obtain rfl : c = d := by simpa using hd
    rfl
  empty_iff := by
    intro i hi hle
    obtain rfl : i = 1 := by omega
    simpa using h
  blocked := by simp
  done := by simp

theorem Walked.cons {ix : Index n} {s : StateSet n} {c : Char} {rest : List Char} {w : Walk n}
    {k : Nat} (h : (ix.step s c).isEmpty = false) (hw : Walked ix (ix.step s c) rest w k) :
    Walked ix s (c :: rest)
      { w with entries :=
          [moveEntry c (ix.ids (ix.move s c)), closureEntry c (ix.ids (ix.step s c))] ++ w.entries }
      (k + 1) where
  le := Nat.succ_le_succ hw.le
  length := by
    simp only [List.length_append, List.length_cons, List.length_nil, hw.length]
    omega
  moved := by
    intro i d hi hd
    cases i with
    | zero =>
      obtain rfl : c = d := by simpa using hd
      rfl
    | succ i =>
      rw [List.getElem?_cons_succ] at hd
      simpa [Nat.mul_succ] using hw.moved i d (Nat.lt_of_succ_lt_succ hi) hd
  closed := by
    intro i d hi hd
    cases i with
    | zero =>
      obtain rfl : c = d := by simpa using hd
      rfl
    | succ i =>
      rw [List.getElem?_cons_succ] at hd
      simpa [Nat.mul_succ] using hw.closed i d (Nat.lt_of_succ_lt_succ hi) hd
  empty_iff := by
    intro i hi hle
    cases i with
    | zero => exact absurd hi (Nat.lt_irrefl 0)
    | succ i =>
      rw [List.take_succ_cons, Index.after_cons, Nat.succ_inj]
      cases i with
      | zero =>
        -- the first closure is not empty, and a walk blocked later has read more than it
        rw [List.take_zero, Index.after_nil, h]
        constructor
        · intro he
          cases he
        · rintro ⟨rfl, hb⟩
          exact absurd (hw.blocked hb) (Nat.lt_irrefl 0)
      | succ i => exact hw.empty_iff (i + 1) (Nat.succ_pos i) (Nat.le_of_succ_le_succ hle)
  blocked := fun _ => Nat.succ_pos k
  done := by
    intro hb
    obtain ⟨hk, hl⟩ := hw.done hb
    exact ⟨by rw [hk, List.length_cons], hl⟩

theorem exists_walked (ix : Index n) (s : StateSet n) (word : List Char) :
    ∃ k, Walked ix s word (walk ix s word) k := by
  induction word generalizing s with
  | nil => exact ⟨0, Walked.nil ix s⟩
  | cons c rest ih =>
    rw [walk]
    split
    · rename_i h
      exact ⟨1, Walked.block h⟩
    · rename_i h
      obtain ⟨k, hk⟩ := ih (ix.step s c)
      exact ⟨k + 1, Walked.cons ((Bool.not_eq_true _).mp h) hk⟩

end Simulation

/-- No path reads the word. -/
def Starves (ts : List Transition) (p : StateId) (w : List Char) : Prop := ∀ q, ¬ Reads ts p w q

/-- The lengths of the non-empty prefixes of a word that no path reads. -/
def starvedLengths (ts : List Transition) (p : StateId) (w : List Char) : Set Nat :=
  {j | 0 < j ∧ j ≤ w.length ∧ Starves ts p (w.take j)}

/-- How far a run gets: over the shortest non-empty prefix that no path reads, or to the end. -/
def StopsAt (ts : List Transition) (p : StateId) (w : List Char) (k : Nat) : Prop :=
  IsLeast (starvedLengths ts p w) k ∨ starvedLengths ts p w = ∅ ∧ k = w.length

theorem StopsAt.unique {ts : List Transition} {p : StateId} {w : List Char} {j k : Nat}
    (hj : StopsAt ts p w j) (hk : StopsAt ts p w k) : j = k := by
  rcases hj with hj | ⟨hj, rfl⟩ <;> rcases hk with hk | ⟨hk, rfl⟩
  · exact hj.unique hk
  · exact absurd hj.1 (hk ▸ Set.notMem_empty j)
  · exact absurd hk.1 (hj ▸ Set.notMem_empty k)
  · rfl

theorem starvedLengths_nonempty_iff {ts : List Transition} {p : StateId} {w : List Char} :
    (starvedLengths ts p w).Nonempty ↔ ∃ u, u <+: w ∧ u ≠ [] ∧ Starves ts p u := by
  constructor
  · rintro ⟨j, hj, hle, hs⟩
    refine ⟨w.take j, List.take_prefix j w, ?_, hs⟩
    rw [← List.length_pos_iff, List.length_take_of_le hle]
    exact hj
  · rintro ⟨u, hu, hne, hs⟩
    rw [List.prefix_iff_eq_take.mp hu] at hs
    exact ⟨u.length, List.length_pos_iff.mpr hne, hu.length_le, hs⟩

/-- The word takes some path from the state to a final state. -/
def Automaton.AcceptsFrom (a : Automaton) (p : StateId) (w : List Char) : Prop :=
  ∃ q ∈ a.states, q.isFinal = true ∧ Reads a.transitions p w q.id

namespace Automaton
variable {a : Automaton} {p : StateId} {c : Char} {w : List Char}

theorem acceptsFrom_nil_iff (hs : ∀ t ∈ a.transitions, ∃ c, t.label = .symbol c) :
    a.AcceptsFrom p [] ↔ ∃ q ∈ a.states, q.isFinal = true ∧ q.id = p := by
  unfold AcceptsFrom
  simp only [reads_nil_iff_of_symbols hs]

theorem acceptsFrom_cons_iff (hs : ∀ t ∈ a.transitions, ∃ c, t.label = .symbol c) :
    a.AcceptsFrom p (c :: w) ↔ ∃ r, ⟨p, r, .symbol c⟩ ∈ a.transitions ∧ a.AcceptsFrom r w := by
  unfold AcceptsFrom
  simp only [reads_cons_iff_of_symbols hs]
  constructor
  · rintro ⟨q, hq, hf, r, ht, hr⟩
    exact ⟨r, ht, q, hq, hf, hr⟩
  · rintro ⟨r, ht, q, hq, hf, hr⟩
    exact ⟨q, hq, hf, r, ht, hr⟩

end Automaton

namespace SimulationReport

/-- The report on a run that began in the state, in terms of paths from it. -/
structure Describes (r : SimulationReport) (a : Automaton) (p : StateId) (word : List Char)
    (k : Nat) : Prop where
  accepted : r.accepted = true ↔ a.AcceptsFrom p word
  blocked : r.blocked = true ↔ (starvedLengths a.transitions p word).Nonempty
  message : r.message = if r.blocked then "Not accepted string."
    else if r.accepted then "String accepted." else "String refused."
  stops : StopsAt a.transitions p word k
  length : r.trace.length = 1 + 2 * k
  closed : ∀ i ≤ k, ∃ e, r.trace[2 * i]? = some e ∧ e.active.Pairwise (· < ·) ∧
    ∀ q, q ∈ e.active ↔ Reads a.transitions p (word.take i) q
  moved : ∀ i c, i < k → word[i]? = some c →
    ∃ e, r.trace[2 * i + 1]? = some e ∧ e.active.Pairwise (· < ·) ∧
      ∀ q, q ∈ e.active ↔
        ∃ m, Reads a.transitions p (word.take i) m ∧ ⟨m, q, .symbol c⟩ ∈ a.transitions

/-- Among the prefixes that a run gets over, just the last of a blocked run is read by no path. -/
theorem Describes.starves_iff {r : SimulationReport} {a : Automaton} {p : StateId}
    {word : List Char} {k m : Nat} (h : r.Describes a p word k) (hm : m ≤ k) :
    Starves a.transitions p (word.take m) ↔ r.blocked = true ∧ m = k := by
  constructor
  · intro hs
    have hpos : 0 < m := by
      rcases Nat.eq_zero_or_pos m with rfl | hpos
      · exact absurd (Reads.refl _ p) (hs p)
      · exact hpos
    rcases h.stops with hleast | ⟨hnone, rfl⟩
    · have hle : m ≤ word.length := Nat.le_trans hm hleast.1.2.1
      have hkm : k ≤ m := hleast.2 ⟨hpos, hle, hs⟩
      exact ⟨h.blocked.mpr ⟨k, hleast.1⟩, Nat.le_antisymm hm hkm⟩
    · have hmem : m ∈ starvedLengths a.transitions p word := ⟨hpos, hm, hs⟩
      rw [hnone] at hmem
      exact absurd hmem (Set.notMem_empty m)
  · rintro ⟨hb, rfl⟩
    rcases h.stops with hleast | ⟨hnone, -⟩
    · exact hleast.1.2.2
    · have hsome := h.blocked.mp hb
      rw [hnone] at hsome
      exact absurd hsome Set.not_nonempty_empty

end SimulationReport

namespace Simulation
variable {n : Nat} {ix : Index n} {a : Automaton} {i : Fin n} {word : List Char} {w : Walk n}
  {k : Nat}

theorem Walked.starves_iff (hw : Walked ix (ix.start i) word w k) (h : ix.Represents a) {j : Nat}
    (hj : 0 < j) (hle : j ≤ k) :
    Starves a.transitions (ix.idAt i) (word.take j) ↔ j = k ∧ w.blockedOn.isSome = true := by
  rw [← hw.empty_iff j hj hle]
  exact h.isEmpty_after_start.symm

theorem Walked.stopsAt (hw : Walked ix (ix.start i) word w k) (h : ix.Represents a) :
    StopsAt a.transitions (ix.idAt i) word k := by
  cases hb : w.blockedOn with
  | some c =>
    have hsome : w.blockedOn.isSome = true := by rw [hb, Option.isSome_some]
    have hk := hw.blocked hsome
    refine Or.inl ⟨⟨hk, hw.le, (hw.starves_iff h hk (Nat.le_refl k)).mpr ⟨rfl, hsome⟩⟩, ?_⟩
    rintro j ⟨hj, -, hs⟩
    by_contra hlt
    have hle : j ≤ k := by omega
    have hjk := ((hw.starves_iff h hj hle).mp hs).1
    omega
  | none =>
    obtain ⟨hk, -⟩ := hw.done hb
    refine Or.inr ⟨Set.eq_empty_of_forall_notMem ?_, hk⟩
    rintro j ⟨hj, hle, hs⟩
    have hb' := ((hw.starves_iff h hj (hk ▸ hle)).mp hs).2
    rw [hb] at hb'
    cases hb'

theorem Walked.blocked_iff (hw : Walked ix (ix.start i) word w k) (h : ix.Represents a) :
    w.blockedOn.isSome = true ↔ (starvedLengths a.transitions (ix.idAt i) word).Nonempty := by
  constructor
  · intro hb
    have hk := hw.blocked hb
    exact ⟨k, hk, hw.le, (hw.starves_iff h hk (Nat.le_refl k)).mpr ⟨rfl, hb⟩⟩
  · rintro ⟨j, hj, hle, hs⟩
    cases hb : w.blockedOn with
    | some c => rfl
    | none =>
      obtain ⟨hk, -⟩ := hw.done hb
      have hb' := ((hw.starves_iff h hj (hk ▸ hle)).mp hs).2
      rwa [hb] at hb'

theorem not_acceptsFrom_of_starved {p : StateId}
    (hs : (starvedLengths a.transitions p word).Nonempty) : ¬ a.AcceptsFrom p word := by
  obtain ⟨j, -, -, hs⟩ := hs
  rintro ⟨q, -, -, hr⟩
  rw [← List.take_append_drop j word] at hr
  obtain ⟨m, hm, -⟩ := reads_append_iff.mp hr
  exact hs m hm

theorem Walked.closed_active (hw : Walked ix (ix.start i) word w k) (h : ix.Represents a) {j : Nat}
    (hj : j ≤ k) :
    ∃ e, (startEntry (ix.ids (ix.start i)) :: w.entries)[2 * j]? = some e ∧
      e.active.Pairwise (· < ·) ∧
      ∀ q, q ∈ e.active ↔ Reads a.transitions (ix.idAt i) (word.take j) q := by
  cases j with
  | zero =>
    refine ⟨_, rfl, h.pairwise_ids _, ?_⟩
    intro q
    rw [List.take_zero]
    exact h.mem_ids_after_start (w := [])
  | succ j =>
    have hlt : j < word.length := Nat.lt_of_lt_of_le hj hw.le
    have he := hw.closed j word[j] hj (List.getElem?_eq_getElem hlt)
    refine ⟨_, he, h.pairwise_ids _, ?_⟩
    intro q
    exact h.mem_ids_after_start

theorem Walked.moved_active (hw : Walked ix (ix.start i) word w k) (h : ix.Represents a) {j : Nat}
    {c : Char} (hj : j < k) (hc : word[j]? = some c) :
    ∃ e, (startEntry (ix.ids (ix.start i)) :: w.entries)[2 * j + 1]? = some e ∧
      e.active.Pairwise (· < ·) ∧
      ∀ q, q ∈ e.active ↔ ∃ m, Reads a.transitions (ix.idAt i) (word.take j) m ∧
        ⟨m, q, .symbol c⟩ ∈ a.transitions :=
  ⟨_, hw.moved j c hj hc, h.pairwise_ids _, fun _ => h.mem_ids_move_after_start⟩

theorem Walked.isAccepting_iff (hw : Walked ix (ix.start i) word w k) (h : ix.Represents a)
    (hb : w.blockedOn = none) :
    ix.isAccepting w.last = true ↔ a.AcceptsFrom (ix.idAt i) word := by
  rw [(hw.done hb).2]
  exact h.isAccepting_after_start

/-- Every run ends in a report that describes the paths from its initial position. -/
theorem exists_report (h : ix.Represents a) (i : Fin n) (word : List Char) :
    ∃ r k, (report ix i word).outcome = .ok r ∧ r.Describes a (ix.idAt i) word k := by
  obtain ⟨k, hw⟩ := exists_walked ix (ix.start i) word
  have hlength : (startEntry (ix.ids (ix.start i)) ::
      (walk ix (ix.start i) word).entries).length = 1 + 2 * k := by
    rw [List.length_cons, hw.length]
    omega
  have hblocked := hw.blocked_iff h
  cases hb : (walk ix (ix.start i) word).blockedOn with
  | some c =>
    rw [hb, Option.isSome_some] at hblocked
    have hstarved := hblocked.mp rfl
    refine ⟨_, k, by simp only [report, hb, Logged.outcome_bind, Logged.outcome_emit]; rfl, ?_⟩
    exact {
      accepted := by simp [not_acceptsFrom_of_starved hstarved]
      blocked := by simp [hstarved]
      message := rfl
      stops := hw.stopsAt h
      length := hlength
      closed := fun j hj => hw.closed_active h hj
      moved := fun j c hj hc => hw.moved_active h hj hc }
  | none =>
    rw [hb, Option.isSome_none] at hblocked
    have hacc := hw.isAccepting_iff h hb
    refine ⟨⟨ix.isAccepting (walk ix (ix.start i) word).last, false, if ix.isAccepting
      (walk ix (ix.start i) word).last then "String accepted." else "String refused.",
      startEntry (ix.ids (ix.start i)) :: (walk ix (ix.start i) word).entries⟩, k, ?_, ?_⟩
    · simp only [report, hb]
      cases ix.isAccepting (walk ix (ix.start i) word).last <;> rfl
    · exact {
        accepted := hacc
        blocked := hblocked
        message := by simp
        stops := hw.stopsAt h
        length := hlength
        closed := fun j hj => hw.closed_active h hj
        moved := fun j c hj hc => hw.moved_active h hj hc }

end Simulation

namespace Automaton
variable {a : Automaton}

theorem exists_simulate (hw : a.WellFormed) {s : State} (hs : a.initialState? = some s)
    (word : String) :
    ∃ r k, (a.simulate word).outcome = .ok r ∧ r.Describes a s.id word.toList k := by
  obtain ⟨ix, hix, h⟩ := Index.exists_index hw
  obtain ⟨i, hi, rfl⟩ := exists_initial h hs
  obtain ⟨r, k, hr, hd⟩ := Simulation.exists_report h i word.toList
  refine ⟨r, k, ?_, hd⟩
  rw [simulate, isEmpty_eq_false hs, if_neg Bool.false_ne_true, Logged.outcome_bind, hix]
  refine Outcome.bind_eq_ok.mpr ⟨ix, rfl, ?_⟩
  rw [hi]
  exact hr

/-- A run accepts exactly the words on paths from the first state flagged initial to a final state.
It is blocked exactly when no path reads some non-empty prefix. Its trace has an entry for the start
and two for each symbol up to the end of the shortest such prefix: the direct successors on the symbol,
and the states that paths over the symbols so far reach, each list ascending. -/
theorem simulate_follows_paths (hw : a.WellFormed) {s : State} (hs : a.initialState? = some s)
    (word : String) :
    ∃ r k, (a.simulate word).outcome = .ok r ∧
      (r.accepted = true ↔ ∃ q ∈ a.states, q.isFinal = true ∧
        ∃ labels, Path a.transitions s.id labels q.id ∧ spelled labels = word.toList) ∧
      (r.blocked = true ↔ ∃ u, u <+: word.toList ∧ u ≠ [] ∧ ∀ q, ¬ Reads a.transitions s.id u q) ∧
      StopsAt a.transitions s.id word.toList k ∧
      r.trace.length = 1 + 2 * k ∧
      (∀ i ≤ k, ∃ e, r.trace[2 * i]? = some e ∧ e.active.Pairwise (· < ·) ∧
        ∀ q, q ∈ e.active ↔ Reads a.transitions s.id (word.toList.take i) q) ∧
      ∀ i c, i < k → word.toList[i]? = some c →
        ∃ e, r.trace[2 * i + 1]? = some e ∧ e.active.Pairwise (· < ·) ∧
          ∀ q, q ∈ e.active ↔ ∃ m, Reads a.transitions s.id (word.toList.take i) m ∧
            ⟨m, q, .symbol c⟩ ∈ a.transitions := by
  obtain ⟨r, k, hr, hd⟩ := exists_simulate hw hs word
  refine ⟨r, k, hr, hd.accepted, ?_, hd.stops, hd.length, hd.closed, hd.moved⟩
  exact hd.blocked.trans starvedLengths_nonempty_iff

/-- An epsilon cycle over three states, left by one symbol. -/
def slipCycle : Automaton where
  states := [{ id := 5, isInitial := true }, { id := 3 }, { id := 1 }, { id := 9, isFinal := true }]
  transitions := [⟨5, 3, .epsilon⟩, ⟨3, 1, .epsilon⟩, ⟨1, 5, .epsilon⟩, ⟨3, 9, .symbol 'a'⟩]

theorem slipCycle_wellFormed : slipCycle.WellFormed := by decide

theorem reads_slipCycle : Reads slipCycle.transitions 5 ['a'] 9 :=
  ⟨[.epsilon, .symbol 'a'], .cons (r := 3) (by decide) (.cons (r := 9) (by decide) (.nil 9)), rfl⟩

theorem simulate_slipCycle :
    ∃ r, (slipCycle.simulate "a").outcome = .ok r ∧ r.accepted = true ∧ r.blocked = false ∧
      r.trace.length = 3 := by
  obtain ⟨r, k, hr, hacc, hblocked, hstop, hlength, -, -⟩ :=
    simulate_follows_paths slipCycle_wellFormed (s := { id := 5, isInitial := true }) rfl "a"
  have hlive : ¬ ∃ u, u <+: "a".toList ∧ u ≠ [] ∧ ∀ q, ¬ Reads slipCycle.transitions 5 u q := by
    rintro ⟨u, hu, hne, hstarved⟩
    rcases List.prefix_cons_iff.mp (show u <+: ['a'] from hu) with rfl | ⟨v, rfl, hv⟩
    · exact hne rfl
    · obtain rfl := List.prefix_nil.mp hv
      exact hstarved 9 reads_slipCycle
  have hk : k = 1 := by
    rcases hstop with hleast | ⟨-, hk⟩
    · exact absurd (starvedLengths_nonempty_iff.mp ⟨k, hleast.1⟩) hlive
    · exact hk
  refine ⟨r, hr, ?_, ?_, by rw [hlength, hk]⟩
  · exact hacc.mpr ⟨{ id := 9, isFinal := true }, by decide, rfl, reads_slipCycle⟩
  · exact (Bool.not_eq_true _).mp fun hb => hlive (hblocked.mp hb)

end Automaton
end FiniteAutomata
