import FiniteAutomata.Minimization.Minimize
import FiniteAutomata.Proofs.Simulation
import FiniteAutomata.Proofs.Table

/-! # Deterministic automata on positions

The automaton behind a table accepts from a position what the automaton that the table was made of
accepts from the state there. In its completion the sink accepts nothing, and every other position what
it accepted before.
-/
namespace FiniteAutomata

namespace Dfa
variable {n : Nat}

/-- What a deterministic automaton on positions says is what the automaton says about ids. -/
structure Represents (d : Dfa n) (ix : Index n) (a : Automaton) : Prop where
  start : ix.initial = some d.start
  accepting : ∀ i : Fin n, d.accepting.get i = true ↔ (ix.states.get i).isFinal = true
  length : ∀ i : Fin n, (d.moves.get i).length = ix.alphabet.length
  moves : ∀ (i j : Fin n) (k : Nat) (c : Char), ix.alphabet[k]? = some c →
    ((d.moves.get i)[k]? = some (some j) ↔ ⟨ix.idAt i, ix.idAt j, .symbol c⟩ ∈ a.transitions)

end Dfa

namespace Table
variable {t : Table} {a : Automaton}

theorem position_eq_ok {row : Nat} {i : Fin t.rowCount} :
    t.position row = .ok i ↔ i.val = row := by
  unfold position
  split
  · rw [Except.ok.injEq, Fin.ext_iff]
    exact eq_comm
  · rename_i hrow
    constructor
    · intro h
      cases h
    · rintro rfl
      exact absurd i.isLt hrow

theorem cell_of_target {row : Fin t.rowCount} {k : Nat} {x : Option (Fin t.rowCount)}
    (h : t.target row k = .ok x) :
    t.cells[row.val * t.alphabet.length + k]? = some (x.map Fin.val) := by
  obtain ⟨y, hy, h⟩ := Outcome.bind_eq_ok.mp h
  rw [cell, entry, Outcome.promised_eq_ok] at hy
  rw [hy]
  cases y with
  | none =>
    cases h
    rfl
  | some next =>
    obtain ⟨i, hi, rfl⟩ := Outcome.map_eq_ok.mp h
    rw [← position_eq_ok.mp hi]
    rfl

theorem represents_of_dfa {ix : Index t.rowCount} (hr : ix.Represents a) (h : t.Describes ix a)
    {d : Dfa t.rowCount} (hd : t.dfa = .ok d) : d.Represents ix a := by
  obtain ⟨start, hstart, hd⟩ := Outcome.bind_eq_ok.mp hd
  obtain ⟨accepting, haccepting, hd⟩ := Outcome.bind_eq_ok.mp hd
  obtain ⟨moves, hmoves, hd⟩ := Outcome.bind_eq_ok.mp hd
  cases hd
  have htargets : ∀ i : Fin t.rowCount, List.Forall₂ (fun k x => t.target i k = .ok x)
      (List.range t.alphabet.length) (moves.get i) :=
    fun i => Outcome.mapM_eq_ok.mp (Outcome.of_ofFnM_eq_ok hmoves i)
  have hlength : ∀ i : Fin t.rowCount, (moves.get i).length = ix.alphabet.length := by
    intro i
    rw [← (htargets i).length_eq, List.length_range, h.alphabet]
  constructor
  case start =>
    obtain ⟨i, hi, he⟩ := h.initial
    have hstart : start = i := Fin.ext ((position_eq_ok.mp hstart).trans he)
    rw [hi, hstart]
  case accepting =>
    intro i
    have hacc := Outcome.of_ofFnM_eq_ok haccepting i
    rw [h.isAccepting_eq, Except.ok.injEq] at hacc
    rw [← hr.accepting, ← hacc]
    exact Iff.rfl
  case length => exact hlength
  case moves =>
    intro i j k c hc
    have hk : k < (moves.get i).length := by
      rw [hlength i]
      exact (List.getElem?_eq_some_iff.mp hc).1
    have hrange : k < (List.range t.alphabet.length).length := by
      rw [List.length_range, h.alphabet]
      exact (List.getElem?_eq_some_iff.mp hc).1
    have htarget := (htargets i).get hrange hk
    rw [List.get_eq_getElem, List.getElem_range, List.get_eq_getElem] at htarget
    have hcell := h.filled.cell i k c hc j.val
    rw [← h.alphabet, cell_of_target htarget] at hcell
    rw [List.getElem?_eq_getElem hk]
    constructor
    · intro hj
      obtain ⟨j', hj', hm⟩ := hcell.mp (by rw [Option.some.inj hj]; rfl)
      rwa [← Fin.ext hj']
    · intro hm
      obtain ⟨j', hj', he⟩ := Option.map_eq_some_iff.mp (Option.some.inj (hcell.mpr ⟨j, rfl, hm⟩))
      rw [hj', Fin.ext he]

theorem exists_target {ix : Index t.rowCount} (h : t.Describes ix a) (row : Fin t.rowCount)
    {k : Nat} (hk : k < t.alphabet.length) : ∃ x, t.target row k = .ok x := by
  rw [h.alphabet] at hk
  obtain ⟨next, hnext, hiff⟩ := h.exists_cell row (List.getElem?_eq_getElem hk)
  rw [target, hnext]
  cases next with
  | none => exact ⟨none, rfl⟩
  | some next =>
    obtain ⟨j, hj, -⟩ := (hiff next).mp rfl
    exact ⟨some j, Outcome.map_eq_ok.mpr ⟨j, position_eq_ok.mpr hj, rfl⟩⟩

theorem exists_dfa {ix : Index t.rowCount} (h : t.Describes ix a) : ∃ d, t.dfa = .ok d := by
  obtain ⟨start, -, hstart⟩ := h.initial
  obtain ⟨accepting, haccepting⟩ : ∃ v, (Vector.ofFnM fun row : Fin t.rowCount =>
      t.isAccepting row) = .ok v := by
    exact Outcome.exists_ofFnM_eq_ok fun row => ⟨_, h.isAccepting_eq row⟩
  obtain ⟨moves, hmoves⟩ : ∃ v, (Vector.ofFnM fun row : Fin t.rowCount =>
      (List.range t.alphabet.length).mapM (t.target row)) = .ok v := by
    refine Outcome.exists_ofFnM_eq_ok fun row => Outcome.exists_mapM_eq_ok fun k hk => ?_
    exact exists_target h row (List.mem_range.mp hk)
  exact ⟨⟨start, accepting, moves⟩, Outcome.bind_eq_ok.mpr ⟨start, position_eq_ok.mpr hstart.symm,
    Outcome.bind_eq_ok.mpr ⟨accepting, haccepting, Outcome.bind_eq_ok.mpr ⟨moves, hmoves, rfl⟩⟩⟩⟩

end Table
namespace Dfa
variable {n : Nat} {d : Dfa n} {alphabet : Alphabet} {i j : Fin n} {c : Char} {w : List Char}

theorem Represents.initialState? {ix : Index n} {a : Automaton} (h : d.Represents ix a)
    (hr : ix.Represents a) : a.initialState? = some (ix.states.get d.start) := by
  rw [← hr.initial, h.start]
  rfl

/-- The word leads from the position to an accepting one. -/
def Accepts (d : Dfa n) (alphabet : Alphabet) : Fin n → List Char → Prop
  | i, [] => d.accepting.get i = true
  | i, c :: w => ∃ (k : Nat) (j : Fin n), alphabet[k]? = some c ∧
    (d.moves.get i)[k]? = some (some j) ∧ d.Accepts alphabet j w

theorem Represents.accepts_iff {ix : Index n} {a : Automaton} (h : d.Represents ix a)
    (hr : ix.Represents a) (hs : ∀ t ∈ a.transitions, ∃ c, t.label = .symbol c) :
    d.Accepts ix.alphabet i w ↔ a.AcceptsFrom (ix.idAt i) w := by
  induction w generalizing i with
  | nil =>
    rw [Accepts, Automaton.acceptsFrom_nil_iff hs, h.accepting]
    constructor
    · intro hf
      exact ⟨ix.states.get i, (hr.mem_states _).mpr ⟨i, rfl⟩, hf, rfl⟩
    · rintro ⟨q, hq, hf, hid⟩
      obtain ⟨j, rfl⟩ := (hr.mem_states q).mp hq
      rwa [← hr.idAt_inj.mp hid]
  | cons c w ih =>
    rw [Accepts, Automaton.acceptsFrom_cons_iff hs]
    constructor
    · rintro ⟨k, j, hc, hj, hw⟩
      exact ⟨ix.idAt j, (h.moves i j k c hc).mp hj, ih.mp hw⟩
    · rintro ⟨r, ht, hw⟩
      obtain ⟨-, j, -, rfl⟩ := hr.resolved _ ht
      obtain ⟨k, hc⟩ := hr.exists_column ht
      exact ⟨k, j, hc, (h.moves i j k c hc).mpr ht, ih.mpr hw⟩

/-- The word is accepted from a position of the completion; from the sink none is. -/
def AcceptsAt (d : Dfa n) (alphabet : Alphabet) (p : Fin (n + 1)) (w : List Char) : Prop :=
  ∃ i, p = i.castSucc ∧ d.Accepts alphabet i w

theorem acceptsAt_castSucc : d.AcceptsAt alphabet i.castSucc w ↔ d.Accepts alphabet i w := by
  constructor
  · rintro ⟨j, hj, hw⟩
    rwa [Fin.castSucc_inj.mp hj]
  · exact fun hw => ⟨i, rfl, hw⟩

theorem not_acceptsAt_last : ¬ d.AcceptsAt alphabet (Fin.last n) w := by
  rintro ⟨j, hj, -⟩
  exact absurd hj.symm (Fin.ne_of_lt (Fin.castSucc_lt_last j))

@[simp] theorem accepting_completed_castSucc (d : Dfa n) (symbols : Nat) (i : Fin n) :
    (d.completed symbols).accepting.get i.castSucc = d.accepting.get i := Vector.getElem_push_lt i.isLt

@[simp] theorem accepting_completed_last (d : Dfa n) (symbols : Nat) :
    (d.completed symbols).accepting.get (Fin.last n) = false := Vector.getElem_push_last

@[simp] theorem moves_completed_castSucc (d : Dfa n) (symbols : Nat) (i : Fin n) :
    (d.completed symbols).moves.get i.castSucc =
      (d.moves.get i).map fun next => next.elim (Fin.last n) Fin.castSucc :=
  (Vector.getElem_push_lt i.isLt).trans (Vector.getElem_map _ i.isLt)

@[simp] theorem moves_completed_last (d : Dfa n) (symbols : Nat) :
    (d.completed symbols).moves.get (Fin.last n) = .replicate symbols (Fin.last n) :=
  Vector.getElem_push_last

theorem acceptsAt_nil_iff {p : Fin (n + 1)} (symbols : Nat) :
    d.AcceptsAt alphabet p [] ↔ (d.completed symbols).accepting.get p = true := by
  cases p using Fin.lastCases with
  | last =>
    rw [accepting_completed_last]
    exact ⟨fun h => absurd h not_acceptsAt_last, fun h => by cases h⟩
  | cast i =>
    rw [acceptsAt_castSucc, accepting_completed_castSucc]
    exact Iff.rfl

theorem acceptsAt_cons_iff {p : Fin (n + 1)} (symbols : Nat) :
    d.AcceptsAt alphabet p (c :: w) ↔ ∃ (k : Nat) (q : Fin (n + 1)), alphabet[k]? = some c ∧
      ((d.completed symbols).moves.get p)[k]? = some q ∧ d.AcceptsAt alphabet q w := by
  cases p using Fin.lastCases with
  | last =>
    refine ⟨fun h => absurd h not_acceptsAt_last, ?_⟩
    rintro ⟨k, q, -, hq, hw⟩
    rw [moves_completed_last] at hq
    obtain rfl := List.eq_of_mem_replicate (List.mem_of_getElem? hq)
    exact absurd hw not_acceptsAt_last
  | cast i =>
    rw [acceptsAt_castSucc, Accepts]
    simp only [moves_completed_castSucc, List.getElem?_map, Option.map_eq_some_iff]
    constructor
    · rintro ⟨k, j, hc, hj, hw⟩
      exact ⟨k, j.castSucc, hc, ⟨_, hj, rfl⟩, acceptsAt_castSucc.mpr hw⟩
    · rintro ⟨k, q, hc, ⟨next, hnext, rfl⟩, hw⟩
      cases next with
      | none => exact absurd hw not_acceptsAt_last
      | some j => exact ⟨k, j, hc, hnext, acceptsAt_castSucc.mp hw⟩

end Dfa
end FiniteAutomata
