import Mathlib.Algebra.Group.Nat.Defs
import Mathlib.Data.Fintype.Card
import Mathlib.Data.List.Induction
import Mathlib.Data.List.Sort
import FiniteAutomata.PowerState
import FiniteAutomata.Proofs.Path
import FiniteAutomata.Proofs.Reachability
import FiniteAutomata.Proofs.WellFormed

/-! # Power-states and paths

The power-state after a word holds exactly the states to which some path from the initial state reads
the word. Closures contribute the epsilon transitions of such a path, moves its symbols.
-/
namespace FiniteAutomata

theorem StateSet.isEmpty_eq_false_iff {n : Nat} {s : StateSet n} :
    s.isEmpty = false ↔ ∃ i, i ∈ s := by
  rw [← Bool.not_eq_true, isEmpty_iff, not_forall]
  simp only [not_not]

theorem StateSet.length_le_of_nodup {n : Nat} {sets : List (StateSet n)} (h : sets.Nodup) :
    sets.length ≤ 2 ^ n := by
  have hbits : Function.Injective fun s : StateSet n => s.bits.toFin := by
    rintro ⟨x⟩ ⟨y⟩ hxy
    exact congrArg _ (BitVec.eq_of_toFin_eq hxy)
  have hcard := (h.map hbits).length_le_card
  rwa [List.length_map, Fintype.card_fin] at hcard

theorem eq_of_ascending {xs ys : List StateId} (hx : xs.Pairwise (· < ·))
    (hy : ys.Pairwise (· < ·)) (h : ∀ q, q ∈ xs ↔ q ∈ ys) : xs = ys := by
  have hirrefl : Std.Irrefl (α := StateId) (· < ·) := ⟨UInt32.lt_irrefl⟩
  have hantisymm : Std.Antisymm (α := StateId) (· < ·) :=
    ⟨fun p q hpq hqp => absurd (UInt32.lt_trans hpq hqp) (UInt32.lt_irrefl p)⟩
  exact hx.eq_of_mem_iff hy fun {q} => h q

theorem Automaton.WellFormed.mem_ids_of_reads {a : Automaton} {p q : StateId} {w : List Char}
    (h : a.WellFormed) (hp : p ∈ a.ids) (hr : Reads a.transitions p w q) : q ∈ a.ids := by
  obtain ⟨ls, hpath, -⟩ := hr
  induction hpath with
  | nil => exact hp
  | cons ht _ ih => exact ih (h.resolved _ ht).2

namespace Index
variable {n : Nat} {ix : Index n} {a : Automaton}

/-- The power-state after a word. -/
def after (ix : Index n) (s : StateSet n) (w : List Char) : StateSet n := w.foldl ix.step s

@[simp] theorem after_nil (ix : Index n) (s : StateSet n) : ix.after s [] = s := rfl

@[simp] theorem after_cons (ix : Index n) (s : StateSet n) (c : Char) (w : List Char) :
    ix.after s (c :: w) = ix.after (ix.step s c) w := rfl

theorem after_concat (ix : Index n) (s : StateSet n) (w : List Char) (c : Char) :
    ix.after s (w ++ [c]) = ix.step (ix.after s w) c := by
  simp [after]

theorem after_append (ix : Index n) (s : StateSet n) (v w : List Char) :
    ix.after s (v ++ w) = ix.after (ix.after s v) w := List.foldl_append

theorem mem_ids {s : StateSet n} {q : StateId} : q ∈ ix.ids s ↔ ∃ i ∈ s, ix.idAt i = q := by
  unfold ids
  simp only [List.mem_map, StateSet.mem_toList]

namespace Represents

theorem exists_position_of_path (h : ix.Represents a) {p q : StateId} {ls : List Label}
    (hp : Path a.transitions p ls q) (i : Fin n) (hi : ix.idAt i = p) : ∃ j, ix.idAt j = q := by
  induction hp generalizing i with
  | nil p => exact ⟨i, hi⟩
  | cons ht _ ih =>
    obtain ⟨-, j, -, hj⟩ := h.resolved _ ht
    exact ih j hj

theorem exists_position (h : ix.Represents a) {i : Fin n} {w : List Char} {q : StateId}
    (hr : Reads a.transitions (ix.idAt i) w q) : ∃ j, ix.idAt j = q := by
  obtain ⟨ls, hp, -⟩ := hr
  exact h.exists_position_of_path hp i rfl

theorem mem_targets (h : ix.Represents a) {l : Label} {i j : Fin n} :
    j ∈ ix.targets l i ↔ ⟨ix.idAt i, ix.idAt j, l⟩ ∈ a.transitions := by
  rw [← h.outgoing]
  unfold targets
  rw [List.mem_filterMap]
  constructor
  · rintro ⟨⟨m, k⟩, hmem, he⟩
    split at he
    · rename_i hm
      cases hm
      cases he
      exact hmem
    · cases he
  · intro hmem
    exact ⟨(l, j), hmem, by simp⟩

theorem reaches_targets_iff (h : ix.Represents a) {i j : Fin n} :
    Search.Reaches (ix.targets .epsilon) i j ↔ Reads a.transitions (ix.idAt i) [] (ix.idAt j) := by
  rw [reads_nil_iff]
  constructor
  · intro hr
    induction hr with
    | refl => exact Relation.ReflTransGen.refl
    | tail _ he ih => exact ih.tail (h.mem_targets.mp he)
  · intro hs
    generalize hj : ix.idAt j = q at hs
    induction hs generalizing j with
    | refl =>
      rw [h.idAt_inj.mp hj]
    | tail _ ht ih =>
      obtain ⟨k, -, hk, -⟩ := h.resolved _ ht
      refine (ih hk).tail (h.mem_targets.mpr ?_)
      rw [hk, hj]
      exact ht

theorem mem_closure (h : ix.Represents a) {s : StateSet n} {j : Fin n} :
    j ∈ ix.closure s ↔ ∃ i ∈ s, Reads a.transitions (ix.idAt i) [] (ix.idAt j) := by
  unfold closure
  rw [Search.mem_reach]
  simp only [h.reaches_targets_iff]

theorem mem_move (h : ix.Represents a) {s : StateSet n} {c : Char} {j : Fin n} :
    j ∈ ix.move s c ↔ ∃ i ∈ s, ⟨ix.idAt i, ix.idAt j, .symbol c⟩ ∈ a.transitions := by
  unfold move
  rw [StateSet.mem_ofList, List.mem_flatMap]
  simp only [StateSet.mem_toList, h.mem_targets]

theorem of_step_nonempty (h : ix.Represents a) {s : StateSet n} {c : Char}
    (hne : (ix.step s c).isEmpty = false) : c ∈ ix.alphabet ∧ s.isEmpty = false := by
  obtain ⟨j, hj⟩ := StateSet.isEmpty_eq_false_iff.mp hne
  obtain ⟨k, hk, -⟩ := h.mem_closure.mp hj
  obtain ⟨i, hi, ht⟩ := h.mem_move.mp hk
  rw [h.alphabet]
  exact ⟨Automaton.mem_alphabet.mpr ⟨_, ht, rfl⟩, StateSet.isEmpty_eq_false_iff.mpr ⟨i, hi⟩⟩

theorem isEmpty_start (h : ix.Represents a) (i : Fin n) : (ix.start i).isEmpty = false := by
  refine StateSet.isEmpty_eq_false_iff.mpr ⟨i, h.mem_closure.mpr ⟨i, ?_, Reads.refl _ _⟩⟩
  exact StateSet.mem_singleton.mpr rfl

theorem mem_after_start (h : ix.Represents a) {i j : Fin n} {w : List Char} :
    j ∈ ix.after (ix.start i) w ↔ Reads a.transitions (ix.idAt i) w (ix.idAt j) := by
  -- the induction takes symbols off the end, where the last step was made
  induction w using List.reverseRecOn generalizing j with
  | nil =>
    rw [after_nil, start, h.mem_closure]
    simp only [StateSet.mem_singleton, exists_eq_left]
  | append_singleton w c ih =>
    rw [after_concat, step, h.mem_closure, reads_concat_iff]
    constructor
    · rintro ⟨k, hk, hj⟩
      obtain ⟨m, hm, ht⟩ := h.mem_move.mp hk
      exact ⟨_, _, ih.mp hm, ht, hj⟩
    · rintro ⟨r, s, hr, ht, hs⟩
      obtain ⟨m, k, hm, hk⟩ := h.resolved _ ht
      subst hm hk
      exact ⟨k, h.mem_move.mpr ⟨m, ih.mpr hr, ht⟩, hs⟩

theorem mem_move_after_start (h : ix.Represents a) {i j : Fin n} {w : List Char} {c : Char} :
    j ∈ ix.move (ix.after (ix.start i) w) c ↔
      ∃ p, Reads a.transitions (ix.idAt i) w p ∧ ⟨p, ix.idAt j, .symbol c⟩ ∈ a.transitions := by
  rw [h.mem_move]
  constructor
  · rintro ⟨k, hk, ht⟩
    exact ⟨_, h.mem_after_start.mp hk, ht⟩
  · rintro ⟨p, hp, ht⟩
    obtain ⟨k, rfl⟩ := h.exists_position hp
    exact ⟨k, h.mem_after_start.mpr hp, ht⟩

theorem pairwise_ids (h : ix.Represents a) (s : StateSet n) : (ix.ids s).Pairwise (· < ·) := by
  unfold ids
  rw [List.pairwise_map]
  exact s.pairwise_toList.imp fun hij => h.ascending _ _ hij

theorem mem_ids_after_start (h : ix.Represents a) {i : Fin n} {w : List Char} {q : StateId} :
    q ∈ ix.ids (ix.after (ix.start i) w) ↔ Reads a.transitions (ix.idAt i) w q := by
  rw [mem_ids]
  constructor
  · rintro ⟨j, hj, rfl⟩
    exact h.mem_after_start.mp hj
  · intro hr
    obtain ⟨j, rfl⟩ := h.exists_position hr
    exact ⟨j, h.mem_after_start.mpr hr, rfl⟩

theorem mem_ids_move_after_start (h : ix.Represents a) {i : Fin n} {w : List Char} {c : Char}
    {q : StateId} : q ∈ ix.ids (ix.move (ix.after (ix.start i) w) c) ↔
      ∃ p, Reads a.transitions (ix.idAt i) w p ∧ ⟨p, q, .symbol c⟩ ∈ a.transitions := by
  rw [mem_ids]
  constructor
  · rintro ⟨j, hj, rfl⟩
    exact h.mem_move_after_start.mp hj
  · rintro ⟨p, hp, ht⟩
    obtain ⟨-, j, -, rfl⟩ := h.resolved _ ht
    exact ⟨j, h.mem_move_after_start.mpr ⟨p, hp, ht⟩, rfl⟩

theorem isEmpty_after_start (h : ix.Represents a) {i : Fin n} {w : List Char} :
    (ix.after (ix.start i) w).isEmpty = true ↔ ∀ q, ¬ Reads a.transitions (ix.idAt i) w q := by
  rw [StateSet.isEmpty_iff]
  constructor
  · intro he q hq
    obtain ⟨j, rfl⟩ := h.exists_position hq
    exact he j (h.mem_after_start.mpr hq)
  · intro hn j hj
    exact hn _ (h.mem_after_start.mp hj)

theorem isAccepting_after_start (h : ix.Represents a) {i : Fin n} {w : List Char} :
    ix.isAccepting (ix.after (ix.start i) w) = true ↔
      ∃ q ∈ a.states, q.isFinal = true ∧ Reads a.transitions (ix.idAt i) w q.id := by
  unfold isAccepting
  rw [StateSet.meets_iff]
  constructor
  · rintro ⟨j, hj, hf⟩
    exact ⟨ix.states.get j, (h.mem_states _).mpr ⟨j, rfl⟩, (h.accepting j).mp hf,
      h.mem_after_start.mp hj⟩
  · rintro ⟨q, hq, hf, hr⟩
    obtain ⟨j, rfl⟩ := (h.mem_states q).mp hq
    exact ⟨j, h.mem_after_start.mpr hr, (h.accepting j).mpr hf⟩

end Represents
end Index
end FiniteAutomata
