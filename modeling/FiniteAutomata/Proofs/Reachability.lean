import Mathlib.Logic.Relation
import FiniteAutomata.Search

/-! # What a graph search finds

A search ends with exactly the positions that a chain of successors links to the starting set. The
invariant of the pending list is that a position that has been seen and is no longer pending has all
its successors among the seen ones.
-/
namespace FiniteAutomata
namespace Search
variable {n : Nat}

/-- One position is a successor of another. -/
def Leads (next : Fin n → List (Fin n)) (i j : Fin n) : Prop := j ∈ next i

/-- A chain of successors, of any length. -/
abbrev Reaches (next : Fin n → List (Fin n)) : Fin n → Fin n → Prop :=
  Relation.ReflTransGen (Leads next)

/-- Everything seen and not pending has been followed, and everything pending has been seen. -/
structure Followed (next : Fin n → List (Fin n)) (pending : List (Fin n)) (seen : StateSet n) :
    Prop where
  pending_seen : ∀ i ∈ pending, i ∈ seen
  closed : ∀ i ∈ seen, i ∉ pending → ∀ j, Leads next i j → j ∈ seen

theorem Followed.step {next : Fin n → List (Fin n)} {i : Fin n} {pending : List (Fin n)}
    {seen : StateSet n} (h : Followed next (i :: pending) seen) :
    Followed next (fresh seen (next i) ++ pending) (seen.insertAll (fresh seen (next i))) := by
  constructor
  · intro j hj
    rw [StateSet.mem_insertAll]
    rcases List.mem_append.mp hj with hj | hj
    · exact Or.inl hj
    · exact Or.inr (h.pending_seen j (List.mem_cons_of_mem _ hj))
  · intro j hj hnot k hk
    rw [List.mem_append, not_or] at hnot
    have hseen : j ∈ seen := (StateSet.mem_insertAll.mp hj).resolve_left hnot.1
    rw [StateSet.mem_insertAll]
    by_cases hji : j = i
    · subst hji
      by_cases hks : k ∈ seen
      · exact Or.inr hks
      · exact Or.inl (mem_fresh.mpr ⟨hk, hks⟩)
    · have hpending : j ∉ i :: pending := by simp [hji, hnot.2]
      exact Or.inr (h.closed j hseen hpending k hk)

theorem reaches_insertAll_fresh {next : Fin n → List (Fin n)} {i j : Fin n} {seen : StateSet n}
    (hi : i ∈ seen) :
    (∃ k ∈ seen.insertAll (fresh seen (next i)), Reaches next k j) ↔
      ∃ k ∈ seen, Reaches next k j := by
  constructor
  · rintro ⟨k, hk, hr⟩
    rcases StateSet.mem_insertAll.mp hk with hk | hk
    · have he : Leads next i k := (mem_fresh.mp hk).1
      exact ⟨i, hi, Relation.ReflTransGen.head he hr⟩
    · exact ⟨k, hk, hr⟩
  · rintro ⟨k, hk, hr⟩
    exact ⟨k, StateSet.mem_insertAll.mpr (Or.inr hk), hr⟩

theorem mem_visit {next : Fin n → List (Fin n)} {pending : List (Fin n)} {seen : StateSet n}
    (h : Followed next pending seen) (j : Fin n) :
    j ∈ visit next pending seen ↔ ∃ i ∈ seen, Reaches next i j := by
  -- the induction is on the visits still to come; without pending positions the set is closed
  fun_induction visit next pending seen with
  | case1 seen =>
    constructor
    · intro hj
      exact ⟨j, hj, Relation.ReflTransGen.refl⟩
    · rintro ⟨i, hi, hr⟩
      induction hr with
      | refl => exact hi
      | tail _ he ih => exact h.closed _ ih (List.not_mem_nil) _ he
  | case2 i pending seen ih =>
    have hi : i ∈ seen := h.pending_seen i (List.mem_cons_self ..)
    rw [ih h.step, reaches_insertAll_fresh hi]

theorem mem_reach {next : Fin n → List (Fin n)} {start : StateSet n} {j : Fin n} :
    j ∈ reach next start ↔ ∃ i ∈ start, Reaches next i j := by
  have h : Followed next start.toList start :=
    ⟨fun i hi => StateSet.mem_toList.mp hi,
      fun i hi hnot => absurd (StateSet.mem_toList.mpr hi) hnot⟩
  exact mem_visit h j

end Search
end FiniteAutomata
