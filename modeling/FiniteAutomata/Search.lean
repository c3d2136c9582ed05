import FiniteAutomata.StateSet

/-! # Graph search

The positions that can be reached from a set by following a successor function any number of times.
Each newly seen position enters the list of pending ones once, so the search ends when no position
is pending, after at most one visit per position.
-/
namespace FiniteAutomata
namespace Search
variable {n : Nat}

/-- The positions of a list that have not been seen, each once. -/
def fresh (seen : StateSet n) : List (Fin n) → List (Fin n)
  | [] => []
  | i :: is => if i ∈ seen then fresh seen is else i :: fresh (seen.insert i) is

theorem mem_fresh {seen : StateSet n} {is : List (Fin n)} {i : Fin n} :
    i ∈ fresh seen is ↔ i ∈ is ∧ i ∉ seen := by
  induction is generalizing seen with
  | nil => simp [fresh]
  | cons a rest ih =>
    unfold fresh
    split
    · rename_i h
      rw [ih, List.mem_cons]
      constructor
      · exact fun ⟨hi, hs⟩ => ⟨Or.inr hi, hs⟩
      · rintro ⟨rfl | hi, hs⟩
        · exact absurd h hs
        · exact ⟨hi, hs⟩
    · rename_i h
      rw [List.mem_cons, ih, List.mem_cons, StateSet.mem_insert, not_or]
      constructor
      · rintro (rfl | ⟨hi, -, hs⟩)
        · exact ⟨Or.inl rfl, h⟩
        · exact ⟨Or.inr hi, hs⟩
      · rintro ⟨rfl | hi, hs⟩
        · exact Or.inl rfl
        · by_cases ha : i = a
          · exact Or.inl ha
          · exact Or.inr ⟨hi, ha, hs⟩

/-- Visits the pending positions; everything pending has been seen already. -/
def visit (next : Fin n → List (Fin n)) : List (Fin n) → StateSet n → StateSet n
  | [], seen => seen
  | i :: pending, seen =>
    visit next (fresh seen (next i) ++ pending) (seen.insertAll (fresh seen (next i)))
termination_by pending seen => (seen.missing, pending.length)
decreasing_by
  match h : fresh seen (next i) with
  | [] =>
    simp only [StateSet.insertAll, List.foldl_nil, List.nil_append, List.length_cons]
    exact Prod.Lex.right _ (Nat.lt_succ_self _)
  | j :: js =>
    have hj : j ∈ fresh seen (next i) := by simp [h]
    exact Prod.Lex.left _ _
      (StateSet.missing_insertAll_lt (List.mem_cons_self ..) (mem_fresh.mp hj).2)

/-- Everything reachable from the members of a set, the members included. -/
def reach (next : Fin n → List (Fin n)) (start : StateSet n) : StateSet n :=
  visit next start.toList start

end Search
end FiniteAutomata
