import FiniteAutomata.Proofs.Entries
import FiniteAutomata.Proofs.Minimization.Quotient

/-! # Rows in flat tables

The rows that words lead to can be found in the table itself, with an array that tells the found rows and
a queue of those still to be followed. Every entry is asked for and written under a check, and no check
fails, since the cells of a table hold numbers of rows.
-/
namespace FiniteAutomata

namespace Outcome

/-- The members of a list that pass a test. -/
def select (test : Nat → Outcome Bool) : List Nat → Outcome (List Nat)
  | [] => .ok []
  | i :: rest => do
    let passes ← test i
    let others ← select test rest
    return if passes then i :: others else others

theorem select_eq_ok {test : Nat → Outcome Bool} {passes : Nat → Bool} {xs : List Nat}
    (h : ∀ i ∈ xs, test i = .ok (passes i)) : select test xs = .ok (xs.filter passes) := by
  induction xs with
  | nil => rfl
  | cons i xs ih =>
    rw [select, h i (List.mem_cons_self ..), ih fun j hj => h j (List.mem_cons_of_mem i hj),
      List.filter_cons]
    cases passes i <;> rfl

end Outcome

namespace Table
variable {t : Table} {d : Dfa t.rowCount}

theorem initial_of_dfa (h : t.dfa = .ok d) : d.start.val = t.initial := by
  obtain ⟨start, hstart, h⟩ := Outcome.bind_eq_ok.mp h
  obtain ⟨accepting, -, h⟩ := Outcome.bind_eq_ok.mp h
  obtain ⟨moves, -, h⟩ := Outcome.bind_eq_ok.mp h
  cases h
  exact position_eq_ok.mp hstart

theorem isAccepting_of_dfa (h : t.dfa = .ok d) (i : Fin t.rowCount) :
    t.isAccepting i = .ok (d.accepting.get i) := by
  obtain ⟨start, -, h⟩ := Outcome.bind_eq_ok.mp h
  obtain ⟨accepting, haccepting, h⟩ := Outcome.bind_eq_ok.mp h
  obtain ⟨moves, -, h⟩ := Outcome.bind_eq_ok.mp h
  cases h
  exact Outcome.of_ofFnM_eq_ok haccepting i

theorem forall₂_cell_of_dfa (h : t.dfa = .ok d) (i : Fin t.rowCount) :
    List.Forall₂ (fun k x => t.cell i k = .ok (x.map Fin.val)) (List.range t.alphabet.length)
      (d.moves.get i) := by
  obtain ⟨start, -, h⟩ := Outcome.bind_eq_ok.mp h
  obtain ⟨accepting, -, h⟩ := Outcome.bind_eq_ok.mp h
  obtain ⟨moves, hmoves, h⟩ := Outcome.bind_eq_ok.mp h
  cases h
  exact (Outcome.mapM_eq_ok.mp (Outcome.of_ofFnM_eq_ok hmoves i)).imp fun k x hx =>
    entry_eq_ok.mpr (cell_of_target hx)

theorem length_moves_of_dfa (h : t.dfa = .ok d) (i : Fin t.rowCount) :
    (d.moves.get i).length = t.alphabet.length := by
  rw [← (forall₂_cell_of_dfa h i).length_eq, List.length_range]

theorem cell_of_dfa (h : t.dfa = .ok d) (i : Fin t.rowCount) {k : Nat}
    (hk : k < (d.moves.get i).length) : t.cell i k = .ok ((d.moves.get i)[k].map Fin.val) := by
  have hcell := (forall₂_cell_of_dfa h i).get (by rwa [List.length_range, ← length_moves_of_dfa h i]) hk
  rwa [List.get_eq_getElem, List.getElem_range] at hcell

end Table

/-- The rows that words lead to, ascending. -/
def Dfa.rows {n : Nat} (d : Dfa n) : List Nat := d.reachable.toList.map Fin.val

namespace RowSearch

/-- Adds the row that a cell leads to, unless it leads nowhere or the row has been found. -/
def discover (t : Table) (row : Nat) (s : Array Bool × List Nat) (column : Nat) :
    Outcome (Array Bool × List Nat) := do
  match ← t.cell row column with
  | none => return s
  | some next =>
    if ← Table.entry s.1 next then return s
    else return (← Table.store s.1 next true, s.2 ++ [next])

/-- Follows the rows in the queue one after the other. -/
def spread (t : Table) : Nat → Array Bool → List Nat → Outcome (Array Bool)
  | budget + 1, found, row :: queue => do
    let s ← (List.range t.alphabet.length).foldlM (discover t row) (found, queue)
    spread t budget s.1 s.2
  | _, found, _ => .ok found

/-- The rows that words lead to, ascending. Each is queued once, so that a budget of one turn for each
row suffices. -/
def rows (t : Table) : Outcome (List Nat) := do
  let found ← Table.store (.replicate t.rowCount false) t.initial true
  let found ← spread t t.rowCount found [t.initial]
  Outcome.select (Table.entry found) (List.range t.rowCount)

variable {n : Nat} {found : Array Bool} {queue : List Nat}

def Found (found : Array Bool) (i : Fin n) : Prop := found[i.val]? = some true

instance (found : Array Bool) (i : Fin n) : Decidable (Found found i) :=
  inferInstanceAs (Decidable (_ = _))

/-- The number of rows not found yet. -/
def missing (n : Nat) (found : Array Bool) : Nat :=
  (List.finRange n).countP fun i => !decide (Found found i)

/-- What following a row has made of the found rows and the queue. -/
structure Grows (n : Nat) (targets : List (Option (Fin n))) (s s' : Array Bool × List Nat) : Prop where
  size : s'.1.size = s.1.size
  found_iff : ∀ i : Fin n, Found s'.1 i ↔ Found s.1 i ∨ some i ∈ targets
  queued : ∀ row ∈ s.2, row ∈ s'.2
  enqueued : ∀ i : Fin n, Found s'.1 i → Found s.1 i ∨ i.val ∈ s'.2
  rows : ∀ row ∈ s'.2, row ∈ s.2 ∨ ∃ i : Fin n, i.val = row ∧ Found s'.1 i
  weight : missing n s'.1 + s'.2.length ≤ missing n s.1 + s.2.length

theorem found_set_iff {j : Fin n} (hsize : found.size = n) {i : Fin n} :
    Found (found.setIfInBounds j.val true) i ↔ Found found i ∨ i = j := by
  have hlt : i.val < found.size := by
    rw [hsize]
    exact i.isLt
  have hentry := Array.getElem?_eq_getElem hlt
  rw [Found, Found, Table.getElem?_setIfInBounds j.val true hentry, hentry]
  by_cases hij : j.val = i.val
  · rw [if_pos hij]
    exact iff_of_true rfl (Or.inr (Fin.ext hij.symm))
  · rw [if_neg hij, or_iff_left fun he => hij (congrArg Fin.val he.symm)]

theorem missing_set_lt {j : Fin n} (hsize : found.size = n) (hj : ¬ Found found j) :
    missing n (found.setIfInBounds j.val true) < missing n found := by
  refine StateSet.countP_lt_of_mem (a := j) (fun i hi => ?_) (List.mem_finRange j) ?_ ?_
  · rw [Bool.not_eq_true', decide_eq_false_iff_not] at hi ⊢
    exact fun hfound => hi ((found_set_iff hsize).mpr (Or.inl hfound))
  · rw [Bool.not_eq_true', decide_eq_false_iff_not]
    exact hj
  · rw [Bool.not_eq_true', decide_eq_false_iff_not]
    exact not_not_intro ((found_set_iff hsize).mpr (Or.inr rfl))

theorem Grows.same {targets : List (Option (Fin n))} {s : Array Bool × List Nat}
    (h : ∀ i : Fin n, some i ∈ targets → Found s.1 i) : Grows n targets s s where
  size := rfl
  found_iff i := (or_iff_left_of_imp (h i)).symm
  queued _ hrow := hrow
  enqueued _ hi := Or.inl hi
  rows _ hrow := Or.inl hrow
  weight := Nat.le_refl _

theorem Grows.trans {targets targets' : List (Option (Fin n))} {s s' s'' : Array Bool × List Nat}
    (h : Grows n targets s s') (h' : Grows n targets' s' s'') :
    Grows n (targets ++ targets') s s'' where
  size := h'.size.trans h.size
  found_iff i := by rw [h'.found_iff, h.found_iff, List.mem_append, or_assoc]
  queued row hrow := h'.queued row (h.queued row hrow)
  enqueued i hi := by
    rcases h'.enqueued i hi with hi | hi
    · exact (h.enqueued i hi).imp_right (h'.queued _)
    · exact Or.inr hi
  rows row hrow := by
    rcases h'.rows row hrow with hrow | hfound
    · refine (h.rows row hrow).imp_right ?_
      rintro ⟨i, hi, hfound⟩
      exact ⟨i, hi, (h'.found_iff i).mpr (Or.inl hfound)⟩
    · exact Or.inr hfound
  weight := Nat.le_trans h'.weight h.weight

theorem Grows.add {s : Array Bool × List Nat} {j : Fin n} (hsize : s.1.size = n)
    (hj : ¬ Found s.1 j) :
    Grows n [some j] s (s.1.setIfInBounds j.val true, s.2 ++ [j.val]) where
  size := Array.size_setIfInBounds
  found_iff i := by
    rw [found_set_iff hsize, List.mem_singleton, Option.some.injEq]
  queued row hrow := List.mem_append_left _ hrow
  enqueued i hi := by
    refine ((found_set_iff hsize).mp hi).imp_right ?_
    rintro rfl
    exact List.mem_append_right _ (List.mem_singleton_self _)
  rows row hrow := by
    refine (List.mem_append.mp hrow).imp_right fun hnew => ?_
    exact ⟨j, (List.mem_singleton.mp hnew).symm, (found_set_iff hsize).mpr (Or.inr rfl)⟩
  weight := by
    have hlt := missing_set_lt hsize hj
    change missing n (s.1.setIfInBounds j.val true) + (s.2 ++ [j.val]).length ≤ _
    rw [List.length_append, List.length_singleton]
    omega

section
variable {t : Table} {d : Dfa t.rowCount} {s : Array Bool × List Nat}

theorem exists_discover (hsize : s.1.size = t.rowCount) {row : Fin t.rowCount} {k : Nat}
    {target : Option (Fin t.rowCount)} (hcell : t.cell row k = .ok (target.map Fin.val)) :
    ∃ s', discover t row s k = .ok s' ∧ Grows t.rowCount [target] s s' := by
  rw [discover, hcell, Outcome.ok_bind]
  cases target with
  | none => exact ⟨s, rfl, Grows.same fun i hi => by simp at hi⟩
  | some next =>
    have hlt : next.val < s.1.size := by
      rw [hsize]
      exact next.isLt
    have hentry := Array.getElem?_eq_getElem hlt
    dsimp only [Option.map_some]
    rw [Table.entry_eq_ok.mpr hentry, Outcome.ok_bind]
    cases hfound : s.1[next.val] with
    | true =>
      refine ⟨s, rfl, Grows.same fun i hi => ?_⟩
      obtain rfl : i = next := by simpa using hi
      rw [Found, hentry, hfound]
    | false =>
      have hmissing : ¬ Found s.1 next := by
        rw [Found, hentry, hfound]
        simp
      refine ⟨_, ?_, Grows.add hsize hmissing⟩
      rw [if_neg Bool.false_ne_true, Table.store_eq_ok hentry]
      rfl

theorem exists_discoverAll (row : Fin t.rowCount) {ks : List Nat}
    {targets : List (Option (Fin t.rowCount))}
    (h : List.Forall₂ (fun k x => t.cell row k = .ok (x.map Fin.val)) ks targets)
    (hsize : s.1.size = t.rowCount) :
    ∃ s', ks.foldlM (discover t row) s = .ok s' ∧ Grows t.rowCount targets s s' := by
  induction h generalizing s with
  | nil => exact ⟨s, rfl, Grows.same fun i hi => absurd hi List.not_mem_nil⟩
  | cons hcell _ ih =>
    obtain ⟨s₁, hs₁, hgrows₁⟩ := exists_discover hsize hcell
    obtain ⟨s₂, hs₂, hgrows₂⟩ := ih (hgrows₁.size.trans hsize)
    rw [List.foldlM_cons, hs₁]
    exact ⟨s₂, hs₂, hgrows₁.trans hgrows₂⟩

end

/-- Found rows are reached, and lead to found rows or wait in the queue. -/
structure Searching (d : Dfa n) (s : Array Bool × List Nat) : Prop where
  size : s.1.size = n
  start : Found s.1 d.start
  reached : ∀ i : Fin n, Found s.1 i → i ∈ d.reachable
  queued : ∀ row ∈ s.2, ∃ i : Fin n, i.val = row ∧ Found s.1 i
  closed : ∀ i : Fin n, Found s.1 i → i.val ∉ s.2 → ∀ j, some j ∈ d.moves.get i → Found s.1 j

theorem Searching.follow {d : Dfa n} {i : Fin n} {s' : Array Bool × List Nat}
    (h : Searching d (found, i.val :: queue)) (hgrows : Grows n (d.moves.get i) (found, queue) s') :
    Searching d s' where
  size := hgrows.size.trans h.size
  start := (hgrows.found_iff _).mpr (Or.inl h.start)
  reached j hj := by
    rcases (hgrows.found_iff j).mp hj with hj | hj
    · exact h.reached j hj
    · obtain ⟨i', hi', hfound⟩ := h.queued i.val (List.mem_cons_self ..)
      obtain rfl := Fin.ext hi'
      obtain ⟨k, hk⟩ := List.getElem?_of_mem hj
      exact Minimization.mem_reachable_of_move (h.reached _ hfound) hk
  queued row hrow := by
    rcases hgrows.rows row hrow with hrow | hfound
    · obtain ⟨j, hj, hfound⟩ := h.queued row (List.mem_cons_of_mem _ hrow)
      exact ⟨j, hj, (hgrows.found_iff j).mpr (Or.inl hfound)⟩
    · exact hfound
  closed j hj hnot k hk := by
    have hfound : Found found j := (hgrows.enqueued j hj).resolve_right hnot
    refine (hgrows.found_iff k).mpr ?_
    by_cases hji : j = i
    · exact Or.inr (hji ▸ hk)
    · refine Or.inl (h.closed j hfound ?_ k hk)
      rw [List.mem_cons, not_or]
      exact ⟨fun he => hji (Fin.ext he), fun hmem => hnot (hgrows.queued _ hmem)⟩

theorem Searching.found_iff {d : Dfa n} (h : Searching d (found, [])) (i : Fin n) :
    Found found i ↔ i ∈ d.reachable := by
  refine ⟨h.reached i, fun hi => ?_⟩
  obtain ⟨start, hstart, hreaches⟩ := Search.mem_reach.mp hi
  obtain rfl := StateSet.mem_singleton.mp hstart
  clear hi
  induction hreaches with
  | refl => exact h.start
  | tail _ hleads ih =>
    obtain ⟨target, htarget, rfl⟩ := List.mem_filterMap.mp hleads
    exact h.closed _ ih List.not_mem_nil _ htarget

variable {t : Table} {d : Dfa t.rowCount}

theorem exists_spread (ht : t.dfa = .ok d) (budget : Nat) (h : Searching d (found, queue))
    (hb : missing t.rowCount found + queue.length ≤ budget) :
    ∃ found', spread t budget found queue = .ok found' ∧ Searching d (found', []) := by
  induction budget generalizing found queue with
  | zero =>
    obtain rfl : queue = [] := List.length_eq_zero_iff.mp (by omega)
    exact ⟨found, rfl, h⟩
  | succ budget ih =>
    cases queue with
    | nil => exact ⟨found, rfl, h⟩
    | cons row queue =>
      obtain ⟨i, rfl, -⟩ := h.queued row (List.mem_cons_self ..)
      obtain ⟨s, hs, hgrows⟩ := exists_discoverAll i (Table.forall₂_cell_of_dfa ht i)
        (s := (found, queue)) h.size
      have hweight : missing t.rowCount s.1 + s.2.length ≤ missing t.rowCount found + queue.length :=
        hgrows.weight
      rw [List.length_cons] at hb
      obtain ⟨found', hspread, h'⟩ := ih (h.follow hgrows) (by omega)
      rw [spread, hs]
      exact ⟨found', hspread, h'⟩

theorem searching_start (d : Dfa n) :
    Searching d ((Array.replicate n false).setIfInBounds d.start.val true, [d.start.val]) := by
  have hfound {i : Fin n} :
      Found ((Array.replicate n false).setIfInBounds d.start.val true) i ↔ i = d.start := by
    rw [found_set_iff Array.size_replicate, Found, Array.getElem?_replicate, if_pos i.isLt]
    exact or_iff_right (by simp)
  constructor
  case size => rw [Array.size_setIfInBounds, Array.size_replicate]
  case start => exact hfound.mpr rfl
  case reached =>
    intro i hi
    rw [hfound.mp hi]
    exact Minimization.start_mem_reachable d
  case queued =>
    intro row hrow
    exact ⟨d.start, (List.mem_singleton.mp hrow).symm, hfound.mpr rfl⟩
  case closed =>
    intro i hi hnot
    exact absurd (hfound.mp hi ▸ List.mem_singleton_self _) hnot

theorem rows_of_found {d : Dfa n} (h : ∀ i : Fin n, Found found i ↔ i ∈ d.reachable) :
    (List.range n).filter (fun row => found[row]? = some true) = d.rows := by
  rw [Dfa.rows, StateSet.toList, ← List.map_coe_finRange_eq_range, List.filter_map]
  refine congrArg (List.map Fin.val) (List.filter_congr fun i _ => ?_)
  rw [Bool.eq_iff_iff, Function.comp_apply, decide_eq_true_eq]
  exact h i

theorem rows_eq (ht : t.dfa = .ok d) : rows t = .ok d.rows := by
  have hstart : (Array.replicate t.rowCount false)[t.initial]? = some false := by
    rw [← Table.initial_of_dfa ht, Array.getElem?_replicate, if_pos d.start.isLt]
  have hbudget :
      missing t.rowCount ((Array.replicate t.rowCount false).setIfInBounds d.start.val true) +
        [d.start.val].length ≤ t.rowCount := by
    have hmissing : ¬ Found (.replicate t.rowCount false) d.start := by
      rw [Found, Array.getElem?_replicate, if_pos d.start.isLt]
      simp
    have hlt := missing_set_lt Array.size_replicate hmissing
    have hle : missing t.rowCount (.replicate t.rowCount false) ≤ t.rowCount := by
      refine Nat.le_trans List.countP_le_length (Nat.le_of_eq ?_)
      exact List.length_finRange
    exact Nat.lt_of_lt_of_le hlt hle
  obtain ⟨found, hspread, hsearching⟩ := exists_spread ht t.rowCount (searching_start d) hbudget
  rw [rows, Table.store_eq_ok hstart, Outcome.ok_bind, ← Table.initial_of_dfa ht, hspread,
    Outcome.ok_bind, ← rows_of_found hsearching.found_iff]
  refine Outcome.select_eq_ok fun row hrow => Table.entry_eq_ok.mpr ?_
  have hlt : row < found.size := by
    rw [hsearching.size]
    exact List.mem_range.mp hrow
  rw [Array.getElem?_eq_getElem hlt]
  cases found[row] <;> rfl

end RowSearch
end FiniteAutomata
