import FiniteAutomata.Proofs.Minimization.RowSearch

/-! # Pairs in a flat table

The marks of pairs can be kept in one flat array, next to arrays that lead from a place to its row and
back, with every entry asked for and written by its number and under a check. No check ever fails: the
table of pairs goes through the same marks as the automaton on positions, a place standing for the
position with its number among the points, and it stops where that one stops.
-/
namespace FiniteAutomata

/-- Places stand for the reachable rows, in ascending order, and the last place stands for the sink. -/
structure PairTable where
  rows : Array Nat
  /-- For each row, its place. -/
  places : Array (Option Nat)
  /-- For each pair of places, whether they are marked, one place after the other. -/
  cells : Array Bool

namespace PairTable

def sink (p : PairTable) : Nat := p.rows.size

def size (p : PairTable) : Nat := p.rows.size + 1

/-- For each row, its place among the listed ones. -/
def placesOf (rowCount : Nat) (rows : List Nat) : Outcome (Array (Option Nat)) :=
  rows.zipIdx.foldlM (fun places e => Table.store places e.1 (some e.2)) (.replicate rowCount none)

/-- A table without marks, unless looking at all pairs once is too much. -/
def blank (t : Table) (rows : List Nat) (limits : Limits) : Outcome PairTable := do
  let size := rows.length + 1
  if limits.maxPairChecks < Marks.pairCount size then .refuse (Marks.tooManyChecks limits)
  else
    let places ← placesOf t.rowCount rows
    return ⟨rows.toArray, places, .replicate (size * size) false⟩

def isAccepting (p : PairTable) (t : Table) (i : Nat) : Outcome Bool := do
  if i = p.sink then return false
  else t.isAccepting (← Table.entry p.rows i)

/-- The place after a symbol; what is missing leads to the sink. -/
def successor (p : PairTable) (t : Table) (i column : Nat) : Outcome Nat := do
  if i = p.sink then return i
  else
    match ← t.cell (← Table.entry p.rows i) column with
    | none => return p.sink
    | some next => return (← Table.entry p.places next).getD p.sink

def marked (p : PairTable) (i j : Nat) : Outcome Bool := Table.entry p.cells (i * p.size + j)

/-- Marks a pair, in both directions. -/
def mark (p : PairTable) (i j : Nat) : Outcome PairTable := do
  let cells ← Table.store p.cells (i * p.size + j) true
  let cells ← Table.store cells (j * p.size + i) true
  return { p with cells }

/-- Whether some symbol leads from two places to a marked pair. -/
def splits (p : PairTable) (t : Table) (i j : Nat) : Outcome Bool :=
  (List.range t.alphabet.length).anyM fun column => do
    let i ← p.successor t i column
    let j ← p.successor t j column
    if i = j then return false else p.marked i j

/-- Goes through the pairs of places, each place with all the later ones. -/
def overPairs {β : Type} (f : β → Nat → Nat → Outcome β) (b : β) (size : Nat) : Outcome β :=
  Marks.overPairs (fun b i j => b >>= fun b => f b i j) (.ok b) (List.range size)

/-- Marks a pair of which exactly one accepts. -/
def markDiffering (t : Table) (p : PairTable) (i j : Nat) : Outcome PairTable := do
  let first ← p.isAccepting t i
  let second ← p.isAccepting t j
  if first ≠ second then p.mark i j else return p

/-- Marks a pair that some symbol leads to a marked one, and notes that it has. -/
def visit (t : Table) (s : PairTable × Bool) (i j : Nat) : Outcome (PairTable × Bool) := do
  if ← s.1.marked i j then return s
  else if ← s.1.splits t i j then return (← s.1.mark i j, true)
  else return s

def settle (t : Table) (limits : Limits) : Nat → Nat → PairTable → Outcome PairTable
  | 0, _, p => .ok p
  | budget + 1, checks, p => do
    let checks := countSum checks (Marks.pairCount p.size)
    if limits.maxPairChecks < checks then .refuse (Marks.tooManyChecks limits)
    else
      let s ← overPairs (visit t) (p, false) p.size
      if s.2 then settle t limits budget checks s.1 else return s.1

/-- Marks all distinguishable pairs of a blank table. -/
def fill (p : PairTable) (t : Table) (limits : Limits) : Outcome PairTable := do
  let marked ← overPairs (markDiffering t) p p.size
  settle t limits (p.size * p.size + 1) (Marks.pairCount p.size) marked

variable {n : Nat} {d : Dfa n} {p : PairTable} {marks : Marks (n + 1)} {i j : Nat} {x y : Fin (n + 1)}

/-- The place is the number of the point. -/
def Stands (d : Dfa n) (i : Nat) (x : Fin (n + 1)) : Prop := (Minimization.points d)[i]? = some x

/-- The table has the marks of the points, each under its number. -/
structure Describes (p : PairTable) (d : Dfa n) (marks : Marks (n + 1)) : Prop where
  rows : p.rows.toList = d.rows
  places : ∀ r : Fin n, ∃ place, p.places[r.val]? = some place ∧
    ∀ k, place = some k ↔ d.reachable.toList[k]? = some r
  cells : ∀ i j x y, Stands d i x → Stands d j y → p.cells[i * p.size + j]? = some (marks.marked x y)

theorem stands_iff : Stands d i x ↔
    (∃ r, d.reachable.toList[i]? = some r ∧ r.castSucc = x) ∨
      i = d.reachable.toList.length ∧ x = Fin.last n := by
  unfold Stands Minimization.points
  rw [List.getElem?_append, List.length_map]
  split
  · rename_i hi
    rw [List.getElem?_map, Option.map_eq_some_iff]
    constructor
    · exact Or.inl
    · rintro (h | ⟨h, -⟩)
      · exact h
      · exact absurd hi (h ▸ Nat.lt_irrefl _)
  · rename_i hi
    rw [List.getElem?_singleton]
    constructor
    · intro h
      split at h
      · exact Or.inr ⟨by omega, (Option.some.inj h).symm⟩
      · cases h
    · rintro (⟨r, hr, -⟩ | ⟨rfl, rfl⟩)
      · exact absurd (List.getElem?_eq_some_iff.mp hr).1 hi
      · simp

theorem place_unique (hi : Stands d i x) (hj : Stands d j x) : i = j := by
  have hnodup : (Minimization.points d).Nodup :=
    (Minimization.pairwise_points d).imp fun hpq => Fin.ne_of_lt hpq
  exact (List.getElem?_inj (List.getElem?_eq_some_iff.mp hi).1 hnodup).mp (hi.trans hj.symm)

theorem Describes.sink_eq (h : p.Describes d marks) : p.sink = d.reachable.toList.length := by
  rw [sink, ← Array.length_toList, h.rows, Dfa.rows, List.length_map]

theorem Describes.size_eq (h : p.Describes d marks) : p.size = (Minimization.points d).length := by
  rw [size, ← sink, h.sink_eq, Minimization.points, List.length_append, List.length_map,
    List.length_singleton]

theorem Describes.forall₂_stands (h : p.Describes d marks) :
    List.Forall₂ (Stands d) (List.range p.size) (Minimization.points d) := by
  rw [h.size_eq]
  refine List.forall₂_iff_get.mpr ⟨List.length_range, fun i hi hi' => ?_⟩
  rw [List.get_eq_getElem, List.getElem_range]
  exact List.getElem?_eq_getElem hi'

theorem Describes.stands_sink (h : p.Describes d marks) : Stands d p.sink (Fin.last n) :=
  stands_iff.mpr (Or.inr ⟨h.sink_eq, rfl⟩)

theorem Describes.eq_sink_iff (h : p.Describes d marks) (hi : Stands d i x) :
    i = p.sink ↔ x = Fin.last n := by
  constructor
  · rintro rfl
    exact Option.some.inj (hi.symm.trans h.stands_sink)
  · rintro rfl
    exact place_unique hi h.stands_sink

theorem Describes.exists_row (h : p.Describes d marks) (hi : Stands d i x) (hne : i ≠ p.sink) :
    ∃ r : Fin n, x = r.castSucc ∧ d.reachable.toList[i]? = some r ∧
      Table.entry p.rows i = .ok r.val := by
  rcases stands_iff.mp hi with ⟨r, hr, rfl⟩ | ⟨rfl, -⟩
  · refine ⟨r, rfl, hr, Table.entry_eq_ok.mpr ?_⟩
    rw [← Array.getElem?_toList, h.rows, Dfa.rows, List.getElem?_map, hr]
    rfl
  · exact absurd h.sink_eq.symm hne

theorem Describes.marked_eq (h : p.Describes d marks) (hi : Stands d i x) (hj : Stands d j y) :
    p.marked i j = .ok (marks.marked x y) :=
  Table.entry_eq_ok.mpr (h.cells i j x y hi hj)

theorem Describes.lt_size (h : p.Describes d marks) (hi : Stands d i x) : i < p.size :=
  h.size_eq ▸ (List.getElem?_eq_some_iff.mp hi).1

theorem Describes.cell_eq_iff (h : p.Describes d marks) {i' j' : Nat} {x' y' : Fin (n + 1)}
    (hi : Stands d i x) (hj : Stands d j y) (hi' : Stands d i' x') (hj' : Stands d j' y') :
    i * p.size + j = i' * p.size + j' ↔ x = x' ∧ y = y' := by
  constructor
  · intro heq
    obtain ⟨rfl, rfl⟩ := Table.place_inj (h.lt_size hj) (h.lt_size hj') heq
    exact ⟨Option.some.inj (hi.symm.trans hi'), Option.some.inj (hj.symm.trans hj')⟩
  · rintro ⟨rfl, rfl⟩
    rw [place_unique hi hi', place_unique hj hj']

theorem Describes.exists_mark (h : p.Describes d marks) (hi : Stands d i x) (hj : Stands d j y) :
    ∃ q, p.mark i j = .ok q ∧ q.Describes d (marks.mark x y) := by
  have hstore := Table.store_eq_ok (a := true) (h.cells i j x y hi hj)
  have hback := Table.store_eq_ok (a := true)
    (Table.getElem?_setIfInBounds (i * p.size + j) true (h.cells j i y x hj hi))
  refine ⟨{ p with
    cells := (p.cells.setIfInBounds (i * p.size + j) true).setIfInBounds (j * p.size + i) true },
    ?_, h.rows, h.places, ?_⟩
  · rw [mark, hstore]
    exact congrArg (fun cells => cells >>= fun cells => .ok { p with cells }) hback
  · intro i' j' x' y' hi' hj'
    have hforth : decide (i * p.size + j = i' * p.size + j') = decide (x' = x ∧ y' = y) :=
      decide_eq_decide.mpr ((h.cell_eq_iff hi hj hi' hj').trans (and_congr eq_comm eq_comm))
    have hback : decide (j * p.size + i = i' * p.size + j') = decide (x' = y ∧ y' = x) :=
      decide_eq_decide.mpr ((h.cell_eq_iff hj hi hi' hj').trans (and_congr eq_comm eq_comm))
    refine (Table.getElem?_setIfInBounds _ true
      (Table.getElem?_setIfInBounds _ true (h.cells i' j' x' y' hi' hj'))).trans (congrArg some ?_)
    rw [Bool.if_true_left, Bool.if_true_left, hforth, hback, Marks.marked_mark, Bool.or_comm,
      Bool.or_comm (decide _) (marks.marked x' y')]

end PairTable

theorem Marks.anyMarked_eq_any {m : Nat} (marks : Marks m) (ps qs : List (Fin m)) :
    marks.anyMarked ps qs = (ps.zip qs).any fun e => e.1 ≠ e.2 && marks.marked e.1 e.2 := by
  induction ps generalizing qs with
  | nil => cases qs <;> rfl
  | cons p ps ih =>
    cases qs with
    | nil => rfl
    | cons q qs => rw [anyMarked, ih, List.zip_cons_cons, List.any_cons]

namespace PairTable
variable {t : Table} {d : Dfa t.rowCount} {p : PairTable} {marks : Marks (t.rowCount + 1)} {i j : Nat}
  {x y : Fin (t.rowCount + 1)}

theorem Describes.isAccepting_eq (h : p.Describes d marks) (ht : t.dfa = .ok d)
    (hi : Stands d i x) (symbols : Nat) :
    p.isAccepting t i = .ok ((d.completed symbols).accepting.get x) := by
  unfold isAccepting
  by_cases hsink : i = p.sink
  · rw [if_pos hsink, (h.eq_sink_iff hi).mp hsink, Dfa.accepting_completed_last]
    rfl
  · obtain ⟨r, rfl, -, hr⟩ := h.exists_row hi hsink
    rw [if_neg hsink, hr, Dfa.accepting_completed_castSucc]
    exact Table.isAccepting_of_dfa ht r

theorem Describes.exists_successor (h : p.Describes d marks) (ht : t.dfa = .ok d)
    (hi : Stands d i x) {k : Nat} (hk : k < t.alphabet.length) :
    ∃ j y, p.successor t i k = .ok j ∧ Stands d j y ∧
      ((d.completed t.alphabet.length).moves.get x)[k]? = some y := by
  unfold successor
  by_cases hsink : i = p.sink
  · refine ⟨i, x, if_pos hsink, hi, ?_⟩
    rw [(h.eq_sink_iff hi).mp hsink, Dfa.moves_completed_last, List.getElem?_replicate_of_lt hk]
  · obtain ⟨r, rfl, hreach, hr⟩ := h.exists_row hi hsink
    have hmove : k < (d.moves.get r).length := by rwa [Table.length_moves_of_dfa ht]
    have hcell := Table.cell_of_dfa ht r hmove
    rw [if_neg hsink, hr]
    simp only [Dfa.moves_completed_castSucc, List.getElem?_map, List.getElem?_eq_getElem hmove]
    change ∃ j y, (t.cell r k >>= _) = .ok j ∧ _
    rw [hcell]
    cases hnext : (d.moves.get r)[k] with
    | none => exact ⟨p.sink, Fin.last _, rfl, h.stands_sink, rfl⟩
    | some next =>
      have hmem : next ∈ d.reachable := by
        have hr := StateSet.mem_toList.mp (List.mem_of_getElem? hreach)
        refine Minimization.mem_reachable_of_move hr (k := k) ?_
        rw [List.getElem?_eq_getElem hmove, hnext]
      obtain ⟨place, hplace, hiff⟩ := h.places next
      obtain ⟨l, hl⟩ := List.getElem?_of_mem (StateSet.mem_toList.mpr hmem)
      obtain rfl := (hiff l).mpr hl
      refine ⟨l, next.castSucc, ?_, stands_iff.mpr (Or.inl ⟨next, hl, rfl⟩), rfl⟩
      change (Table.entry p.places next.val >>= _) = _
      rw [Table.entry_eq_ok.mpr hplace]
      rfl

theorem Describes.splits_eq (h : p.Describes d marks) (ht : t.dfa = .ok d)
    (hi : Stands d i x) (hj : Stands d j y) :
    p.splits t i j = .ok (Marks.splits (d.completed t.alphabet.length) marks x y) := by
  rw [Marks.splits, Marks.anyMarked_eq_any, splits]
  have hlength (z : Fin (t.rowCount + 1)) :
      ((d.completed t.alphabet.length).moves.get z).length = t.alphabet.length := by
    cases z using Fin.lastCases with
    | last => rw [Dfa.moves_completed_last, List.length_replicate]
    | cast r =>
      rw [Dfa.moves_completed_castSucc, List.length_map, Table.length_moves_of_dfa ht]
  refine Outcome.anyM_eq_ok (List.forall₂_iff_get.mpr ⟨?_, fun k hk hk' => ?_⟩)
  · rw [List.length_zip, hlength, hlength, List.length_range, Nat.min_self]
  · rw [List.length_range] at hk
    obtain ⟨i', x', hi', hx', hmovex⟩ := h.exists_successor ht hi hk
    obtain ⟨j', y', hj', hy', hmovey⟩ := h.exists_successor ht hj hk
    have hpair := List.getElem?_zip_eq_some (z := (x', y')) |>.mpr ⟨hmovex, hmovey⟩
    rw [List.get_eq_getElem, List.getElem_range, hi', List.get_eq_getElem,
      (List.getElem?_eq_some_iff.mp hpair).2]
    change (p.successor t j k >>= _) = _
    rw [hj']
    change (if i' = j' then pure false else p.marked i' j') = _
    by_cases hsame : i' = j'
    · have hxy : x' = y' := Option.some.inj (hx'.symm.trans (hsame ▸ hy'))
      rw [if_pos hsame, hxy, decide_eq_false (not_not_intro rfl)]
      rfl
    · have hxy : x' ≠ y' := fun he => hsame (place_unique hx' (he ▸ hy'))
      rw [if_neg hsame, decide_eq_true hxy, Bool.true_and]
      exact h.marked_eq hx' hy'

end PairTable

/-- Steps that keep a relation keep it over all pairs of related lists. -/
theorem Marks.overPairs_rel {α α' β β' : Type} {R : β → β' → Prop} {S : α → α' → Prop}
    {f : β → α → α → β} {g : β' → α' → α' → β'}
    (hf : ∀ b b' x x' y y', S x x' → S y y' → R b b' → R (f b x y) (g b' x' y'))
    {xs : List α} {xs' : List α'} (h : List.Forall₂ S xs xs') {b : β} {b' : β'} (hb : R b b') :
    R (overPairs f b xs) (overPairs g b' xs') := by
  induction h generalizing b b' with
  | nil => exact hb
  | cons hx hxs ih =>
    rw [overPairs, overPairs]
    exact ih (List.rel_foldl (fun b b' hb y y' hy => hf b b' _ _ y y' hx hy hb) hb hxs)

namespace PairTable
variable {t : Table} {d : Dfa t.rowCount} {p : PairTable} {marks : Marks (t.rowCount + 1)}
  {limits : Limits}

/-- Places are gone through like their points. -/
theorem Describes.exists_overPairs {β β' : Type} {R : β → β' → Prop} {f : β → Nat → Nat → Outcome β}
    {g : β' → Fin (t.rowCount + 1) → Fin (t.rowCount + 1) → β'} (h : p.Describes d marks)
    (hf : ∀ b b' i j x y, Stands d i x → Stands d j y →
      R b b' → ∃ c, f b i j = .ok c ∧ R c (g b' x y)) {b : β} {b' : β'} (hb : R b b') :
    ∃ c, overPairs f b p.size = .ok c ∧ R c (Marks.overPairs g b' (Minimization.points d)) := by
  refine Marks.overPairs_rel (R := fun o b' => ∃ c, o = Except.ok c ∧ R c b') ?_ h.forall₂_stands
    ⟨b, rfl, hb⟩
  rintro _ b' i x j y hi hj ⟨b, rfl, hb⟩
  exact hf b b' i j x y hi hj hb

theorem Describes.exists_markDiffering (h : p.Describes d .blank) (ht : t.dfa = .ok d) :
    ∃ q, overPairs (markDiffering t) p p.size = .ok q ∧ q.Describes d
      (Marks.ofAcceptance (d.completed t.alphabet.length) (Minimization.points d)) := by
  refine h.exists_overPairs (R := fun (q : PairTable) marks => q.Describes d marks) ?_ h
  intro q marks i j x y hi hj h
  rw [markDiffering, h.isAccepting_eq ht hi t.alphabet.length,
    h.isAccepting_eq ht hj t.alphabet.length]
  by_cases hne : (d.completed t.alphabet.length).accepting.get x ≠
      (d.completed t.alphabet.length).accepting.get y
  · rw [if_pos hne]
    obtain ⟨q', hq', h'⟩ := h.exists_mark hi hj
    exact ⟨q', (if_pos hne).trans hq', h'⟩
  · rw [if_neg hne]
    exact ⟨q, if_neg hne, h⟩

/-- Since a pass began with the marks of a table, it has only added marks, and has noted whether it has
added any. -/
structure Passing {n : Nat} (d : Dfa n) (marks : Marks (n + 1)) (s : PairTable × Bool)
    (marks' : Marks (n + 1)) : Prop where
  describes : s.1.Describes d marks'
  within : Marks.Within marks marks'
  changed_iff : s.2 = true ↔ marks' ≠ marks

theorem Passing.exists_visit {s : PairTable × Bool} {marks' : Marks (t.rowCount + 1)}
    (h : Passing d marks s marks') (ht : t.dfa = .ok d) {i j : Nat} {x y : Fin (t.rowCount + 1)}
    (hi : Stands d i x) (hj : Stands d j y) :
    ∃ s', visit t s i j = .ok s' ∧ Passing d marks s' (if marks'.marked x y then marks' else
      if Marks.splits (d.completed t.alphabet.length) marks' x y then marks'.mark x y else marks') := by
  rw [visit, h.describes.marked_eq hi hj]
  cases hmarked : marks'.marked x y with
  | true => exact ⟨s, rfl, h⟩
  | false =>
    change ∃ s', (s.1.splits t i j >>= _) = .ok s' ∧ _
    rw [h.describes.splits_eq ht hi hj]
    cases hsplits : Marks.splits (d.completed t.alphabet.length) marks' x y with
    | false => exact ⟨s, rfl, h⟩
    | true =>
      obtain ⟨q, hq, hmark⟩ := h.describes.exists_mark hi hj
      refine ⟨(q, true), ?_, hmark, h.within.trans (Marks.within_mark marks' x y), ?_⟩
      · change (s.1.mark i j >>= _) = _
        rw [hq]
        rfl
      · -- the pair was not marked when the pass began, as marks are only added
        refine iff_of_true rfl fun he => ?_
        have hnew := (Marks.marked_mark_self marks' x y).1
        have hold := h.within x y (he ▸ hnew)
        rw [hmarked] at hold
        cases hold

/-- A pass marks what a pass over the points marks. -/
theorem Describes.exists_pass (h : p.Describes d marks) (ht : t.dfa = .ok d) :
    ∃ s, overPairs (visit t) (p, false) p.size = .ok s ∧ Passing d marks s
      (Marks.pass (d.completed t.alphabet.length) (Minimization.points d) marks) := by
  refine h.exists_overPairs (R := Passing d marks) ?_ ⟨h, Marks.Within.refl marks, by simp⟩
  intro s marks' i j x y hi hj hs
  exact hs.exists_visit ht hi hj

/-- The table of pairs ends with the settled marks, or stops with the same error. -/
inductive Follows {n : Nat} (d : Dfa n) :
    Outcome PairTable → Except Error (Marks.Settled (n + 1)) → Prop
  | settled {p : PairTable} {s : Marks.Settled (n + 1)} :
    p.Describes d s.marks → Follows d (.ok p) (.ok s)
  | stopped (e : Error) : Follows d (.refuse e) (.error e)

theorem Describes.follows_settle (ht : t.dfa = .ok d) (budget : Nat)
    (s : Marks.Settled (t.rowCount + 1)) (h : p.Describes d s.marks) :
    Follows d (settle t limits budget s.checks p) (Marks.settle (d.completed t.alphabet.length)
      (Minimization.points d) limits budget s) := by
  induction budget generalizing p s with
  | zero => exact .settled h
  | succ budget ih =>
    rw [Marks.settle, settle, ← h.size_eq]
    dsimp only
    by_cases hlimit : limits.maxPairChecks < countSum s.checks (Marks.pairCount p.size)
    · rw [if_pos hlimit, if_pos hlimit]
      exact .stopped _
    · obtain ⟨q, hq, hpassing⟩ := h.exists_pass ht
      rw [if_neg hlimit, if_neg hlimit, hq]
      change Follows d (if q.2 = true then settle t limits budget _ q.1 else .ok q.1) _
      by_cases hsame :
          Marks.pass (d.completed t.alphabet.length) (Minimization.points d) s.marks = s.marks
      · have hstill : ¬ q.2 = true := fun hc => hpassing.changed_iff.mp hc hsame
        rw [if_pos hsame, if_neg hstill]
        exact .settled hpassing.describes
      · rw [if_neg hsame, if_pos (hpassing.changed_iff.mpr hsame)]
        exact ih ⟨_, s.rounds + 1, _⟩ hpassing.describes

theorem Describes.follows_fill (h : p.Describes d .blank) (ht : t.dfa = .ok d)
    (hlimit : ¬ limits.maxPairChecks < Marks.pairCount p.size) :
    Follows d (p.fill t limits)
      (Marks.fill (d.completed t.alphabet.length) (Minimization.points d) limits) := by
  obtain ⟨q, hq, hdescribes⟩ := h.exists_markDiffering ht
  rw [Marks.fill, fill, hq, ← h.size_eq, if_neg hlimit]
  exact hdescribes.follows_settle ht _ ⟨_, 0, Marks.pairCount p.size⟩

theorem exists_placesOf (d : Dfa n) : ∃ places, placesOf n d.rows = .ok places ∧
    ∀ r : Fin n, ∃ place, places[r.val]? = some place ∧
      ∀ k, place = some k ↔ d.reachable.toList[k]? = some r := by
  have hnodup : d.reachable.toList.Nodup := d.reachable.pairwise_toList.imp fun hrs => Fin.ne_of_lt hrs
  have hindex {k l : Nat} {r : Fin n} (hk : d.reachable.toList[k]? = some r)
      (hl : d.reachable.toList[l]? = some r) : k = l :=
    (List.getElem?_inj (List.getElem?_eq_some_iff.mp hk).1 hnodup).mp (hk.trans hl.symm)
  have hrow {e : Nat × Nat} :
      e ∈ d.rows.zipIdx ↔ ∃ r, d.reachable.toList[e.2]? = some r ∧ r.val = e.1 := by
    rw [List.mem_zipIdx_iff_getElem?, Dfa.rows, List.getElem?_map, Option.map_eq_some_iff]
  obtain ⟨places, hplaces, -, hwritten, hkept⟩ := Table.exists_foldlM_store Prod.fst
    (fun e : Nat × Nat => some e.2) d.rows.zipIdx (.replicate n none)
    (fun e he => by
      obtain ⟨r, -, hr⟩ := hrow.mp he
      rw [Array.size_replicate, ← hr]
      exact r.isLt)
    (fun e he e' he' hsame => by
      obtain ⟨r, hr, hre⟩ := hrow.mp he
      obtain ⟨r', hr', hre'⟩ := hrow.mp he'
      obtain rfl : r = r' := Fin.ext (hre.trans (hsame.trans hre'.symm))
      rw [hindex hr hr'])
  refine ⟨places, hplaces, fun r => ?_⟩
  by_cases hmem : ∃ k : Nat, d.reachable.toList[k]? = some r
  · obtain ⟨k, hk⟩ := hmem
    have hentry : (r.val, k) ∈ d.rows.zipIdx := hrow.mpr ⟨r, hk, rfl⟩
    refine ⟨some k, hwritten _ hentry, fun l => ?_⟩
    rw [Option.some.injEq]
    constructor
    · rintro rfl
      exact hk
    · exact hindex hk
  · refine ⟨none, ?_, fun l => ⟨fun h => (by cases h), fun h => absurd ⟨l, h⟩ hmem⟩⟩
    rw [hkept r.val fun e he hr => ?_, Array.getElem?_replicate, if_pos r.isLt]
    obtain ⟨r', hr', hre⟩ := hrow.mp he
    exact hmem ⟨e.2, Fin.ext (hre.trans hr) ▸ hr'⟩

theorem length_rows (d : Dfa n) : d.rows.length + 1 = (Minimization.points d).length := by
  rw [Dfa.rows, Minimization.points, List.length_append, List.length_map, List.length_map,
    List.length_singleton]

theorem blank_eq_refuse (d : Dfa t.rowCount)
    (hlimit : limits.maxPairChecks < Marks.pairCount (Minimization.points d).length) :
    blank t d.rows limits = .refuse (Marks.tooManyChecks limits) := by
  rw [blank, length_rows, if_pos hlimit]

theorem exists_blank (d : Dfa t.rowCount)
    (hlimit : ¬ limits.maxPairChecks < Marks.pairCount (Minimization.points d).length) :
    ∃ p, blank t d.rows limits = .ok p ∧ p.Describes d .blank := by
  obtain ⟨places, hplaces, hiff⟩ := exists_placesOf d
  refine ⟨⟨d.rows.toArray, places, .replicate ((d.rows.length + 1) * (d.rows.length + 1)) false⟩, ?_,
    rfl, hiff, fun i j x y hi hj => ?_⟩
  · rw [blank, length_rows, if_neg hlimit, hplaces]
    rfl
  · have hlt := Table.place_lt (List.getElem?_eq_some_iff.mp hi).1 (List.getElem?_eq_some_iff.mp hj).1
    rw [← length_rows] at hlt
    rw [Marks.marked_blank, Array.getElem?_replicate]
    exact if_pos hlt

end PairTable
end FiniteAutomata
