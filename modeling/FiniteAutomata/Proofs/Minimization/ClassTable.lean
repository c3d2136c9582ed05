import FiniteAutomata.Proofs.Minimization.Minimize
import FiniteAutomata.Proofs.Minimization.PairTable

/-! # Classes in flat tables

The classes of places are gathered under checks as well, and the merged automaton is put together from
arrays of rows and numbers of classes. The classes are those of the points and the automaton is the same,
so that none of these checks fails either.
-/
namespace FiniteAutomata
namespace PairTable

/-- The classes found so far, and for each place the number of its class. -/
structure Gathered where
  numbers : Array (Option Nat)
  classes : List (List Nat)

/-- Whether a place has no class yet and may join that of the first one. -/
def joins (p : PairTable) (numbers : Array (Option Nat)) (first i : Nat) : Outcome Bool := do
  match ← Table.entry numbers i with
  | some _ => return false
  | none => if i = first then return true else return !(← p.marked first i)

/-- Makes a class of a place that has none, together with all the later ones that may join it. The sink
alone makes no class. -/
def gather (p : PairTable) (s : Gathered) (first : Nat) : Outcome Gathered := do
  match ← Table.entry s.numbers first with
  | some _ => return s
  | none =>
    let cls ← Outcome.select (p.joins s.numbers first) (List.range' first (p.size - first))
    if cls = [p.sink] then return s
    else
      let numbers ← cls.foldlM (fun numbers i => Table.store numbers i (some s.classes.length)) s.numbers
      return ⟨numbers, s.classes ++ [cls]⟩

def classes (p : PairTable) : Outcome (List (List Nat)) := do
  let s ← (List.range p.size).foldlM p.gather ⟨.replicate p.size none, []⟩
  return s.classes

/-- The rows of the states of a class. -/
def rowsOf (p : PairTable) (cls : List Nat) : Outcome (List Nat) :=
  (cls.filter (· ≠ p.sink)).mapM (Table.entry p.rows)

/-- For each row, the number of its class. -/
def classNumbers (p : PairTable) (t : Table) (classes : List (List Nat)) :
    Outcome (Array (Option Nat)) :=
  classes.zipIdx.foldlM (fun numbers e => do
    let rows ← p.rowsOf e.1
    rows.foldlM (fun numbers row => Table.store numbers row (some e.2)) numbers)
    (.replicate t.rowCount none)

def arrow? (t : Table) (numbers : Array (Option Nat)) (number first : Nat) (e : Char × Nat) :
    Outcome (Option Transition) := do
  match ← t.cell first e.2 with
  | none => return none
  | some next =>
    return (← Table.entry numbers next).map fun target => ⟨.ofNat number, .ofNat target, .symbol e.1⟩

/-- The state of a class, and its transitions, which are those of its first row. -/
def merged (t : Table) (numbers : Array (Option Nat)) (number : Nat) (rows : List Nat) :
    Outcome (State × List Transition) := do
  let isFinal ← rows.anyM t.isAccepting
  let first ← .promised .emptyClass rows.head?
  let arrows ← t.alphabet.zipIdx.mapM (arrow? t numbers number first)
  return (.onGrid .resultLayout "M" (.ofNat number) (rows.contains t.initial) isFinal,
    arrows.filterMap id)

def assemble (p : PairTable) (t : Table) (classes : List (List Nat)) : Outcome Automaton := do
  let numbers ← p.classNumbers t classes
  let parts ← classes.zipIdx.mapM fun e => do
    let rows ← p.rowsOf e.1
    merged t numbers e.2 rows
  return { states := parts.map Prod.fst, transitions := parts.flatMap Prod.snd }

/-- Minimizes the automaton of a table. -/
def minimize (t : Table) (limits : Limits) : Outcome Automaton := do
  let rows ← RowSearch.rows t
  let p ← blank t rows limits
  let p ← p.fill t limits
  let classes ← p.classes
  p.assemble t classes

variable {n : Nat} {d : Dfa n} {p : PairTable} {marks : Marks (n + 1)} {s : Gathered} {first i j : Nat}

/-- The place has no class yet. -/
def Gathered.free (s : Gathered) (i : Nat) : Bool := s.numbers[i]? = some none

/-- The places are marked. -/
def apart (p : PairTable) (i j : Nat) : Bool := p.cells[i * p.size + j]? = some true

theorem Describes.exists_stands (h : p.Describes d marks) (hi : i < p.size) : ∃ x, Stands d i x := by
  rw [h.size_eq] at hi
  exact ⟨_, List.getElem?_eq_getElem hi⟩

theorem Describes.apart_eq (h : p.Describes d marks) {x y : Fin (n + 1)} (hi : Stands d i x)
    (hj : Stands d j y) : p.apart i j = marks.marked x y := by
  rw [apart, h.cells i j x y hi hj]
  cases marks.marked x y <;> rfl

theorem Describes.marked_eq_apart (h : p.Describes d marks) (hi : i < p.size) (hj : j < p.size) :
    p.marked i j = .ok (p.apart i j) := by
  obtain ⟨x, hx⟩ := h.exists_stands hi
  obtain ⟨y, hy⟩ := h.exists_stands hj
  rw [h.apart_eq hx hy]
  exact h.marked_eq hx hy

theorem joins_eq (h : p.Describes d marks) (hsize : s.numbers.size = p.size) (hfirst : first < p.size)
    (hi : i < p.size) :
    p.joins s.numbers first i = .ok (s.free i && (decide (i = first) || !p.apart first i)) := by
  have hlt : i < s.numbers.size := hsize ▸ hi
  have hentry := Array.getElem?_eq_getElem hlt
  rw [joins, Table.entry_eq_ok.mpr hentry, Gathered.free, hentry]
  cases s.numbers[i] with
  | some k => rfl
  | none =>
    change (if i = first then .ok true else p.marked first i >>= fun b => .ok !b) = _
    by_cases hsame : i = first
    · rw [if_pos hsame, decide_eq_true hsame]
      rfl
    · rw [if_neg hsame, decide_eq_false hsame, h.marked_eq_apart hfirst hi]
      rfl

/-- The places without a class among the next ones. -/
def Gathered.later (s : Gathered) (first k : Nat) : List Nat := (List.range' (first + 1) k).filter s.free

/-- The class that a place makes with the next ones. -/
def classFrom (p : PairTable) (s : Gathered) (first k : Nat) : List Nat :=
  first :: (s.later first k).filter fun i => !p.apart first i

theorem Gathered.mem_later {k : Nat} :
    i ∈ s.later first k ↔ (first < i ∧ i ≤ first + k) ∧ s.free i = true := by
  rw [later, List.mem_filter, List.mem_range'_1]
  exact and_congr_left fun _ => by omega

theorem mem_classFrom {k : Nat} : i ∈ p.classFrom s first k ↔
    i = first ∨ (first < i ∧ i ≤ first + k) ∧ s.free i = true ∧ p.apart first i = false := by
  rw [classFrom, List.mem_cons, List.mem_filter, Gathered.mem_later, Bool.not_eq_true', and_assoc]

theorem select_joins_eq (h : p.Describes d marks) (hsize : s.numbers.size = p.size) {k : Nat}
    (hk : first + (k + 1) = p.size) (hfree : s.free first = true) :
    Outcome.select (p.joins s.numbers first) (List.range' first (p.size - first)) =
      .ok (p.classFrom s first k) := by
  have hlength : p.size - first = k + 1 := by omega
  have hjoins : ∀ i ∈ List.range' first (k + 1), p.joins s.numbers first i =
      .ok (s.free i && (decide (i = first) || !p.apart first i)) := by
    intro i hi
    have hi := List.mem_range'_1.mp hi
    exact joins_eq h hsize (by omega) (by omega)
  rw [hlength, Outcome.select_eq_ok hjoins, List.range'_succ,
    List.filter_cons_of_pos (by rw [hfree, decide_eq_true rfl]; rfl), classFrom, Gathered.later,
    List.filter_filter]
  refine congrArg (fun rest => Except.ok (first :: rest)) (List.filter_congr fun i hi => ?_)
  have hne : ¬ i = first := by
    have hi := List.mem_range'_1.mp hi
    omega
  rw [decide_eq_false hne, Bool.false_or, Bool.and_comm]

theorem exists_number (hsize : s.numbers.size = p.size) {cls : List Nat} (hcls : ∀ i ∈ cls, i < p.size)
    (number : Nat) :
    ∃ numbers,
      cls.foldlM (fun numbers i => Table.store numbers i (some number)) s.numbers = .ok numbers ∧
      numbers.size = p.size ∧
      ∀ i, (decide (numbers[i]? = some none) : Bool) = (s.free i && !cls.contains i) := by
  obtain ⟨numbers, hnumbers, hsame, hwritten, hkept⟩ := Table.exists_foldlM_store id
    (fun _ => some number) cls s.numbers (fun i hi => hsize ▸ hcls i hi)
    fun _ _ _ _ _ => rfl
  refine ⟨numbers, hnumbers, hsame.trans hsize, fun i => ?_⟩
  by_cases hi : i ∈ cls
  · have hnumber := hwritten i hi
    rw [id] at hnumber
    rw [hnumber, List.contains_iff_mem.mpr hi, Bool.not_true, Bool.and_false]
    rfl
  · have hold := hkept i fun j hj hij => hi (hij ▸ hj)
    have hnot : cls.contains i = false := by
      rw [← Bool.not_eq_true, List.contains_iff_mem]
      exact hi
    rw [hold, hnot, Bool.not_false, Bool.and_true]
    rfl

/-- A place without a class makes one, and leaves those that it is marked with, unless it is the sink
alone. -/
theorem exists_gather_free (h : p.Describes d marks) (hsize : s.numbers.size = p.size) {k : Nat}
    (hk : first + (k + 1) = p.size) (hfree : s.free first = true)
    (hsink : p.classFrom s first k ≠ [p.sink]) :
    ∃ s', p.gather s first = .ok s' ∧ s'.numbers.size = p.size ∧
      s'.classes = s.classes ++ [p.classFrom s first k] ∧
      (List.range' (first + 1) k).filter s'.free = (s.later first k).filter (p.apart first) := by
  have hmem : ∀ i ∈ p.classFrom s first k, i < p.size := by
    intro i hi
    have hi := mem_classFrom.mp hi
    omega
  obtain ⟨numbers, hnumbers, hsame, hnone⟩ := exists_number hsize hmem s.classes.length
  refine ⟨⟨numbers, s.classes ++ [p.classFrom s first k]⟩, ?_, hsame, rfl, ?_⟩
  · rw [gather, Table.entry_eq_ok.mpr (of_decide_eq_true hfree), Outcome.ok_bind]
    dsimp only
    rw [select_joins_eq h hsize hk hfree, Outcome.ok_bind, if_neg hsink, hnumbers]
    rfl
  · rw [Gathered.later, List.filter_filter]
    refine List.filter_congr fun i hi => (hnone i).trans ?_
    have hi := List.mem_range'_1.mp hi
    have hne : i ≠ first := by omega
    have hjoined : (p.classFrom s first k).contains i = (s.free i && !p.apart first i) := by
      rw [Bool.eq_iff_iff, List.contains_iff_mem, mem_classFrom, Bool.and_eq_true, Bool.not_eq_true']
      constructor
      · rintro (rfl | ⟨-, hi⟩)
        · exact absurd rfl hne
        · exact hi
      · exact fun hjoins => Or.inr ⟨by omega, hjoins⟩
    rw [hjoined]
    cases s.free i <;> cases p.apart first i <;> rfl

theorem gather_sink (h : p.Describes d marks) (hsize : s.numbers.size = p.size) {k : Nat}
    (hk : first + (k + 1) = p.size) (hfree : s.free first = true)
    (hsink : p.classFrom s first k = [p.sink]) : p.gather s first = .ok s := by
  rw [gather, Table.entry_eq_ok.mpr (of_decide_eq_true hfree), Outcome.ok_bind]
  dsimp only
  rw [select_joins_eq h hsize hk hfree, Outcome.ok_bind, if_pos hsink]
  rfl

theorem gather_taken (hsize : s.numbers.size = p.size) (hfirst : first < p.size)
    (htaken : s.free first = false) : p.gather s first = .ok s := by
  have hlt : first < s.numbers.size := hsize ▸ hfirst
  have hentry := Array.getElem?_eq_getElem hlt
  rw [gather, Table.entry_eq_ok.mpr hentry, Outcome.ok_bind]
  cases hnumber : s.numbers[first] with
  | some number => rfl
  | none =>
    rw [Gathered.free, hentry, hnumber] at htaken
    cases htaken

theorem Describes.eq_sinkClass_iff (h : p.Describes d marks) {cls : List Nat}
    {points : List (Fin (n + 1))} (hcls : List.Forall₂ (Stands d) cls points) :
    cls = [p.sink] ↔ points = [Fin.last n] := by
  constructor
  · rintro rfl
    cases hcls with
    | cons hx hnil =>
      cases hnil
      rw [(h.eq_sink_iff hx).mp rfl]
  · rintro rfl
    cases hcls with
    | cons hx hnil =>
      cases hnil
      rw [(h.eq_sink_iff hx).mpr rfl]

/-- From a place on, the classes are those of the points that have none yet. -/
theorem Describes.exists_gather (h : p.Describes d marks) (k : Nat) (hk : first + k = p.size)
    (hsize : s.numbers.size = p.size) {points : List (Fin (n + 1))}
    (hpoints : List.Forall₂ (Stands d) ((List.range' first k).filter s.free) points) :
    ∃ s' found, (List.range' first k).foldlM p.gather s = .ok s' ∧ s'.classes = s.classes ++ found ∧
      List.Forall₂ (List.Forall₂ (Stands d)) found
        ((Marks.classes marks points).filter (· ≠ [Fin.last n])) := by
  induction k generalizing first s points with
  | zero =>
    cases hpoints
    refine ⟨s, [], rfl, (List.append_nil _).symm, ?_⟩
    rw [Marks.classes]
    exact .nil
  | succ k ih =>
    rw [List.range'_succ] at hpoints ⊢
    rw [List.foldlM_cons]
    cases hfree : s.free first with
    | false =>
      rw [List.filter_cons_of_neg (ne_true_of_eq_false hfree)] at hpoints
      rw [gather_taken hsize (by omega) hfree]
      exact ih (by omega) hsize hpoints
    | true =>
      rw [List.filter_cons_of_pos hfree] at hpoints
      cases hpoints with
      | @cons _ x _ points hx hrest =>
        have hsplit (g : Bool → Bool) : List.Forall₂ (Stands d)
            ((s.later first k).filter fun i => g (p.apart first i))
            (points.filter fun y => g (marks.marked x y)) := by
          refine List.rel_filter (fun i y hy => ?_) hrest
          dsimp only
          rw [h.apart_eq hx hy]
        have hclass : List.Forall₂ (Stands d) (p.classFrom s first k)
            (x :: points.filter fun y => !marks.marked x y) := .cons hx (hsplit fun b => !b)
        rw [Marks.classes_cons, List.filter_cons]
        by_cases hsink : p.classFrom s first k = [p.sink]
        · -- the sink is the last place, so that nothing is left
          have hlast := (h.eq_sinkClass_iff hclass).mp hsink
          have hfirst : first = p.sink := (List.cons.inj hsink).1
          obtain rfl : k = 0 := by
            rw [size, ← sink] at hk
            omega
          cases hrest
          refine ⟨s, [], ?_, (List.append_nil _).symm, ?_⟩
          · rw [gather_sink h hsize hk hfree hsink]
            rfl
          · rw [if_neg (by simpa using hlast), List.filter_nil, Marks.classes]
            exact .nil
        · have hlast := mt (h.eq_sinkClass_iff hclass).mpr hsink
          obtain ⟨s₁, hs₁, hsize₁, hclasses₁, hleft⟩ := exists_gather_free h hsize hk hfree hsink
          obtain ⟨s', found, hs', hclasses, hfound⟩ := ih (by omega) hsize₁ (hleft ▸ hsplit id)
          rw [hs₁, if_pos (decide_eq_true hlast)]
          refine ⟨s', p.classFrom s first k :: found, hs', ?_, .cons hclass hfound⟩
          rw [hclasses, hclasses₁, List.append_assoc]
          rfl

/-- The classes of the places are the classes of the points that hold a state. -/
theorem Describes.exists_classes (h : p.Describes d marks) : ∃ found, p.classes = .ok found ∧
    List.Forall₂ (List.Forall₂ (Stands d)) found
      (Minimization.stateClasses marks (Minimization.points d)) := by
  have hblank : (List.range' 0 p.size).filter
      (Gathered.free ⟨.replicate p.size none, []⟩) = List.range' 0 p.size := by
    refine List.filter_eq_self.mpr fun i hi => ?_
    have hi := List.mem_range'_1.mp hi
    rw [Gathered.free, Array.getElem?_replicate, if_pos (by omega)]
    rfl
  have hstands := h.forall₂_stands
  rw [List.range_eq_range', ← hblank] at hstands
  obtain ⟨s', found, hs', hclasses, hfound⟩ := h.exists_gather p.size (Nat.zero_add _)
    (s := ⟨.replicate p.size none, []⟩) Array.size_replicate hstands
  refine ⟨found, ?_, hfound⟩
  rw [classes, List.range_eq_range', hs']
  exact congrArg Except.ok hclasses

theorem Describes.rowsOf_eq (h : p.Describes d marks) {cls : List Nat} {points : List (Fin (n + 1))}
    (hcls : List.Forall₂ (Stands d) cls points) :
    p.rowsOf cls = .ok ((Minimization.members points).map Fin.val) := by
  rw [rowsOf, Outcome.mapM_eq_ok]
  induction hcls with
  | nil => exact .nil
  | @cons i x cls points hx _ ih =>
    by_cases hsink : i = p.sink
    · rw [List.filter_cons_of_neg (by simpa using hsink), (h.eq_sink_iff hx).mp hsink]
      simpa [Minimization.members] using ih
    · obtain ⟨r, rfl, -, hr⟩ := h.exists_row hx hsink
      rw [List.filter_cons_of_pos (by simpa using hsink)]
      have hmembers :
          Minimization.members (r.castSucc :: points) = r :: Minimization.members points := by
        simp [Minimization.members]
      rw [hmembers]
      exact .cons hr ih

section
variable {t : Table} {d : Dfa t.rowCount} {marks : Marks (t.rowCount + 1)} {alphabet : Alphabet}
  {found : List (List Nat)} {classes : List (List (Fin (t.rowCount + 1)))}

theorem Describes.foldlM_rowsOf (h : p.Describes d marks)
    (hclasses : List.Forall₂ (List.Forall₂ (Stands d)) found classes) (k : Nat)
    (xs : Array (Option Nat)) :
    (found.zipIdx k).foldlM (fun numbers e => p.rowsOf e.1 >>= fun rows =>
        rows.foldlM (fun numbers row => Table.store numbers row (some e.2)) numbers) xs =
      ((classes.map Minimization.members).zipIdx k).foldlM (fun numbers e =>
        e.1.foldlM (fun numbers r => Table.store numbers r.val (some e.2)) numbers) xs := by
  induction hclasses generalizing k xs with
  | nil => rfl
  | @cons places points found classes hplaces _ ih =>
    rw [List.map_cons, List.zipIdx_cons, List.zipIdx_cons, List.foldlM_cons, List.foldlM_cons,
      h.rowsOf_eq hplaces, Outcome.ok_bind, List.foldlM_map]
    exact bind_congr fun ys => ih (k + 1) ys

theorem Describes.exists_classNumbers (h : p.Describes d marks)
    (hclasses : List.Forall₂ (List.Forall₂ (Stands d)) found classes)
    (hp : Minimization.Partitions d alphabet classes) :
    ∃ numbers, p.classNumbers t found = .ok numbers ∧
      ∀ r : Fin t.rowCount, numbers[r.val]? = some (Minimization.classOf? classes r) := by
  have hapart : (classes.map Minimization.members).Pairwise fun c d =>
      ∀ x ∈ c, ∀ y ∈ d, Fin.val x ≠ Fin.val y := by
    refine List.pairwise_map.mpr (hp.disjoint.imp fun hd x hx y hy he => ?_)
    rw [Fin.ext he] at hx
    exact hd (Minimization.mem_members.mp hx) (Minimization.mem_members.mp hy)
  obtain ⟨numbers, hnumbers, -, hnumbered, hleft⟩ := Table.exists_foldlM_number Fin.val some hapart 0
    (Array.replicate t.rowCount (none : Option Nat)) fun c _ x _ => by
      rw [Array.size_replicate]
      exact x.isLt
  refine ⟨numbers, (h.foldlM_rowsOf hclasses 0 _).trans hnumbers, fun r => ?_⟩
  cases hr : Minimization.classOf? classes r with
  | some l =>
    obtain ⟨cls, hl, hmem⟩ := hp.classOf?_eq_some_iff.mp hr
    have hlisted : (classes.map Minimization.members)[l]? = some (Minimization.members cls) := by
      rw [List.getElem?_map, hl, Option.map_some]
    rw [hnumbered l _ hlisted r (Minimization.mem_members.mpr hmem), Nat.zero_add]
  | none =>
    rw [hleft r.val, Array.getElem?_replicate, if_pos r.isLt]
    intro c hc x hx he
    obtain ⟨cls, hcls, rfl⟩ := List.mem_map.mp hc
    obtain ⟨l, hl⟩ := List.getElem?_of_mem hcls
    rw [Fin.ext he] at hx
    rw [hp.classOf?_eq_some_iff.mpr ⟨cls, hl, Minimization.mem_members.mp hx⟩] at hr
    cases hr

theorem arrow?_eq (ht : t.dfa = .ok d) {numbers : Array (Option Nat)}
    (hnumbers : ∀ r : Fin t.rowCount, numbers[r.val]? = some (Minimization.classOf? classes r))
    (number : Nat) (first : Fin t.rowCount) :
    List.Forall₂
      (fun e e' => arrow? t numbers number first e = .ok (Minimization.arrow? classes number e'))
      t.alphabet.zipIdx (t.alphabet.zip (d.moves.get first)) := by
  have hlength := Table.length_moves_of_dfa ht first
  refine List.forall₂_iff_get.mpr ⟨?_, fun k hk hk' => ?_⟩
  · rw [List.length_zipIdx, List.length_zip, hlength, Nat.min_self]
  · rw [List.length_zipIdx, ← hlength] at hk
    have hcell := Table.cell_of_dfa ht first hk
    rw [List.get_eq_getElem, List.getElem_zipIdx, List.get_eq_getElem, List.getElem_zip, arrow?,
      Nat.zero_add, hcell, Outcome.ok_bind]
    cases (d.moves.get first)[k] with
    | none => rfl
    | some next =>
      change (Table.entry numbers next.val >>= _) = _
      rw [Table.entry_eq_ok.mpr (hnumbers next), Outcome.ok_bind]
      cases hnext : Minimization.classOf? classes next with
      | none => simp [Minimization.arrow?, hnext]
      | some target => simp [Minimization.arrow?, hnext]

theorem merged_eq (ht : t.dfa = .ok d) {numbers : Array (Option Nat)}
    (hnumbers : ∀ r : Fin t.rowCount, numbers[r.val]? = some (Minimization.classOf? classes r))
    (number : Nat) {cls : List (Fin t.rowCount)} (hne : cls ≠ []) :
    merged t numbers number (cls.map Fin.val) = .ok (Minimization.stateOf d number cls,
      Minimization.arrows d t.alphabet classes (cls, number)) := by
  have haccepting : (cls.map Fin.val).anyM t.isAccepting = .ok (cls.any fun r => d.accepting.get r) := by
    refine Outcome.anyM_eq_ok ?_
    rw [List.forall₂_map_left_iff, List.forall₂_same]
    exact fun r _ => Table.isAccepting_of_dfa ht r
  have hinitial : (cls.map Fin.val).contains t.initial = cls.contains d.start := by
    rw [Bool.eq_iff_iff, List.contains_iff_mem, List.contains_iff_mem, ← Table.initial_of_dfa ht,
      List.mem_map_of_injective Fin.val_injective]
  cases cls with
  | nil => exact absurd rfl hne
  | cons first rest =>
    rw [merged, haccepting, Outcome.ok_bind, hinitial]
    have harrows : t.alphabet.zipIdx.mapM (arrow? t numbers number first) = .ok
        ((t.alphabet.zip (d.moves.get first)).map (Minimization.arrow? classes number)) := by
      rw [Outcome.mapM_eq_ok, List.forall₂_map_right_iff]
      exact arrow?_eq ht hnumbers number first
    change (t.alphabet.zipIdx.mapM (arrow? t numbers number first.val) >>= _) = _
    rw [harrows, Outcome.ok_bind, List.filterMap_map]
    rfl

/-- From the classes of places the same automaton is put together as from the classes of points. -/
theorem Describes.assemble_eq (h : p.Describes d marks) (ht : t.dfa = .ok d)
    (hclasses : List.Forall₂ (List.Forall₂ (Stands d)) found classes)
    (hp : Minimization.Partitions d t.alphabet classes) :
    p.assemble t found = Minimization.assemble d t.alphabet classes := by
  obtain ⟨m, hm⟩ := hp.exists_assemble
  obtain ⟨hstates, htransitions⟩ := Minimization.assemble_eq_ok hm
  obtain ⟨numbers, hnumbers, hclassOf⟩ := h.exists_classNumbers hclasses hp
  have hparts : (found.zipIdx.mapM fun e => p.rowsOf e.1 >>= fun rows => merged t numbers e.2 rows) =
      .ok ((Minimization.numberedClasses classes).map fun e =>
        (Minimization.stateOf d e.2 e.1, Minimization.arrows d t.alphabet classes e)) := by
    rw [Outcome.mapM_eq_ok, Minimization.numberedClasses, List.map_map, List.forall₂_map_right_iff]
    refine List.forall₂_iff_get.mpr ⟨?_, fun k hk hk' => ?_⟩
    · rw [List.length_zipIdx, List.length_zipIdx, hclasses.length_eq]
    · rw [List.length_zipIdx] at hk hk'
      have hcls : List.Forall₂ (Stands d) found[k] classes[k] := hclasses.get hk hk'
      obtain ⟨r, rest, he⟩ := hp.headed _ (List.getElem_mem hk')
      have hr : r ∈ Minimization.members classes[k] :=
        Minimization.mem_members.mpr (he ▸ List.mem_cons_self ..)
      rw [List.get_eq_getElem, List.getElem_zipIdx, List.get_eq_getElem, List.getElem_zipIdx,
        Nat.zero_add, Function.comp_apply]
      dsimp only
      rw [h.rowsOf_eq hcls, Outcome.ok_bind]
      exact merged_eq ht hclassOf k (List.ne_nil_of_mem hr)
  rw [hm, assemble, hnumbers, Outcome.ok_bind]
  change (found.zipIdx.mapM (fun e => p.rowsOf e.1 >>= fun rows => merged t numbers e.2 rows) >>= _) = _
  rw [hparts, Outcome.ok_bind]
  obtain ⟨states, transitions⟩ := m
  dsimp only at hstates htransitions
  rw [hstates, htransitions, List.map_map, List.flatMap_map]
  rfl

end

/-- On flat tables the classes of the settled marks are merged, or the limit is met. -/
theorem minimize_eq {t : Table} {d : Dfa t.rowCount} (ht : t.dfa = .ok d) (limits : Limits) :
    minimize t limits =
      match Marks.fill (d.completed t.alphabet.length) (Minimization.points d) limits with
      | .error e => .refuse e
      | .ok s => Minimization.assemble d t.alphabet
          (Minimization.stateClasses s.marks (Minimization.points d)) := by
  rw [minimize, RowSearch.rows_eq ht, Outcome.ok_bind]
  by_cases hlimit : limits.maxPairChecks < Marks.pairCount (Minimization.points d).length
  · rw [blank_eq_refuse d hlimit, Marks.fill, if_pos hlimit]
    rfl
  · obtain ⟨p, hp, h⟩ := exists_blank d hlimit
    have hpairs : ¬ limits.maxPairChecks < Marks.pairCount p.size := by rwa [h.size_eq]
    have hfollows := h.follows_fill ht hpairs
    rw [hp, Outcome.ok_bind]
    generalize p.fill t limits = filled at hfollows ⊢
    generalize hfill : Marks.fill (d.completed t.alphabet.length) (Minimization.points d) limits = r
      at hfollows ⊢
    cases hfollows with
    | stopped e => rfl
    | settled hq =>
      have hpartitions := Minimization.partitions_stateClasses (Marks.stable_of_fill hfill)
        (Table.length_moves_of_dfa ht)
      obtain ⟨found, hfound, hclasses⟩ := hq.exists_classes
      rw [Outcome.ok_bind, hfound, Outcome.ok_bind]
      exact hq.assemble_eq ht hclasses hpartitions

end PairTable

namespace Automaton
variable {a : Automaton} {limits : Limits}

theorem minimize_table_eq {t : Table} (ht : a.table.outcome = .ok t) :
    PairTable.minimize t limits = (a.minimize limits).outcome := by
  obtain ⟨ix', hr', h'⟩ := table_eq_ok ht
  obtain ⟨ix, hr, h⟩ := h'.exists_index hr'
  obtain ⟨d, hd⟩ := Table.exists_dfa h
  have hplain : (a.minimize limits).outcome = _ := outcome_minimize (exists_table_iff.mp ⟨t, ht⟩)
  rw [ht, Outcome.ok_bind, hd, Outcome.ok_bind] at hplain
  exact (PairTable.minimize_eq hd limits).trans hplain.symm

/-- Minimization on flat tables, with every entry under a check. -/
def minimizeChecked (a : Automaton) (limits : Limits) : Outcome Automaton :=
  if a.isEmpty then .ok .empty
  else do
    let t ← a.table.outcome
    PairTable.minimize t limits

theorem minimizeChecked_eq (a : Automaton) (limits : Limits) :
    a.minimizeChecked limits = (a.minimize limits).outcome := by
  unfold minimizeChecked
  by_cases hempty : a.isEmpty = true
  · rw [if_pos hempty, minimize, if_pos hempty]
    rfl
  · rw [if_neg hempty]
    cases ht : a.table.outcome with
    | error f =>
      rw [minimize, if_neg hempty, Logged.outcome_bind, ht]
      rfl
    | ok t => exact minimize_table_eq ht

end Automaton
end FiniteAutomata
