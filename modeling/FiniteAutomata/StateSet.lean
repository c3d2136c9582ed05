/-! # Sets of positions

A set of positions `0, …, n - 1`, one bit for each. Two sets with the same members are equal, so a
set of states can be a key, and its members come out in ascending order. Every operation is
described by its members.
-/
namespace FiniteAutomata

structure StateSet (n : Nat) where
  bits : BitVec n
  deriving DecidableEq

namespace StateSet
variable {n : Nat}

def contains (s : StateSet n) (i : Fin n) : Bool := s.bits.getLsb i

instance : Membership (Fin n) (StateSet n) := ⟨fun s i => s.contains i = true⟩

instance (i : Fin n) (s : StateSet n) : Decidable (i ∈ s) :=
  inferInstanceAs (Decidable (s.contains i = true))

def empty : StateSet n := ⟨0⟩

def full : StateSet n := ⟨BitVec.allOnes n⟩

def insert (s : StateSet n) (i : Fin n) : StateSet n := ⟨s.bits ||| BitVec.twoPow n i⟩

def inter (s t : StateSet n) : StateSet n := ⟨s.bits &&& t.bits⟩

def diff (s t : StateSet n) : StateSet n := ⟨s.bits &&& ~~~t.bits⟩

def singleton (i : Fin n) : StateSet n := insert empty i

def insertAll (s : StateSet n) (is : List (Fin n)) : StateSet n := is.foldl insert s

def ofList (is : List (Fin n)) : StateSet n := insertAll empty is

def toList (s : StateSet n) : List (Fin n) := (List.finRange n).filter s.contains

def isEmpty (s : StateSet n) : Bool := s.bits == 0

def meets (s t : StateSet n) : Bool := !(s.inter t).isEmpty

def size (s : StateSet n) : Nat := s.toList.length

/-- The set as a number, for use as an ordered key. -/
def key (s : StateSet n) : Nat := s.bits.toNat

theorem mem_def {s : StateSet n} {i : Fin n} : i ∈ s ↔ s.bits.getLsbD i.val = true := Iff.rfl

@[simp] theorem contains_iff {s : StateSet n} {i : Fin n} : s.contains i = true ↔ i ∈ s := Iff.rfl

theorem ext {s t : StateSet n} (h : ∀ i, i ∈ s ↔ i ∈ t) : s = t := by
  rcases s with ⟨a⟩
  rcases t with ⟨b⟩
  congr 1
  refine BitVec.eq_of_getLsbD_eq fun i hi => ?_
  have := h ⟨i, hi⟩
  simp only [mem_def] at this
  exact Bool.eq_iff_iff.mpr this

@[simp] theorem not_mem_empty (i : Fin n) : i ∉ (empty : StateSet n) := by
  simp [mem_def, empty]

@[simp] theorem mem_full (i : Fin n) : i ∈ (full : StateSet n) := by
  simp [mem_def, full]

@[simp] theorem mem_insert {s : StateSet n} {i j : Fin n} : j ∈ s.insert i ↔ j = i ∨ j ∈ s := by
  have h : (s.insert i).bits.getLsbD j.val = (s.bits.getLsbD j.val || decide (j.val = i.val)) := by
    simp [insert, eq_comm]
  rw [mem_def, mem_def, h, Bool.or_eq_true, decide_eq_true_eq, Fin.ext_iff]
  exact or_comm

@[simp] theorem mem_inter {s t : StateSet n} {i : Fin n} : i ∈ s.inter t ↔ i ∈ s ∧ i ∈ t := by
  simp [mem_def, inter]

@[simp] theorem mem_diff {s t : StateSet n} {i : Fin n} : i ∈ s.diff t ↔ i ∈ s ∧ i ∉ t := by
  simp [mem_def, diff]

@[simp] theorem mem_singleton {i j : Fin n} : j ∈ singleton i ↔ j = i := by
  simp [singleton]

@[simp] theorem mem_insertAll {s : StateSet n} {is : List (Fin n)} {i : Fin n} :
    i ∈ s.insertAll is ↔ i ∈ is ∨ i ∈ s := by
  unfold insertAll
  induction is generalizing s with
  | nil => simp
  | cons a rest ih =>
    rw [List.foldl_cons, ih, mem_insert, List.mem_cons]
    constructor
    · rintro (h | h | h) <;> simp [h]
    · rintro ((h | h) | h) <;> simp [h]

@[simp] theorem mem_ofList {is : List (Fin n)} {i : Fin n} : i ∈ ofList is ↔ i ∈ is := by
  simp [ofList]

@[simp] theorem mem_toList {s : StateSet n} {i : Fin n} : i ∈ s.toList ↔ i ∈ s := by
  simp [toList]

theorem toList_full : (full : StateSet n).toList = List.finRange n :=
  List.filter_eq_self.mpr fun i _ => mem_full i

theorem isEmpty_iff {s : StateSet n} : s.isEmpty = true ↔ ∀ i, i ∉ s := by
  unfold isEmpty
  constructor
  · intro h i
    rw [beq_iff_eq] at h
    simp [mem_def, h]
  · intro h
    have : s = empty := ext fun i => by simp [h i]
    simp [this, empty]

theorem meets_iff {s t : StateSet n} : s.meets t = true ↔ ∃ i, i ∈ s ∧ i ∈ t := by
  unfold meets
  rw [Bool.not_eq_true', ← Bool.not_eq_true, isEmpty_iff]
  simp only [mem_inter, not_and, Classical.not_forall, Classical.not_not]
  exact ⟨fun ⟨i, hs, ht⟩ => ⟨i, hs, ht⟩, fun ⟨i, hs, ht⟩ => ⟨i, hs, ht⟩⟩

theorem pairwise_toList (s : StateSet n) : s.toList.Pairwise (· < ·) :=
  (List.pairwise_lt_finRange n).filter _

theorem key_inj {s t : StateSet n} : s.key = t.key ↔ s = t := by
  rcases s with ⟨a⟩
  rcases t with ⟨b⟩
  simp [key, BitVec.toNat_eq]

/-- The number of positions that are not members. -/
def missing (s : StateSet n) : Nat := (List.finRange n).countP (fun i => !s.contains i)

theorem countP_lt_of_mem {α : Type} {p q : α → Bool} {l : List α} {a : α}
    (hpq : ∀ x, q x → p x) (ha : a ∈ l) (hp : p a) (hq : ¬ q a) : l.countP q < l.countP p := by
  induction l with
  | nil => simp at ha
  | cons b rest ih =>
    rw [List.countP_cons, List.countP_cons]
    have hle : rest.countP q ≤ rest.countP p := List.countP_mono_left fun x _ => hpq x
    rcases List.mem_cons.mp ha with rfl | hmem
    · rw [if_pos hp, if_neg hq]
      omega
    · have := ih hmem
      by_cases hb : q b
      · rw [if_pos hb, if_pos (hpq b hb)]
        omega
      · rw [if_neg hb]
        split <;> omega

theorem missing_insertAll_lt {s : StateSet n} {is : List (Fin n)} {i : Fin n} (hi : i ∈ is)
    (hs : i ∉ s) : (s.insertAll is).missing < s.missing := by
  refine countP_lt_of_mem (a := i) (fun j => ?_) (List.mem_finRange i) ?_ ?_
  · simp only [Bool.not_eq_true', ← Bool.not_eq_true, contains_iff, mem_insertAll]
    exact fun h hj => h (Or.inr hj)
  · simpa [← Bool.not_eq_true] using hs
  · simp [hi]

end StateSet
end FiniteAutomata
