import Mathlib.Logic.Relation
import FiniteAutomata.Automaton

/-! # Paths and the words on them

A path follows transitions one after the other. What it reads is the word that is left of its labels
when epsilon is erased, so a word may be read on paths of many lengths.
-/
namespace FiniteAutomata
variable {ts us : List Transition} {p q r : StateId} {u v w : List Char} {c : Char}

/-- A path from one state to another, with the labels on it in their order. -/
inductive Path (ts : List Transition) : StateId → List Label → StateId → Prop where
  | nil (p : StateId) : Path ts p [] p
  | cons {p r q : StateId} {l : Label} {ls : List Label} :
    ⟨p, r, l⟩ ∈ ts → Path ts r ls q → Path ts p (l :: ls) q

/-- The symbols on a list of labels. -/
def spelled (ls : List Label) : List Char := ls.filterMap Label.symbol?

/-- Some path from the first state to the second spells the word. -/
def Reads (ts : List Transition) (p : StateId) (w : List Char) (q : StateId) : Prop :=
  ∃ ls, Path ts p ls q ∧ spelled ls = w

/-- An epsilon transition leads from one state to the other. -/
def Slips (ts : List Transition) (p q : StateId) : Prop := ⟨p, q, .epsilon⟩ ∈ ts

@[simp] theorem spelled_nil : spelled [] = [] := rfl

@[simp] theorem spelled_epsilon (ls : List Label) : spelled (.epsilon :: ls) = spelled ls := rfl

@[simp] theorem spelled_symbol (c : Char) (ls : List Label) :
    spelled (.symbol c :: ls) = c :: spelled ls := rfl

@[simp] theorem spelled_append (ls ms : List Label) :
    spelled (ls ++ ms) = spelled ls ++ spelled ms := List.filterMap_append

namespace Path

theorem append {ls ms : List Label} (h : Path ts p ls q) (h' : Path ts q ms r) :
    Path ts p (ls ++ ms) r := by
  induction h with
  | nil => exact h'
  | cons ht _ ih => exact .cons ht (ih h')

theorem mono {ls : List Label} (hs : ∀ t ∈ ts, t ∈ us) (h : Path ts p ls q) :
    Path us p ls q := by
  induction h with
  | nil => exact .nil _
  | cons ht _ ih => exact .cons (hs _ ht) ih

theorem eq_of_stuck {ls : List Label} (hs : ∀ t ∈ ts, t.source ≠ p) (h : Path ts p ls q) :
    ls = [] ∧ q = p := by
  cases h with
  | nil => exact ⟨rfl, rfl⟩
  | cons ht _ => exact absurd rfl (hs _ ht)

end Path

namespace Reads

theorem refl (ts : List Transition) (p : StateId) : Reads ts p [] p := ⟨[], .nil p, rfl⟩

theorem epsilon (ht : ⟨p, r, .epsilon⟩ ∈ ts) (h : Reads ts r w q) : Reads ts p w q := by
  obtain ⟨ls, hp, rfl⟩ := h
  exact ⟨_, .cons ht hp, spelled_epsilon ls⟩

theorem symbol (ht : ⟨p, r, .symbol c⟩ ∈ ts) (h : Reads ts r w q) : Reads ts p (c :: w) q := by
  obtain ⟨ls, hp, rfl⟩ := h
  exact ⟨_, .cons ht hp, spelled_symbol c ls⟩

theorem cons {t : Transition} (ht : t ∈ ts) (h : Reads ts t.target w q) :
    Reads ts t.source (spelled [t.label] ++ w) q := by
  obtain ⟨ls, hp, rfl⟩ := h
  exact ⟨_, .cons ht hp, spelled_append [t.label] ls⟩

/-- What holds at the end of every path, and before each transition if it holds behind it, holds at
the beginning. -/
theorem backward {S : StateId → List Char → Prop} (hnil : S q [])
    (hcons : ∀ t ∈ ts, ∀ w, S t.target w → S t.source (spelled [t.label] ++ w))
    (h : Reads ts p w q) : S p w := by
  obtain ⟨ls, hp, rfl⟩ := h
  induction hp with
  | nil => exact hnil
  | @cons p r q l ls ht _ ih =>
    have hs := hcons ⟨p, r, l⟩ ht (spelled ls) (ih hnil)
    rwa [← spelled_append] at hs

theorem trans (h : Reads ts p u q) (h' : Reads ts q v r) : Reads ts p (u ++ v) r := by
  obtain ⟨ls, hp, rfl⟩ := h
  obtain ⟨ms, hq, rfl⟩ := h'
  exact ⟨ls ++ ms, hp.append hq, spelled_append ls ms⟩

theorem slip (h : Reads ts p w r) (ht : ⟨r, q, .epsilon⟩ ∈ ts) : Reads ts p w q := by
  have hw := h.trans ((refl ts q).epsilon ht)
  rwa [List.append_nil] at hw

theorem mono (hs : ∀ t ∈ ts, t ∈ us) (h : Reads ts p w q) : Reads us p w q := by
  obtain ⟨ls, hp, hw⟩ := h
  exact ⟨ls, hp.mono hs, hw⟩

theorem of_slips (h : Relation.ReflTransGen (Slips ts) p q) : Reads ts p [] q := by
  induction h using Relation.ReflTransGen.head_induction_on with
  | refl => exact refl ts q
  | head ht _ ih => exact epsilon ht ih

end Reads

theorem reads_nil_iff : Reads ts p [] q ↔ Relation.ReflTransGen (Slips ts) p q := by
  constructor
  · rintro ⟨ls, hp, hw⟩
    induction hp with
    | nil => exact Relation.ReflTransGen.refl
    | @cons p r q l ls ht _ ih =>
      cases l with
      | epsilon => exact Relation.ReflTransGen.head ht (ih hw)
      | symbol c => simp at hw
  · exact Reads.of_slips

theorem reads_cons_iff : Reads ts p (c :: w) q ↔
    ∃ r s, Reads ts p [] r ∧ ⟨r, s, .symbol c⟩ ∈ ts ∧ Reads ts s w q := by
  constructor
  · rintro ⟨ls, hp, hw⟩
    induction hp with
    | nil => simp at hw
    | @cons p r q l ls ht hr ih =>
      cases l with
      | epsilon =>
        obtain ⟨r', s, hr', hs, hq⟩ := ih hw
        exact ⟨r', s, hr'.epsilon ht, hs, hq⟩
      | symbol d =>
        obtain ⟨rfl, rfl⟩ := List.cons.inj hw
        exact ⟨p, r, Reads.refl ts p, ht, ls, hr, rfl⟩
  · rintro ⟨r, s, hr, ht, hs⟩
    exact hr.trans (hs.symbol ht)

theorem reads_append_iff :
    Reads ts p (u ++ v) q ↔ ∃ r, Reads ts p u r ∧ Reads ts r v q := by
  induction u generalizing p with
  | nil =>
    constructor
    · exact fun h => ⟨p, Reads.refl ts p, h⟩
    · rintro ⟨r, hr, hq⟩
      exact hr.trans hq
  | cons c u ih =>
    constructor
    · intro h
      obtain ⟨r, s, hr, ht, hs⟩ := reads_cons_iff.mp h
      obtain ⟨m, hu, hv⟩ := ih.mp hs
      exact ⟨m, reads_cons_iff.mpr ⟨r, s, hr, ht, hu⟩, hv⟩
    · rintro ⟨m, hu, hv⟩
      exact hu.trans hv

theorem reads_concat_iff : Reads ts p (w ++ [c]) q ↔
    ∃ r s, Reads ts p w r ∧ ⟨r, s, .symbol c⟩ ∈ ts ∧ Reads ts s [] q := by
  rw [reads_append_iff]
  constructor
  · rintro ⟨m, hm, hq⟩
    obtain ⟨r, s, hr, ht, hs⟩ := reads_cons_iff.mp hq
    have hmr := hm.trans hr
    rw [List.append_nil] at hmr
    exact ⟨r, s, hmr, ht, hs⟩
  · rintro ⟨r, s, hr, ht, hs⟩
    exact ⟨r, hr, hs.symbol ht⟩

theorem reads_nil_iff_of_symbols (hs : ∀ t ∈ ts, ∃ c, t.label = .symbol c) :
    Reads ts p [] q ↔ q = p := by
  rw [reads_nil_iff]
  constructor
  · intro h
    rcases Relation.ReflTransGen.cases_head h with rfl | ⟨r, hr, -⟩
    · rfl
    · obtain ⟨c, hc⟩ := hs _ hr
      cases hc
  · rintro rfl
    exact Relation.ReflTransGen.refl

theorem reads_cons_iff_of_symbols (hs : ∀ t ∈ ts, ∃ c, t.label = .symbol c) :
    Reads ts p (c :: w) q ↔ ∃ r, ⟨p, r, .symbol c⟩ ∈ ts ∧ Reads ts r w q := by
  rw [reads_cons_iff]
  simp only [reads_nil_iff_of_symbols hs]
  constructor
  · rintro ⟨_, r, rfl, ht, hr⟩
    exact ⟨r, ht, hr⟩
  · rintro ⟨r, ht, hr⟩
    exact ⟨p, r, rfl, ht, hr⟩

end FiniteAutomata
