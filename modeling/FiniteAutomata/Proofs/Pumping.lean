import Mathlib.Data.Finset.Card
import Mathlib.Data.Set.Finite.List
import FiniteAutomata.Proofs.Language

/-! # Pumping

A word at least as long as there are states passes some state twice, with a symbol in between. What
is read from the one visit to the other can be read any number of times, so that one such word in
the language makes the language infinite, and an infinite language has words of every length and more.
-/
namespace FiniteAutomata
variable {ts : List Transition} {p q : StateId} {w x : List Char}

namespace Reads

theorem replicate (h : Reads ts p x p) (k : Nat) : Reads ts p (List.replicate k x).flatten p := by
  induction k with
  | zero => exact refl ts p
  | succ k ih =>
    rw [List.replicate_succ, List.flatten_cons]
    exact h.trans ih

/-- The states that a word passes, one before each symbol and one behind the last. -/
theorem exists_stations (h : Reads ts p w q) :
    ∃ f : Nat → StateId, f 0 = p ∧ Reads ts (f w.length) [] q ∧
      ∀ i j, i ≤ j → j ≤ w.length → Reads ts (f i) ((w.take j).drop i) (f j) := by
  induction w generalizing p with
  | nil =>
    refine ⟨fun _ => p, rfl, h, ?_⟩
    intro i j hij hj
    obtain rfl := Nat.le_zero.mp hj
    obtain rfl := Nat.le_zero.mp hij
    exact refl ts p
  | cons c w ih =>
    obtain ⟨r, s, hr, ht, hs⟩ := reads_cons_iff.mp h
    obtain ⟨f, hf, hend, hbetween⟩ := ih hs
    refine ⟨fun i => i.casesOn p f, rfl, hend, ?_⟩
    intro i j hij hj
    cases j with
    | zero =>
      obtain rfl := Nat.le_zero.mp hij
      exact refl ts p
    | succ j =>
      have hj := Nat.le_of_succ_le_succ hj
      cases i with
      | zero =>
        have hrest := hbetween 0 j (Nat.zero_le j) hj
        rw [hf] at hrest
        exact hr.trans (hrest.symbol ht)
      | succ i => exact hbetween i j (Nat.le_of_succ_le_succ hij) hj

/-- A word that passes more states than there are passes one of them twice. -/
theorem exists_return {S : Finset StateId} (h : Reads ts p w q)
    (hS : ∀ u r, Reads ts p u r → r ∈ S) (hcard : S.card ≤ w.length) :
    ∃ u x v r, Reads ts p u r ∧ Reads ts r x r ∧ x ≠ [] ∧ Reads ts r v q := by
  obtain ⟨f, hstart, hend, hbetween⟩ := h.exists_stations
  have hmaps : ∀ i ∈ Finset.range (w.length + 1), f i ∈ S := by
    intro i hi
    have hreads := hbetween 0 i (Nat.zero_le i) (Nat.le_of_lt_succ (Finset.mem_range.mp hi))
    rw [hstart] at hreads
    exact hS _ _ hreads
  have hmore : S.card < (Finset.range (w.length + 1)).card := by
    rw [Finset.card_range]
    exact Nat.lt_succ_of_le hcard
  obtain ⟨i, j, hlt, hj, hij⟩ : ∃ i j, i < j ∧ j ≤ w.length ∧ f i = f j := by
    obtain ⟨i, hi, j, hj, hne, hij⟩ := Finset.exists_ne_map_eq_of_card_lt_of_maps_to hmore hmaps
    have hi := Nat.le_of_lt_succ (Finset.mem_range.mp hi)
    have hj := Nat.le_of_lt_succ (Finset.mem_range.mp hj)
    rcases Nat.lt_or_gt_of_ne hne with hlt | hlt
    · exact ⟨i, j, hlt, hj, hij⟩
    · exact ⟨j, i, hlt, hi, hij.symm⟩
  have hu := hbetween 0 i (Nat.zero_le i) (Nat.le_trans (Nat.le_of_lt hlt) hj)
  have hx := hbetween i j (Nat.le_of_lt hlt) hj
  have hv := (hbetween j w.length hj (Nat.le_refl _)).trans hend
  have hne : (w.take j).drop i ≠ [] := by
    rw [← List.length_pos_iff, List.length_drop, List.length_take_of_le hj]
    exact Nat.sub_pos_of_lt hlt
  rw [hstart] at hu
  rw [← hij] at hx hv
  exact ⟨_, _, _, f i, hu, hx, hne, hv⟩

end Reads

namespace Automaton
variable {a : Automaton}

/-- Some state lies on an accepting path and on a cycle that reads a symbol. -/
def Pumps (a : Automaton) : Prop :=
  ∃ u x v p, a.LeadsTo u p ∧ Reads a.transitions p x p ∧ x ≠ [] ∧ v ∈ a.languageFrom p

theorem Pumps.infinite (h : a.Pumps) : Set.Infinite (a.language : Set (List Char)) := by
  obtain ⟨u, x, v, p, hu, hx, hne, hv⟩ := h
  have hlength : ∀ k, (u ++ (List.replicate k x).flatten ++ v).length =
      u.length + k * x.length + v.length := by
    intro k
    simp [Nat.add_assoc]
  refine Set.infinite_of_injective_forall_mem
    (f := fun k : Nat => u ++ (List.replicate k x).flatten ++ v) ?_ ?_
  · intro j k hjk
    have hlen := congrArg List.length hjk
    dsimp only at hlen
    rw [hlength, hlength] at hlen
    have hpos : 0 < x.length := List.length_pos_iff.mpr hne
    exact Nat.eq_of_mul_eq_mul_right hpos (by omega)
  · exact fun k => mem_language_of_leadsTo (hu.trans (hx.replicate k)) hv

theorem exists_length_le_of_infinite (h : Set.Infinite (a.language : Set (List Char))) (k : Nat) :
    ∃ w ∈ a.language, k ≤ w.length := by
  by_contra hshort
  push Not at hshort
  have hfinite : {w : List {c // c ∈ a.alphabet} | w.length < k}.Finite := List.finite_length_lt _ k
  refine h ((hfinite.image (List.map Subtype.val)).subset fun w hw => ?_)
  have hsymbols : ∀ c ∈ w, c ∈ a.alphabet := fun c hc => mem_alphabet_of_mem_language hw hc
  refine ⟨w.attachWith _ hsymbols, ?_, List.attachWith_map_subtype_val _⟩
  rw [Set.mem_ofPred_eq, List.length_attachWith]
  exact hshort w hw

theorem pumps_of_length_le (hw : a.WellFormed) (h : w ∈ a.language)
    (hlen : a.states.length ≤ w.length) : a.Pumps := by
  obtain ⟨s, hs, q, hq, hf, hr⟩ := h
  have hsid : s.id ∈ a.ids := mem_ids.mpr ⟨s, List.mem_of_find?_eq_some hs, rfl⟩
  have hcard : a.ids.toFinset.card ≤ w.length := by
    refine Nat.le_trans (List.toFinset_card_le a.ids) ?_
    rwa [ids, List.length_map]
  obtain ⟨u, x, v, r, hu, hx, hne, hv⟩ := hr.exists_return
    (fun u r hu => List.mem_toFinset.mpr (hw.mem_ids_of_reads hsid hu)) hcard
  exact ⟨u, x, v, r, ⟨s, hs, hu⟩, hx, hne, q, hq, hf, hv⟩

theorem infinite_language_iff (hw : a.WellFormed) :
    Set.Infinite (a.language : Set (List Char)) ↔ a.Pumps := by
  constructor
  · intro h
    obtain ⟨w, hmem, hlen⟩ := exists_length_le_of_infinite h a.states.length
    exact pumps_of_length_le hw hmem hlen
  · exact Pumps.infinite

theorem infinite_language_iff_exists_length_le (hw : a.WellFormed) :
    Set.Infinite (a.language : Set (List Char)) ↔ ∃ w ∈ a.language, a.states.length ≤ w.length := by
  constructor
  · exact fun h => exists_length_le_of_infinite h _
  · rintro ⟨w, hmem, hlen⟩
    exact (pumps_of_length_le hw hmem hlen).infinite

end Automaton
end FiniteAutomata
