import Mathlib.Data.List.Nodup
import FiniteAutomata.Proofs.Reachability
import FiniteAutomata.Proofs.Minimization.Dfa
import FiniteAutomata.Proofs.Minimization.Marks

/-! # Classes of states

From positions without a mark between them the same words are accepted, so the classes are classes of
equivalent positions. Each begins with a state, the sink being the last of the positions and a class
of its own dropped, and each state that words reach is in just one.
-/
namespace FiniteAutomata

namespace Marks
variable {m : Nat} {marks : Marks m} {points cls : List (Fin m)}

theorem classes_cons (marks : Marks m) (p : Fin m) (rest : List (Fin m)) :
    classes marks (p :: rest) = (p :: rest.filter fun q => !marks.marked p q) ::
      classes marks (rest.filter (marks.marked p)) := by
  rw [classes]

theorem classes_induction (marks : Marks m) {C : List (Fin m) → Prop} (nil : C [])
    (cons : ∀ p rest, C (rest.filter (marks.marked p)) → C (p :: rest)) (points : List (Fin m)) :
    C points := by
  induction hlen : points.length using Nat.strong_induction_on generalizing points with
  | _ len ih =>
    cases points with
    | nil => exact nil
    | cons p rest =>
      have hle := List.length_filter_le (marks.marked p) rest
      rw [List.length_cons] at hlen
      exact cons p rest (ih _ (by omega) _ rfl)

theorem flatten_classes_perm (marks : Marks m) (points : List (Fin m)) :
    (classes marks points).flatten.Perm points := by
  induction points using classes_induction marks with
  | nil =>
    rw [classes]
    exact List.Perm.nil
  | cons p rest ih =>
    rw [classes_cons, List.flatten_cons, List.cons_append, List.perm_cons]
    have hsplit := List.filter_append_perm (marks.marked p) rest
    exact (ih.append_left _).trans (List.perm_append_comm.trans hsplit)

theorem exists_class_of_mem (marks : Marks m) {p : Fin m} (hp : p ∈ points) :
    ∃ cls ∈ classes marks points, p ∈ cls :=
  List.mem_flatten.mp ((flatten_classes_perm marks points).mem_iff.mpr hp)

theorem disjoint_classes (hn : points.Nodup) : (classes marks points).Pairwise List.Disjoint :=
  (List.nodup_flatten.mp ((flatten_classes_perm marks points).nodup_iff.mpr hn)).2

theorem sublist_of_mem_classes (h : cls ∈ classes marks points) : cls.Sublist points := by
  induction points using classes_induction marks with
  | nil =>
    rw [classes] at h
    cases h
  | cons p rest ih =>
    rw [classes_cons] at h
    rcases List.mem_cons.mp h with rfl | h
    · exact List.filter_sublist.cons_cons p
    · exact ((ih h).trans List.filter_sublist).cons p

theorem headed_of_mem_classes (h : cls ∈ classes marks points) :
    ∃ p rest, cls = p :: rest ∧ ∀ q ∈ rest, marks.marked p q = false := by
  induction points using classes_induction marks with
  | nil =>
    rw [classes] at h
    cases h
  | cons p rest ih =>
    rw [classes_cons] at h
    rcases List.mem_cons.mp h with rfl | h
    · refine ⟨p, _, rfl, ?_⟩
      intro q hq
      simpa using (List.mem_filter.mp hq).2
    · exact ih h

end Marks

namespace Minimization
variable {n : Nat} {d : Dfa n} {alphabet : Alphabet} {marks : Marks (n + 1)} {i j : Fin n} {k : Nat}
  {p q : Fin (n + 1)}

theorem mem_points : p ∈ points d ↔ (∃ i ∈ d.reachable, i.castSucc = p) ∨ p = Fin.last n := by
  simp [points]

theorem castSucc_mem_points : i.castSucc ∈ points d ↔ i ∈ d.reachable := by
  rw [mem_points]
  constructor
  · rintro (⟨j, hj, he⟩ | he)
    · rwa [← Fin.castSucc_inj.mp he]
    · exact absurd he (Fin.ne_of_lt i.castSucc_lt_last)
  · exact fun hi => Or.inl ⟨i, hi, rfl⟩

theorem pairwise_points (d : Dfa n) : (points d).Pairwise (· < ·) := by
  unfold points
  rw [List.pairwise_append]
  refine ⟨?_, List.pairwise_singleton _ _, ?_⟩
  · rw [List.pairwise_map]
    exact d.reachable.pairwise_toList.imp fun hij => Fin.castSucc_lt_castSucc_iff.mpr hij
  · intro p hp q hq
    obtain ⟨i, -, rfl⟩ := List.mem_map.mp hp
    obtain rfl := List.mem_singleton.mp hq
    exact i.castSucc_lt_last

theorem start_mem_reachable (d : Dfa n) : d.start ∈ d.reachable :=
  Search.mem_reach.mpr ⟨d.start, StateSet.mem_singleton.mpr rfl, Relation.ReflTransGen.refl⟩

theorem mem_reachable_of_move (hi : i ∈ d.reachable) (hj : (d.moves.get i)[k]? = some (some j)) :
    j ∈ d.reachable := by
  obtain ⟨s, hs, hr⟩ := Search.mem_reach.mp hi
  refine Search.mem_reach.mpr ⟨s, hs, hr.tail ?_⟩
  exact List.mem_filterMap.mpr ⟨some j, List.mem_of_getElem? hj, rfl⟩

theorem mem_points_of_move {symbols : Nat} (hp : p ∈ points d)
    (hq : ((d.completed symbols).moves.get p)[k]? = some q) : q ∈ points d := by
  cases p using Fin.lastCases with
  | last =>
    rw [Dfa.moves_completed_last] at hq
    exact mem_points.mpr (Or.inr (List.eq_of_mem_replicate (List.mem_of_getElem? hq)))
  | cast i =>
    rw [Dfa.moves_completed_castSucc, List.getElem?_map] at hq
    obtain ⟨next, hnext, rfl⟩ := Option.map_eq_some_iff.mp hq
    cases next with
    | none => exact mem_points.mpr (Or.inr rfl)
    | some j =>
      exact castSucc_mem_points.mpr (mem_reachable_of_move (castSucc_mem_points.mp hp) hnext)

theorem exists_move (hlen : ∀ i : Fin n, (d.moves.get i).length = alphabet.length) (p : Fin (n + 1))
    {c : Char} (hc : alphabet[k]? = some c) :
    ∃ q, ((d.completed alphabet.length).moves.get p)[k]? = some q := by
  have hk : k < alphabet.length := (List.getElem?_eq_some_iff.mp hc).1
  cases p using Fin.lastCases with
  | last =>
    rw [Dfa.moves_completed_last]
    exact ⟨_, List.getElem?_replicate_of_lt hk⟩
  | cast i =>
    rw [Dfa.moves_completed_castSucc, List.getElem?_map, List.getElem?_eq_getElem (by rwa [hlen i])]
    exact ⟨_, rfl⟩

theorem acceptsAt_congr
    (hst : Marks.Stable (d.completed alphabet.length) (points d) marks)
    (hlen : ∀ i : Fin n, (d.moves.get i).length = alphabet.length) (hp : p ∈ points d)
    (hq : q ∈ points d) (hpq : marks.marked p q = false) (w : List Char) :
    d.AcceptsAt alphabet p w ↔ d.AcceptsAt alphabet q w := by
  induction w generalizing p q with
  | nil =>
    rw [Dfa.acceptsAt_nil_iff alphabet.length, Dfa.acceptsAt_nil_iff alphabet.length,
      hst.accepting p hp q hq hpq]
  | cons c w ih =>
    have hagree : ∀ {k : Nat} {p' q' : Fin (n + 1)},
        ((d.completed alphabet.length).moves.get p)[k]? = some p' →
        ((d.completed alphabet.length).moves.get q)[k]? = some q' →
        (d.AcceptsAt alphabet p' w ↔ d.AcceptsAt alphabet q' w) := by
      intro k p' q' hp' hq'
      by_cases he : p' = q'
      · rw [he]
      · have hsplits := hst.splits p hp q hq hpq
        exact ih (mem_points_of_move hp hp') (mem_points_of_move hq hq')
          (Marks.of_anyMarked_eq_false hsplits hp' hq' he)
    rw [Dfa.acceptsAt_cons_iff alphabet.length, Dfa.acceptsAt_cons_iff alphabet.length]
    constructor
    · rintro ⟨k, p', hc, hp', hw⟩
      obtain ⟨q', hq'⟩ := exists_move hlen q hc
      exact ⟨k, q', hc, hq', (hagree hp' hq').mp hw⟩
    · rintro ⟨k, q', hc, hq', hw⟩
      obtain ⟨p', hp'⟩ := exists_move hlen p hc
      exact ⟨k, p', hc, hp', (hagree hp' hq').mpr hw⟩

/-- Every reachable state is in one class, which is headed by a state and of equivalent positions. -/
structure Partitions (d : Dfa n) (alphabet : Alphabet) (classes : List (List (Fin (n + 1)))) :
    Prop where
  disjoint : classes.Pairwise List.Disjoint
  headed : ∀ cls ∈ classes, ∃ i rest, cls = Fin.castSucc i :: rest
  reachable : ∀ cls ∈ classes, ∀ i : Fin n, i.castSucc ∈ cls → i ∈ d.reachable
  covered : ∀ i ∈ d.reachable, ∃ cls ∈ classes, i.castSucc ∈ cls
  equivalent : ∀ cls ∈ classes, ∀ p ∈ cls, ∀ q ∈ cls, ∀ w,
    d.AcceptsAt alphabet p w ↔ d.AcceptsAt alphabet q w

theorem mem_stateClasses {cls : List (Fin (n + 1))} :
    cls ∈ stateClasses marks (points d) ↔
      cls ∈ Marks.classes marks (points d) ∧ cls ≠ [Fin.last n] := by
  simp [stateClasses]

theorem eq_singleton_of_head_last {rest : List (Fin (n + 1))}
    (h : (Fin.last n :: rest).Sublist (points d)) : rest = [] := by
  have hasc := (pairwise_points d).sublist h
  refine List.eq_nil_iff_forall_not_mem.mpr fun q hq => ?_
  exact absurd ((List.pairwise_cons.mp hasc).1 q hq) (Fin.not_lt.mpr (Fin.le_last q))

theorem partitions_stateClasses
    (hst : Marks.Stable (d.completed alphabet.length) (points d) marks)
    (hlen : ∀ i : Fin n, (d.moves.get i).length = alphabet.length) :
    Partitions d alphabet (stateClasses marks (points d)) where
  disjoint := by
    have hnodup : (points d).Nodup := (pairwise_points d).imp fun hpq => Fin.ne_of_lt hpq
    exact (Marks.disjoint_classes hnodup).filter _
  headed := by
    intro cls hcls
    obtain ⟨hcls, hne⟩ := mem_stateClasses.mp hcls
    obtain ⟨p, rest, rfl, -⟩ := Marks.headed_of_mem_classes hcls
    have hsub := Marks.sublist_of_mem_classes hcls
    cases p using Fin.lastCases with
    | last => exact absurd (by rw [eq_singleton_of_head_last hsub]) hne
    | cast i => exact ⟨i, rest, rfl⟩
  reachable := by
    intro cls hcls i hi
    have hsub := Marks.sublist_of_mem_classes (mem_stateClasses.mp hcls).1
    exact castSucc_mem_points.mp (hsub.subset hi)
  covered := by
    intro i hi
    obtain ⟨cls, hcls, hmem⟩ := Marks.exists_class_of_mem marks
      (castSucc_mem_points.mpr hi)
    refine ⟨cls, mem_stateClasses.mpr ⟨hcls, ?_⟩, hmem⟩
    rintro rfl
    exact absurd (List.mem_singleton.mp hmem) (Fin.ne_of_lt i.castSucc_lt_last)
  equivalent := by
    intro cls hcls
    have hcls := (mem_stateClasses.mp hcls).1
    have hsub := Marks.sublist_of_mem_classes hcls
    obtain ⟨p, rest, rfl, hunmarked⟩ := Marks.headed_of_mem_classes hcls
    have hhead : ∀ q ∈ p :: rest, ∀ w, d.AcceptsAt alphabet p w ↔ d.AcceptsAt alphabet q w := by
      intro q hq w
      rcases List.mem_cons.mp hq with rfl | hrest
      · exact Iff.rfl
      · exact acceptsAt_congr hst hlen (hsub.subset (List.mem_cons_self ..)) (hsub.subset hq)
          (hunmarked q hrest) w
    intro q hq r hr w
    exact (hhead q hq w).symm.trans (hhead r hr w)

end Minimization
end FiniteAutomata
