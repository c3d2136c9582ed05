import Mathlib.Data.List.ProdSigma
import FiniteAutomata.Minimization.Pairs

/-! # Marks settle

A pass only adds marks, and only between the listed positions. A pass that adds any adds one to at most
as many as there are pairs, so that the budget of passes is never used up, and marks to which a pass
adds nothing separate any two positions that some symbol takes to separate ones.
-/
namespace FiniteAutomata
namespace Marks
variable {m : Nat} {marks marks' : Marks m} {c : CompleteDfa m} {points : List (Fin m)}

theorem ext_marked (h : ∀ i j, marks.marked i j = marks'.marked i j) : marks = marks' := by
  refine Vector.ext fun i hi => Vector.ext fun j hj => ?_
  exact h ⟨i, hi⟩ ⟨j, hj⟩

/-- Every mark of the first is also in the second. -/
def Within (marks marks' : Marks m) : Prop :=
  ∀ i j, marks.marked i j = true → marks'.marked i j = true

theorem Within.refl (marks : Marks m) : Within marks marks := fun _ _ h => h

theorem Within.trans {marks'' : Marks m} (h : Within marks marks') (h' : Within marks' marks'') :
    Within marks marks'' := fun i j hm => h' i j (h i j hm)

theorem Within.antisymm (h : Within marks marks') (h' : Within marks' marks) : marks = marks' :=
  ext_marked fun i j => Bool.eq_iff_iff.mpr ⟨h i j, h' i j⟩

theorem within_mark (marks : Marks m) (p q : Fin m) : Within marks (marks.mark p q) := by
  intro i j h
  rw [marked_mark, h, Bool.true_or, Bool.true_or]

theorem marked_mark_self (marks : Marks m) (p q : Fin m) :
    (marks.mark p q).marked p q = true ∧ (marks.mark p q).marked q p = true := by
  simp [marked_mark]

theorem mem_of_marked_mark {p q i j : Fin m} (h : (marks.mark p q).marked i j = true) :
    marks.marked i j = true ∨ (i = p ∧ j = q) ∨ i = q ∧ j = p := by
  rw [marked_mark, Bool.or_eq_true, Bool.or_eq_true, decide_eq_true_eq, decide_eq_true_eq,
    or_assoc] at h
  exact h

section overPairs
variable {f : Marks m → Fin m → Fin m → Marks m}

theorem foldl_visits (hf : ∀ b p q, Within b (f b p q)) (p : Fin m) (qs : List (Fin m))
    (b : Marks m) :
    Within b (qs.foldl (fun b q => f b p q) b) ∧
      ∀ q ∈ qs, ∃ b', Within b b' ∧ Within (f b' p q) (qs.foldl (fun b q => f b p q) b) := by
  induction qs generalizing b with
  | nil => exact ⟨Within.refl b, fun q hq => absurd hq List.not_mem_nil⟩
  | cons q qs ih =>
    obtain ⟨hle, hvisit⟩ := ih (f b p q)
    rw [List.foldl_cons]
    refine ⟨(hf b p q).trans hle, ?_⟩
    intro q' hq'
    rcases List.mem_cons.mp hq' with rfl | hq'
    · exact ⟨b, Within.refl b, hle⟩
    · obtain ⟨b', hb, hb'⟩ := hvisit q' hq'
      exact ⟨b', (hf b p q).trans hb, hb'⟩

/-- When every step only adds marks, what a step at some pair made of them is within the result. -/
theorem overPairs_visits (hf : ∀ b p q, Within b (f b p q)) (points : List (Fin m)) (b : Marks m) :
    Within b (overPairs f b points) ∧
      ∀ p ∈ points, ∀ q ∈ points, p ≠ q → ∃ b', Within b b' ∧
        (Within (f b' p q) (overPairs f b points) ∨ Within (f b' q p) (overPairs f b points)) := by
  induction points generalizing b with
  | nil => exact ⟨Within.refl b, fun p hp => absurd hp List.not_mem_nil⟩
  | cons x rest ih =>
    rw [overPairs]
    obtain ⟨hfold, hfirst⟩ := foldl_visits hf x rest b
    obtain ⟨hle, hlater⟩ := ih (rest.foldl (fun b q => f b x q) b)
    refine ⟨hfold.trans hle, ?_⟩
    intro p hp q hq hne
    rcases List.mem_cons.mp hp with rfl | hpr <;> rcases List.mem_cons.mp hq with rfl | hqr
    · exact absurd rfl hne
    · obtain ⟨b', hb, hb'⟩ := hfirst q hqr
      exact ⟨b', hb, Or.inl (hb'.trans hle)⟩
    · obtain ⟨b', hb, hb'⟩ := hfirst p hpr
      exact ⟨b', hb, Or.inr (hb'.trans hle)⟩
    · obtain ⟨b', hb, hb'⟩ := hlater p hpr q hqr hne
      exact ⟨b', hfold.trans hb, hb'⟩

theorem overPairs_keeps {I : Marks m → Prop}
    (hf : ∀ b, ∀ p ∈ points, ∀ q ∈ points, I b → I (f b p q)) {b : Marks m} (hb : I b) :
    I (overPairs f b points) := by
  induction points generalizing b with
  | nil => exact hb
  | cons x rest ih =>
    rw [overPairs]
    refine ih (fun b p hp q hq => hf b p (List.mem_cons_of_mem x hp) q (List.mem_cons_of_mem x hq)) ?_
    refine List.foldlRecOn rest _ hb ?_
    intro b hb q hq
    exact hf b x (List.mem_cons_self ..) q (List.mem_cons_of_mem x hq) hb

end overPairs

/-- Marks between two positions are in both directions. -/
def Symmetric (marks : Marks m) : Prop := ∀ i j, marks.marked i j = marks.marked j i

theorem symmetric_blank : Symmetric (blank : Marks m) := by
  intro i j
  rw [marked_blank, marked_blank]

theorem Symmetric.mark (h : Symmetric marks) (p q : Fin m) : Symmetric (marks.mark p q) := by
  intro i j
  rw [marked_mark, marked_mark, h i j, Bool.or_assoc, Bool.or_assoc,
    Bool.or_comm (decide (i = p ∧ j = q))]
  simp only [and_comm]

theorem anyMarked_comm (h : Symmetric marks) (ps qs : List (Fin m)) :
    marks.anyMarked ps qs = marks.anyMarked qs ps := by
  induction ps generalizing qs with
  | nil => cases qs <;> rfl
  | cons p ps ih =>
    cases qs with
    | nil => rfl
    | cons q qs =>
      rw [anyMarked, anyMarked, ih qs, h p q]
      congr 2
      exact decide_eq_decide.mpr ne_comm

theorem anyMarked_self (marks : Marks m) (ps : List (Fin m)) : marks.anyMarked ps ps = false := by
  induction ps with
  | nil => rfl
  | cons p ps ih => simp [anyMarked, ih]

/-- Where two lists of moves go on differently, they are not marked unless some pair is. -/
theorem of_anyMarked_eq_false {ps qs : List (Fin m)} (h : marks.anyMarked ps qs = false) {k : Nat}
    {p q : Fin m} (hp : ps[k]? = some p) (hq : qs[k]? = some q) (hne : p ≠ q) :
    marks.marked p q = false := by
  induction ps generalizing qs k with
  | nil => cases hp
  | cons p' ps ih =>
    cases qs with
    | nil => cases hq
    | cons q' qs =>
      rw [anyMarked, Bool.or_eq_false_iff] at h
      cases k with
      | zero =>
        obtain rfl : p' = p := by simpa using hp
        obtain rfl : q' = q := by simpa using hq
        simpa [hne] using h.1
      | succ k => exact ih h.2 hp hq

theorem symmetric_ofAcceptance (c : CompleteDfa m) (points : List (Fin m)) :
    Symmetric (ofAcceptance c points) := by
  refine overPairs_keeps ?_ symmetric_blank
  intro b p _ q _ hb
  split
  · exact hb.mark p q
  · exact hb

theorem marked_ofAcceptance {p q : Fin m} (hp : p ∈ points) (hq : q ∈ points)
    (hne : c.accepting.get p ≠ c.accepting.get q) : (ofAcceptance c points).marked p q = true := by
  have hpq : p ≠ q := fun he => hne (by rw [he])
  have hstep : ∀ (b : Marks m) (p q : Fin m),
      Within b (if c.accepting.get p ≠ c.accepting.get q then b.mark p q else b) := by
    intro b p q
    split
    · exact within_mark b p q
    · exact Within.refl b
  obtain ⟨b, -, hb | hb⟩ := (overPairs_visits hstep points blank).2 p hp q hq hpq
  · rw [if_pos hne] at hb
    exact hb p q (marked_mark_self b p q).1
  · rw [if_pos hne.symm] at hb
    exact hb p q (marked_mark_self b q p).2

theorem within_passStep (c : CompleteDfa m) (b : Marks m) (p q : Fin m) :
    Within b (if b.marked p q then b else if splits c b p q then b.mark p q else b) := by
  split
  · exact Within.refl b
  · split
    · exact within_mark b p q
    · exact Within.refl b

theorem within_pass (c : CompleteDfa m) (points : List (Fin m)) (marks : Marks m) :
    Within marks (pass c points marks) := (overPairs_visits (within_passStep c) points marks).1

theorem Symmetric.pass (h : Symmetric marks) (c : CompleteDfa m) (points : List (Fin m)) :
    Symmetric (pass c points marks) := by
  refine overPairs_keeps ?_ h
  intro b p _ q _ hb
  split
  · exact hb
  · split
    · exact hb.mark p q
    · exact hb

theorem mem_of_marked_pass {i j : Fin m} (h : (pass c points marks).marked i j = true) :
    marks.marked i j = true ∨ i ∈ points ∧ j ∈ points := by
  revert h
  refine overPairs_keeps (I := fun b => b.marked i j = true →
    marks.marked i j = true ∨ i ∈ points ∧ j ∈ points) ?_ Or.inl
  intro b p hp q hq hb h
  split at h
  · exact hb h
  · split at h
    · rcases mem_of_marked_mark h with h | ⟨rfl, rfl⟩ | ⟨rfl, rfl⟩
      · exact hb h
      · exact Or.inr ⟨hp, hq⟩
      · exact Or.inr ⟨hq, hp⟩
    · exact hb h

/-- Where a pass adds nothing, no symbol takes an unmarked pair to a marked one. -/
theorem splits_of_pass_eq (hsym : Symmetric marks) (h : pass c points marks = marks) {p q : Fin m}
    (hp : p ∈ points) (hq : q ∈ points) (hpq : marks.marked p q = false) :
    splits c marks p q = false := by
  by_cases hne : p = q
  · subst hne
    exact anyMarked_self marks _
  · -- between the marks before and after the pass, which are the same, there is no room
    have hsame : ∀ {b : Marks m} {p q : Fin m}, Within marks b →
        Within (if b.marked p q then b else if splits c b p q then b.mark p q else b)
          (pass c points marks) → marks.marked p q = false → splits c marks p q = false := by
      intro b p q hb hb' hpq
      rw [h] at hb'
      obtain rfl : marks = b := hb.antisymm ((within_passStep c b p q).trans hb')
      rw [hpq, if_neg Bool.false_ne_true] at hb'
      by_contra hsplits
      rw [Bool.not_eq_false] at hsplits
      rw [if_pos hsplits] at hb'
      have hmarked := hb' p q (marked_mark_self marks p q).1
      rw [hpq] at hmarked
      cases hmarked
    obtain ⟨b, hb, hb' | hb'⟩ := (overPairs_visits (within_passStep c) points marks).2 p hp q hq hne
    · exact hsame hb hb' hpq
    · have hqp := hsame hb hb' (by rwa [hsym q p])
      rwa [splits, anyMarked_comm hsym] at hqp

/-- The number of marked pairs of listed positions. -/
def count (marks : Marks m) (points : List (Fin m)) : Nat :=
  (points ×ˢ points).countP fun e => marks.marked e.1 e.2

theorem count_le (marks : Marks m) (points : List (Fin m)) :
    marks.count points ≤ points.length * points.length := by
  rw [← List.length_product]
  exact List.countP_le_length

theorem count_lt_of_pass_ne (h : pass c points marks ≠ marks) :
    marks.count points < (pass c points marks).count points := by
  have hwithin := within_pass c points marks
  have hnew : ∃ i j, (pass c points marks).marked i j = true ∧ marks.marked i j = false := by
    by_contra hnone
    simp only [not_exists, not_and] at hnone
    refine h (Within.antisymm ?_ hwithin)
    intro i j hm
    exact (Bool.not_eq_false _).mp (hnone i j hm)
  obtain ⟨i, j, hm, hu⟩ := hnew
  obtain hold | ⟨hi, hj⟩ := mem_of_marked_pass hm
  · rw [hold] at hu
    cases hu
  · refine StateSet.countP_lt_of_mem (a := (i, j)) (fun e he => hwithin _ _ he)
      (List.mem_product.mpr ⟨hi, hj⟩) hm ?_
    rw [hu]
    exact Bool.false_ne_true

/-- Positions without a mark between them agree on acceptance, and no symbol separates them. -/
structure Stable (c : CompleteDfa m) (points : List (Fin m)) (marks : Marks m) : Prop where
  accepting : ∀ p ∈ points, ∀ q ∈ points, marks.marked p q = false →
    c.accepting.get p = c.accepting.get q
  splits : ∀ p ∈ points, ∀ q ∈ points, marks.marked p q = false → splits c marks p q = false

theorem stable_of_settle {limits : Limits} {budget : Nat} {s s' : Settled m}
    (hsym : Symmetric s.marks) (hacc : Within (ofAcceptance c points) s.marks)
    (hb : points.length * points.length < budget + s.marks.count points)
    (h : settle c points limits budget s = .ok s') : Stable c points s'.marks := by
  induction budget generalizing s with
  | zero =>
    have hle := count_le s.marks points
    omega
  | succ budget ih =>
    rw [settle] at h
    dsimp only at h
    split at h
    · cases h
    · split at h
      · rename_i hsame
        cases h
        dsimp only
        rw [hsame]
        refine ⟨?_, fun p hp q hq hpq => splits_of_pass_eq hsym hsame hp hq hpq⟩
        intro p hp q hq hpq
        by_contra hne
        have hm := hacc p q (marked_ofAcceptance hp hq hne)
        rw [hpq] at hm
        cases hm
      · rename_i hchanged
        have hlt := count_lt_of_pass_ne hchanged
        refine ih (hsym.pass c points) (hacc.trans (within_pass c points s.marks)) ?_ h
        dsimp only
        omega

theorem stable_of_fill {limits : Limits} {s : Settled m} (h : fill c points limits = .ok s) :
    Stable c points s.marks := by
  unfold fill at h
  dsimp only at h
  split at h
  · cases h
  · exact stable_of_settle (symmetric_ofAcceptance c points) (Within.refl _) (by dsimp only; omega) h

theorem countSum_le (i j : Nat) : countSum i j ≤ maxCount := Nat.min_le_right ..

theorem pairCount_le (size : Nat) : pairCount size ≤ maxCount :=
  Nat.le_trans (Nat.div_le_self ..) (Nat.min_le_right ..)

theorem exists_settle {limits : Limits} (hl : maxCount ≤ limits.maxPairChecks) (budget : Nat)
    (s : Settled m) : ∃ s', settle c points limits budget s = .ok s' := by
  induction budget generalizing s with
  | zero => exact ⟨s, rfl⟩
  | succ budget ih =>
    rw [settle]
    dsimp only
    rw [if_neg (Nat.not_lt.mpr (Nat.le_trans (countSum_le ..) hl))]
    split
    · exact ⟨_, rfl⟩
    · exact ih _

/-- The largest limit is never met, as counts stay at the largest count. -/
theorem exists_fill {limits : Limits} (hl : maxCount ≤ limits.maxPairChecks) (c : CompleteDfa m)
    (points : List (Fin m)) : ∃ s, fill c points limits = .ok s := by
  unfold fill
  dsimp only
  rw [if_neg (Nat.not_lt.mpr (Nat.le_trans (pairCount_le _) hl))]
  exact exists_settle hl _ _

end Marks
end FiniteAutomata
