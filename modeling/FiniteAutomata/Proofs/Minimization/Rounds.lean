import Mathlib.Algebra.Group.Nat.Defs
import FiniteAutomata.Proofs.Minimization.Residuals

/-! # How many passes a minimization makes

Positions agree on a length if from both the same words of at most this length are accepted. One
letter more tells further positions apart until it tells none, and then no length does: since each
time there is one more position that no other one agrees with, that is so before the length is the
number of reachable states. A pass marks at least what one letter more tells apart, so there are no
more passes than that either, and the number of pairs looked at is bounded.
-/
namespace FiniteAutomata
namespace Minimization
variable {n : Nat} {d : Dfa n} {alphabet : Alphabet} {p q r : Fin (n + 1)} {j k : Nat}
  {marks : Marks (n + 1)} {limits : Limits}
variable (hasc : alphabet.Pairwise (· < ·))
  (hlen : ∀ i : Fin n, (d.moves.get i).length = alphabet.length)

/-- No word of at most this length is accepted from one of the positions only. -/
def Agrees (d : Dfa n) (alphabet : Alphabet) (k : Nat) (p q : Fin (n + 1)) : Prop :=
  ∀ w : List Char, w.length ≤ k → (d.AcceptsAt alphabet p w ↔ d.AcceptsAt alphabet q w)

namespace Agrees

theorem refl (d : Dfa n) (alphabet : Alphabet) (k : Nat) (p : Fin (n + 1)) : Agrees d alphabet k p p :=
  fun _ _ => Iff.rfl

theorem symm (h : Agrees d alphabet k p q) : Agrees d alphabet k q p := fun w hw => (h w hw).symm

theorem trans (h : Agrees d alphabet k p q) (h' : Agrees d alphabet k q r) :
    Agrees d alphabet k p r := fun w hw => (h w hw).trans (h' w hw)

theorem mono (h : Agrees d alphabet k p q) (hj : j ≤ k) : Agrees d alphabet j p q :=
  fun w hw => h w (hw.trans hj)

end Agrees

/-- One letter more tells no further points apart. -/
def Steady (d : Dfa n) (alphabet : Alphabet) (k : Nat) : Prop :=
  ∀ p ∈ points d, ∀ q ∈ points d, Agrees d alphabet k p q → Agrees d alphabet (k + 1) p q

section
include hasc hlen

theorem agrees_succ_iff :
    Agrees d alphabet (k + 1) p q ↔ Agrees d alphabet 0 p q ∧
      ∀ (l : Nat) (c : Char) (p' q' : Fin (n + 1)), alphabet[l]? = some c →
        ((d.completed alphabet.length).moves.get p)[l]? = some p' →
        ((d.completed alphabet.length).moves.get q)[l]? = some q' → Agrees d alphabet k p' q' := by
  constructor
  · intro h
    refine ⟨h.mono (Nat.zero_le _), fun l c p' q' hc hp hq w hw => ?_⟩
    rw [← acceptsAt_cons_of_move hasc hc hp, ← acceptsAt_cons_of_move hasc hc hq]
    exact h (c :: w) (Nat.succ_le_succ hw)
  · rintro ⟨hzero, hmoves⟩ w hw
    cases w with
    | nil => exact hzero [] (Nat.le_refl 0)
    | cons c w =>
      by_cases hc : c ∈ alphabet
      · obtain ⟨l, hc⟩ := List.getElem?_of_mem hc
        obtain ⟨p', hp⟩ := exists_move hlen p hc
        obtain ⟨q', hq⟩ := exists_move hlen q hc
        rw [acceptsAt_cons_of_move hasc hc hp, acceptsAt_cons_of_move hasc hc hq]
        exact hmoves l c p' q' hc hp hq w (Nat.le_of_succ_le_succ hw)
      · -- no word with another symbol is accepted at all
        have hnone : ∀ p : Fin (n + 1), ¬ d.AcceptsAt alphabet p (c :: w) := by
          intro p h
          obtain ⟨l, -, hl, -⟩ := (Dfa.acceptsAt_cons_iff alphabet.length).mp h
          exact hc (List.mem_of_getElem? hl)
        exact iff_of_false (hnone p) (hnone q)

/-- Where one letter more tells no further points apart, no number of letters does. -/
theorem Steady.agrees (h : Steady d alphabet k) (j : Nat) (hp : p ∈ points d) (hq : q ∈ points d)
    (hpq : Agrees d alphabet k p q) : Agrees d alphabet (k + j) p q := by
  induction j generalizing p q with
  | zero => exact hpq
  | succ j ih =>
    obtain ⟨hzero, hmoves⟩ := (agrees_succ_iff hasc hlen).mp (h p hp q hq hpq)
    refine (agrees_succ_iff hasc hlen).mpr ⟨hzero, fun l c p' q' hc hp' hq' => ?_⟩
    exact ih (mem_points_of_move hp hp') (mem_points_of_move hq hq') (hmoves l c p' q' hc hp' hq')

theorem Steady.not_separated (h : Steady d alphabet k) (hp : p ∈ points d) (hq : q ∈ points d)
    (hpq : Agrees d alphabet k p q) : ¬ Separated d alphabet p q := by
  rintro ⟨w, hw⟩
  exact hw (h.agrees hasc hlen w.length hp hq hpq w (Nat.le_add_left _ k))

end

/-- Some word of at most this length tells the positions apart. -/
def Apart (d : Dfa n) (alphabet : Alphabet) (k : Nat) (p q : Fin (n + 1)) : Prop :=
  ¬ Agrees d alphabet k p q

instance : Std.Symm (Apart d alphabet k) where
  symm := fun _ _ h h' => h h'.symm

/-- A point joins those that are told apart when one letter more tells it from the only one of them
with which it has agreed. -/
theorem pairwise_cons_of_agrees {apart : List (Fin (n + 1))}
    (hapart : apart.Pairwise (Apart d alphabet k)) (hr : r ∈ apart) (hpr : Agrees d alphabet k p r)
    (hmore : Apart d alphabet (k + 1) p r) : (p :: apart).Pairwise (Apart d alphabet (k + 1)) := by
  refine List.pairwise_cons.mpr ⟨fun r' hr' h => ?_, ?_⟩
  · by_cases hne : r = r'
    · exact hmore (hne ▸ h)
    · exact hapart.forall hr hr' hne (hpr.symm.trans (h.mono (Nat.le_succ k)))
  · exact hapart.imp fun hne h => hne (h.mono (Nat.le_succ k))

theorem exists_apart_succ (hsteady : ¬ Steady d alphabet k) {apart : List (Fin (n + 1))}
    (hapart : apart.Pairwise (Apart d alphabet k)) :
    ∃ p ∈ points d, (p :: apart).Pairwise (Apart d alphabet (k + 1)) := by
  simp only [Steady, not_forall] at hsteady
  obtain ⟨p, hp, q, hq, hpq, hmore⟩ := hsteady
  by_cases hknown : ∃ r ∈ apart, Agrees d alphabet k p r
  · obtain ⟨r, hr, hpr⟩ := hknown
    by_cases hpr' : Agrees d alphabet (k + 1) p r
    · -- one letter more tells the points apart, so not both of them from the known one
      have hqr : Apart d alphabet (k + 1) q r := fun h => hmore (hpr'.trans h.symm)
      exact ⟨q, hq, pairwise_cons_of_agrees hapart hr (hpq.symm.trans hpr) hqr⟩
    · exact ⟨p, hp, pairwise_cons_of_agrees hapart hr hpr hpr'⟩
  · refine ⟨p, hp, List.pairwise_cons.mpr ⟨fun r hr h => ?_, ?_⟩⟩
    · exact hknown ⟨r, hr, h.mono (Nat.le_succ k)⟩
    · exact hapart.imp fun hne h => hne (h.mono (Nat.le_succ k))

/-- As long as one letter more tells further points apart, there are more of them than letters. -/
theorem exists_apart (hp : p ∈ points d) (hq : q ∈ points d) (hpq : Apart d alphabet 0 p q)
    (h : ∀ i < k, ¬ Steady d alphabet i) :
    ∃ apart : List (Fin (n + 1)), apart.length = k + 2 ∧ (∀ r ∈ apart, r ∈ points d) ∧
      apart.Pairwise (Apart d alphabet k) := by
  induction k with
  | zero => exact ⟨[p, q], rfl, by simp [hp, hq], by simpa using hpq⟩
  | succ k ih =>
    obtain ⟨apart, hlength, hsub, hapart⟩ := ih fun i hi => h i (Nat.lt_succ_of_lt hi)
    obtain ⟨r, hr, hmore⟩ := exists_apart_succ (h k (Nat.lt_succ_self k)) hapart
    exact ⟨r :: apart, by simp [hlength], by simpa [hr] using hsub, hmore⟩

theorem length_points (d : Dfa n) : (points d).length = d.reachable.size + 1 := by
  simp [points, StateSet.size]

include hasc hlen in
/-- One letter more tells no further points apart already at some length below the number of reachable
positions. -/
theorem exists_steady : ∃ k < d.reachable.size, Steady d alphabet k := by
  by_cases hall : ∀ p ∈ points d, ∀ q ∈ points d, Agrees d alphabet 0 p q
  · refine ⟨0, ?_, fun p hp q hq hpq => (agrees_succ_iff hasc hlen).mpr ⟨hpq, ?_⟩⟩
    · exact List.length_pos_of_mem (StateSet.mem_toList.mpr (start_mem_reachable d))
    · intro l c p' q' _ hp' hq'
      exact hall p' (mem_points_of_move hp hp') q' (mem_points_of_move hq hq')
  · simp only [not_forall] at hall
    obtain ⟨p, hp, q, hq, hpq⟩ := hall
    by_contra hnone
    simp only [not_exists, not_and] at hnone
    obtain ⟨apart, hlength, hsub, hapart⟩ := exists_apart hp hq hpq hnone
    have hnodup : apart.Nodup := by
      refine hapart.imp fun {p q} hne he => hne ?_
      rw [he]
      exact Agrees.refl d alphabet _ q
    have hle := (hnodup.subperm hsub).length_le
    rw [hlength, length_points] at hle
    omega

/-- All points that words of at most this length tell apart are marked. -/
def Covers (d : Dfa n) (alphabet : Alphabet) (k : Nat) (marks : Marks (n + 1)) : Prop :=
  ∀ p ∈ points d, ∀ q ∈ points d, Apart d alphabet k p q → marks.marked p q = true

theorem covers_ofAcceptance :
    Covers d alphabet 0 (Marks.ofAcceptance (d.completed alphabet.length) (points d)) := by
  intro p hp q hq hpq
  refine Marks.marked_ofAcceptance hp hq fun he => hpq fun w hw => ?_
  obtain rfl := List.eq_nil_of_length_eq_zero (Nat.le_zero.mp hw)
  rw [Dfa.acceptsAt_nil_iff alphabet.length, Dfa.acceptsAt_nil_iff alphabet.length, he]

section
include hasc hlen

theorem Covers.splits (h : Covers d alphabet k marks) (hp : p ∈ points d) (hq : q ∈ points d)
    (hpq : Apart d alphabet (k + 1) p q) {marks' : Marks (n + 1)} (hle : marks.Within marks')
    (hnew : marks'.marked p q = false) :
    Marks.splits (d.completed alphabet.length) marks' p q = true := by
  by_contra hsplits
  rw [Bool.not_eq_true] at hsplits
  have hold : Agrees d alphabet k p q := by
    by_contra hold
    rw [hle p q (h p hp q hq hold)] at hnew
    cases hnew
  refine hpq ((agrees_succ_iff hasc hlen).mpr ⟨hold.mono (Nat.zero_le k), ?_⟩)
  intro l c p' q' _ hp' hq'
  by_cases he : p' = q'
  · exact he ▸ Agrees.refl d alphabet k p'
  · by_contra hpq'
    have hmarked := hle p' q' (h p' (mem_points_of_move hp hp') q' (mem_points_of_move hq hq') hpq')
    rw [Marks.of_anyMarked_eq_false hsplits hp' hq' he] at hmarked
    cases hmarked

theorem Covers.pass (h : Covers d alphabet k marks) (hsym : marks.Symmetric) :
    Covers d alphabet (k + 1) (Marks.pass (d.completed alphabet.length) (points d) marks) := by
  intro p hp q hq hpq
  have hvisited : ∀ {p q : Fin (n + 1)} {b : Marks (n + 1)}, p ∈ points d → q ∈ points d →
      Apart d alphabet (k + 1) p q → marks.Within b →
      (if b.marked p q then b else if Marks.splits (d.completed alphabet.length) b p q then
        b.mark p q else b).marked p q = true := by
    intro p q b hp hq hpq hb
    cases hm : b.marked p q with
    | true => rwa [if_pos rfl]
    | false =>
      rw [if_neg Bool.false_ne_true, if_pos (h.splits hasc hlen hp hq hpq hb hm)]
      exact (Marks.marked_mark_self b p q).1
  have hne : p ≠ q := fun he => hpq (he ▸ Agrees.refl d alphabet _ p)
  obtain ⟨b, hb, hb' | hb'⟩ := (Marks.overPairs_visits
    (Marks.within_passStep (d.completed alphabet.length)) (points d) marks).2 p hp q hq hne
  · exact hb' p q (hvisited hp hq hpq hb)
  · rw [hsym.pass _ _ p q]
    exact hb' q p (hvisited hq hp (Std.Symm.symm p q hpq) hb)

theorem Covers.pass_eq (h : Covers d alphabet k marks) (hsteady : Steady d alphabet k)
    (honly : Marks.Only (Separated d alphabet) marks) :
    Marks.pass (d.completed alphabet.length) (points d) marks = marks := by
  refine Marks.Within.antisymm (fun p q hm => ?_) (Marks.within_pass _ _ _)
  rcases Marks.mem_of_marked_pass hm with hm | ⟨hp, hq⟩
  · exact hm
  · have hsep := honly.pass (justifies_separated hasc hlen) (points d) p q hm
    exact h p hp q hq fun hagree => hsteady.not_separated hasc hlen hp hq hagree hsep

end

/-- Passes on the way to marks that no pass changes: after each of them one letter more is covered, and
the letters that matter have not been passed. -/
structure Nears (d : Dfa n) (alphabet : Alphabet) (k : Nat) (s : Marks.Settled (n + 1)) : Prop where
  symmetric : s.marks.Symmetric
  covers : Covers d alphabet s.rounds s.marks
  only : Marks.Only (Separated d alphabet) s.marks
  le : s.rounds ≤ k

include hasc hlen

theorem nears_ofAcceptance (k checks : Nat) :
    Nears d alphabet k
      ⟨Marks.ofAcceptance (d.completed alphabet.length) (points d), 0, checks⟩ where
  symmetric := Marks.symmetric_ofAcceptance _ _
  covers := covers_ofAcceptance
  only := Marks.only_ofAcceptance (justifies_separated hasc hlen) _
  le := Nat.zero_le k

/-- A pass that changes the marks was made before the letters that matter were covered. -/
theorem Nears.pass {s : Marks.Settled (n + 1)} (h : Nears d alphabet k s)
    (hsteady : Steady d alphabet k)
    (hne : Marks.pass (d.completed alphabet.length) (points d) s.marks ≠ s.marks) (checks : Nat) :
    Nears d alphabet k ⟨Marks.pass (d.completed alphabet.length) (points d) s.marks, s.rounds + 1,
      checks⟩ where
  symmetric := h.symmetric.pass _ _
  covers := h.covers.pass hasc hlen h.symmetric
  only := h.only.pass (justifies_separated hasc hlen) _
  le := by
    refine Nat.lt_of_le_of_ne h.le fun he => hne ?_
    exact Covers.pass_eq hasc hlen (he ▸ h.covers) hsteady h.only

theorem Nears.rounds_le {budget : Nat} {s s' : Marks.Settled (n + 1)} (h : Nears d alphabet k s)
    (hsteady : Steady d alphabet k)
    (hs : Marks.settle (d.completed alphabet.length) (points d) limits budget s = .ok s') :
    s'.rounds ≤ k + 1 := by
  induction budget generalizing s with
  | zero =>
    cases hs
    exact Nat.le_succ_of_le h.le
  | succ budget ih =>
    rw [Marks.settle] at hs
    dsimp only at hs
    split at hs
    · cases hs
    · split at hs
      · cases hs
        exact Nat.succ_le_succ h.le
      · rename_i hne
        exact ih (h.pass hasc hlen hsteady hne _) hs

/-- The limit is not met if it leaves room for the first marking and one pass more than there are
letters that matter. -/
theorem Nears.exists_settle (hsteady : Steady d alphabet k)
    (hroom : (k + 2) * Marks.pairCount (points d).length ≤ limits.maxPairChecks) (budget : Nat)
    {s : Marks.Settled (n + 1)} (h : Nears d alphabet k s)
    (hchecks : s.checks ≤ (s.rounds + 1) * Marks.pairCount (points d).length) :
    ∃ s', Marks.settle (d.completed alphabet.length) (points d) limits budget s = .ok s' := by
  induction budget generalizing s with
  | zero => exact ⟨s, rfl⟩
  | succ budget ih =>
    have hnext : countSum s.checks (Marks.pairCount (points d).length) ≤
        (s.rounds + 1 + 1) * Marks.pairCount (points d).length := by
      refine (Nat.min_le_left ..).trans ?_
      rw [Nat.succ_mul]
      exact Nat.add_le_add_right hchecks _
    have hle : (s.rounds + 1 + 1) * Marks.pairCount (points d).length ≤ limits.maxPairChecks :=
      (Nat.mul_le_mul_right _ (by have := h.le; omega)).trans hroom
    rw [Marks.settle]
    dsimp only
    rw [if_neg (Nat.not_lt.mpr (hnext.trans hle))]
    split
    · exact ⟨_, rfl⟩
    · rename_i hne
      exact ih (h.pass hasc hlen hsteady hne _) hnext

theorem rounds_le_of_fill {s : Marks.Settled (n + 1)}
    (h : Marks.fill (d.completed alphabet.length) (points d) limits = .ok s) :
    s.rounds ≤ d.reachable.size := by
  obtain ⟨k, hk, hsteady⟩ := exists_steady hasc hlen
  unfold Marks.fill at h
  dsimp only at h
  split at h
  · cases h
  · exact ((nears_ofAcceptance hasc hlen k _).rounds_le hasc hlen hsteady h).trans hk

theorem exists_fill_of_le
    (hroom : (d.reachable.size + 1) * Marks.pairCount (points d).length ≤ limits.maxPairChecks) :
    ∃ s, Marks.fill (d.completed alphabet.length) (points d) limits = .ok s := by
  obtain ⟨k, hk, hsteady⟩ := exists_steady hasc hlen
  have hpairs : Marks.pairCount (points d).length ≤ limits.maxPairChecks :=
    (Nat.le_mul_of_pos_left _ (Nat.succ_pos _)).trans hroom
  unfold Marks.fill
  dsimp only
  rw [if_neg (Nat.not_lt.mpr hpairs)]
  refine Nears.exists_settle hasc hlen hsteady ?_ _ (nears_ofAcceptance hasc hlen k _) (by simp)
  exact (Nat.mul_le_mul_right _ (by omega)).trans hroom

end Minimization

namespace Marks
variable {m : Nat} {c : CompleteDfa m} {points : List (Fin m)} {limits limits' : Limits}

/-- Whoever sees to the limit, the passes are the same. -/
theorem settle_unique {budget : Nat} {s s' t : Settled m}
    (hs : settle c points limits budget s = .ok s') (ht : settle c points limits' budget s = .ok t) :
    s' = t := by
  induction budget generalizing s with
  | zero =>
    cases hs
    cases ht
    rfl
  | succ budget ih =>
    rw [settle] at hs ht
    dsimp only at hs ht
    split at hs
    · cases hs
    · split at ht
      · cases ht
      · split at hs
        · rename_i hsame
          rw [if_pos hsame] at ht
          cases hs
          cases ht
          rfl
        · rename_i hne
          rw [if_neg hne] at ht
          exact ih hs ht

theorem fill_unique {s t : Settled m} (hs : fill c points limits = .ok s)
    (ht : fill c points limits' = .ok t) : s = t := by
  unfold fill at hs ht
  dsimp only at hs ht
  split at hs
  · cases hs
  · split at ht
    · cases ht
    · exact settle_unique hs ht

/-- Two looks at every pair are the least that any marking takes. -/
theorem fill_eq_error (hfit : 2 * pairCount points.length ≤ maxCount)
    (hl : limits.maxPairChecks < 2 * pairCount points.length) :
    fill c points limits = .error (tooManyChecks limits) := by
  have hsum : countSum (pairCount points.length) (pairCount points.length) =
      2 * pairCount points.length := by
    rw [countSum, ← Nat.two_mul, Nat.min_eq_left hfit]
  unfold fill
  dsimp only
  split
  · rfl
  · rw [settle]
    dsimp only
    rw [hsum, if_pos hl]

theorem pairCount_succ {k : Nat} (h : (k + 1) * k ≤ maxCount) :
    pairCount (k + 1) = k * (k + 1) / 2 := by
  rw [pairCount, countProduct, Nat.add_sub_cancel, Nat.min_eq_left h, Nat.mul_comm]

end Marks
namespace Automaton
variable {a : Automaton} {limits : Limits} {rounds checks : Nat}

/-- The states to which words lead. -/
def reached (a : Automaton) : Set StateId := {q | ∃ w, a.LeadsTo w q}

theorem ncard_reached {n : Nat} {ix : Index n} {d : Dfa n} (hdet : a.Deterministic)
    (hr : ix.Represents a) (hd : d.Represents ix a) : a.reached.ncard = d.reachable.size := by
  have hnodup : (d.reachable.toList.map ix.idAt).Nodup := by
    rw [List.nodup_map_iff fun i j => hr.idAt_inj.mp]
    exact d.reachable.pairwise_toList.imp fun hij => Fin.ne_of_lt hij
  have hcount := ncard_eq_length (s := a.reached) hnodup fun q => by
    rw [List.mem_map]
    constructor
    · rintro ⟨w, hw⟩
      obtain ⟨i, hi, rfl⟩ := hd.exists_mem_reachable hdet hr hw
      exact ⟨i, StateSet.mem_toList.mpr hi, rfl⟩
    · rintro ⟨i, hi, rfl⟩
      exact hd.exists_leadsTo hr (StateSet.mem_toList.mp hi)
  rw [hcount, List.length_map, StateSet.size]

theorem not_mem_log_table : .pairsSettled rounds checks ∉ a.table.log := by
  unfold table
  split
  · simp
  · simp only [Logged.mem_log_bind, Logged.log_silent, List.not_mem_nil, and_false, exists_false,
      or_false]
    intro h
    obtain ⟨id, he⟩ := Index.exists_of_mem_log h
    cases he

theorem mem_log_minimize {t : Table} {d : Dfa t.rowCount} (hdet : a.Deterministic)
    (ht : a.table.outcome = .ok t) (hd : t.dfa = .ok d) :
    .pairsSettled rounds checks ∈ (a.minimize limits).log ↔
      ∃ settled, Marks.fill (d.completed t.alphabet.length) (Minimization.points d) limits =
        .ok settled ∧ settled.rounds = rounds ∧ settled.checks = checks := by
  obtain ⟨s, hs⟩ := hdet.initial
  rw [minimize, isEmpty_eq_false hs, if_neg Bool.false_ne_true]
  simp only [Logged.mem_log_bind, ht, Logged.outcome_silent, Logged.log_silent, Logged.log_emit,
    Logged.outcome_emit, not_mem_log_table, false_or, Except.ok.injEq, exists_eq_left',
    List.not_mem_nil, hd]
  cases Marks.fill (d.completed t.alphabet.length) (Minimization.points d) limits with
  | error e => simp
  | ok settled => simp [Logged.mem_log_bind, eq_comm]

/-- How far the limit on pairs looked at can be relied on. With `n` reachable states there are at most
`n` passes; every pair is looked at once by the first marking and once by each pass. So a limit of
`n + 1` looks at every pair is never met, one of less than two always is, and between limits that are
not met the result does not differ. -/
theorem minimize_pairChecks (hv : a.validate.outcome = .ok ()) {n : Nat} (hn : a.reached.ncard = n)
    (hlt : n < 2 ^ 31) :
    (∀ limits rounds checks, .pairsSettled rounds checks ∈ (a.minimize limits).log → rounds ≤ n) ∧
      (∀ limits : Limits, (n + 1) * (n * (n + 1) / 2) ≤ limits.maxPairChecks →
        ∃ m rounds checks, (a.minimize limits).outcome = .ok m ∧
          .pairsSettled rounds checks ∈ (a.minimize limits).log) ∧
      (∀ limits : Limits, limits.maxPairChecks < 2 * (n * (n + 1) / 2) →
        (a.minimize limits).outcome =
          .refuse (.resourceLimit .pairChecks limits.maxPairChecks)) ∧
      ∀ limits limits' m m', (a.minimize limits).outcome = .ok m →
        (a.minimize limits').outcome = .ok m' → m = m' := by
  have hdet := validate_eq_ok_iff.mp hv
  obtain ⟨t, ix, d, ht, hd, hr, hdr, halphabet⟩ := exists_dfa hdet
  have hlen := hdr.length
  have hasc := hr.pairwise_alphabet
  rw [← halphabet] at hlen hasc
  have hsize : d.reachable.size = n := by rw [← ncard_reached hdet hr hdr, hn]
  have hfits : (n + 1) * n ≤ maxCount := by
    have hle : (n + 1) * n ≤ 2 ^ 31 * 2 ^ 31 := Nat.mul_le_mul hlt hlt.le
    exact hle.trans (by decide)
  have hpairs : Marks.pairCount (Minimization.points d).length = n * (n + 1) / 2 := by
    rw [Minimization.length_points, hsize, Marks.pairCount_succ hfits]
  refine ⟨?_, ?_, ?_, ?_⟩
  · intro limits rounds checks hlog
    obtain ⟨settled, hfill, rfl, -⟩ := (mem_log_minimize hdet ht hd).mp hlog
    exact hsize ▸ Minimization.rounds_le_of_fill hasc hlen hfill
  · intro limits hl
    obtain ⟨settled, hfill⟩ := Minimization.exists_fill_of_le hasc hlen (by rwa [hsize, hpairs])
    obtain ⟨m, hm⟩ := exists_minimize_of_fill hdet ht hd hlen hfill
    exact ⟨m, _, _, hm, (mem_log_minimize hdet ht hd).mpr ⟨settled, hfill, rfl, rfl⟩⟩
  · intro limits hl
    have htwice : 2 * Marks.pairCount (Minimization.points d).length ≤ maxCount := by
      rw [hpairs]
      refine (Nat.mul_div_le _ 2).trans ?_
      rwa [Nat.mul_comm]
    rw [outcome_minimize hdet, ht, Outcome.ok_bind, hd, Outcome.ok_bind,
      Marks.fill_eq_error htwice (by rwa [hpairs])]
    rfl
  · intro limits limits' m m' hm hm'
    rw [outcome_minimize hdet, ht, Outcome.ok_bind, hd, Outcome.ok_bind] at hm hm'
    split at hm
    · cases hm
    · rename_i settled hfill
      split at hm'
      · cases hm'
      · rename_i settled' hfill'
        rw [Marks.fill_unique hfill hfill'] at hm
        exact Except.ok.inj (hm.symm.trans hm')

theorem ncard_reached_partialMoves : partialMoves.reached.ncard = 3 := by
  have hstart {w : List Char} {q : StateId} (h : Reads partialMoves.transitions 4 w q) :
      partialMoves.LeadsTo w q := ⟨{ id := 4, isInitial := true }, rfl, h⟩
  have hnodup : ([4, 2, 7] : List StateId).Nodup := by decide
  refine ncard_eq_length hnodup fun q => ⟨?_, fun hq => ?_⟩
  · rintro ⟨w, hw⟩
    obtain ⟨s, hs, rfl⟩ := hw.exists_state partialMoves_deterministic.wellFormed
    have hid : ∀ s ∈ partialMoves.states, s.id ≠ 9 → s.id ∈ ([4, 2, 7] : List StateId) := by decide
    refine hid s hs fun h => ?_
    obtain ⟨i, hi, hr⟩ := hw
    obtain rfl := Option.some.inj hi
    have hinto : ∀ t ∈ partialMoves.transitions, t.target = 9 → t.source = 9 := by decide
    have h49 := hr.backward (S := fun p _ => p = 9) h fun t ht _ => hinto t ht
    exact absurd h49 (by decide)
  · simp only [List.mem_cons, List.not_mem_nil, or_false] at hq
    rcases hq with rfl | rfl | rfl
    · exact ⟨[], hstart (.refl _ 4)⟩
    · exact ⟨['a'], hstart (.symbol (by decide) (.refl _ 2))⟩
    · exact ⟨['b'], hstart (.symbol (by decide) (.refl _ 7))⟩

/-- With three states in reach there are six pairs, the sink counted in: eleven looks are too few, and
twenty-four are enough. -/
theorem minimize_partialMoves_pairChecks :
    partialMoves.validate.outcome = .ok () ∧ partialMoves.reached.ncard = 3 ∧ 3 < 2 ^ 31 ∧
      (partialMoves.minimize { maxPairChecks := 11 }).outcome =
        .refuse (.resourceLimit .pairChecks 11) ∧
      ∃ m rounds checks, (partialMoves.minimize { maxPairChecks := 24 }).outcome = .ok m ∧
        .pairsSettled rounds checks ∈ (partialMoves.minimize { maxPairChecks := 24 }).log ∧
        rounds ≤ 3 := by
  have hv := validate_eq_ok_iff.mpr partialMoves_deterministic
  have hlt : 3 < 2 ^ 31 := by decide
  obtain ⟨hrounds, hfits, hshort, -⟩ := minimize_pairChecks hv ncard_reached_partialMoves hlt
  obtain ⟨m, rounds, checks, hm, hlog⟩ := hfits { maxPairChecks := 24 } (by decide)
  exact ⟨hv, ncard_reached_partialMoves, hlt, hshort { maxPairChecks := 11 } (by decide), m, rounds,
    checks, hm, hlog, hrounds _ _ _ hlog⟩

end Automaton
end FiniteAutomata
