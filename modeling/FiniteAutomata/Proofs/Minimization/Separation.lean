import FiniteAutomata.Proofs.Minimization.Classes

/-! # Marks separate

A mark is made only where one of two positions accepts, or where some symbol takes them to positions
that are marked already. So whatever can be carried back along moves holds of all marked pairs: a word
is accepted from one of them only. Positions of different classes are told apart by a word, and the
classes come in the order of their heads.
-/
namespace FiniteAutomata
namespace Marks
variable {m : Nat} {marks : Marks m} {c : CompleteDfa m} {points : List (Fin m)} {limits : Limits}
  {I : Fin m → Fin m → Prop}

/-- The relation holds wherever a mark may be made. -/
structure Justifies (c : CompleteDfa m) (I : Fin m → Fin m → Prop) : Prop where
  symm : ∀ p q, I p q → I q p
  accepting : ∀ p q, c.accepting.get p ≠ c.accepting.get q → I p q
  moves : ∀ (p q p' q' : Fin m) (k : Nat), (c.moves.get p)[k]? = some p' →
    (c.moves.get q)[k]? = some q' → I p' q' → I p q

/-- Only related positions are marked. -/
def Only (I : Fin m → Fin m → Prop) (marks : Marks m) : Prop :=
  ∀ i j, marks.marked i j = true → I i j

theorem only_blank : Only I (blank : Marks m) := by
  intro i j h
  rw [marked_blank] at h
  cases h

theorem Only.mark (h : Only I marks) (hI : Justifies c I) {p q : Fin m} (hpq : I p q) :
    Only I (marks.mark p q) := by
  intro i j hm
  rcases mem_of_marked_mark hm with hm | ⟨rfl, rfl⟩ | ⟨rfl, rfl⟩
  · exact h i j hm
  · exact hpq
  · exact hI.symm _ _ hpq

theorem exists_of_anyMarked {ps qs : List (Fin m)} (h : marks.anyMarked ps qs = true) :
    ∃ (k : Nat) (p q : Fin m), ps[k]? = some p ∧ qs[k]? = some q ∧ marks.marked p q = true := by
  induction ps generalizing qs with
  | nil => cases h
  | cons p ps ih =>
    cases qs with
    | nil => cases h
    | cons q qs =>
      rw [anyMarked, Bool.or_eq_true, Bool.and_eq_true] at h
      rcases h with ⟨-, h⟩ | h
      · exact ⟨0, p, q, rfl, rfl, h⟩
      · obtain ⟨k, p', q', hp, hq, hm⟩ := ih h
        exact ⟨k + 1, p', q', hp, hq, hm⟩

theorem only_ofAcceptance (hI : Justifies c I) (points : List (Fin m)) :
    Only I (ofAcceptance c points) := by
  refine overPairs_keeps (I := Only I) ?_ only_blank
  intro b p _ q _ hb
  split
  · rename_i hne
    exact hb.mark hI (hI.accepting p q hne)
  · exact hb

theorem Only.pass (h : Only I marks) (hI : Justifies c I) (points : List (Fin m)) :
    Only I (pass c points marks) := by
  refine overPairs_keeps (I := Only I) ?_ h
  intro b p _ q _ hb
  split
  · exact hb
  · split
    · rename_i hsplits
      obtain ⟨k, p', q', hp, hq, hm⟩ := exists_of_anyMarked hsplits
      exact hb.mark hI (hI.moves p q p' q' k hp hq (hb p' q' hm))
    · exact hb

theorem Only.settle (hI : Justifies c I) {budget : Nat} {s s' : Settled m} (h : Only I s.marks)
    (hs : settle c points limits budget s = .ok s') : Only I s'.marks := by
  induction budget generalizing s with
  | zero =>
    cases hs
    exact h
  | succ budget ih =>
    rw [Marks.settle] at hs
    dsimp only at hs
    split at hs
    · cases hs
    · split at hs
      · cases hs
        exact h.pass hI points
      · exact ih (h.pass hI points) hs

theorem only_of_fill (hI : Justifies c I) {s : Settled m} (h : fill c points limits = .ok s) :
    Only I s.marks := by
  unfold fill at h
  dsimp only at h
  split at h
  · cases h
  · exact Only.settle hI (only_ofAcceptance hI points) h

/-- The head of a class comes before all positions of later classes and is marked with them. -/
theorem pairwise_classes {R : Fin m → Fin m → Prop} (h : points.Pairwise R) :
    (classes marks points).Pairwise fun cls cls' =>
      ∀ p ∈ cls.head?, ∀ q ∈ cls', R p q ∧ marks.marked p q = true := by
  induction points using classes_induction marks with
  | nil =>
    rw [classes]
    exact List.Pairwise.nil
  | cons p rest ih =>
    obtain ⟨hp, hrest⟩ := List.pairwise_cons.mp h
    rw [classes_cons]
    refine List.pairwise_cons.mpr ⟨?_, ih (hrest.filter _)⟩
    intro cls hcls p' hp' q hq
    obtain rfl : p = p' := by simpa using hp'
    have hmem := (sublist_of_mem_classes hcls).subset hq
    obtain ⟨hq, hm⟩ := List.mem_filter.mp hmem
    exact ⟨hp q hq, hm⟩

end Marks

namespace Minimization
variable {n : Nat} {d : Dfa n} {alphabet : Alphabet} {limits : Limits}
  {settled : Marks.Settled (n + 1)} {p q : Fin (n + 1)}

/-- Some word is accepted from just one of the positions. -/
def Separated (d : Dfa n) (alphabet : Alphabet) (p q : Fin (n + 1)) : Prop :=
  ∃ w, ¬ (d.AcceptsAt alphabet p w ↔ d.AcceptsAt alphabet q w)

theorem acceptsAt_cons_of_move (hasc : alphabet.Pairwise (· < ·)) {k : Nat} {c : Char}
    {w : List Char} (hc : alphabet[k]? = some c)
    (hq : ((d.completed alphabet.length).moves.get p)[k]? = some q) :
    d.AcceptsAt alphabet p (c :: w) ↔ d.AcceptsAt alphabet q w := by
  rw [Dfa.acceptsAt_cons_iff alphabet.length]
  constructor
  · rintro ⟨k', q', hc', hq', hw⟩
    have hk := (Alphabet.column?_eq_some_iff hasc).mpr hc
    rw [(Alphabet.column?_eq_some_iff hasc).mpr hc'] at hk
    obtain rfl := Option.some.inj hk
    rwa [Option.some.inj (hq.symm.trans hq')]
  · intro hw
    exact ⟨k, q, hc, hq, hw⟩

theorem justifies_separated (hasc : alphabet.Pairwise (· < ·))
    (hlen : ∀ i : Fin n, (d.moves.get i).length = alphabet.length) :
    Marks.Justifies (d.completed alphabet.length) (Separated d alphabet) where
  symm := by
    intro p q h
    obtain ⟨w, hw⟩ := h
    exact ⟨w, fun hiff => hw hiff.symm⟩
  accepting := by
    intro p q hne
    refine ⟨[], fun hiff => hne ?_⟩
    rw [Dfa.acceptsAt_nil_iff alphabet.length, Dfa.acceptsAt_nil_iff alphabet.length] at hiff
    exact Bool.eq_iff_iff.mpr hiff
  moves := by
    intro p q p' q' k hp hq h
    obtain ⟨w, hw⟩ := h
    have hk : k < alphabet.length := by
      have hlt := (List.getElem?_eq_some_iff.mp hp).1
      cases p using Fin.lastCases with
      | last => simpa using hlt
      | cast i => simpa [hlen i] using hlt
    have hc := List.getElem?_eq_getElem hk
    refine ⟨alphabet[k] :: w, fun hiff => hw ?_⟩
    rwa [acceptsAt_cons_of_move hasc hc hp, acceptsAt_cons_of_move hasc hc hq] at hiff

/-- The classes come in the order of their heads, and their positions in order as well; a word tells
the head of each from all positions of later classes. -/
structure Separates (d : Dfa n) (alphabet : Alphabet) (classes : List (List (Fin (n + 1)))) :
    Prop where
  ascending : ∀ cls ∈ classes, cls.Pairwise (· < ·)
  heads : classes.Pairwise fun cls cls' => ∀ p ∈ cls.head?, ∀ q ∈ cls',
    p < q ∧ Separated d alphabet p q

theorem separates_stateClasses (hasc : alphabet.Pairwise (· < ·))
    (hlen : ∀ i : Fin n, (d.moves.get i).length = alphabet.length)
    (h : Marks.fill (d.completed alphabet.length) (points d) limits = .ok settled) :
    Separates d alphabet (stateClasses settled.marks (points d)) where
  ascending := by
    intro cls hcls
    have hsub := Marks.sublist_of_mem_classes (mem_stateClasses.mp hcls).1
    exact (pairwise_points d).sublist hsub
  heads := by
    have honly := Marks.only_of_fill (justifies_separated hasc hlen) h
    apply List.Pairwise.filter
    apply (Marks.pairwise_classes (pairwise_points d)).imp
    intro cls cls' hcls p hp q hq
    obtain ⟨hlt, hm⟩ := hcls p hp q hq
    exact ⟨hlt, honly p q hm⟩

variable {classes : List (List (Fin (n + 1)))}

theorem Separates.eq_of_equivalent (h : Separates d alphabet classes)
    (hp : Partitions d alphabet classes) {k l : Nat} {cls cls' : List (Fin (n + 1))}
    (hk : classes[k]? = some cls) (hl : classes[l]? = some cls') (hpk : p ∈ cls) (hql : q ∈ cls')
    (hpq : ∀ w, d.AcceptsAt alphabet p w ↔ d.AcceptsAt alphabet q w) : k = l := by
  have hlt : ∀ {k l : Nat} {cls cls' : List (Fin (n + 1))} {p q : Fin (n + 1)},
      classes[k]? = some cls → classes[l]? = some cls' → p ∈ cls → q ∈ cls' →
      (∀ w, d.AcceptsAt alphabet p w ↔ d.AcceptsAt alphabet q w) → ¬ k < l := by
    intro k l cls cls' p q hk hl hpk hql hpq hkl
    obtain ⟨hkn, rfl⟩ := List.getElem?_eq_some_iff.mp hk
    obtain ⟨hln, rfl⟩ := List.getElem?_eq_some_iff.mp hl
    have hmem := List.getElem_mem hkn
    obtain ⟨i, rest, hi⟩ := hp.headed _ hmem
    have hheads := List.pairwise_iff_getElem.mp h.heads k l hkn hln hkl
    have hhead : i.castSucc ∈ (classes[k]).head? := by
      rw [hi]
      rfl
    obtain ⟨-, w, hw⟩ := hheads _ hhead q hql
    have hi' : i.castSucc ∈ classes[k] := List.mem_of_mem_head? hhead
    exact hw ((hp.equivalent _ hmem _ hi' _ hpk w).trans (hpq w))
  apply Nat.le_antisymm
  · exact Nat.not_lt.mp (hlt hl hk hql hpk fun w => (hpq w).symm)
  · exact Nat.not_lt.mp (hlt hk hl hpk hql hpq)

end Minimization
end FiniteAutomata
