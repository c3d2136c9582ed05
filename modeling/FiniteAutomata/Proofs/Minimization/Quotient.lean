import Mathlib.Data.Fintype.Card
import FiniteAutomata.Proofs.Minimization.Classes

/-! # The quotient keeps the language

The merged states are numbered like their classes, and take over the transitions of the head of their
class. Whatever word is read, the quotient is in the class of the state that the word leads to, or has
stopped where only the sink or its equals are left.
-/
namespace FiniteAutomata

namespace Minimization
variable {n : Nat} {d : Dfa n} {alphabet : Alphabet} {classes : List (List (Fin (n + 1)))}
  {i j : Fin n} {k l : Nat}

theorem mem_members {cls : List (Fin (n + 1))} : i ∈ members cls ↔ i.castSucc ∈ cls := by
  unfold members
  rw [List.mem_filterMap]
  constructor
  · rintro ⟨p, hp, he⟩
    split at he
    · cases he
      exact hp
    · cases he
  · intro hi
    exact ⟨i.castSucc, hi, by simp⟩

theorem head?_members (i : Fin n) (rest : List (Fin (n + 1))) :
    (members (i.castSucc :: rest)).head? = some i := by
  simp [members]

theorem Partitions.number_unique (h : Partitions d alphabet classes) {cls cls' : List (Fin (n + 1))}
    (hk : classes[k]? = some cls) (hl : classes[l]? = some cls') {p : Fin (n + 1)} (hp : p ∈ cls)
    (hp' : p ∈ cls') : k = l := by
  obtain ⟨hklt, rfl⟩ := List.getElem?_eq_some_iff.mp hk
  obtain ⟨hllt, rfl⟩ := List.getElem?_eq_some_iff.mp hl
  rcases Nat.lt_trichotomy k l with hkl | hkl | hkl
  · exact absurd hp' (List.pairwise_iff_getElem.mp h.disjoint k l hklt hllt hkl hp)
  · exact hkl
  · exact absurd hp (List.pairwise_iff_getElem.mp h.disjoint l k hllt hklt hkl hp')

theorem number_inj (hs : classes.length ≤ UInt32.size) {cls cls' : List (Fin (n + 1))}
    (hk : classes[k]? = some cls) (hl : classes[l]? = some cls')
    (he : UInt32.ofNat l = UInt32.ofNat k) : l = k ∧ cls' = cls := by
  have hklt := (List.getElem?_eq_some_iff.mp hk).1
  have hllt := (List.getElem?_eq_some_iff.mp hl).1
  obtain rfl := (Automaton.ofNat_inj hs hllt hklt).mp he
  exact ⟨rfl, Option.some.inj (hl.symm.trans hk)⟩

theorem Partitions.classOf?_eq_some_iff (h : Partitions d alphabet classes) :
    classOf? classes i = some k ↔ ∃ cls, classes[k]? = some cls ∧ i.castSucc ∈ cls := by
  unfold classOf?
  rw [List.findIdx?_eq_some_iff_getElem]
  simp only [List.contains_iff_mem]
  constructor
  · rintro ⟨hk, hmem, -⟩
    exact ⟨_, List.getElem?_eq_getElem hk, hmem⟩
  · rintro ⟨cls, hk, hmem⟩
    obtain ⟨hlt, rfl⟩ := List.getElem?_eq_some_iff.mp hk
    refine ⟨hlt, hmem, ?_⟩
    intro j hj hmem'
    have hlt' := Nat.lt_trans hj hlt
    have hjk := h.number_unique (List.getElem?_eq_getElem hlt') hk hmem' hmem
    exact absurd hjk (Nat.ne_of_lt hj)

theorem Partitions.exists_classOf? (h : Partitions d alphabet classes) (hi : i ∈ d.reachable) :
    ∃ k, classOf? classes i = some k := by
  obtain ⟨cls, hcls, hmem⟩ := h.covered i hi
  obtain ⟨k, hk⟩ := List.getElem?_of_mem hcls
  exact ⟨k, h.classOf?_eq_some_iff.mpr ⟨cls, hk, hmem⟩⟩

theorem Partitions.length_le (h : Partitions d alphabet classes) : classes.length ≤ n := by
  have hheads : ∀ k : Fin classes.length, ∃ i : Fin n, i.castSucc ∈ classes[k] := by
    intro k
    obtain ⟨i, rest, he⟩ := h.headed _ (List.getElem_mem k.isLt)
    exact ⟨i, by rw [Fin.getElem_fin, he]; exact List.mem_cons_self ..⟩
  choose head hhead using hheads
  have hinj : Function.Injective head := by
    intro k l hkl
    refine Fin.ext (h.number_unique (List.getElem?_eq_getElem k.isLt)
      (List.getElem?_eq_getElem l.isLt) (hhead k) ?_)
    rw [hkl]
    exact hhead l
  have hcard := Fintype.card_le_of_injective head hinj
  rwa [Fintype.card_fin, Fintype.card_fin] at hcard

/-- The classes with their numbers, each as the list of its states. -/
def numberedClasses (classes : List (List (Fin (n + 1)))) : List (List (Fin n) × Nat) :=
  classes.zipIdx.map fun (cls, number) => (members cls, number)

theorem mem_numberedClasses {e : List (Fin n) × Nat} :
    e ∈ numberedClasses classes ↔ ∃ cls, classes[e.2]? = some cls ∧ members cls = e.1 := by
  obtain ⟨ms, k⟩ := e
  unfold numberedClasses
  rw [List.mem_map]
  constructor
  · rintro ⟨⟨cls, l⟩, hm, he⟩
    cases he
    exact ⟨cls, List.mem_zipIdx_iff_getElem?.mp hm, rfl⟩
  · rintro ⟨cls, hk, rfl⟩
    exact ⟨(cls, k), List.mem_zipIdx_iff_getElem?.mpr hk, rfl⟩

theorem map_snd_numberedClasses (classes : List (List (Fin (n + 1)))) :
    (numberedClasses classes).map Prod.snd = List.range classes.length := by
  rw [List.range_eq_range', ← List.zipIdx_map_snd 0 classes, numberedClasses, List.map_map]
  rfl

/-- The transition of a numbered class for a move of its head, if the move leads to a class. -/
def arrow? (classes : List (List (Fin (n + 1)))) (k : Nat) (e : Char × Option (Fin n)) :
    Option Transition := do
  let target ← classOf? classes (← e.2)
  return ⟨.ofNat k, .ofNat target, .symbol e.1⟩

theorem arrow?_eq_some_iff {e : Char × Option (Fin n)} {t : Transition} :
    arrow? classes k e = some t ↔ ∃ j l, e.2 = some j ∧ classOf? classes j = some l ∧
      t = ⟨.ofNat k, .ofNat l, .symbol e.1⟩ := by
  unfold arrow?
  simp only [Option.bind_eq_bind, Option.bind_eq_some_iff, Option.pure_def, Option.some.injEq]
  constructor
  · rintro ⟨j, hj, l, hl, rfl⟩
    exact ⟨j, l, hj, hl, rfl⟩
  · rintro ⟨j, l, hj, hl, rfl⟩
    exact ⟨j, hj, l, hl, rfl⟩

/-- The transitions of a numbered class. -/
def arrows (d : Dfa n) (alphabet : Alphabet) (classes : List (List (Fin (n + 1))))
    (e : List (Fin n) × Nat) : List Transition :=
  e.1.head?.elim [] fun first => (alphabet.zip (d.moves.get first)).filterMap (arrow? classes e.2)

theorem eq_arrows_of_transitionsOf {e : List (Fin n) × Nat} {ts : List Transition}
    (h : transitionsOf d alphabet classes e.2 e.1 = .ok ts) : ts = arrows d alphabet classes e := by
  obtain ⟨first, hfirst, h⟩ := Outcome.bind_eq_ok.mp h
  rw [Outcome.promised_eq_ok] at hfirst
  cases h
  rw [arrows, hfirst]
  rfl

theorem mem_arrows {e : List (Fin n) × Nat} {t : Transition} :
    t ∈ arrows d alphabet classes e ↔ ∃ (i j : Fin n) (k l : Nat) (c : Char),
      e.1.head? = some i ∧ alphabet[k]? = some c ∧ (d.moves.get i)[k]? = some (some j) ∧
      classOf? classes j = some l ∧ t = ⟨.ofNat e.2, .ofNat l, .symbol c⟩ := by
  unfold arrows
  cases hi : e.1.head? with
  | none => simp
  | some i =>
    rw [Option.elim_some, List.mem_filterMap]
    constructor
    · rintro ⟨⟨c, next⟩, hm, he⟩
      obtain ⟨k, hk⟩ := List.getElem?_of_mem hm
      obtain ⟨hc, hnext⟩ := List.getElem?_zip_eq_some.mp hk
      obtain ⟨j, l, rfl, hl, rfl⟩ := arrow?_eq_some_iff.mp he
      exact ⟨i, j, k, l, c, rfl, hc, hnext, hl, rfl⟩
    · rintro ⟨i', j, k, l, c, hi', hc, hj, hl, rfl⟩
      obtain rfl := Option.some.inj hi'
      exact ⟨(c, some j), List.mem_of_getElem? (List.getElem?_zip_eq_some.mpr ⟨hc, hj⟩),
        arrow?_eq_some_iff.mpr ⟨j, l, rfl, hl, rfl⟩⟩

theorem before_arrows (hasc : alphabet.Pairwise (· < ·))
    (hlen : ∀ i : Fin n, (d.moves.get i).length = alphabet.length) (e : List (Fin n) × Nat) :
    (arrows d alphabet classes e).Pairwise Transition.Before := by
  unfold arrows
  cases e.1.head? with
  | none => exact List.Pairwise.nil
  | some i =>
    rw [Option.elim_some, List.pairwise_filterMap]
    have hfst : ((alphabet.zip (d.moves.get i)).map Prod.fst).Pairwise (· < ·) := by
      rwa [List.map_fst_zip (Nat.le_of_eq (hlen i).symm)]
    refine (List.pairwise_map.mp hfst).imp ?_
    rintro ⟨c, next⟩ ⟨c', next'⟩ hlt t ht u hu
    obtain ⟨j, l, -, -, rfl⟩ := arrow?_eq_some_iff.mp ht
    obtain ⟨j', l', -, -, rfl⟩ := arrow?_eq_some_iff.mp hu
    exact Or.inr ⟨rfl, c, c', rfl, rfl, hlt⟩

theorem assemble_eq_ok {m : Automaton} (h : assemble d alphabet classes = .ok m) :
    m.states = (numberedClasses classes).map (fun e => stateOf d e.2 e.1) ∧
      m.transitions = (numberedClasses classes).flatMap (arrows d alphabet classes) := by
  obtain ⟨tss, htss, h⟩ := Outcome.bind_eq_ok.mp h
  cases h
  refine ⟨rfl, ?_⟩
  have htss : List.Forall₂ (· = ·)
      ((numberedClasses classes).map (arrows d alphabet classes)) tss := by
    rw [List.forall₂_map_left_iff]
    exact (Outcome.mapM_eq_ok.mp htss).imp fun e ts he => (eq_arrows_of_transitionsOf he).symm
  rw [List.forall₂_eq_eq_eq] at htss
  rw [← htss]
  rfl

theorem Partitions.exists_assemble (h : Partitions d alphabet classes) :
    ∃ m, assemble d alphabet classes = .ok m := by
  obtain ⟨tss, htss⟩ : ∃ tss, (numberedClasses classes).mapM (fun e =>
      transitionsOf d alphabet classes e.2 e.1) = .ok tss := by
    refine Outcome.exists_mapM_eq_ok ?_
    rintro ⟨ms, k⟩ he
    obtain ⟨cls, hk, rfl⟩ := mem_numberedClasses.mp he
    obtain ⟨i, rest, rfl⟩ := h.headed cls (List.mem_of_getElem? hk)
    refine ⟨_, Outcome.bind_eq_ok.mpr ⟨i, ?_, rfl⟩⟩
    rw [Outcome.promised_eq_ok]
    exact head?_members i rest
  exact ⟨_, Outcome.bind_eq_ok.mpr ⟨tss, htss, rfl⟩⟩

theorem Partitions.isInitial_iff (h : Partitions d alphabet classes)
    {cls : List (Fin (n + 1))} (hk : classes[k]? = some cls) :
    (stateOf d k (members cls)).isInitial = true ↔ classOf? classes d.start = some k := by
  rw [h.classOf?_eq_some_iff]
  have hcontains : (stateOf d k (members cls)).isInitial = true ↔ d.start.castSucc ∈ cls := by
    rw [← mem_members]
    exact List.contains_iff_mem
  rw [hcontains]
  constructor
  · exact fun hmem => ⟨cls, hk, hmem⟩
  · rintro ⟨cls', hk', hmem⟩
    rwa [Option.some.inj (hk.symm.trans hk')]

section quotient
variable {m : Automaton} (hm : assemble d alphabet classes = .ok m)
  (hp : Partitions d alphabet classes)

include hm

theorem mem_states_assemble {q : State} :
    q ∈ m.states ↔ ∃ k cls, classes[k]? = some cls ∧ stateOf d k (members cls) = q := by
  rw [(assemble_eq_ok hm).1, List.mem_map]
  constructor
  · rintro ⟨⟨ms, k⟩, he, rfl⟩
    obtain ⟨cls, hk, hms⟩ := mem_numberedClasses.mp he
    exact ⟨k, cls, hk, by rw [hms]⟩
  · rintro ⟨k, cls, hk, rfl⟩
    exact ⟨(members cls, k), mem_numberedClasses.mpr ⟨cls, hk, rfl⟩, rfl⟩

theorem numbered_assemble : m.Numbered classes.length := by
  unfold Automaton.Numbered Automaton.ids
  rw [(assemble_eq_ok hm).1, ← map_snd_numberedClasses, List.map_map, List.map_map]
  rfl

include hp

theorem mem_transitions_assemble {t : Transition} :
    t ∈ m.transitions ↔ ∃ (i j : Fin n) (rest : List (Fin (n + 1))) (k l column : Nat) (c : Char),
      classes[k]? = some (i.castSucc :: rest) ∧ alphabet[column]? = some c ∧
      (d.moves.get i)[column]? = some (some j) ∧ classOf? classes j = some l ∧
      t = ⟨.ofNat k, .ofNat l, .symbol c⟩ := by
  rw [(assemble_eq_ok hm).2, List.mem_flatMap]
  constructor
  · rintro ⟨⟨ms, k⟩, he, ht⟩
    obtain ⟨cls, hk, rfl⟩ := mem_numberedClasses.mp he
    obtain ⟨i, rest, rfl⟩ := hp.headed cls (List.mem_of_getElem? hk)
    obtain ⟨i', j, column, l, c, hi', hc, hj, hl, rfl⟩ := mem_arrows.mp ht
    obtain rfl := Option.some.inj ((head?_members i rest).symm.trans hi')
    exact ⟨i, j, rest, k, l, column, c, hk, hc, hj, hl, rfl⟩
  · rintro ⟨i, j, rest, k, l, column, c, hk, hc, hj, hl, rfl⟩
    refine ⟨(members (i.castSucc :: rest), k), mem_numberedClasses.mpr ⟨_, hk, rfl⟩, ?_⟩
    exact mem_arrows.mpr ⟨i, j, column, l, c, head?_members i rest, hc, hj, hl, rfl⟩

theorem symbols_assemble : ∀ t ∈ m.transitions, ∃ c, t.label = .symbol c := by
  intro t ht
  obtain ⟨i, j, rest, k, l, column, c, -, -, -, -, rfl⟩ := (mem_transitions_assemble hm hp).mp ht
  exact ⟨c, rfl⟩

omit hp in
theorem before_assemble (hasc : alphabet.Pairwise (· < ·))
    (hlen : ∀ i : Fin n, (d.moves.get i).length = alphabet.length)
    (hs : classes.length ≤ UInt32.size) : m.transitions.Pairwise Transition.Before := by
  rw [(assemble_eq_ok hm).2, List.pairwise_flatMap]
  refine ⟨fun e _ => before_arrows hasc hlen e, ?_⟩
  have hsnd : ((numberedClasses classes).map Prod.snd).Pairwise (· < ·) := by
    rw [map_snd_numberedClasses]
    exact List.pairwise_lt_range
  refine (List.pairwise_map.mp hsnd).imp_of_mem ?_
  intro e e' he he' hlt t ht u hu
  obtain ⟨cls, hk, -⟩ := mem_numberedClasses.mp he
  obtain ⟨cls', hk', -⟩ := mem_numberedClasses.mp he'
  obtain ⟨i, j, k, l, c, -, -, -, -, rfl⟩ := mem_arrows.mp ht
  obtain ⟨i', j', k', l', c', -, -, -, -, rfl⟩ := mem_arrows.mp hu
  have hlt' := (List.getElem?_eq_some_iff.mp hk').1
  exact Or.inl ((Automaton.ofNat_lt hs (List.getElem?_eq_some_iff.mp hk).1 hlt').mpr hlt)

omit hp in
theorem compatible_assemble (hasc : alphabet.Pairwise (· < ·))
    (hlen : ∀ i : Fin n, (d.moves.get i).length = alphabet.length)
    (hs : classes.length ≤ UInt32.size) : m.transitions.Pairwise Transition.Compatible :=
  (before_assemble hm hasc hlen hs).imp fun h => h.compatible

theorem wellFormed_assemble (hs : classes.length ≤ UInt32.size) : m.WellFormed := by
  have hnumbered := numbered_assemble hm
  refine ⟨hnumbered.nodup hs, ?_⟩
  intro t ht
  obtain ⟨i, j, rest, k, l, column, c, hk, -, -, hl, rfl⟩ := (mem_transitions_assemble hm hp).mp ht
  obtain ⟨cls, hl, -⟩ := hp.classOf?_eq_some_iff.mp hl
  exact ⟨hnumbered.mem_ids (List.getElem?_eq_some_iff.mp hk).1,
    hnumbered.mem_ids (List.getElem?_eq_some_iff.mp hl).1⟩

theorem exists_filter_isInitial (hs : classes.length ≤ UInt32.size) :
    ∃ k q, classOf? classes d.start = some k ∧ q.id = .ofNat k ∧
      m.states.filter (·.isInitial) = [q] := by
  obtain ⟨k, hk⟩ := hp.exists_classOf? (start_mem_reachable d)
  obtain ⟨cls, hcls, -⟩ := hp.classOf?_eq_some_iff.mp hk
  have hmem : stateOf d k (members cls) ∈ m.states.filter (·.isInitial) :=
    List.mem_filter.mpr ⟨(mem_states_assemble hm).mpr ⟨k, cls, hcls, rfl⟩,
      (hp.isInitial_iff hcls).mpr hk⟩
  have hsame : ∀ q ∈ m.states.filter (·.isInitial), q = stateOf d k (members cls) := by
    intro q hq
    obtain ⟨hq, hinitial⟩ := List.mem_filter.mp hq
    obtain ⟨k', cls', hcls', rfl⟩ := (mem_states_assemble hm).mp hq
    have hk' := (hp.isInitial_iff hcls').mp hinitial
    obtain rfl := Option.some.inj (hk.symm.trans hk')
    obtain rfl := Option.some.inj (hcls.symm.trans hcls')
    rfl
  have hnodup : (m.states.filter (·.isInitial)).Nodup :=
    (((numbered_assemble hm).nodup hs).of_map _).filter _
  refine ⟨k, stateOf d k (members cls), hk, rfl, ?_⟩
  rw [List.eq_replicate_of_mem hsame] at hnodup hmem ⊢
  have hle := List.nodup_replicate.mp hnodup
  have hpos := List.length_pos_of_mem hmem
  rw [List.length_replicate] at hpos
  rw [Nat.le_antisymm hle hpos, List.replicate_one]

theorem acceptsFrom_nil_assemble (hs : classes.length ≤ UInt32.size) {rest : List (Fin (n + 1))}
    (hk : classes[k]? = some (i.castSucc :: rest)) :
    m.AcceptsFrom (.ofNat k) [] ↔ d.AcceptsAt alphabet i.castSucc [] := by
  rw [Automaton.acceptsFrom_nil_iff (symbols_assemble hm hp)]
  constructor
  · rintro ⟨q, hq, hfinal, hid⟩
    obtain ⟨l, cls, hl, rfl⟩ := (mem_states_assemble hm).mp hq
    obtain ⟨rfl, rfl⟩ := number_inj hs hk hl hid
    obtain ⟨j, hj, hacc⟩ := List.any_eq_true.mp hfinal
    have hw : d.AcceptsAt alphabet j.castSucc [] := ⟨j, rfl, hacc⟩
    have hcls := List.mem_of_getElem? hk
    exact (hp.equivalent _ hcls _ (mem_members.mp hj) _ (List.mem_cons_self ..) []).mp hw
  · intro hw
    refine ⟨_, (mem_states_assemble hm).mpr ⟨k, _, hk, rfl⟩, ?_, rfl⟩
    refine List.any_eq_true.mpr ⟨i, mem_members.mpr (List.mem_cons_self ..), ?_⟩
    exact Dfa.acceptsAt_castSucc.mp hw

/-- A class goes on as its head does, to the classes that the moves of its head lead to. -/
theorem acceptsFrom_cons_assemble (hs : classes.length ≤ UInt32.size)
    {rest : List (Fin (n + 1))} {c : Char} {w : List Char}
    (hk : classes[k]? = some (i.castSucc :: rest)) :
    m.AcceptsFrom (.ofNat k) (c :: w) ↔ ∃ (column : Nat) (j : Fin n) (l : Nat),
      alphabet[column]? = some c ∧ (d.moves.get i)[column]? = some (some j) ∧
      classOf? classes j = some l ∧ m.AcceptsFrom (.ofNat l) w := by
  rw [Automaton.acceptsFrom_cons_iff (symbols_assemble hm hp)]
  constructor
  · rintro ⟨r, ht, hw⟩
    obtain ⟨i', j, rest', k', l, column, c', hk', hc, hj, hl, he⟩ :=
      (mem_transitions_assemble hm hp).mp ht
    obtain ⟨hid, rfl, hlabel⟩ := Transition.mk.inj he
    cases hlabel
    obtain ⟨rfl, hclass⟩ := number_inj hs hk hk' hid.symm
    obtain rfl := Fin.castSucc_inj.mp (List.cons.inj hclass).1
    exact ⟨column, j, l, hc, hj, hl, hw⟩
  · rintro ⟨column, j, l, hc, hj, hl, hw⟩
    refine ⟨.ofNat l, ?_, hw⟩
    exact (mem_transitions_assemble hm hp).mpr ⟨i, j, rest, k, l, column, c, hk, hc, hj, hl, rfl⟩

theorem acceptsFrom_assemble (hs : classes.length ≤ UInt32.size) {rest : List (Fin (n + 1))}
    {w : List Char} (hk : classes[k]? = some (i.castSucc :: rest)) :
    m.AcceptsFrom (.ofNat k) w ↔ d.AcceptsAt alphabet i.castSucc w := by
  induction w generalizing i k rest with
  | nil => exact acceptsFrom_nil_assemble hm hp hs hk
  | cons c w ih =>
    have htarget : ∀ {j l}, classOf? classes j = some l →
        (m.AcceptsFrom (.ofNat l) w ↔ d.Accepts alphabet j w) := by
      intro j l hl
      obtain ⟨cls, hl, hj⟩ := hp.classOf?_eq_some_iff.mp hl
      have hcls := List.mem_of_getElem? hl
      obtain ⟨i', rest', rfl⟩ := hp.headed cls hcls
      -- the target need not be the head of its class, but is equivalent to it
      have hequiv := hp.equivalent _ hcls _ (List.mem_cons_self ..) _ hj w
      exact (ih hl).trans (hequiv.trans Dfa.acceptsAt_castSucc)
    rw [acceptsFrom_cons_assemble hm hp hs hk, Dfa.acceptsAt_castSucc, Dfa.Accepts]
    constructor
    · rintro ⟨column, j, l, hc, hj, hl, hw⟩
      exact ⟨column, j, hc, hj, (htarget hl).mp hw⟩
    · rintro ⟨column, j, hc, hj, hw⟩
      have hcls := List.mem_of_getElem? hk
      have hi := hp.reachable _ hcls i (List.mem_cons_self ..)
      obtain ⟨l, hl⟩ := hp.exists_classOf? (mem_reachable_of_move hi hj)
      exact ⟨column, j, l, hc, hj, hl, (htarget hl).mpr hw⟩

end quotient

end Minimization
end FiniteAutomata
