import Mathlib.Data.List.Shortlex
import Mathlib.Data.List.Sort
import FiniteAutomata.Proofs.CanonicalOrder

/-! # First words

Words are ordered by length, and words of one length symbol by symbol. Among the words that lead to
the same power-state one is the first, and its beginnings are the first words of their power-states.
A breadth-first search that follows the symbols in ascending order therefore meets the power-states
in the order of their first words, and meets each of them by its first word.
-/
namespace FiniteAutomata

/-- The shorter word comes first; of two words of one length it is the one that has the smaller symbol
where they differ first. -/
def Precedes (v w : List Char) : Prop := List.Shortlex (· < ·) v w

theorem precedes_iff {v w : List Char} :
    Precedes v w ↔ v.length < w.length ∨ v.length = w.length ∧ v < w := List.shortlex_def

theorem wellFounded_precedes : WellFounded Precedes :=
  List.Shortlex.wf (InvImage.wf Char.toNat Nat.lt_wfRel.wf)

instance : Std.Asymm Precedes := inferInstanceAs (Std.Asymm (List.Shortlex (· < ·)))

instance : Std.Trichotomous Precedes := inferInstanceAs (Std.Trichotomous (List.Shortlex (· < ·)))

namespace Precedes
variable {u v w : List Char} {c d : Char}

theorem irrefl (w : List Char) : ¬ Precedes w w := Std.Irrefl.irrefl w

theorem asymm (h : Precedes v w) : ¬ Precedes w v := Std.Asymm.asymm v w h

theorem trans (huv : Precedes u v) (hvw : Precedes v w) : Precedes u w := by
  rw [precedes_iff] at huv hvw ⊢
  rcases huv with huv | ⟨huv, hlex⟩ <;> rcases hvw with hvw | ⟨hvw, hlex'⟩
  · exact Or.inl (Nat.lt_trans huv hvw)
  · exact Or.inl (hvw ▸ huv)
  · exact Or.inl (huv ▸ hvw)
  · exact Or.inr ⟨huv.trans hvw, List.lt_trans hlex hlex'⟩

theorem trichotomous (v w : List Char) : Precedes v w ∨ v = w ∨ Precedes w v :=
  trichotomous_of Precedes v w

theorem of_length_lt (h : v.length < w.length) : Precedes v w := precedes_iff.mpr (Or.inl h)

theorem length_le (h : Precedes v w) : v.length ≤ w.length := by
  rcases precedes_iff.mp h with hlt | ⟨heq, -⟩
  · exact Nat.le_of_lt hlt
  · exact Nat.le_of_eq heq

theorem not_nil (w : List Char) : ¬ Precedes w [] := List.not_shortlex_nil_right

theorem lt_append {v w : List Char} (hlen : v.length = w.length) (h : v < w) (s t : List Char) :
    v ++ s < w ++ t := by
  induction h with
  | nil => cases hlen
  | cons _ ih => exact List.Lex.cons (ih (Nat.succ.inj hlen))
  | rel hcd => exact List.Lex.rel hcd

theorem concat (h : Precedes v w) (c d : Char) : Precedes (v ++ [c]) (w ++ [d]) := by
  rw [precedes_iff, List.length_append, List.length_append, List.length_singleton,
    List.length_singleton]
  rcases precedes_iff.mp h with hlt | ⟨hlen, hlex⟩
  · exact Or.inl (Nat.succ_lt_succ hlt)
  · exact Or.inr ⟨congrArg Nat.succ hlen, lt_append hlen hlex _ _⟩

theorem concat_right (v : List Char) (h : c < d) : Precedes (v ++ [c]) (v ++ [d]) :=
  List.Shortlex.append_left ((List.shortlex_singleton_iff c d).mpr h) v

theorem concat_iff : Precedes (v ++ [c]) (w ++ [d]) ↔ Precedes v w ∨ v = w ∧ c < d := by
  constructor
  · intro h
    rcases trichotomous v w with hvw | rfl | hwv
    · exact Or.inl hvw
    · rcases trichotomous_of (fun c d : Char => c < d) c d with hcd | rfl | hdc
      · exact Or.inr ⟨rfl, hcd⟩
      · exact absurd h (irrefl _)
      · exact absurd h (concat_right v hdc).asymm
    · exact absurd h (hwv.concat d c).asymm
  · rintro (h | ⟨rfl, h⟩)
    · exact h.concat c d
    · exact concat_right v h

end Precedes

namespace Index
variable {n : Nat} {ix : Index n} {a : Automaton} {first : StateSet n} {v w : List Char} {c : Char}

/-- The word leads somewhere, and no word before it leads to the same power-state. -/
structure IsFirst (ix : Index n) (first : StateSet n) (w : List Char) : Prop where
  nonempty : (ix.after first w).isEmpty = false
  least : ∀ v, ix.after first v = ix.after first w → v = w ∨ Precedes w v

theorem isFirst_nil (h : first.isEmpty = false) : ix.IsFirst first [] where
  nonempty := h
  least := by
    intro v _
    cases v with
    | nil => exact Or.inl rfl
    | cons c v => exact Or.inr (.of_length_lt (Nat.succ_pos _))

theorem exists_isFirst (h : (ix.after first w).isEmpty = false) :
    ∃ v, ix.IsFirst first v ∧ ix.after first v = ix.after first w := by
  obtain ⟨v, hv, hmin⟩ := wellFounded_precedes.has_min
    {v | ix.after first v = ix.after first w} ⟨w, rfl⟩
  have he : ix.after first v = ix.after first w := hv
  refine ⟨v, ⟨he ▸ h, ?_⟩, he⟩
  intro u hu
  rcases Precedes.trichotomous u v with huv | huv | hvu
  · exact absurd huv (hmin u (hu.trans he))
  · exact Or.inl huv
  · exact Or.inr hvu

namespace IsFirst

theorem eq (hv : ix.IsFirst first v) (hw : ix.IsFirst first w)
    (h : ix.after first v = ix.after first w) : v = w := by
  rcases hw.least v h with hvw | hwv
  · exact hvw
  · rcases hv.least w h.symm with hvw | hvw
    · exact hvw.symm
    · exact absurd hvw hwv.asymm

theorem of_concat (h : ix.IsFirst first (w ++ [c])) (hr : ix.Represents a) :
    ix.IsFirst first w ∧ c ∈ ix.alphabet := by
  have hfull := h.nonempty
  rw [after_concat] at hfull
  obtain ⟨hc, hw⟩ := hr.of_step_nonempty hfull
  refine ⟨⟨hw, ?_⟩, hc⟩
  intro v hv
  have hvc : ix.after first (v ++ [c]) = ix.after first (w ++ [c]) := by
    rw [after_concat, after_concat, hv]
  rcases h.least _ hvc with he | hwv
  · exact Or.inl (List.append_cancel_right he)
  · rcases Precedes.concat_iff.mp hwv with hwv | ⟨-, hcc⟩
    · exact Or.inr hwv
    · exact absurd hcc (Char.lt_irrefl c)

end IsFirst

theorem length_le_of_isFirst {words : List (List Char)} (hasc : words.Pairwise Precedes)
    (hfirst : ∀ w ∈ words, ix.IsFirst first w) : words.length ≤ 2 ^ n := by
  have hnodup : (words.map (ix.after first)).Nodup := by
    refine List.pairwise_map.mpr (hasc.imp_of_mem ?_)
    intro v w hv hw hvw he
    rw [(hfirst v hv).eq (hfirst w hw) he] at hvw
    exact hvw.irrefl w
  have hle := StateSet.length_le_of_nodup hnodup
  rwa [List.length_map] at hle

/-- A search whose words are expanded in turn, up to the given place, has followed the symbol from the
word; from the word at the place it has followed the listed symbols. -/
def Tried (words : List (List Char)) (place : Nat) (done : List Char) (w : List Char) (c : Char) :
    Prop :=
  ∃ i, words[i]? = some w ∧ (i < place ∨ i = place ∧ c ∈ done)

/-- What a search has met are first words, in their order, and it has met all those that it has
tried. -/
structure Sweeps (ix : Index n) (first : StateSet n) (words : List (List Char)) (place : Nat)
    (done : List Char) : Prop where
  ascending : words.Pairwise Precedes
  isFirst : ∀ w ∈ words, ix.IsFirst first w
  nil : [] ∈ words
  tried : ∀ w c, w ++ [c] ∈ words → Tried words place done w c
  found : ∀ w c, Tried words place done w c → ix.IsFirst first (w ++ [c]) → w ++ [c] ∈ words
  symbols : done <+: ix.alphabet

/-- What the alphabet has before a symbol of one of its beginnings is in that beginning. -/
theorem Represents.mem_of_lt (hr : ix.Represents a) {done : List Char} (hdone : done <+: ix.alphabet)
    {d : Char} (hc : c ∈ ix.alphabet) (hd : d ∈ done) (hcd : c < d) : c ∈ done := by
  obtain ⟨rest, hrest⟩ := hdone
  have hp := hr.pairwise_alphabet
  rw [← hrest] at hc hp
  rcases List.mem_append.mp hc with hc | hc
  · exact hc
  · have hdc := (List.pairwise_append.mp hp).2.2 d hd c hc
    exact absurd hcd (Char.lt_asymm hdc)

theorem getElem?_of_prefix {α : Type} {l l' : List α} (h : l <+: l') {i : Nat} {x : α}
    (hx : l[i]? = some x) : l'[i]? = some x := by
  obtain ⟨rest, rfl⟩ := h
  rwa [List.getElem?_append_left (List.getElem?_eq_some_iff.mp hx).1]

theorem Tried.mono {words words' : List (List Char)} {place : Nat} {done done' : List Char}
    (h : Tried words place done w c) (hwords : words <+: words') (hdone : done ⊆ done') :
    Tried words' place done' w c := by
  obtain ⟨i, hi, hplace⟩ := h
  exact ⟨i, getElem?_of_prefix hwords hi, hplace.imp_right fun hc => ⟨hc.1, hdone hc.2⟩⟩

theorem sweeps_start (h : first.isEmpty = false) : Sweeps ix first [[]] 0 [] where
  ascending := List.pairwise_singleton _ _
  isFirst := by
    intro w hw
    obtain rfl := List.mem_singleton.mp hw
    exact isFirst_nil h
  nil := List.mem_singleton_self _
  tried := by simp
  found := by
    rintro w c ⟨i, -, hi⟩
    simp at hi
  symbols := List.nil_prefix

namespace Sweeps
variable {words : List (List Char)} {place : Nat} {done : List Char} {u : List Char}

theorem precedes_of_lt (h : Sweeps ix first words place done) {i j : Nat} (hv : words[i]? = some v)
    (hw : words[j]? = some w) (hij : i < j) : Precedes v w := by
  obtain ⟨hi, rfl⟩ := List.getElem?_eq_some_iff.mp hv
  obtain ⟨hj, rfl⟩ := List.getElem?_eq_some_iff.mp hw
  exact List.pairwise_iff_getElem.mp h.ascending i j hi hj hij

theorem lt_of_precedes (h : Sweeps ix first words place done) {i j : Nat} (hv : words[i]? = some v)
    (hw : words[j]? = some w) (hvw : Precedes v w) : i < j := by
  by_contra hji
  rcases Nat.eq_or_lt_of_le (Nat.not_lt.mp hji) with rfl | hji
  · rw [hv] at hw
    obtain rfl := Option.some.inj hw
    exact hvw.irrefl _
  · exact hvw.asymm (h.precedes_of_lt hw hv hji)

theorem mem_of_precedes (h : Sweeps ix first words place done) (hr : ix.Represents a)
    (hv : v ∈ words) (hw : ix.IsFirst first w) (hwv : Precedes w v) : w ∈ words := by
  induction w using List.reverseRecOn generalizing v with
  | nil => exact h.nil
  | append_singleton w c ih =>
    obtain ⟨hw', hc⟩ := hw.of_concat hr
    rcases List.eq_nil_or_concat' v with rfl | ⟨v, d, rfl⟩
    · exact absurd hwv (Precedes.not_nil _)
    · obtain ⟨i, hi, hplace⟩ := h.tried v d hv
      refine h.found w c ?_ hw
      rcases Precedes.concat_iff.mp hwv with hwv | ⟨rfl, hcd⟩
      · -- what is before an expanded word has been expanded
        obtain ⟨j, hj⟩ := List.getElem?_of_mem (ih (List.mem_of_getElem? hi) hw' hwv)
        have hji := h.lt_of_precedes hj hi hwv
        exact ⟨j, hj, Or.inl (by omega)⟩
      · refine ⟨i, hi, hplace.imp_right fun hdone => ⟨hdone.1, ?_⟩⟩
        exact hr.mem_of_lt h.symbols hc hdone.2 hcd

theorem precedes_of_notMem (h : Sweeps ix first words place done) (hr : ix.Represents a)
    (hw : ix.IsFirst first w) (hnew : w ∉ words) (hv : v ∈ words) : Precedes v w := by
  rcases Precedes.trichotomous v w with hvw | rfl | hwv
  · exact hvw
  · exact absurd hv hnew
  · exact absurd (h.mem_of_precedes hr hv hw hwv) hnew

theorem length_le (h : Sweeps ix first words place done) : words.length ≤ 2 ^ n :=
  length_le_of_isFirst h.ascending h.isFirst

theorem eq_nil_of_start (h : Sweeps ix first words 0 []) (hw : w ∈ words) : w = [] := by
  rcases List.eq_nil_or_concat' w with rfl | ⟨w, c, rfl⟩
  · rfl
  · obtain ⟨i, -, hplace⟩ := h.tried w c hw
    simp at hplace

theorem skip (h : Sweeps ix first words place done) (hu : words[place]? = some u)
    (hc : done ++ [c] <+: ix.alphabet)
    (hknown : ix.IsFirst first (u ++ [c]) → u ++ [c] ∈ words) :
    Sweeps ix first words place (done ++ [c]) where
  ascending := h.ascending
  isFirst := h.isFirst
  nil := h.nil
  tried := by
    intro w d hw
    exact (h.tried w d hw).mono List.prefix_rfl (List.subset_append_left ..)
  found := by
    rintro w d ⟨i, hi, hplace⟩ hw
    rcases hplace with hlt | ⟨rfl, hd⟩
    · exact h.found w d ⟨i, hi, Or.inl hlt⟩ hw
    · rcases List.mem_append.mp hd with hd | hd
      · exact h.found w d ⟨i, hi, Or.inr ⟨rfl, hd⟩⟩ hw
      · obtain rfl := List.mem_singleton.mp hd
        obtain rfl := Option.some.inj (hu.symm.trans hi)
        exact hknown hw
  symbols := hc

theorem skip_of_isEmpty (h : Sweeps ix first words place done) (hu : words[place]? = some u)
    (hc : done ++ [c] <+: ix.alphabet) (hempty : (ix.after first (u ++ [c])).isEmpty = true) :
    Sweeps ix first words place (done ++ [c]) := by
  refine h.skip hu hc fun hw => ?_
  have hfull := hw.nonempty
  rw [hempty] at hfull
  cases hfull

theorem skip_of_met (h : Sweeps ix first words place done) (hu : words[place]? = some u)
    (hc : done ++ [c] <+: ix.alphabet) (hv : v ∈ words)
    (he : ix.after first v = ix.after first (u ++ [c])) :
    Sweeps ix first words place (done ++ [c]) := by
  refine h.skip hu hc fun hw => ?_
  rwa [(h.isFirst v hv).eq hw he] at hv

theorem isFirst_concat (h : Sweeps ix first words place done) (hr : ix.Represents a)
    (hu : words[place]? = some u) (hc : done ++ [c] <+: ix.alphabet)
    (hfull : (ix.after first (u ++ [c])).isEmpty = false)
    (hnew : ∀ w ∈ words, ix.after first w ≠ ix.after first (u ++ [c])) :
    ix.IsFirst first (u ++ [c]) := by
  obtain ⟨v, hv, he⟩ := exists_isFirst hfull
  have hvnew : v ∉ words := fun hmem => hnew v hmem he
  rcases hv.least _ he.symm with hvu | hvu
  · rwa [hvu]
  · exfalso
    apply hvnew
    rcases List.eq_nil_or_concat' v with rfl | ⟨v, d, rfl⟩
    · exact h.nil
    · obtain ⟨hv', hd⟩ := hv.of_concat hr
      refine h.found v d ?_ hv
      rcases Precedes.concat_iff.mp hvu with hvu | ⟨rfl, hdc⟩
      · obtain ⟨j, hj⟩ := List.getElem?_of_mem
          (h.mem_of_precedes hr (List.mem_of_getElem? hu) hv' hvu)
        exact ⟨j, hj, Or.inl (h.lt_of_precedes hj hu hvu)⟩
      · have hmem := hr.mem_of_lt hc hd (List.mem_concat_self ..) hdc
        rcases List.mem_append.mp hmem with hmem | hmem
        · exact ⟨place, hu, Or.inr ⟨rfl, hmem⟩⟩
        · obtain rfl := List.mem_singleton.mp hmem
          exact absurd hdc (Char.lt_irrefl d)

theorem add (h : Sweeps ix first words place done) (hr : ix.Represents a)
    (hu : words[place]? = some u) (hc : done ++ [c] <+: ix.alphabet)
    (hfull : (ix.after first (u ++ [c])).isEmpty = false)
    (hnew : ∀ w ∈ words, ix.after first w ≠ ix.after first (u ++ [c])) :
    Sweeps ix first (words ++ [u ++ [c]]) place (done ++ [c]) where
  ascending := by
    refine List.pairwise_append.mpr ⟨h.ascending, List.pairwise_singleton _ _, ?_⟩
    intro v hv w hw
    obtain rfl := List.mem_singleton.mp hw
    have hfirst := h.isFirst_concat hr hu hc hfull hnew
    exact h.precedes_of_notMem hr hfirst (fun hmem => hnew _ hmem rfl) hv
  isFirst := by
    intro v hv
    rcases List.mem_append.mp hv with hv | hv
    · exact h.isFirst v hv
    · obtain rfl := List.mem_singleton.mp hv
      exact h.isFirst_concat hr hu hc hfull hnew
  nil := List.mem_append_left _ h.nil
  tried := by
    intro w d hwd
    rcases List.mem_append.mp hwd with hwd | hwd
    · exact (h.tried w d hwd).mono (List.prefix_append ..) (List.subset_append_left ..)
    · obtain ⟨rfl, hd⟩ := List.append_inj' (List.mem_singleton.mp hwd) rfl
      obtain rfl := List.singleton_inj.mp hd
      exact ⟨place, getElem?_of_prefix (List.prefix_append ..) hu,
        Or.inr ⟨rfl, List.mem_concat_self ..⟩⟩
  found := by
    rintro w d ⟨i, hi, hplace⟩ hwd
    have hlt : i < words.length := by
      have := (List.getElem?_eq_some_iff.mp hu).1
      omega
    rw [List.getElem?_append_left hlt] at hi
    rcases hplace with hlt | ⟨rfl, hd⟩
    · exact List.mem_append_left _ (h.found w d ⟨i, hi, Or.inl hlt⟩ hwd)
    · rcases List.mem_append.mp hd with hd | hd
      · exact List.mem_append_left _ (h.found w d ⟨i, hi, Or.inr ⟨rfl, hd⟩⟩ hwd)
      · obtain rfl := List.mem_singleton.mp hd
        obtain rfl := Option.some.inj (hu.symm.trans hi)
        exact List.mem_concat_self ..
  symbols := hc

/-- When all symbols have been followed from a word, it is the turn of the next one. -/
theorem turn (h : Sweeps ix first words place ix.alphabet) (hr : ix.Represents a) :
    Sweeps ix first words (place + 1) [] where
  ascending := h.ascending
  isFirst := h.isFirst
  nil := h.nil
  tried := by
    intro w c hw
    obtain ⟨i, hi, hplace⟩ := h.tried w c hw
    exact ⟨i, hi, Or.inl (by omega)⟩
  found := by
    rintro w c ⟨i, hi, hplace⟩ hw
    refine h.found w c ⟨i, hi, ?_⟩ hw
    have hc := (hw.of_concat hr).2
    rcases hplace with hlt | ⟨-, hc'⟩
    · exact (Nat.lt_or_eq_of_le (Nat.le_of_lt_succ hlt)).imp_right fun he => ⟨he, hc⟩
    · exact absurd hc' List.not_mem_nil
  symbols := List.nil_prefix

/-- The beginnings of a first word that has not been met lead to one that has not been expanded. -/
theorem exists_unexpanded (h : Sweeps ix first words place done) (hr : ix.Represents a)
    (hw : ix.IsFirst first w) (hnew : w ∉ words) :
    ∃ i v, words[i]? = some v ∧ place ≤ i ∧ v <+: w ∧ v.length < w.length := by
  induction w using List.reverseRecOn with
  | nil => exact absurd h.nil hnew
  | append_singleton w c ih =>
    obtain ⟨hw', -⟩ := hw.of_concat hr
    by_cases hmem : w ∈ words
    · obtain ⟨i, hi⟩ := List.getElem?_of_mem hmem
      refine ⟨i, w, hi, ?_, List.prefix_append _ _, by simp⟩
      by_contra hlt
      exact hnew (h.found w c ⟨i, hi, Or.inl (Nat.not_le.mp hlt)⟩ hw)
    · obtain ⟨i, v, hi, hplace, hv, hlen⟩ := ih hw' hmem
      exact ⟨i, v, hi, hplace, hv.trans (List.prefix_append _ _), by simp; omega⟩

end Sweeps
end Index

namespace Automaton
variable {n : Nat} {ix : Index n} {a : Automaton} {i : Fin n} {v w : List Char} {q : StateId}

/-- The states to which paths from the initial state read the word. -/
def powerState (a : Automaton) (w : List Char) : Set StateId := {q | a.LeadsTo w q}

/-- The word leads to exactly these states, and no word before it does. -/
def FirstInto (a : Automaton) (S : Set StateId) (w : List Char) : Prop :=
  a.powerState w = S ∧ ∀ v, a.powerState v = S → v = w ∨ Precedes w v

theorem mem_powerState (hr : ix.Represents a) (hi : ix.initial = some i) :
    q ∈ a.powerState w ↔ q ∈ ix.ids (ix.after (ix.start i) w) := by
  rw [hr.mem_ids_after_start]
  exact leadsTo_of_initial (initialState?_of_initial hr hi)

theorem powerState_eq_iff (hr : ix.Represents a) (hi : ix.initial = some i) :
    a.powerState v = a.powerState w ↔
      ix.after (ix.start i) v = ix.after (ix.start i) w := by
  constructor
  · intro he
    refine StateSet.ext fun j => ?_
    have hj : ix.idAt j ∈ a.powerState v ↔ ix.idAt j ∈ a.powerState w := by rw [he]
    rwa [mem_powerState hr hi, mem_powerState hr hi, hr.mem_ids_after_start, hr.mem_ids_after_start,
      ← hr.mem_after_start, ← hr.mem_after_start] at hj
  · intro he
    refine Set.ext fun q => ?_
    rw [mem_powerState hr hi, mem_powerState hr hi, he]

theorem powerState_nonempty_iff (hr : ix.Represents a) (hi : ix.initial = some i) :
    (a.powerState w).Nonempty ↔ (ix.after (ix.start i) w).isEmpty = false :=
  (isEmpty_after_eq_false_iff hr hi).symm

theorem isFirst_iff (hr : ix.Represents a) (hi : ix.initial = some i) :
    ix.IsFirst (ix.start i) w ↔ (a.powerState w).Nonempty ∧ a.FirstInto (a.powerState w) w := by
  rw [powerState_nonempty_iff hr hi]
  constructor
  · intro h
    exact ⟨h.nonempty, rfl, fun v hv => h.least v ((powerState_eq_iff hr hi).mp hv)⟩
  · rintro ⟨hne, -, hleast⟩
    exact ⟨hne, fun v hv => hleast v ((powerState_eq_iff hr hi).mpr hv)⟩

end Automaton
end FiniteAutomata
