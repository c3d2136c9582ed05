import Mathlib
import FiniteAutomata.Proofs.Minimization.Residuals

/-! # Minimizing again

Nothing is left to merge in a minimized automaton, but a state of it may be out of reach: a merged
state has only the transitions of its head, and the other states in the class may have been the only
ones that moved to a state from which nothing is accepted. Minimizing again drops just this state, and
after that minimization changes nothing.
-/
namespace FiniteAutomata
variable {n : Nat} {ix : Index n} {d : Dfa n} {a m : Automaton} {limits : Limits} {w : List Char}
  {classes : List (List (Fin (n + 1)))} {i j : Fin n} {k l : Nat} {cls : List (Fin (n + 1))}

namespace Automaton

/-- Whenever two states that words lead to accept the same words, they move on the same symbols. -/
def MovesAlike (a : Automaton) : Prop :=
  ∀ u v p q, a.LeadsTo u p → a.LeadsTo v q → a.languageFrom p = a.languageFrom q →
    ∀ c r, ⟨p, r, .symbol c⟩ ∈ a.transitions → ∃ r', ⟨q, r', .symbol c⟩ ∈ a.transitions

/-- Every state moves on every symbol of the alphabet. -/
def Complete (a : Automaton) : Prop :=
  ∀ q ∈ a.states, ∀ c ∈ a.alphabet, ∃ r, ⟨q.id, r, .symbol c⟩ ∈ a.transitions

theorem Complete.movesAlike (h : a.Complete) (hw : a.WellFormed) : a.MovesAlike := by
  intro u v p q _ hq _ c r ht
  obtain ⟨s, hs, rfl⟩ := hq.exists_state hw
  exact h s hs c (mem_alphabet.mpr ⟨_, ht, rfl⟩)

theorem Live.movesAlike (h : a.Live) (hdet : a.Deterministic) : a.MovesAlike := by
  intro u v p q hp _ hpq c r ht
  obtain ⟨s, hs, hu⟩ := hp
  obtain ⟨w, hw⟩ := h _ r ⟨s, hs, hu.trans (.symbol ht (.refl _ _))⟩
  have hmem : c :: w ∈ a.languageFrom p := (acceptsFrom_cons_iff hdet.symbols).mpr ⟨r, ht, hw⟩
  rw [hpq] at hmem
  obtain ⟨r', ht', -⟩ := (acceptsFrom_cons_iff hdet.symbols).mp hmem
  exact ⟨r', ht'⟩

theorem Distinguished.movesAlike (h : a.Distinguished) (hw : a.WellFormed) : a.MovesAlike := by
  intro u v p q hp hq hpq c r ht
  obtain ⟨s, hs, rfl⟩ := hp.exists_state hw
  obtain ⟨s', hs', rfl⟩ := hq.exists_state hw
  obtain rfl := h s hs s' hs' hpq
  exact ⟨r, ht⟩

theorem Deterministic.languageFrom_target (h : a.Deterministic) {p r : StateId} {c : Char}
    (ht : ⟨p, r, .symbol c⟩ ∈ a.transitions) :
    a.languageFrom r = (a.languageFrom p).leftQuotient [c] := by
  apply Language.ext
  intro w
  constructor
  · intro hw
    exact (acceptsFrom_cons_iff h.symbols).mpr ⟨r, ht, hw⟩
  · intro hw
    obtain ⟨r', ht', hw⟩ := (acceptsFrom_cons_iff h.symbols).mp hw
    rwa [h.target_unique ht ht']

end Automaton

namespace Minimization
section
variable (hdet : a.Deterministic) (hr : ix.Represents a) (hd : d.Represents ix a)
  (hp : Partitions d ix.alphabet classes) (hsep : Separates d ix.alphabet classes)
  (hm : assemble d ix.alphabet classes = .ok m)
include hdet hr hd hp hsep hm

/-- A merged state has the transitions of each of its members where the members of a class move
alike. -/
theorem mem_transitions_of_movesAlike (halike : a.MovesAlike) (hj : a.LeadsTo w (ix.idAt j))
    (ht : ⟨ix.idAt j, ix.idAt i, .symbol c⟩ ∈ a.transitions) (hl : classOf? classes j = some l)
    (hk : classOf? classes i = some k) :
    ⟨.ofNat l, .ofNat k, .symbol c⟩ ∈ m.transitions := by
  obtain ⟨cls, hcls, hmem⟩ := hp.classOf?_eq_some_iff.mp hl
  have hcls' := List.mem_of_getElem? hcls
  obtain ⟨h, rest, rfl⟩ := hp.headed cls hcls'
  have hreach := hp.reachable _ hcls' h List.mem_cons_self
  obtain ⟨u, hu⟩ := hd.exists_leadsTo hr hreach
  have hlanguage := (hd.languageFrom_eq_iff hdet hr).mpr
    (hp.equivalent _ hcls' _ hmem _ List.mem_cons_self)
  obtain ⟨r, ht'⟩ := halike w u _ _ hj hu hlanguage c _ ht
  obtain ⟨-, i', -, rfl⟩ := hr.resolved _ ht'
  obtain ⟨column, hc⟩ := hr.exists_column ht'
  have hmove := (hd.moves h i' column c hc).mpr ht'
  obtain ⟨k', hk'⟩ := hp.exists_classOf? (mem_reachable_of_move hreach hmove)
  have htarget : a.languageFrom (ix.idAt i) = a.languageFrom (ix.idAt i') := by
    rw [hdet.languageFrom_target ht, hdet.languageFrom_target ht', hlanguage]
  obtain rfl := hsep.number_eq hdet hr hd hp hk hk' htarget
  exact (mem_transitions_assemble hm hp).mpr ⟨h, i', rest, l, k, column, c, hcls, hc, hmove, hk', rfl⟩

theorem leadsTo_assemble (halike : a.MovesAlike) (hw : a.LeadsTo w (ix.idAt i)) :
    ∃ k, classOf? classes i = some k ∧ m.LeadsTo w (.ofNat k) := by
  have hs : classes.length ≤ UInt32.size := Nat.le_trans hp.length_le hr.length_le
  -- by induction on the word from its end
  induction w using List.reverseRecOn generalizing i with
  | nil =>
    obtain ⟨k, q, hk, hid, hq⟩ := exists_filter_isInitial hm hp hs
    rw [Automaton.leadsTo_of_initial (hd.initialState? hr),
      reads_nil_iff_of_symbols hdet.symbols] at hw
    obtain rfl : i = d.start := hr.idAt_inj.mp hw
    refine ⟨k, hk, q, Automaton.initialState?_of_filter hq, ?_⟩
    rw [hid]
    exact Reads.refl _ _
  | append_singleton w c ih =>
    obtain ⟨i', hi, he⟩ := hd.exists_mem_reachable hdet hr hw
    obtain rfl := hr.idAt_inj.mp he
    obtain ⟨k, hk⟩ := hp.exists_classOf? hi
    obtain ⟨s, hinitial, hread⟩ := hw
    obtain ⟨r, r', hread, ht, hend⟩ := reads_concat_iff.mp hread
    obtain rfl := (reads_nil_iff_of_symbols hdet.symbols).mp hend
    obtain ⟨j, -, rfl, -⟩ := hr.resolved _ ht
    have hj : a.LeadsTo w (ix.idAt j) := ⟨s, hinitial, hread⟩
    obtain ⟨l, hl, q, hq, hlw⟩ := ih hj
    have ht' := mem_transitions_of_movesAlike hdet hr hd hp hsep hm halike hj ht hl hk
    exact ⟨k, hk, q, hq, hlw.trans (.symbol ht' (.refl _ _))⟩

theorem connected_assemble (halike : a.MovesAlike) : m.Connected := by
  intro q hq
  obtain ⟨k, cls, hk, rfl⟩ := (mem_states_assemble hm).mp hq
  obtain ⟨i, rest, rfl⟩ := hp.headed cls (List.mem_of_getElem? hk)
  have hi := hp.reachable _ (List.mem_of_getElem? hk) i List.mem_cons_self
  obtain ⟨w, hw⟩ := hd.exists_leadsTo hr hi
  obtain ⟨k', hk', hw⟩ := leadsTo_assemble hdet hr hd hp hsep hm halike hw
  rw [hp.classOf?_eq_some_iff.mpr ⟨_, hk, List.mem_cons_self⟩] at hk'
  obtain rfl := Option.some.inj hk'
  exact ⟨w, hw⟩

end
end Minimization

namespace Automaton

/-- What minimization makes: drawn state by state in the order of the ids, the transitions in order as
well, one state initial, and no two states accepting the same words. -/
structure Reduced (a : Automaton) : Prop where
  deterministic : a.Deterministic
  size : a.states.length ≤ UInt32.size
  drawn : ∀ (k : Nat) (q : State), a.states[k]? = some q →
    q = .onGrid .resultLayout "M" (.ofNat k) q.isInitial q.isFinal
  initial : ∀ q ∈ a.states, q.isInitial = true → a.initialState? = some q
  before : a.transitions.Pairwise Transition.Before
  distinguished : a.Distinguished

theorem Reduced.ascending (h : a.Reduced) : a.states.Pairwise fun p q => p.id < q.id := by
  rw [List.pairwise_iff_getElem]
  intro k l hk hl hkl
  rw [h.drawn k _ (List.getElem?_eq_getElem hk), h.drawn l _ (List.getElem?_eq_getElem hl)]
  exact (ofNat_lt h.size hk hl).mpr hkl

end Automaton

theorem Index.Represents.toList_states (hr : ix.Represents a)
    (h : a.states.Pairwise fun p q => p.id < q.id) : ix.states.toList = a.states := by
  have : Std.Asymm fun p q : State => p.id < q.id := ⟨fun p q h => UInt32.lt_asymm h⟩
  have hasc : ix.states.toList.Pairwise fun p q => p.id < q.id := by
    rw [List.pairwise_iff_getElem]
    intro k l hk hl hkl
    rw [Vector.length_toList] at hk hl
    exact hr.ascending ⟨k, hk⟩ ⟨l, hl⟩ hkl
  apply hasc.eq_of_mem_iff h
  intro q
  rw [hr.mem_states, Vector.mem_toList_iff, Vector.mem_iff_getElem]
  constructor
  · rintro ⟨k, hk, he⟩
    exact ⟨⟨k, hk⟩, he⟩
  · rintro ⟨i, he⟩
    exact ⟨i, i.isLt, he⟩

theorem Index.Represents.getElem?_states (hr : ix.Represents a) (ha : a.Reduced) (i : Fin n) :
    a.states[i.val]? = some (ix.states.get i) := by
  rw [← hr.toList_states ha.ascending]
  simp [Vector.get]

theorem Index.Represents.idAt_eq (hr : ix.Represents a) (ha : a.Reduced) (i : Fin n) :
    ix.idAt i = .ofNat i.val := by
  rw [Index.idAt, ha.drawn i.val _ (hr.getElem?_states ha i)]
  rfl

theorem eq_map_flatten {α : Type} {xss : List (List α)} (h : ∀ xs ∈ xss, ∃ x, xs = [x]) :
    xss = xss.flatten.map fun x => [x] := by
  induction xss with
  | nil => rfl
  | cons xs xss ih =>
    obtain ⟨x, rfl⟩ := h xs List.mem_cons_self
    rw [List.flatten_cons, List.map_append, ← ih fun ys hys => h ys (List.mem_cons_of_mem _ hys)]
    rfl

namespace Minimization

theorem getElem?_states_assemble (hm : assemble d ix.alphabet classes = .ok m) (k : Nat) :
    m.states[k]? = (classes.map members)[k]?.map fun cls => stateOf d k cls := by
  rw [(assemble_eq_ok hm).1, numberedClasses, List.getElem?_map, List.getElem?_map,
    List.getElem?_zipIdx, List.getElem?_map]
  cases classes[k]? with
  | none => rfl
  | some cls => simp

theorem stateOf_singleton (ha : a.Reduced) (hr : ix.Represents a) (hd : d.Represents ix a)
    (i : Fin n) : stateOf d i.val [i] = ix.states.get i := by
  have hmem : ix.states.get i ∈ a.states := (hr.mem_states _).mpr ⟨i, rfl⟩
  have hstart : [i].contains d.start = (ix.states.get i).isInitial := by
    rw [Bool.eq_iff_iff, List.contains_iff_mem, List.mem_singleton]
    constructor
    · intro hi
      rw [← hi]
      exact List.find?_some (hd.initialState? hr)
    · intro hinitial
      have hsome := (hd.initialState? hr).symm.trans (ha.initial _ hmem hinitial)
      exact hr.idAt_inj.mp (congrArg State.id (Option.some.inj hsome))
  have hfinal : ([i].any fun i => d.accepting.get i) = (ix.states.get i).isFinal := by
    rw [Bool.eq_iff_iff, List.any_cons, List.any_nil, Bool.or_false]
    exact hd.accepting i
  rw [stateOf, hstart, hfinal]
  exact (ha.drawn i.val _ (hr.getElem?_states ha i)).symm

theorem reduced_assemble (hdet : a.Deterministic) (hr : ix.Represents a)
    (hd : d.Represents ix a) (hp : Partitions d ix.alphabet classes)
    (hsep : Separates d ix.alphabet classes) (hm : assemble d ix.alphabet classes = .ok m) :
    m.Reduced := by
  have hs : classes.length ≤ UInt32.size := Nat.le_trans hp.length_le hr.length_le
  have hcondenses := condenses_assemble hdet hr hd hp hsep hm
  constructor
  case deterministic => exact hcondenses.deterministic
  case distinguished => exact hcondenses.distinguished
  case before => exact before_assemble hm hr.pairwise_alphabet hd.length hs
  case size =>
    have hlength := congrArg List.length (numbered_assemble hm)
    rw [Automaton.ids, List.length_map, List.length_map, List.length_range] at hlength
    rwa [hlength]
  case drawn =>
    intro k q hq
    rw [getElem?_states_assemble hm] at hq
    obtain ⟨cls, -, rfl⟩ := Option.map_eq_some_iff.mp hq
    rfl
  case initial =>
    intro q hq hinitial
    obtain ⟨k, s, -, -, hfilter⟩ := exists_filter_isInitial hm hp hs
    have hmem : q ∈ m.states.filter (·.isInitial) := List.mem_filter.mpr ⟨hq, hinitial⟩
    rw [hfilter] at hmem
    rw [List.mem_singleton.mp hmem]
    exact Automaton.initialState?_of_filter hfilter

section
variable (ha : a.Reduced) (hr : ix.Represents a) (hd : d.Represents ix a)
  (hp : Partitions d ix.alphabet classes) (hsep : Separates d ix.alphabet classes)
include ha hr hd hp hsep

/-- A class of a reduced automaton holds one state, and the sink at most besides. -/
theorem members_eq_singleton (hcls : cls ∈ classes) : ∃ i, members cls = [i] := by
  obtain ⟨i, rest, rfl⟩ := hp.headed cls hcls
  refine ⟨i, ?_⟩
  have hrest : members rest = [] := by
    rw [List.eq_nil_iff_forall_not_mem]
    intro j hj
    have hmem := List.mem_cons_of_mem i.castSucc (mem_members.mp hj)
    have hlanguage := (hd.languageFrom_eq_iff ha.deterministic hr).mpr
      (hp.equivalent _ hcls _ List.mem_cons_self _ hmem)
    have hstate := ha.distinguished _ ((hr.mem_states _).mpr ⟨i, rfl⟩) _
      ((hr.mem_states _).mpr ⟨j, rfl⟩) hlanguage
    obtain rfl : i = j := hr.idAt_inj.mp (congrArg State.id hstate)
    have hlt := (List.pairwise_cons.mp (hsep.ascending _ hcls)).1 _ (mem_members.mp hj)
    exact Fin.lt_irrefl _ hlt
  have hcons : members (i.castSucc :: rest) = i :: members rest := by simp [members]
  rw [hcons, hrest]

/-- In a reduced automaton with all states in reach the classes are its states in their order. -/
theorem map_members_eq (hall : ∀ i, i ∈ d.reachable) :
    classes.map members = (List.finRange n).map fun i => [i] := by
  have hsingle : ∀ cls ∈ classes, ∃ i, members cls = [i] := fun cls hcls =>
    members_eq_singleton ha hr hd hp hsep hcls
  have hflatten : (classes.map members).flatten = List.finRange n := by
    refine List.Pairwise.eq_of_mem_iff (r := (· < ·)) ?_ (List.pairwise_lt_finRange n) ?_
    · rw [List.pairwise_flatten, List.pairwise_map]
      constructor
      · intro ms hms
        obtain ⟨cls, hcls, rfl⟩ := List.mem_map.mp hms
        obtain ⟨i, hi⟩ := hsingle cls hcls
        rw [hi]
        exact List.pairwise_singleton _ _
      · refine hsep.heads.imp_of_mem ?_
        intro cls cls' hcls _ hheads i hi j hj
        obtain ⟨h, rest, rfl⟩ := hp.headed cls hcls
        obtain ⟨i', hi'⟩ := hsingle _ hcls
        have hhead := head?_members h rest
        rw [hi'] at hhead hi
        obtain rfl := Option.some.inj hhead
        obtain rfl := List.mem_singleton.mp hi
        exact Fin.castSucc_lt_castSucc_iff.mp (hheads _ rfl _ (mem_members.mp hj)).1
    · intro i
      obtain ⟨cls, hcls, hi⟩ := hp.covered i (hall i)
      refine iff_of_true ?_ (List.mem_finRange i)
      exact List.mem_flatten.mpr ⟨_, List.mem_map.mpr ⟨cls, hcls, rfl⟩, mem_members.mpr hi⟩
  rw [← hflatten]
  apply eq_map_flatten
  intro ms hms
  obtain ⟨cls, hcls, rfl⟩ := List.mem_map.mp hms
  exact hsingle cls hcls

theorem classOf?_eq_val (hall : ∀ i, i ∈ d.reachable) : classOf? classes i = some i.val := by
  obtain ⟨k, hk⟩ := hp.exists_classOf? (hall i)
  obtain ⟨cls, hcls, hi⟩ := hp.classOf?_eq_some_iff.mp hk
  have hmap := congrArg (fun xs => xs[k]?) (map_members_eq ha hr hd hp hsep hall)
  simp only [List.getElem?_map, hcls, Option.map_some] at hmap
  obtain ⟨j, hj, he⟩ := Option.map_eq_some_iff.mp hmap.symm
  have hmem := mem_members.mpr hi
  rw [← he] at hmem
  obtain rfl := List.mem_singleton.mp hmem
  obtain ⟨hlt, hget⟩ := List.getElem?_eq_some_iff.mp hj
  rw [List.getElem_finRange] at hget
  rw [hk, ← hget]
  rfl

theorem transitions_assemble_eq (hall : ∀ i, i ∈ d.reachable)
    (hm : assemble d ix.alphabet classes = .ok m) : m.transitions = a.transitions := by
  have hs : classes.length ≤ UInt32.size := Nat.le_trans hp.length_le hr.length_le
  have hnumber : ∀ i, classOf? classes i = some i.val := fun i =>
    classOf?_eq_val ha hr hd hp hsep hall
  have hid : ∀ i, ix.idAt i = .ofNat i.val := hr.idAt_eq ha
  have hbefore := before_assemble hm hr.pairwise_alphabet hd.length hs
  apply hbefore.eq_of_mem_iff ha.before
  intro t
  rw [mem_transitions_assemble hm hp]
  constructor
  · intro h
    obtain ⟨i, j, rest, k, l, column, c, hk, hc, hj, hl, rfl⟩ := h
    have hi := hp.classOf?_eq_some_iff.mpr ⟨_, hk, List.mem_cons_self⟩
    obtain rfl := Option.some.inj ((hnumber i).symm.trans hi)
    obtain rfl := Option.some.inj ((hnumber j).symm.trans hl)
    rw [← hid i, ← hid j]
    exact (hd.moves i j column c hc).mp hj
  · intro ht
    obtain ⟨p, q, label⟩ := t
    obtain ⟨c, rfl⟩ := ha.deterministic.symbols _ ht
    obtain ⟨i, j, rfl, rfl⟩ := hr.resolved _ ht
    obtain ⟨column, hc⟩ := hr.exists_column ht
    have hmove := (hd.moves i j column c hc).mpr ht
    obtain ⟨cls, hcls, hi⟩ := hp.classOf?_eq_some_iff.mp (hnumber i)
    obtain ⟨h, rest, rfl⟩ := hp.headed cls (List.mem_of_getElem? hcls)
    obtain ⟨i', hi'⟩ := members_eq_singleton ha hr hd hp hsep (List.mem_of_getElem? hcls)
    have hhead := head?_members h rest
    have hmem := mem_members.mpr hi
    rw [hi'] at hhead hmem
    obtain rfl := Option.some.inj hhead
    obtain rfl := List.mem_singleton.mp hmem
    refine ⟨i, j, rest, i.val, j.val, column, c, hcls, hc, hmove, hnumber j, ?_⟩
    rw [hid i, hid j]

theorem states_assemble_eq (hall : ∀ i, i ∈ d.reachable)
    (hm : assemble d ix.alphabet classes = .ok m) : m.states = a.states := by
  apply List.ext_getElem?
  intro k
  rw [getElem?_states_assemble hm, map_members_eq ha hr hd hp hsep hall, List.getElem?_map]
  by_cases hk : k < n
  · have hrange : (List.finRange n)[k]? = some ⟨k, hk⟩ := by simp [hk]
    rw [hrange, hr.getElem?_states ha ⟨k, hk⟩]
    exact congrArg some (stateOf_singleton ha hr hd ⟨k, hk⟩)
  · have hrange : (List.finRange n)[k]? = none := by simp [Nat.not_lt.mp hk]
    have hlength := congrArg List.length (hr.toList_states ha.ascending)
    rw [Vector.length_toList] at hlength
    rw [hrange, List.getElem?_eq_none (by omega)]
    rfl

end
end Minimization

namespace Automaton

theorem reduced_minimize (hdet : a.Deterministic) (h : (a.minimize limits).outcome = .ok m) :
    m.Reduced := by
  obtain ⟨n, ix, d, classes, hr, hd, hp, hsep, hm⟩ := exists_classes hdet h
  exact Minimization.reduced_assemble hdet hr hd hp hsep hm

theorem MovesAlike.connected_minimize (halike : a.MovesAlike) (hdet : a.Deterministic)
    (h : (a.minimize limits).outcome = .ok m) : m.Connected := by
  obtain ⟨n, ix, d, classes, hr, hd, hp, hsep, hm⟩ := exists_classes hdet h
  exact Minimization.connected_assemble hdet hr hd hp hsep hm halike

/-- Nothing changes where there is nothing to merge and nothing to drop. -/
theorem Reduced.minimize_eq_self (ha : a.Reduced) (hc : a.Connected)
    (h : (a.minimize limits).outcome = .ok m) : m = a := by
  obtain ⟨n, ix, d, classes, hr, hd, hp, hsep, hm⟩ := exists_classes ha.deterministic h
  have hall : ∀ i, i ∈ d.reachable := by
    intro i
    obtain ⟨w, hw⟩ := hc _ ((hr.mem_states _).mpr ⟨i, rfl⟩)
    obtain ⟨j, hj, he⟩ := hd.exists_mem_reachable ha.deterministic hr hw
    rwa [← hr.idAt_inj.mp he]
  have hstates := Minimization.states_assemble_eq ha hr hd hp hsep hall hm
  have htransitions := Minimization.transitions_assemble_eq ha hr hd hp hsep hall hm
  cases m
  cases a
  exact congrArg₂ Automaton.mk hstates htransitions

/-- Minimizing a minimized automaton changes nothing exactly if words lead to all of its states, as they
do to those from which some word is accepted. So it is where the automaton that was minimized is
complete, or where something is accepted from each of its states that words lead to. In any case a
third minimization changes nothing more. -/
theorem minimize_minimize {limits' : Limits} {m' : Automaton} (hv : a.validate.outcome = .ok ())
    (h : (a.minimize limits).outcome = .ok m) (h' : (m.minimize limits').outcome = .ok m') :
    (m' = m ↔ m.Connected) ∧
      (∀ q ∈ m.states, ∀ w ∈ m.languageFrom q.id, ∃ u, m.LeadsTo u q.id) ∧
      (a.Complete ∨ a.Live → m' = m) ∧
      ∀ limits'' m'', (m'.minimize limits'').outcome = .ok m'' → m'' = m' := by
  have hdet := validate_eq_ok_iff.mp hv
  have hm := reduced_minimize hdet h
  have hm' := reduced_minimize hm.deterministic h'
  have halike := hm.distinguished.movesAlike hm.deterministic.wellFormed
  have hconnected := halike.connected_minimize hm.deterministic h'
  refine ⟨?_, ?_, ?_, ?_⟩
  · constructor
    · intro he
      rwa [← he]
    · intro hc
      exact hm.minimize_eq_self hc h'
  · intro q hq w hw
    exact (condenses_minimize hdet h).exists_leadsTo hdet hq hw
  · intro ha
    apply hm.minimize_eq_self _ h'
    rcases ha with hcomplete | hlive
    · exact (hcomplete.movesAlike hdet.wellFormed).connected_minimize hdet h
    · exact (hlive.movesAlike hdet).connected_minimize hdet h
  · intro limits'' m'' h''
    exact hm'.minimize_eq_self hconnected h''

/-- A complete automaton with two states for one language. -/
def doubled : Automaton where
  states := [{ id := 3, isInitial := true }, { id := 5, isFinal := true }, { id := 8, isFinal := true }]
  transitions := [⟨3, 8, .symbol 'a'⟩, ⟨5, 8, .symbol 'a'⟩, ⟨8, 5, .symbol 'a'⟩]

theorem doubled_deterministic : doubled.Deterministic := by decide

theorem doubled_complete : doubled.Complete := by
  intro q hq c hc
  have halphabet : doubled.alphabet = ['a'] := rfl
  rw [halphabet, List.mem_singleton] at hc
  have hmoves : ∀ q ∈ doubled.states, ∃ t ∈ doubled.transitions,
      t.source = q.id ∧ t.label = .symbol 'a' := by decide
  obtain ⟨t, ht, hsource, hlabel⟩ := hmoves q hq
  rw [hc, ← hsource, ← hlabel]
  exact ⟨t.target, ht⟩

theorem minimize_doubled :
    ∃ m m', doubled.validate.outcome = .ok () ∧
      (doubled.minimize { maxPairChecks := maxCount }).outcome = .ok m ∧
      (m.minimize { maxPairChecks := maxCount }).outcome = .ok m' ∧ m.Connected ∧ m' = m := by
  have hl : maxCount ≤ ({ maxPairChecks := maxCount } : Limits).maxPairChecks := Nat.le_refl _
  have hv := validate_eq_ok_iff.mpr doubled_deterministic
  obtain ⟨m, hm⟩ := exists_minimize doubled_deterministic hl
  obtain ⟨m', hm'⟩ := exists_minimize (reduced_minimize doubled_deterministic hm).deterministic hl
  obtain ⟨hconnected, -, hsame, -⟩ := minimize_minimize hv hm hm'
  have he : m' = m := hsame (Or.inl doubled_complete)
  exact ⟨m, m', hv, hm, hm', hconnected.mp he, he⟩

/-- From 1 nothing is accepted, and only 2 moves there, which is merged with 0. -/
def lostSink : Automaton where
  states := [{ id := 0, isInitial := true, isFinal := true }, { id := 1 }, { id := 2, isFinal := true }]
  transitions := [⟨0, 2, .symbol 'a'⟩, ⟨2, 0, .symbol 'a'⟩, ⟨2, 1, .symbol 'b'⟩]

theorem lostSink_deterministic : lostSink.Deterministic := by decide

theorem exists_minimize_lostSink :
    ∃ m, (lostSink.minimize { maxPairChecks := maxCount }).outcome = .ok m ∧
      m.transitions = [⟨0, 0, .symbol 'a'⟩] ∧ (∃ q ∈ m.states, q.id = 1) ∧
      ∃ s, m.initialState? = some s ∧ s.id = 0 := by
  let t : Table := ⟨['a', 'b'], [0, 1, 2], #[some 2, none, none, none, some 0, some 1],
    #[true, false, true], 0⟩
  let d : Dfa 3 := ⟨0, #v[true, false, true], #v[[some 2, none], [none, none], [some 0, some 1]]⟩
  have ht : lostSink.table.outcome = .ok t := by cbv
  have hd : t.dfa = .ok d := by cbv
  have hfill : (fun s => Minimization.stateClasses s.marks (Minimization.points d)) <$>
      Marks.fill (d.completed 2) (Minimization.points d) { maxPairChecks := maxCount } =
        .ok [[0, 2], [1, 3]] := by cbv
  obtain ⟨settled, hfill, hclasses⟩ := Outcome.map_eq_ok.mp hfill
  have hm : ∃ m, Minimization.assemble d ['a', 'b'] [[0, 2], [1, 3]] = .ok m ∧
      m.transitions = [⟨0, 0, .symbol 'a'⟩] ∧ (∃ q ∈ m.states, q.id = 1) ∧
      ∃ s, m.initialState? = some s ∧ s.id = 0 :=
    ⟨_, rfl, rfl, ⟨_, List.mem_of_getElem? (i := 1) rfl, rfl⟩, _, rfl, rfl⟩
  obtain ⟨m, hm, htransitions, hstate, hinitial⟩ := hm
  rw [← hclasses] at hm
  exact ⟨m, (minimize_eq_ok lostSink_deterministic).mpr ⟨t, d, settled, ht, hd, hfill, hm⟩,
    htransitions, hstate, hinitial⟩

/-- Minimizing twice may drop a state that minimizing once has kept. -/
theorem minimize_lostSink_drops :
    ∃ m m', lostSink.validate.outcome = .ok () ∧
      (lostSink.minimize { maxPairChecks := maxCount }).outcome = .ok m ∧
      (m.minimize { maxPairChecks := maxCount }).outcome = .ok m' ∧ m' ≠ m := by
  have hl : maxCount ≤ ({ maxPairChecks := maxCount } : Limits).maxPairChecks := Nat.le_refl _
  obtain ⟨m, hm, htransitions, ⟨q, hq, hid⟩, s, hs, hstart⟩ := exists_minimize_lostSink
  have hreduced := reduced_minimize lostSink_deterministic hm
  obtain ⟨m', hm'⟩ := exists_minimize hreduced.deterministic hl
  refine ⟨m, m', validate_eq_ok_iff.mpr lostSink_deterministic, hm, hm', ?_⟩
  rintro rfl
  have halike := hreduced.distinguished.movesAlike hreduced.deterministic.wellFormed
  obtain ⟨w, hw⟩ := halike.connected_minimize hreduced.deterministic hm' q hq
  rw [leadsTo_of_initial hs, hid, hstart, htransitions] at hw
  have hround : ∀ p : StateId, p ≠ 1 → ∀ {w q}, Reads [⟨0, 0, .symbol 'a'⟩] p w q → q ≠ 1 := by
    intro p hp w q hw
    obtain ⟨ls, hpath, -⟩ := hw
    induction hpath with
    | nil => exact hp
    | cons ht _ ih =>
      obtain ⟨-, rfl, -⟩ := Transition.mk.inj (List.mem_singleton.mp ht)
      exact ih (by decide)
  exact hround 0 (by decide) hw rfl

end Automaton
end FiniteAutomata
