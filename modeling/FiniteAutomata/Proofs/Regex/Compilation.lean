import FiniteAutomata.Proofs.Simulation
import FiniteAutomata.Proofs.Regex.Fragments
import FiniteAutomata.Proofs.Regex.Parsing

/-! # Compiled patterns accept their language

Going through the postfix form of an expression puts one fragment onto the stack, which reads the words
of the expression, whatever was built before. The automaton of a pattern is such a fragment with its
entry initial and its exit final.
-/
namespace FiniteAutomata
namespace Regex

namespace Builder

/-- What was built since reads the expression from the entry of the fragment to its exit. -/
def Adds (old new : Builder) (f : Fragment) (P : RegularExpression Char) : Prop :=
  ∃ ts, new.transitions.toList = old.transitions.toList ++ ts ∧ old.size ≤ new.size ∧
    (new.size ≤ UInt32.size → Part old.size new.size ts f P)

variable {old mid new : Builder} {f g : Fragment} {P Q : RegularExpression Char}

/-- What holds of symbols, and of larger parts if it holds of the parts that they are joined from. -/
structure Compositional (C : Builder → Builder → Fragment → RegularExpression Char → Prop) :
    Prop where
  symbol : ∀ (b : Builder) (c : Char), C b (b.symbol c).2 (b.symbol c).1 (.char c)
  concat : ∀ {old mid new : Builder} {f g : Fragment} {P Q : RegularExpression Char},
    C old mid f P → C mid new g Q → C old (new.concat f g).2 (new.concat f g).1 (P * Q)
  union : ∀ {old mid new : Builder} {f g : Fragment} {P Q : RegularExpression Char},
    C old mid f P → C mid new g Q → C old (new.union f g).2 (new.union f g).1 (P + Q)
  star : ∀ {old new : Builder} {f : Fragment} {P : RegularExpression Char},
    C old new f P → C old (new.star f).2 (new.star f).1 P.star

/-- What holds of the numbers and transitions of a symbol, and of those of larger parts if it holds of
the parts that they are joined from. -/
structure Joined (C : Nat → Nat → List Transition → Fragment → RegularExpression Char → Prop) :
    Prop where
  symbol : ∀ {lo : Nat}, lo + 2 ≤ UInt32.size → ∀ c : Char,
    C lo (lo + 2) [⟨.ofNat lo, .ofNat (lo + 1), .symbol c⟩] ⟨lo, lo + 1⟩ (.char c)
  concat : ∀ {lo mid hi : Nat} {ts us : List Transition} {f g : Fragment}
    {P Q : RegularExpression Char}, C lo mid ts f P → C mid hi us g Q →
      C lo hi (ts ++ us ++ [Part.concatJoint f g]) ⟨f.entry, g.exit⟩ (P * Q)
  union : ∀ {lo mid hi : Nat} {ts us : List Transition} {f g : Fragment}
    {P Q : RegularExpression Char}, C lo mid ts f P → C mid hi us g Q → hi + 2 ≤ UInt32.size →
      C lo (hi + 2) (ts ++ us ++ Part.unionJoints hi f g) ⟨hi, hi + 1⟩ (P + Q)
  star : ∀ {lo hi : Nat} {ts : List Transition} {f : Fragment} {P : RegularExpression Char},
    C lo hi ts f P → hi + 2 ≤ UInt32.size →
      C lo (hi + 2) (ts ++ Part.starJoints hi f) ⟨hi, hi + 1⟩ P.star

theorem Joined.compositional
    {C : Nat → Nat → List Transition → Fragment → RegularExpression Char → Prop} (hC : Joined C) :
    Compositional fun old new f P =>
      ∃ ts, new.transitions.toList = old.transitions.toList ++ ts ∧ old.size ≤ new.size ∧
        (new.size ≤ UInt32.size → C old.size new.size ts f P) where
  symbol := by
    intro b c
    refine ⟨[⟨.ofNat b.size, .ofNat (b.size + 1), .symbol c⟩], ?_, Nat.le_add_right .., ?_⟩
    · simp [Builder.symbol, newPair, connect]
    · exact fun hs => hC.symbol hs c
  concat := by
    rintro old mid new f g P Q ⟨ts, hts, hle, hf⟩ ⟨us, hus, hle', hg⟩
    refine ⟨ts ++ us ++ [Part.concatJoint f g], ?_, Nat.le_trans hle hle', ?_⟩
    · simp [Builder.concat, connect, Part.concatJoint, hus, hts]
    · intro hs
      exact hC.concat (hf (Nat.le_trans hle' hs)) (hg hs)
  union := by
    rintro old mid new f g P Q ⟨ts, hts, hle, hf⟩ ⟨us, hus, hle', hg⟩
    have hle'' : new.size ≤ new.size + 2 := Nat.le_add_right ..
    refine ⟨ts ++ us ++ Part.unionJoints new.size f g, ?_,
      Nat.le_trans hle (Nat.le_trans hle' hle''), ?_⟩
    · simp [Builder.union, newPair, connect, Part.unionJoints, hus, hts]
    · intro hs
      have hs' : new.size ≤ UInt32.size := Nat.le_trans hle'' hs
      exact hC.union (hf (Nat.le_trans hle' hs')) (hg hs') hs
  star := by
    rintro old new f P ⟨ts, hts, hle, hf⟩
    have hle' : new.size ≤ new.size + 2 := Nat.le_add_right ..
    refine ⟨ts ++ Part.starJoints new.size f, ?_, Nat.le_trans hle hle', ?_⟩
    · simp [Builder.star, newPair, connect, Part.starJoints, hts]
    · intro hs
      exact hC.star (hf (Nat.le_trans hle' hs)) hs

theorem joined_part : Joined Part where
  symbol := Part.symbol
  concat := Part.concat
  union := Part.union
  star := Part.star

theorem compositional_adds : Compositional Adds := joined_part.compositional

end Builder

namespace Assembly

theorem foldlM_append_eq_ok {xs ys : Postfix} {s t : Assembly} :
    (xs ++ ys).foldlM apply s = .ok t ↔
      ∃ m, xs.foldlM apply s = .ok m ∧ ys.foldlM apply m = .ok t := by
  rw [List.foldlM_append, Outcome.bind_eq_ok]

theorem foldlM_singleton (p : Placed) (s : Assembly) : [p].foldlM apply s = s.apply p := by
  rw [List.foldlM_cons]
  cases s.apply p <;> rfl

/-- A postfix form without holes leaves a fragment on the stack of which everything holds that parts
keep when they are joined. -/
theorem exists_foldlM_of {C : Builder → Builder → Fragment → RegularExpression Char → Prop}
    (hC : Builder.Compositional C) {post : Postfix} {g : Nat} {P : RegularExpression Char}
    (h : Postfix.Writes post g P) (hg : g = 0) (s : Assembly) :
    ∃ b f, post.foldlM apply s = .ok ⟨b, f :: s.stack⟩ ∧ C s.builder b f P := by
  induction h generalizing s with
  | hole => cases hg
  | symbol p c =>
    exact ⟨_, _, by rw [foldlM_singleton]; rfl, hC.symbol s.builder c⟩
  | star p _ ih =>
    obtain ⟨b, f, hfold, hb⟩ := ih hg s
    refine ⟨_, _, foldlM_append_eq_ok.mpr ⟨_, hfold, ?_⟩, hC.star hb⟩
    rw [foldlM_singleton]
    rfl
  | concat p _ _ ih ih' =>
    obtain ⟨hg, hh⟩ := Nat.add_eq_zero_iff.mp hg
    obtain ⟨b, f, hfold, hb⟩ := ih hg s
    obtain ⟨b', f', hfold', hb'⟩ := ih' hh ⟨b, f :: s.stack⟩
    refine ⟨_, _, foldlM_append_eq_ok.mpr ⟨_, foldlM_append_eq_ok.mpr ⟨_, hfold, hfold'⟩, ?_⟩,
      hC.concat hb hb'⟩
    rw [foldlM_singleton]
    rfl
  | union p _ _ ih ih' =>
    obtain ⟨hg, hh⟩ := Nat.add_eq_zero_iff.mp hg
    obtain ⟨b, f, hfold, hb⟩ := ih hg s
    obtain ⟨b', f', hfold', hb'⟩ := ih' hh ⟨b, f :: s.stack⟩
    refine ⟨_, _, foldlM_append_eq_ok.mpr ⟨_, foldlM_append_eq_ok.mpr ⟨_, hfold, hfold'⟩, ?_⟩,
      hC.union hb hb'⟩
    rw [foldlM_singleton]
    rfl

theorem exists_foldlM {post : Postfix} {g : Nat} {P : RegularExpression Char}
    (h : Postfix.Writes post g P) (hg : g = 0) (s : Assembly) :
    ∃ b f, post.foldlM apply s = .ok ⟨b, f :: s.stack⟩ ∧ s.builder.Adds b f P :=
  exists_foldlM_of Builder.compositional_adds h hg s

/-- What one token makes of the assembly: its operands give way to one new fragment. -/
inductive Applies : Token → Assembly → Assembly → Prop where
  | symbol (b : Builder) (stack : List Fragment) (c : Char) :
    Applies (.symbol c) ⟨b, stack⟩ (push stack (b.symbol c))
  | star (b : Builder) (stack : List Fragment) (inner : Fragment) :
    Applies .star ⟨b, inner :: stack⟩ (push stack (b.star inner))
  | concat (b : Builder) (stack : List Fragment) (first second : Fragment) :
    Applies .concat ⟨b, second :: first :: stack⟩ (push stack (b.concat first second))
  | union (b : Builder) (stack : List Fragment) (left right : Fragment) :
    Applies .union ⟨b, right :: left :: stack⟩ (push stack (b.union left right))

theorem applies_of_apply {s t : Assembly} {p : Placed} (h : s.apply p = .ok t) :
    Applies p.token s t := by
  obtain ⟨b, stack⟩ := s
  obtain ⟨pos, tok⟩ := p
  cases tok with
  | symbol c =>
    cases h
    exact .symbol b stack c
  | opening => cases h
  | closing => cases h
  | star =>
    rcases stack with _ | ⟨inner, stack⟩
    · cases h
    · cases h
      exact .star b stack inner
  | concat =>
    rcases stack with _ | ⟨second, _ | ⟨first, stack⟩⟩
    · cases h
    · cases h
    · cases h
      exact .concat b stack first second
  | union =>
    rcases stack with _ | ⟨right, _ | ⟨left, stack⟩⟩
    · cases h
    · cases h
    · cases h
      exact .union b stack left right

theorem Applies.length_eq {tok : Token} {s t : Assembly} (h : Applies tok s t) :
    (tok = .star → t.stack.length = s.stack.length) ∧
    (tok = .concat ∨ tok = .union → t.stack.length + 1 = s.stack.length) := by
  cases h with
  | symbol => exact ⟨fun he => (by cases he), fun he => (by simp at he)⟩
  | star => exact ⟨fun _ => rfl, fun he => (by simp at he)⟩
  | concat => exact ⟨fun he => (by cases he), fun _ => rfl⟩
  | union => exact ⟨fun he => (by cases he), fun _ => rfl⟩

/-- Every hole lowers the stack by one fragment. -/
theorem length_of_foldlM {post : Postfix} {g : Nat} {P : RegularExpression Char}
    (h : Postfix.Writes post g P) {s t : Assembly} (hf : post.foldlM apply s = .ok t) :
    t.stack.length + g = s.stack.length + 1 := by
  induction h generalizing s t with
  | hole =>
    cases hf
    rfl
  | symbol p c =>
    rw [foldlM_singleton] at hf
    cases hf
    rfl
  | star p _ ih =>
    obtain ⟨m, hm, ht⟩ := foldlM_append_eq_ok.mp hf
    rw [foldlM_singleton] at ht
    have hlen := (applies_of_apply ht).length_eq.1 rfl
    rw [hlen, ih hm]
  | concat p _ _ ih ih' =>
    obtain ⟨m, hm, ht⟩ := foldlM_append_eq_ok.mp hf
    obtain ⟨m', hm', hm⟩ := foldlM_append_eq_ok.mp hm
    rw [foldlM_singleton] at ht
    have hlen := (applies_of_apply ht).length_eq.2 (Or.inl rfl)
    have hfirst := ih hm'
    have hsecond := ih' hm
    omega
  | union p _ _ ih ih' =>
    obtain ⟨m, hm, ht⟩ := foldlM_append_eq_ok.mp hf
    obtain ⟨m', hm', hm⟩ := foldlM_append_eq_ok.mp hm
    rw [foldlM_singleton] at ht
    have hlen := (applies_of_apply ht).length_eq.2 (Or.inr rfl)
    have hfirst := ih hm'
    have hsecond := ih' hm
    omega

/-- The fragments that wait to be joined have their states among those made. -/
def Made (s : Assembly) : Prop :=
  ∀ f ∈ s.stack, f.entry < s.builder.size ∧ f.exit < s.builder.size

theorem made_push {b : Builder} {stack : List Fragment} {built : Fragment × Builder}
    (hstack : Made ⟨b, stack⟩) (hle : b.size ≤ built.2.size)
    (hbuilt : built.1.entry < built.2.size ∧ built.1.exit < built.2.size) :
    (push stack built).Made := by
  intro f hf
  rcases List.mem_cons.mp hf with rfl | hf
  · exact hbuilt
  · obtain ⟨hentry, hexit⟩ := hstack f hf
    exact ⟨Nat.lt_of_lt_of_le hentry hle, Nat.lt_of_lt_of_le hexit hle⟩

theorem Made.applies {tok : Token} {s t : Assembly} (hs : s.Made) (h : Applies tok s t) : t.Made := by
  have hnew (b : Builder) : b.size ≤ b.size + 2 ∧ b.size < b.size + 2 ∧ b.size + 1 < b.size + 2 := by
    omega
  cases h with
  | symbol b stack c => exact made_push hs (hnew b).1 (hnew b).2
  | star b stack inner =>
    exact made_push (fun f hf => hs f (List.mem_cons_of_mem _ hf)) (hnew b).1 (hnew b).2
  | concat b stack first second =>
    have hfirst := hs first (by simp)
    have hsecond := hs second (by simp)
    exact made_push (fun f hf => hs f (by simp [hf])) (Nat.le_refl _) ⟨hfirst.1, hsecond.2⟩
  | union b stack left right =>
    exact made_push (fun f hf => hs f (by simp [hf])) (hnew b).1 (hnew b).2

theorem Made.foldlM {s t : Assembly} {post : Postfix} (hs : s.Made)
    (h : post.foldlM Assembly.apply s = .ok t) : t.Made := by
  induction post generalizing s with
  | nil =>
    cases h
    exact hs
  | cons p post ih =>
    obtain ⟨m, hm, h⟩ := Outcome.foldlM_cons_eq_ok.mp h
    exact ih (hs.applies (applies_of_apply hm)) h

end Assembly

namespace Builder
variable {b : Builder} {f : Fragment}

/-- The automaton built, with the states of one fragment as its initial and its final state. -/
def automaton (b : Builder) (f : Fragment) : Automaton :=
  { states := (List.range b.size).map fun number =>
      .onGrid .patternLayout "q" (.ofNat number) (number == f.entry) (number == f.exit)
    transitions := b.transitions.toList }

theorem flag_map {g g' : Nat → State} {change : State → State} {size number : Nat}
    (h : number < size) (hchange : change (g number) = g' number)
    (hkept : ∀ k, k ≠ number → g k = g' k) :
    flag ((List.range size).map g) number change = .ok ((List.range size).map g') := by
  rw [flag, List.getElem?_map, List.getElem?_range h, Option.map_some, Outcome.promised_some,
    Outcome.ok_bind, hchange]
  refine congrArg Except.ok (List.ext_getElem (by simp) fun k hk _ => ?_)
  rw [List.getElem_set, List.getElem_map, List.getElem_map, List.getElem_range]
  by_cases hkn : number = k
  · rw [if_pos hkn, hkn]
  · rw [if_neg hkn, hkept k (Ne.symm hkn)]

theorem finish_eq (hentry : f.entry < b.size) (hexit : f.exit < b.size) :
    b.finish f = .ok (b.automaton f) := by
  have hinitial : flag b.states f.entry (fun s => { s with isInitial := true }) =
      .ok ((List.range b.size).map fun k =>
        .onGrid .patternLayout "q" (.ofNat k) (k == f.entry) false) := by
    refine flag_map hentry ?_ fun k hk => ?_
    · rw [beq_self_eq_true]
      rfl
    · rw [beq_false_of_ne hk]
  have hfinal : flag ((List.range b.size).map fun k =>
      .onGrid .patternLayout "q" (.ofNat k) (k == f.entry) false) f.exit
        (fun s => { s with isFinal := true }) = .ok (b.automaton f).states := by
    refine flag_map hexit ?_ fun k hk => ?_
    · rw [beq_self_eq_true]
      rfl
    · rw [beq_false_of_ne hk]
  rw [finish, hinitial, Outcome.ok_bind, hfinal]
  rfl

theorem mem_states {q : State} : q ∈ (b.automaton f).states ↔ ∃ n < b.size,
    State.onGrid .patternLayout "q" (.ofNat n) (n == f.entry) (n == f.exit) = q := by
  simp [automaton]

theorem numbered_automaton (b : Builder) (f : Fragment) : (b.automaton f).Numbered b.size := by
  simp [Automaton.Numbered, Automaton.ids, automaton, State.onGrid]

theorem wellFormed_automaton (hs : b.size ≤ UInt32.size)
    (hin : ∀ t ∈ b.transitions.toList, t.source.toNat < b.size ∧ t.target.toNat < b.size) :
    (b.automaton f).WellFormed := by
  have hnumbered := numbered_automaton b f
  have hmem : ∀ p : StateId, p.toNat < b.size → p ∈ (b.automaton f).ids := by
    intro p hp
    have hid := hnumbered.mem_ids hp
    rwa [UInt32.ofNat_toNat] at hid
  exact ⟨hnumbered.nodup hs, fun t ht => ⟨hmem _ (hin t ht).1, hmem _ (hin t ht).2⟩⟩

theorem exists_initialState (hf : f.entry < b.size) :
    ∃ q, (b.automaton f).initialState? = some q ∧ q.id = .ofNat f.entry := by
  cases hq : (b.automaton f).initialState? with
  | none =>
    have hnone := List.find?_eq_none.mp hq _ (mem_states.mpr ⟨f.entry, hf, rfl⟩)
    simp [State.onGrid] at hnone
  | some q =>
    obtain ⟨n, -, rfl⟩ := mem_states.mp (List.mem_of_find?_eq_some hq)
    have hflag := List.find?_some hq
    obtain rfl : n = f.entry := by simpa [State.onGrid] using hflag
    exact ⟨_, rfl, rfl⟩

theorem acceptsFrom_automaton (hf : f.exit < b.size) {p : StateId} {w : List Char} :
    (b.automaton f).AcceptsFrom p w ↔ Reads b.transitions.toList p w (.ofNat f.exit) := by
  constructor
  · rintro ⟨q, hq, hfinal, hr⟩
    obtain ⟨n, -, rfl⟩ := mem_states.mp hq
    obtain rfl : n = f.exit := by simpa [State.onGrid] using hfinal
    exact hr
  · intro hr
    exact ⟨_, mem_states.mpr ⟨f.exit, hf, rfl⟩, by simp [State.onGrid], hr⟩

theorem exists_simulate {L : Language Char} (hs : b.size ≤ UInt32.size) (hentry : f.entry < b.size)
    (hexit : f.exit < b.size)
    (hin : ∀ t ∈ b.transitions.toList, t.source.toNat < b.size ∧ t.target.toNat < b.size)
    (hreads : ∀ w, Reads b.transitions.toList (.ofNat f.entry) w (.ofNat f.exit) ↔ w ∈ L)
    (word : String) :
    ∃ r, ((b.automaton f).simulate word).outcome = .ok r ∧
      (r.accepted = true ↔ word.toList ∈ L) := by
  obtain ⟨q, hq, hid⟩ := exists_initialState hentry
  obtain ⟨r, k, hr, hd⟩ := (b.automaton f).exists_simulate (wellFormed_automaton hs hin) hq word
  refine ⟨r, hr, ?_⟩
  rw [hd.accepted, acceptsFrom_automaton hexit, hid]
  exact hreads word.toList

end Builder

/-- Whatever is left alone on the stack can be finished. -/
theorem ofPostfix_of_foldlM {post : Postfix} {b : Builder} {f : Fragment}
    (h : post.foldlM Assembly.apply {} = .ok ⟨b, [f]⟩) : ofPostfix post = .ok (b.automaton f) := by
  have hmade : Assembly.Made {} := fun f hf => absurd hf List.not_mem_nil
  obtain ⟨hentry, hexit⟩ := hmade.foldlM h f (List.mem_singleton_self f)
  rw [ofPostfix, h]
  exact Builder.finish_eq hentry hexit

theorem automaton_eq_of_ofPostfix {post : Postfix} {b : Builder} {f : Fragment} {a : Automaton}
    (h : post.foldlM Assembly.apply {} = .ok ⟨b, [f]⟩) (ha : ofPostfix post = .ok a) :
    b.automaton f = a := Except.ok.inj ((ofPostfix_of_foldlM h).symm.trans ha)

theorem ofPostfix_eq_ok {post : Postfix} {a : Automaton} (h : ofPostfix post = .ok a) :
    ∃ b f, post.foldlM Assembly.apply {} = .ok ⟨b, [f]⟩ ∧ b.automaton f = a := by
  obtain ⟨⟨b, stack⟩, hs, ha⟩ := Outcome.bind_eq_ok.mp h
  rcases stack with _ | ⟨f, _ | ⟨g, rest⟩⟩
  · cases ha
  · exact ⟨b, f, hs, automaton_eq_of_ofPostfix hs h⟩
  · cases ha

/-- The automaton of a pattern without symbols. -/
def emptyWord : Automaton := Builder.automaton { size := 1 } ⟨0, 0⟩

theorem ofEmpty_eq : ofEmpty = .ok emptyWord := Builder.finish_eq Nat.zero_lt_one Nat.zero_lt_one

theorem exists_simulate_of_ofPostfix {post : Postfix} {P : RegularExpression Char}
    (h : Postfix.Writes post 0 P) {a : Automaton} (ha : ofPostfix post = .ok a)
    (hs : a.states.length ≤ UInt32.size) (word : String) :
    ∃ r, (a.simulate word).outcome = .ok r ∧ (r.accepted = true ↔ word.toList ∈ P.matches') := by
  obtain ⟨b, f, hfold, ts, hts, -, hpart⟩ := Assembly.exists_foldlM h rfl {}
  obtain rfl := automaton_eq_of_ofPostfix hfold ha
  have hsize : b.size ≤ UInt32.size := by simpa [Builder.automaton] using hs
  have hpart := hpart hsize
  obtain rfl : b.transitions.toList = ts := by simpa using hts
  exact Builder.exists_simulate hsize hpart.entry.2 hpart.exit.2
    (fun t ht => ⟨(hpart.inside t ht).1.2, (hpart.inside t ht).2.2⟩) hpart.reads word

theorem exists_simulate_emptyWord (word : String) :
    ∃ r, (emptyWord.simulate word).outcome = .ok r ∧
      (r.accepted = true ↔ word.toList ∈ (1 : Language Char)) := by
  refine Builder.exists_simulate (by decide) Nat.zero_lt_one Nat.zero_lt_one ?_ ?_ word
  · intro t ht
    exact absurd ht List.not_mem_nil
  · intro w
    rw [Language.mem_one]
    constructor
    · rintro ⟨ls, hp, rfl⟩
      obtain ⟨rfl, -⟩ := hp.eq_of_stuck fun t ht => absurd ht List.not_mem_nil
      rfl
    · rintro rfl
      exact Reads.refl _ _

theorem compile_eq_ok {pattern : String} {a : Automaton} (h : (compile pattern).outcome = .ok a) :
    ∃ post, Postfix.ofPattern pattern.toList = .ok post ∧
      ((post = [] ∧ a = emptyWord) ∨ (post ≠ [] ∧ ofPostfix post = .ok a)) := by
  unfold compile at h
  cases hp : Postfix.ofPattern pattern.toList with
  | error e =>
    rw [hp] at h
    cases h
  | ok post =>
    rw [hp] at h
    cases post with
    | nil =>
      exact ⟨[], rfl, Or.inl ⟨rfl, Except.ok.inj (h.symm.trans ofEmpty_eq)⟩⟩
    | cons p post =>
      rw [Logged.outcome_bind, Logged.outcome_silent] at h
      obtain ⟨b, hb, h⟩ := Outcome.bind_eq_ok.mp h
      cases h
      exact ⟨p :: post, rfl, Or.inr ⟨List.cons_ne_nil p post, hb⟩⟩

theorem holes_of_ofPostfix {post : Postfix} {g : Nat} {P : RegularExpression Char}
    (h : Postfix.Writes post g P) {a : Automaton} (ha : ofPostfix post = .ok a) : g = 0 := by
  obtain ⟨b, f, hfold, -⟩ := ofPostfix_eq_ok ha
  have hlen := Assembly.length_of_foldlM h hfold
  simpa using hlen

theorem exists_denotes {pattern : String} {a : Automaton} (h : (compile pattern).outcome = .ok a) :
    ∃ P, Denotes pattern.toList P := by
  obtain ⟨post, hpost, ⟨rfl, rfl⟩ | ⟨hne, ha⟩⟩ := compile_eq_ok h
  · exact ⟨1, (denotes_iff_of_ofPattern_nil hpost).mpr rfl⟩
  · obtain ⟨ts, g, P, htext, hsyms, hp, hw⟩ := exists_parse_of_ofPattern hpost
    have hd := hp.derives (holes_of_ofPostfix hw ha) hsyms
    rw [htext] at hd
    exact ⟨P, .derived hd⟩

theorem exists_simulate_of_denotes {pattern : String} {a : Automaton}
    (h : (compile pattern).outcome = .ok a) (hs : a.states.length ≤ UInt32.size)
    {P : RegularExpression Char} (hP : Denotes pattern.toList P) (word : String) :
    ∃ r, (a.simulate word).outcome = .ok r ∧ (r.accepted = true ↔ word.toList ∈ P.matches') := by
  obtain ⟨post, hpost, ⟨rfl, rfl⟩ | ⟨hne, ha⟩⟩ := compile_eq_ok h
  · obtain rfl := (denotes_iff_of_ofPattern_nil hpost).mp hP
    exact exists_simulate_emptyWord word
  · exact exists_simulate_of_ofPostfix (hP.writes hpost hne) ha hs word

/-- A pattern that compiles denotes something, and its automaton accepts exactly the words of whatever
the pattern denotes. A pattern with an empty postfix form denotes the empty word only. -/
theorem compile_accepts_language {pattern : String} {a : Automaton}
    (h : (compile pattern).outcome = .ok a) (hs : a.states.length < 2 ^ 32) :
    (∃ P, Denotes pattern.toList P) ∧
    (∀ P, Denotes pattern.toList P → ∀ word : String, ∃ r, (a.simulate word).outcome = .ok r ∧
      (r.accepted = true ↔ word.toList ∈ P.matches')) ∧
    (Postfix.ofPattern pattern.toList = .ok [] → ∀ word : String,
      ∃ r, (a.simulate word).outcome = .ok r ∧ (r.accepted = true ↔ word = "")) := by
  have hsize : a.states.length ≤ UInt32.size := Nat.le_of_lt hs
  refine ⟨exists_denotes h, fun P hP => exists_simulate_of_denotes h hsize hP, ?_⟩
  intro hpost word
  have hP := (denotes_iff_of_ofPattern_nil hpost).mpr rfl
  obtain ⟨r, hr, hacc⟩ := exists_simulate_of_denotes h hsize hP word
  refine ⟨r, hr, ?_⟩
  rw [hacc, RegularExpression.matches'_epsilon, Language.mem_one]
  exact String.toList_eq_nil_iff

theorem denotes_alternatives :
    Denotes "a|b*".toList (.char 'a' + (RegularExpression.char 'b').star) := by
  have ha : Derives .union ['a'] (.char 'a') :=
    .alternative (.single (.atom (.symbol ⟨rfl, by decide⟩)))
  have hb : Derives .concat ['b', '*'] (RegularExpression.char 'b').star :=
    .single (.star (.atom (.symbol ⟨rfl, by decide⟩)))
  exact .derived (.union ha hb)

theorem compile_alternatives :
    ∃ a r, (compile "a|b*").outcome = .ok a ∧ a.states.length < 2 ^ 32 ∧
      Denotes "a|b*".toList (.char 'a' + (RegularExpression.char 'b').star) ∧
      (a.simulate "bb").outcome = .ok r ∧ r.accepted = true := by
  obtain ⟨a, ha, hs⟩ : ∃ a, (compile "a|b*").outcome = .ok a ∧ a.states.length < 2 ^ 32 :=
    ⟨_, rfl, by decide⟩
  obtain ⟨-, hlang, -⟩ := compile_accepts_language ha hs
  obtain ⟨r, hr, hacc⟩ := hlang _ denotes_alternatives "bb"
  exact ⟨a, r, ha, hs, denotes_alternatives, hr, hacc.mpr (by decide)⟩

end Regex
end FiniteAutomata
