import FiniteAutomata.Proofs.Determinization
import FiniteAutomata.Proofs.Drawing
import FiniteAutomata.Proofs.Minimization.Minimize
import FiniteAutomata.Proofs.Regex.Verdict

/-! # Pipes

Operations are chained in memory, or by pipes, through which the automata between them go as texts. It
makes no difference. What an operation returns is drawn on a grid and has no symbol that spells epsilon,
so it comes out of a pipe as it went in; and what a chain starts with is at most drawn elsewhere when it
comes out of the first pipe, which the first operation does not look at.
-/
namespace FiniteAutomata

/-- An operation that takes an automaton to another. -/
inductive Stage where
  | simplify
  | convert
  | minimize

namespace Stage

def apply (limits : Limits) : Stage → Automaton → Outcome Automaton
  | simplify, a => (a.simplify limits).outcome
  | convert, a => (a.toDeterministic limits).outcome
  | minimize, a => (a.minimize limits).outcome

/-- Applies one stage after the other, each to what is carried to it. If one fails, its place in the
chain is told. -/
def chain (limits : Limits) (carry : Automaton → Outcome Automaton) :
    Nat → List Stage → Automaton → Except (Nat × Failure) Automaton
  | _, [], a => .ok a
  | place, stage :: rest, a =>
    match carry a >>= stage.apply limits with
    | .error f => .error (place, f)
    | .ok b => chain limits carry (place + 1) rest b

end Stage

namespace Automaton

/-- Through a pipe an automaton goes as text. -/
def pipe (a : Automaton) : Outcome Automaton := read a.write

/-- No symbol of the automaton spells epsilon. -/
def Unreserved (a : Automaton) : Prop := ∀ t ∈ a.transitions, t.unreserved = t

/-- The automaton has at most so many states, and each stands in the cell of its number, on one of the
grids of the program. -/
structure Drawn (bound : Nat) (a : Automaton) : Prop where
  length : a.states.length ≤ bound
  lt : ∀ s ∈ a.states, s.id.toNat < bound
  placed : ∀ s ∈ a.states, ∃ g ∈ Grid.layouts, s.coordinates = g.corner s.id.toNat ++ [30]

end Automaton

theorem exists_forall₂ {α β : Type} {R : α → β → Prop} {xs : List α} (h : ∀ x ∈ xs, ∃ y, R x y) :
    ∃ ys, List.Forall₂ R xs ys := by
  induction xs with
  | nil => exact ⟨[], .nil⟩
  | cons x xs ih =>
    obtain ⟨⟨y, hy⟩, hxs⟩ := List.forall_mem_cons.mp h
    obtain ⟨ys, hys⟩ := ih hxs
    exact ⟨y :: ys, .cons hy hys⟩

theorem Transition.unreserved_of_symbol {source target : StateId} {c : Char} (he : c ≠ 'e')
    (hε : c ≠ 'ε') : (⟨source, target, .symbol c⟩ : Transition).unreserved = ⟨source, target, .symbol c⟩ :=
  unreserved_eq_self_iff.mpr ⟨fun h => he (Label.symbol.inj h), fun h => hε (Label.symbol.inj h)⟩

namespace Automaton
variable {a b : Automaton} {bound : Nat}

theorem Redrawn.refl (a : Automaton) : a.Redrawn a :=
  ⟨List.forall₂_same.mpr fun _ _ => ⟨rfl, rfl, rfl, rfl⟩, rfl⟩

/-- What comes out of a pipe is the automaton that went in, drawn where its numerals say. -/
theorem exists_pipe (hlabels : a.Unreserved)
    (hread : ∀ s ∈ a.states, ∀ x ∈ s.coordinates, ∃ y, FiniteAutomata.Rereads x y) :
    ∃ b, a.pipe = .ok b ∧ a.Redrawn b := by
  have hstates : ∀ s ∈ a.states, ∃ t : State, s.Rereads t := by
    intro s hs
    obtain ⟨x, hx⟩ := hread s hs s.x (by simp [State.coordinates])
    obtain ⟨y, hy⟩ := hread s hs s.y (by simp [State.coordinates])
    obtain ⟨radius, hradius⟩ := hread s hs s.radius (by simp [State.coordinates])
    exact ⟨{ s with x, y, radius }, ⟨rfl, rfl, rfl, rfl⟩, hx, hy, hradius⟩
  obtain ⟨ts, hts⟩ := exists_forall₂ hstates
  have htransitions : a.transitions = a.transitions.map Transition.unreserved :=
    (congrArg Automaton.transitions (unreserved_eq_self_iff.mpr hlabels)).symm
  exact ⟨⟨ts, a.transitions⟩, Rereads.read_write_eq ⟨hts, htransitions⟩,
    hts.imp fun _ _ h => h.toTwins, rfl⟩

theorem Drawn.isFinite (h : a.Drawn bound) : ∀ s ∈ a.states, ∀ x ∈ s.coordinates, x.isFinite = true := by
  intro s hs x hx
  obtain ⟨g, hg, hplaced⟩ := h.placed s hs
  rw [hplaced] at hx
  rcases List.mem_append.mp hx with hx | hx
  · exact Grid.isFinite_layouts hg (Nat.lt_trans s.id.toNat_lt (by decide)) x hx
  · rw [List.mem_singleton.mp hx]
    rfl

/-- If the numerals of its cells are read back as they were, what the program drew comes out of a pipe as
it went in. -/
theorem Drawn.pipe_eq (h : a.Drawn bound) (hlabels : a.Unreserved)
    (hgrid : ∀ g ∈ Grid.layouts, ∀ k < min UInt32.size bound, ∀ x ∈ g.corner k, x.isFinite = true →
      (Numeral.ofFloat x).float? = some x) : a.pipe = .ok a := by
  have hradius : (Numeral.ofFloat 30).float? = some 30 := by decide +kernel
  refine Rereads.read_write_eq ⟨List.forall₂_same.mpr fun s hs => ?_, ?_⟩
  · obtain ⟨g, hg, hplaced⟩ := h.placed s hs
    have hcoordinate (x : Float) (hx : x ∈ s.coordinates) : FiniteAutomata.Rereads x x := by
      have hfinite := h.isFinite s hs x hx
      refine ⟨hfinite, ?_⟩
      rw [hplaced] at hx
      rcases List.mem_append.mp hx with hx | hx
      · exact hgrid g hg _ (Nat.lt_min.mpr ⟨s.id.toNat_lt, h.lt s hs⟩) x hx hfinite
      · rw [List.mem_singleton.mp hx]
        exact hradius
    exact ⟨⟨rfl, rfl, rfl, rfl⟩, hcoordinate _ (by simp [State.coordinates]),
      hcoordinate _ (by simp [State.coordinates]), hcoordinate _ (by simp [State.coordinates])⟩
  · exact (congrArg Automaton.transitions (unreserved_eq_self_iff.mpr hlabels)).symm

end Automaton

theorem State.coordinates_onGrid (g : Grid) (labelStart : String) (id : StateId)
    (isInitial isFinal : Bool) :
    (onGrid g labelStart id isInitial isFinal).coordinates = g.corner id.toNat ++ [30] := rfl

theorem Automaton.Numbered.drawn {a : Automaton} {size bound : Nat} (h : a.Numbered size)
    (hsize : size ≤ bound)
    (hplaced : ∀ s ∈ a.states, ∃ g ∈ Grid.layouts, s.coordinates = g.corner s.id.toNat ++ [30]) :
    a.Drawn bound where
  length := by
    have hlength := congrArg List.length h
    rw [ids, List.length_map, List.length_map, List.length_range] at hlength
    rwa [hlength]
  lt := by
    intro s hs
    have hid : s.id ∈ a.ids := Automaton.mem_ids.mpr ⟨s, hs, rfl⟩
    rw [h] at hid
    obtain ⟨k, hk, hid⟩ := List.mem_map.mp hid
    rw [← hid]
    exact Nat.lt_of_le_of_lt (Nat.mod_le ..) (Nat.lt_of_lt_of_le (List.mem_range.mp hk) hsize)
  placed := hplaced

namespace Regex

theorem Assembly.Applies.mem_transitions {tok : Token} {s t : Assembly} (h : Applies tok s t)
    {u : Transition} (hu : u ∈ t.builder.transitions.toList) :
    u ∈ s.builder.transitions.toList ∨ u.label = .epsilon ∨
      ∃ c, tok = .symbol c ∧ u.label = .symbol c := by
  cases h with
  | symbol b stack c =>
    simp only [push, Builder.symbol, Builder.newPair, Builder.connect, Array.toList_push,
      List.mem_append, List.mem_singleton] at hu
    rcases hu with hu | rfl
    · exact Or.inl hu
    · exact Or.inr (Or.inr ⟨c, rfl, rfl⟩)
  | star b stack inner =>
    simp only [push, Builder.star, Builder.newPair, Builder.connect, Array.toList_push,
      List.mem_append, List.mem_singleton] at hu
    rcases hu with (((hu | rfl) | rfl) | rfl) | rfl
    · exact Or.inl hu
    all_goals exact Or.inr (Or.inl rfl)
  | concat b stack first second =>
    simp only [push, Builder.concat, Builder.connect, Array.toList_push, List.mem_append,
      List.mem_singleton] at hu
    rcases hu with hu | rfl
    · exact Or.inl hu
    · exact Or.inr (Or.inl rfl)
  | union b stack left right =>
    simp only [push, Builder.union, Builder.newPair, Builder.connect, Array.toList_push,
      List.mem_append, List.mem_singleton] at hu
    rcases hu with (((hu | rfl) | rfl) | rfl) | rfl
    · exact Or.inl hu
    all_goals exact Or.inr (Or.inl rfl)

theorem Assembly.mem_transitions_of_foldlM {s t : Assembly} {post : Postfix}
    (h : post.foldlM apply s = .ok t) {u : Transition} (hu : u ∈ t.builder.transitions.toList) :
    u ∈ s.builder.transitions.toList ∨ u.label = .epsilon ∨
      ∃ p ∈ post, ∃ c, p.token = .symbol c ∧ u.label = .symbol c := by
  induction post generalizing s with
  | nil =>
    cases h
    exact Or.inl hu
  | cons p post ih =>
    obtain ⟨r, hr, h⟩ := Outcome.foldlM_cons_eq_ok.mp h
    rcases ih h with hu | hu | ⟨q, hq, hu⟩
    · rcases (applies_of_apply hr).mem_transitions hu with hu | hu | hu
      · exact Or.inl hu
      · exact Or.inr (Or.inl hu)
      · exact Or.inr (Or.inr ⟨p, List.mem_cons_self .., hu⟩)
    · exact Or.inr (Or.inl hu)
    · exact Or.inr (Or.inr ⟨q, List.mem_cons_of_mem _ hq, hu⟩)

theorem Postfix.isSymbol_of_ofPattern {w : List Char} {post : Postfix} (h : ofPattern w = .ok post)
    {p : Placed} (hp : p ∈ post) {c : Char} (hc : p.token = .symbol c) : IsSymbol c := by
  obtain ⟨ts, hscan, horder⟩ := Outcome.bind_eq_ok.mp h
  obtain ⟨-, hsymbols⟩ := Token.text_of_scan hscan
  have hmem := (mem_of_order horder hp).resolve_left List.not_mem_nil
  obtain ⟨position, token⟩ := p
  obtain rfl : token = .symbol c := hc
  exact hsymbols.joined position c hmem

theorem unreserved_of_compile {pattern : String} {a : Automaton}
    (h : (compile pattern).outcome = .ok a) : a.Unreserved := by
  obtain ⟨post, hpost, ⟨-, rfl⟩ | ⟨-, h⟩⟩ := compile_eq_ok h
  · exact fun t ht => absurd ht List.not_mem_nil
  · obtain ⟨b, f, hfold, rfl⟩ := ofPostfix_eq_ok h
    intro t ht
    obtain ⟨source, target, label⟩ := t
    rcases Assembly.mem_transitions_of_foldlM hfold ht with ht | rfl | ⟨p, hp, c, hc, rfl⟩
    · exact absurd ht List.not_mem_nil
    · rfl
    · have hsymbol := Postfix.isSymbol_of_ofPattern hpost hp hc
      exact Transition.unreserved_of_symbol hsymbol.2 (hsymbol.ne_of_not_alphanum (by decide))

theorem drawn_of_compile {pattern : String} {a : Automaton}
    (h : (compile pattern).outcome = .ok a) : a.Drawn a.states.length := by
  have hbuilder (b : Builder) (f : Fragment) :
      (b.automaton f).Drawn (b.automaton f).states.length := by
    have hnumbered := Builder.numbered_automaton b f
    have hlength : (b.automaton f).states.length = b.size := by simp [Builder.automaton]
    rw [hlength]
    refine hnumbered.drawn (Nat.le_refl _) fun s hs => ?_
    obtain ⟨k, -, rfl⟩ := Builder.mem_states.mp hs
    exact ⟨.patternLayout, by simp [Grid.layouts], State.coordinates_onGrid ..⟩
  obtain ⟨post, -, ⟨-, rfl⟩ | ⟨-, h⟩⟩ := compile_eq_ok h
  · exact hbuilder _ _
  · obtain ⟨b, f, -, rfl⟩ := ofPostfix_eq_ok h
    exact hbuilder _ _

end Regex

theorem Automaton.Unreserved.of_mem_alphabet {a : Automaton} (h : a.Unreserved) {c : Char}
    (hc : c ∈ a.alphabet) (source target : StateId) :
    (⟨source, target, .symbol c⟩ : Transition).unreserved = ⟨source, target, .symbol c⟩ := by
  obtain ⟨t, ht, hl⟩ := mem_alphabet.mp hc
  have hlabel := Transition.unreserved_eq_self_iff.mp (h t ht)
  rw [hl] at hlabel
  exact Transition.unreserved_eq_self_iff.mpr hlabel

namespace Determinization
variable {n : Nat} {ix : Index n} {a : Automaton}

theorem drawn_assemble {limit bound : Nat} {i : Fin n} {p : Progress n} (hr : ix.Represents a)
    (hlimit : max limit 1 ≤ bound) (hp : explore ix limit i = .ok p) (labelStart : String) :
    (assemble ix labelStart p).automaton.Drawn bound := by
  have hsmall := (explored_explore (hr.isEmpty_start i) hp).small
  refine (numbered_assemble ix labelStart p).drawn (Nat.le_trans hsmall hlimit) fun s hs => ?_
  obtain ⟨k, t, -, rfl⟩ := mem_states_assemble.mp hs
  exact ⟨.resultLayout, by simp [Grid.layouts], State.coordinates_onGrid ..⟩

theorem unreserved_assemble {limit : Nat} {i : Fin n} {p : Progress n} (hr : ix.Represents a)
    (ha : a.Unreserved) (hp : explore ix limit i = .ok p) (labelStart : String) :
    (assemble ix labelStart p).automaton.Unreserved := by
  intro t ht
  obtain ⟨k, c, -, l, hc, -, -, rfl⟩ :=
    (explored_explore (hr.isEmpty_start i) hp).mem_transitions.mp ht
  exact ha.of_mem_alphabet (hr.alphabet ▸ hc) _ _

end Determinization

namespace Automaton
variable {a b : Automaton} {limits : Limits} {bound : Nat}

theorem eq_empty_of_minimize (hdet : ¬ a.Deterministic) (h : (a.minimize limits).outcome = .ok b) :
    b = .empty := by
  unfold minimize at h
  split at h
  · exact (Except.ok.inj h).symm
  · rw [Logged.outcome_bind] at h
    obtain ⟨t, ht, -⟩ := Outcome.bind_eq_ok.mp h
    exact absurd (exists_table_iff.mp ⟨t, ht⟩) hdet

theorem drawn_empty (bound : Nat) : Automaton.empty.Drawn bound where
  length := Nat.zero_le bound
  lt := List.forall_mem_nil _
  placed := List.forall_mem_nil _

theorem unreserved_empty : Automaton.empty.Unreserved := List.forall_mem_nil _

theorem drawn_of_minimize (hlength : a.states.length ≤ bound)
    (h : (a.minimize limits).outcome = .ok b) : b.Drawn bound := by
  by_cases hdet : a.Deterministic
  · obtain ⟨n, ix, d, classes, hr, -, hp, hm⟩ := exists_partitions hdet h
    obtain ⟨jx, -, hr'⟩ := Index.exists_index hdet.wellFormed
    obtain rfl := hr.size_eq hr' (Redrawn.refl a).same
    have hnumbered := Minimization.numbered_assemble hm
    refine hnumbered.drawn (Nat.le_trans hp.length_le hlength) fun s hs => ?_
    obtain ⟨k, cls, -, rfl⟩ := (Minimization.mem_states_assemble hm).mp hs
    exact ⟨.resultLayout, by simp [Grid.layouts], State.coordinates_onGrid ..⟩
  · obtain rfl := eq_empty_of_minimize hdet h
    exact drawn_empty bound

theorem Unreserved.minimize (ha : a.Unreserved) (h : (a.minimize limits).outcome = .ok b) :
    b.Unreserved := by
  by_cases hdet : a.Deterministic
  · obtain ⟨n, ix, d, classes, hr, -, hp, hm⟩ := exists_partitions hdet h
    intro t ht
    obtain ⟨i, j, rest, k, l, column, c, -, hc, -, -, rfl⟩ :=
      (Minimization.mem_transitions_assemble hm hp).mp ht
    exact ha.of_mem_alphabet (hr.alphabet ▸ List.mem_of_getElem? hc) _ _
  · obtain rfl := eq_empty_of_minimize hdet h
    exact unreserved_empty

theorem drawn_of_simplify (ha : a.Unreserved) (hlimit : max limits.maxPowerStates 1 ≤ bound)
    (h : (a.simplify limits).outcome = .ok b) : b.Drawn bound ∧ b.Unreserved := by
  unfold simplify at h
  rw [Logged.outcome_bind] at h
  obtain ⟨ix, hix, h⟩ := Outcome.bind_eq_ok.mp h
  have hr := Index.represents_of_eq_ok hix
  split at h
  · cases h
    exact ⟨drawn_empty bound, unreserved_empty⟩
  · rw [Logged.outcome_bind] at h
    obtain ⟨d, hd, h⟩ := Outcome.bind_eq_ok.mp h
    obtain ⟨p, hp, rfl⟩ := Determinization.ofIndex_eq_ok.mp hd
    cases h
    exact ⟨Determinization.drawn_assemble hr hlimit hp _,
      Determinization.unreserved_assemble hr ha hp _⟩

theorem drawn_of_toDeterministic (ha : a.Unreserved) (hlimit : max limits.maxPowerStates 1 ≤ bound)
    (h : (a.toDeterministic limits).outcome = .ok b) : b.Drawn bound ∧ b.Unreserved := by
  unfold toDeterministic at h
  rw [Logged.outcome_bind] at h
  obtain ⟨d, hd, h⟩ := Outcome.bind_eq_ok.mp h
  cases h
  obtain ⟨ix, i, p, hix, -, hp, rfl⟩ := determinize_eq_ok hd
  have hr := Index.represents_of_eq_ok hix
  exact ⟨Determinization.drawn_assemble hr hlimit hp _,
    Determinization.unreserved_assemble hr ha hp _⟩

end Automaton

namespace Stage
variable {a b : Automaton} {limits : Limits} {bound : Nat}

theorem drawn_of_apply {stage : Stage} (ha : a.Unreserved) (hlength : a.states.length ≤ bound)
    (hlimit : max limits.maxPowerStates 1 ≤ bound) (h : stage.apply limits a = .ok b) :
    b.Drawn bound ∧ b.Unreserved := by
  cases stage with
  | simplify => exact Automaton.drawn_of_simplify ha hlimit h
  | convert => exact Automaton.drawn_of_toDeterministic ha hlimit h
  | minimize => exact ⟨Automaton.drawn_of_minimize hlength h, ha.minimize h⟩

theorem apply_eq (h : a.Redrawn b) (stage : Stage) : stage.apply limits a = stage.apply limits b := by
  cases stage with
  | simplify => exact h.simplify_eq limits
  | convert => exact h.toDeterministic_eq limits
  | minimize => exact h.minimize_eq limits

/-- From an automaton that comes out of a pipe at most drawn elsewhere, a chain of pipes ends like the
chain in memory. What a stage has returned comes out of a pipe as it is. -/
theorem chain_pipe (hlimit : max limits.maxPowerStates 1 ≤ bound)
    (hgrid : ∀ g ∈ Grid.layouts, ∀ k < min UInt32.size bound, ∀ x ∈ g.corner k, x.isFinite = true →
      (Numeral.ofFloat x).float? = some x)
    (stages : List Stage) (place : Nat) (ha : a.Unreserved) (hlength : a.states.length ≤ bound)
    (hpipe : ∃ c, a.pipe = .ok c ∧ a.Redrawn c) :
    chain limits Automaton.pipe place stages a = chain limits .ok place stages a ∧
      ∀ b, chain limits .ok place stages a = .ok b →
        ∃ c, b.pipe = .ok c ∧ b.Redrawn c ∧ (stages ≠ [] → c = b) := by
  induction stages generalizing a place with
  | nil =>
    refine ⟨rfl, fun b hb => ?_⟩
    cases hb
    obtain ⟨c, hc, hredrawn⟩ := hpipe
    exact ⟨c, hc, hredrawn, fun hne => absurd rfl hne⟩
  | cons stage rest ih =>
    obtain ⟨c, hc, hredrawn⟩ := hpipe
    have hpiped : (a.pipe >>= stage.apply limits) = stage.apply limits a := by
      rw [hc]
      exact (apply_eq hredrawn stage).symm
    have hmemory : ((.ok a : Outcome Automaton) >>= stage.apply limits) = stage.apply limits a := rfl
    rw [chain, chain, hpiped, hmemory]
    cases hb : stage.apply limits a with
    | error f => exact ⟨rfl, fun b hb => by cases hb⟩
    | ok b =>
      obtain ⟨hdrawn, hlabels⟩ := drawn_of_apply ha hlength hlimit hb
      have hpipe := hdrawn.pipe_eq hlabels hgrid
      obtain ⟨heq, hfinal⟩ := ih (place + 1) hlabels hdrawn.length ⟨b, hpipe, .refl b⟩
      refine ⟨heq, fun d hd => ?_⟩
      cases rest with
      | nil =>
        cases hd
        exact ⟨b, hpipe, .refl b, fun _ => rfl⟩
      | cons stage' rest =>
        obtain ⟨e, he, hredrawn', hsame⟩ := hfinal d hd
        exact ⟨e, he, hredrawn', fun _ => hsame (List.cons_ne_nil _ _)⟩

end Stage

end FiniteAutomata
