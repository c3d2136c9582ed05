import FiniteAutomata.Proofs.Exchange
import FiniteAutomata.Proofs.Presentation
import FiniteAutomata.Proofs.Refusal

/-! # Where states are drawn

An automaton that is drawn anew gives the same results and meets the same refusals: what is built of it
depends on the automaton alone, and what a refusal quotes is in its transitions, ids and labels. The
automata that are built are drawn on grids, all of whose cells are finite.
-/
namespace FiniteAutomata

/-- The second automaton is the first, drawn elsewhere. -/
structure Automaton.Redrawn (a b : Automaton) : Prop where
  states : List.Forall₂ State.Twins a.states b.states
  transitions : a.transitions = b.transitions

namespace Automaton.Redrawn
variable {a b : Automaton} (h : a.Redrawn b)
include h

theorem map_eq {α : Type} {f : State → α} (hf : ∀ s t : State, s.Twins t → f s = f t) :
    a.states.map f = b.states.map f := by
  rw [← List.forall₂_eq_eq_eq, List.forall₂_map_left_iff, List.forall₂_map_right_iff]
  exact h.states.imp hf

theorem mem_states_iff {α : Type} {f : State → α} (hf : ∀ s t : State, s.Twins t → f s = f t) {x : α} :
    (∃ s ∈ a.states, f s = x) ↔ ∃ s ∈ b.states, f s = x := by
  rw [← List.mem_map, ← List.mem_map, h.map_eq hf]

theorem ids_eq : a.ids = b.ids := h.map_eq fun _ _ => State.Twins.id

theorem flaw?_eq : a.flaw? = b.flaw? := by
  unfold flaw?
  rw [h.ids_eq, h.transitions]

theorem initial_eq : a.initialState?.map (·.id) = b.initialState?.map (·.id) := by
  have hfind (c : Automaton) : c.initialState?.map (·.id) =
      ((c.states.map fun s => (s.isInitial, s.id)).find? (·.1)).map (·.2) := by
    rw [initialState?, List.find?_map, Option.map_map]
    rfl
  rw [hfind, hfind, h.map_eq fun s t hst => by rw [hst.isInitial, hst.id]]

theorem same : a.Same b where
  states := by
    intro id final
    have hiff := h.mem_states_iff (f := fun s => (s.id, s.isFinal)) (x := (id, final))
      fun s t hst => by rw [hst.id, hst.isFinal]
    simpa only [Prod.mk.injEq] using hiff
  initial := h.initial_eq
  transitions := fun t => by rw [h.transitions]

theorem label_eq {n : Nat} {ix jx : Index n} (hr : ix.Represents a) (hr' : jx.Represents b)
    (halike : ix.Alike jx) (i : Fin n) : (ix.states.get i).label = (jx.states.get i).label := by
  obtain ⟨t, ht, he⟩ := (h.mem_states_iff (f := fun s => (s.id, s.label))
    fun s t hst => by rw [hst.id, hst.label]).mp ⟨_, (hr.mem_states _).mpr ⟨i, rfl⟩, rfl⟩
  obtain ⟨hid, hlabel⟩ := Prod.mk.inj he
  obtain ⟨j, rfl⟩ := (hr'.mem_states t).mp ht
  obtain rfl : j = i := hr'.idAt_inj.mp (hid.trans (congrFun halike.idAt i))
  exact hlabel.symm

/-- Two outcomes that depend on the index are the same if they are for indices that are alike. -/
theorem bind_eq {α : Type} {f : Index a.states.length → Logged α} {g : Index b.states.length → Logged α}
    (hwell : a.WellFormed → b.WellFormed →
      (Index.ofAutomaton a >>= f).outcome = (Index.ofAutomaton b >>= g).outcome) :
    (Index.ofAutomaton a >>= f).outcome = (Index.ofAutomaton b >>= g).outcome := by
  cases ha : a.flaw? with
  | none => exact hwell (Index.wellFormed_of_flaw? ha) (Index.wellFormed_of_flaw? (h.flaw?_eq ▸ ha))
  | some e =>
    have hb := h.flaw?_eq ▸ ha
    rw [Logged.outcome_bind, Logged.outcome_bind, Index.outcome_of_flaw? ha, Index.outcome_of_flaw? hb]
    rfl

theorem simplify_eq (limits : Limits) :
    (a.simplify limits).outcome = (b.simplify limits).outcome :=
  h.bind_eq fun ha hb => h.same.simplify_eq ha hb limits

theorem toDeterministic_eq (limits : Limits) :
    (a.toDeterministic limits).outcome = (b.toDeterministic limits).outcome := by
  have hdeterminize : (a.determinize limits).outcome = (b.determinize limits).outcome :=
    h.bind_eq fun ha hb => h.same.determinize_eq ha hb limits
  rw [toDeterministic, toDeterministic, Logged.outcome_bind, Logged.outcome_bind, hdeterminize]

theorem table_eq : a.table.outcome = b.table.outcome := by
  unfold table
  rw [h.same.isEmpty_eq]
  split
  · rfl
  · refine h.bind_eq fun ha hb => ?_
    refine h.same.index_elim ha hb fun _ _ _ ix jx hx hy hr hr' halike => Logged.bind_congr hx hy ?_
    have henter : Table.enter ix = Table.enter jx := by
      funext cells t
      unfold Table.enter
      simp only [halike.positions, halike.alphabet, h.label_eq hr hr' halike]
    rw [Table.ofIndex, Table.ofIndex, henter, halike.alphabet, halike.requireInitial_eq, halike.ids_eq,
      halike.accepting, h.transitions]

theorem minimize_eq (limits : Limits) :
    (a.minimize limits).outcome = (b.minimize limits).outcome :=
  minimize_congr h.same.isEmpty_eq h.table_eq limits

end Automaton.Redrawn

namespace Grid

/-- The numbers of a cell. -/
def corner (g : Grid) (k : Nat) : List Float := [(g.cell k).1, (g.cell k).2]

/-- The grids that the program draws on. -/
def layouts : List Grid := [patternLayout, resultLayout]

theorem isFinite_corner {g : Grid} (hx : FloatBelow 69 g.origin.1) (hy : FloatBelow 69 g.origin.2)
    (hspacing : FloatBelow 0 g.spacing) {k : Nat} (hk : k < 2 ^ 53) :
    ∀ x ∈ g.corner k, x.isFinite = true := by
  have hoffset {m : Nat} (hm : m ≤ k) : FloatBelow 69 (Float.ofNat m * g.spacing) :=
    (FloatBelow.ofNat (Nat.lt_of_le_of_lt hm hk)).mul hspacing (by decide) (by decide)
  simp only [corner, List.forall_mem_cons]
  exact ⟨(hx.add (hoffset (Nat.mod_le ..)) (by decide) (by decide)).isFinite,
    (hy.add (hoffset (Nat.div_le_self ..)) (by decide) (by decide)).isFinite, List.forall_mem_nil _⟩

theorem isFinite_layouts {g : Grid} (hg : g ∈ layouts) {k : Nat} (hk : k < 2 ^ 53) :
    ∀ x ∈ g.corner k, x.isFinite = true := by
  simp only [layouts, List.mem_cons, List.not_mem_nil, or_false] at hg
  rcases hg with rfl | rfl
  · exact isFinite_corner (by unfold FloatBelow; decide +kernel) (by unfold FloatBelow; decide +kernel)
      (by unfold FloatBelow; decide +kernel) hk
  · exact isFinite_corner (by unfold FloatBelow; decide +kernel) (by unfold FloatBelow; decide +kernel)
      (by unfold FloatBelow; decide +kernel) hk

end Grid
end FiniteAutomata
