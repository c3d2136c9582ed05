import FiniteAutomata.Proofs.Sameness
import FiniteAutomata.Proofs.Tabulation

/-! # Two presentations of one automaton

Whatever is computed from presentations of one automaton is the same. What goes through the index follows
from the likeness of indices. Tables could not be refused with the same words, as a refusal quotes a
label and stops at a transition, but tables that can be built are equal, and minimization sees nothing
else of an automaton.
-/
namespace FiniteAutomata
variable {a b : Automaton}

namespace Table

theorem Describes.eq_of_same {n : Nat} {ix jx : Index n} {t u : Table} (ht : t.Describes ix a)
    (hu : u.Describes jx b) (halike : ix.Alike jx) (h : a.Same b) : t = u := by
  have hcells : t.cells = u.cells := by
    refine Array.ext_getElem? fun place => ?_
    have hsize : t.cells.size = u.cells.size := by
      rw [ht.filled.size, hu.filled.size, halike.alphabet]
    by_cases hplace : place < t.cells.size
    · obtain ⟨i, column, c, hc, hi⟩ := ht.exists_place hplace
      have hcell := ht.filled.cell i column c hc
      have hcell' := hu.filled.cell i column c (halike.alphabet ▸ hc)
      rw [← halike.alphabet, ← halike.idAt, ← hi] at hcell'
      rw [← hi] at hcell
      rw [Array.getElem?_eq_getElem hplace, Array.getElem?_eq_getElem (hsize ▸ hplace)] at *
      rw [Option.some.injEq]
      apply Option.ext
      intro k
      have hk := (hcell k).trans <| (exists_congr fun j => and_congr_right' (h.transitions _)).trans
        (hcell' k).symm
      rwa [Option.some.injEq, Option.some.injEq] at hk
    · rw [Array.getElem?_eq_none (Nat.le_of_not_lt hplace),
        Array.getElem?_eq_none (hsize ▸ Nat.le_of_not_lt hplace)]
  have hinitial : t.initial = u.initial := by
    obtain ⟨i, hi, hti⟩ := ht.initial
    obtain ⟨j, hj, huj⟩ := hu.initial
    rw [halike.initial, hj, Option.some.injEq] at hi
    rw [hti, huj, hi]
  cases t
  cases u
  simp only [Table.mk.injEq]
  refine ⟨?_, ?_, hcells, ?_, hinitial⟩
  · exact ht.alphabet.trans (halike.alphabet.trans hu.alphabet.symm)
  · exact ht.stateIds.trans ((congrFun halike.ids_eq _).trans hu.stateIds.symm)
  · exact ht.accepting.trans (halike.accepting ▸ hu.accepting.symm)

end Table

theorem Logged.bind_congr {α β : Type} {x y : Logged α} {f g : α → Logged β} {i j : α}
    (hx : x.outcome = .ok i) (hy : y.outcome = .ok j) (h : (f i).outcome = (g j).outcome) :
    (x >>= f).outcome = (y >>= g).outcome := by
  rw [outcome_bind, outcome_bind, hx, hy]
  exact h

namespace Automaton

theorem minimize_congr (hempty : a.isEmpty = b.isEmpty) (htable : a.table.outcome = b.table.outcome)
    (limits : Limits) : (a.minimize limits).outcome = (b.minimize limits).outcome := by
  unfold minimize
  rw [hempty]
  split
  · rfl
  · rw [Logged.outcome_bind, Logged.outcome_bind, htable]
    refine congrArg _ (funext fun t => ?_)
    rw [Logged.outcome_bind, Logged.outcome_bind]
    refine congrArg _ (funext fun d => ?_)
    rw [Logged.outcome_bind, Logged.outcome_bind]
    cases hfill : Marks.fill (d.completed t.alphabet.length) (Minimization.points d) limits with
    | error e => rfl
    | ok settled => simp only [Logged.outcome_bind, Logged.outcome_emit]

namespace Same

/-- To show something of the indices of presentations of one automaton, one may take them to be alike. -/
@[elab_as_elim]
theorem index_elim {motive : (n m : Nat) → Logged (Index n) → Logged (Index m) → Prop}
    (h : a.Same b) (ha : a.WellFormed) (hb : b.WellFormed)
    (alike : ∀ (n : Nat) (x y : Logged (Index n)) (ix jx : Index n), x.outcome = .ok ix →
      y.outcome = .ok jx → ix.Represents a → jx.Represents b → ix.Alike jx → motive n n x y) :
    motive a.states.length b.states.length (Index.ofAutomaton a) (Index.ofAutomaton b) := by
  obtain ⟨ix, hix, hr⟩ := Index.exists_index ha
  obtain ⟨jx, hjx, hr'⟩ := Index.exists_index hb
  generalize Index.ofAutomaton a = x at hix ⊢
  generalize Index.ofAutomaton b = y at hjx ⊢
  generalize a.states.length = n at ix x hix hr ⊢
  generalize b.states.length = m at jx y hjx hr' ⊢
  obtain rfl := hr.size_eq hr' h
  exact alike n x y ix jx hix hjx hr hr' (hr.alike hr' h)

variable (h : a.Same b) (ha : a.WellFormed) (hb : b.WellFormed)
include h ha hb

theorem determinize_eq (limits : Limits) :
    (a.determinize limits).outcome = (b.determinize limits).outcome := by
  unfold determinize
  refine h.index_elim ha hb fun _ _ _ _ _ hx hy _ _ halike => Logged.bind_congr hx hy ?_
  rw [halike.requireInitial_eq, halike.ofIndex_eq]

theorem simplify_eq (limits : Limits) :
    (a.simplify limits).outcome = (b.simplify limits).outcome := by
  have hsplit (c : Automaton) : c.simplify limits = Index.ofAutomaton c >>= fun ix =>
      ix.initial.elim (pure .empty) fun initial => do
        let d ← Determinization.ofIndex ix "s" limits initial
        return d.automaton := by
    refine congrArg _ (funext fun ix => ?_)
    cases ix.initial <;> rfl
  rw [hsplit, hsplit]
  refine h.index_elim ha hb fun _ _ _ _ _ hx hy _ _ halike => Logged.bind_congr hx hy ?_
  rw [halike.initial, halike.ofIndex_eq]

theorem closureOf_eq (ids : List StateId) :
    (a.closureOf ids).outcome = (b.closureOf ids).outcome := by
  unfold closureOf
  refine h.index_elim ha hb fun _ _ _ _ _ hx hy _ _ halike => Logged.bind_congr hx hy ?_
  rw [halike.closureOf_eq]

theorem simulate_eq (word : String) :
    (a.simulate word).outcome = (b.simulate word).outcome := by
  have hsplit (c : Automaton) : c.simulate word =
      if c.isEmpty then pure (Simulation.notRun "Automaton is empty.")
      else Index.ofAutomaton c >>= fun ix =>
        ix.initial.elim (pure (Simulation.notRun "No starting state defined."))
          fun initial => Simulation.report ix initial word.toList := by
    refine congrArg _ (congrArg _ (funext fun ix => ?_))
    cases ix.initial <;> rfl
  rw [hsplit, hsplit, h.isEmpty_eq]
  split
  · rfl
  · refine h.index_elim ha hb fun _ _ _ _ _ hx hy _ _ halike => Logged.bind_congr hx hy ?_
    rw [halike.initial, halike.report_eq]

theorem structureReport_eq : a.structureReport.outcome = b.structureReport.outcome := by
  unfold structureReport
  rw [h.isEmpty_eq]
  split
  · rfl
  · refine h.index_elim ha hb fun _ _ _ _ _ hx hy _ _ halike => Logged.bind_congr hx hy ?_
    rw [halike.requireInitial_eq, halike.reachable_eq, halike.productive_eq, halike.ids_eq]

theorem samples_eq (count length : Nat) :
    (a.samples count length).outcome = (b.samples count length).outcome := by
  unfold samples
  refine h.index_elim ha hb fun _ _ _ _ _ hx hy _ _ halike => Logged.bind_congr hx hy ?_
  rw [halike.requireInitial_eq, halike.accepting, halike.sampleReport_eq]

theorem describe_eq : a.describe.outcome = b.describe.outcome := by
  unfold describe
  rw [h.hasSelfLoop_eq]
  refine h.index_elim ha hb fun _ _ _ _ _ hx hy _ _ halike => Logged.bind_congr hx hy ?_
  rw [halike.requireInitial_eq, halike.useful_eq, halike.accepting, halike.isAccepting_eq,
    halike.start_eq, halike.hasUsefulCycle_eq]

omit ha hb

theorem table_eq (hva : a.validate.outcome = .ok ()) (hvb : b.validate.outcome = .ok ()) :
    a.table.outcome = b.table.outcome := by
  obtain ⟨t, ht⟩ := exists_table_iff.mpr (validate_eq_ok_iff.mp hva)
  obtain ⟨u, hu⟩ := exists_table_iff.mpr (validate_eq_ok_iff.mp hvb)
  obtain ⟨ix, hr, hd⟩ := table_eq_ok ht
  obtain ⟨jx, hr', hd'⟩ := table_eq_ok hu
  generalize a.states.length = n at ix hr hd
  generalize b.states.length = m at jx hr' hd'
  obtain rfl := hr.size_eq hr' h
  rw [ht, hu, hd.eq_of_same hd' (hr.alike hr' h) h]

theorem minimize_eq (hva : a.validate.outcome = .ok ()) (hvb : b.validate.outcome = .ok ())
    (limits : Limits) : (a.minimize limits).outcome = (b.minimize limits).outcome :=
  minimize_congr h.isEmpty_eq (h.table_eq hva hvb) limits

end Same

/-- All results depend on the automaton alone and not on its presentation. For the table and for what is
made of it the presentations have to be valid, as a refusal may point at any of several faults. -/
theorem results_eq_of_same (ha : a.WellFormed) (hb : b.WellFormed) (h : a.Same b) (limits : Limits)
    (ids : List StateId) (word : String) (count length : Nat) :
    (a.determinize limits).outcome = (b.determinize limits).outcome ∧
      (a.simplify limits).outcome = (b.simplify limits).outcome ∧
      (a.closureOf ids).outcome = (b.closureOf ids).outcome ∧
      (a.simulate word).outcome = (b.simulate word).outcome ∧
      a.structureReport.outcome = b.structureReport.outcome ∧
      (a.samples count length).outcome = (b.samples count length).outcome ∧
      a.describe.outcome = b.describe.outcome ∧
      (a.validate.outcome = .ok () → b.validate.outcome = .ok () →
        a.table.outcome = b.table.outcome ∧
          (a.minimize limits).outcome = (b.minimize limits).outcome) := by
  refine ⟨h.determinize_eq ha hb limits, h.simplify_eq ha hb limits, h.closureOf_eq ha hb ids,
    h.simulate_eq ha hb word, h.structureReport_eq ha hb, h.samples_eq ha hb count length,
    h.describe_eq ha hb, ?_⟩
  intro hva hvb
  exact ⟨h.table_eq hva hvb, h.minimize_eq hva hvb limits⟩

/-- The turnstile with its states and transitions the other way round, labelled and drawn. -/
def drawnTurnstile : Automaton where
  states := [{ id := 3, label := "öffen", isFinal := true, x := 120 },
    { id := 9, label := "zu", isInitial := true, radius := 12 }]
  transitions := [⟨3, 9, .symbol 'c'⟩, ⟨9, 3, .symbol 'p'⟩]

/-- The epsilon cycle with a transition twice and a second initial flag. -/
def drawnSlipCycle : Automaton where
  states := [{ id := 9, isFinal := true }, { id := 5, isInitial := true }, { id := 1, isInitial := true },
    { id := 3, label := "q", y := 80 }]
  transitions := [⟨3, 9, .symbol 'a'⟩, ⟨1, 5, .epsilon⟩, ⟨3, 9, .symbol 'a'⟩, ⟨3, 1, .epsilon⟩,
    ⟨5, 3, .epsilon⟩]

theorem drawnTurnstile_deterministic : drawnTurnstile.Deterministic := by decide

theorem turnstile_same : turnstile.Same drawnTurnstile := by decide

theorem slipCycle_same : slipCycle.Same drawnSlipCycle := by decide

theorem results_drawn_eq :
    turnstile ≠ drawnTurnstile ∧ slipCycle ≠ drawnSlipCycle ∧
      turnstile.table.outcome = drawnTurnstile.table.outcome ∧
      (turnstile.minimize {}).outcome = (drawnTurnstile.minimize {}).outcome ∧
      (slipCycle.determinize {}).outcome = (drawnSlipCycle.determinize {}).outcome ∧
      (slipCycle.simulate "a").outcome = (drawnSlipCycle.simulate "a").outcome := by
  have hd := turnstile_deterministic
  have hd' := drawnTurnstile_deterministic
  obtain ⟨-, -, -, -, -, -, -, hvalid⟩ :=
    results_eq_of_same hd.wellFormed hd'.wellFormed turnstile_same {} [] "" 5 15
  obtain ⟨htable, hminimize⟩ := hvalid (validate_eq_ok_iff.mpr hd) (validate_eq_ok_iff.mpr hd')
  obtain ⟨hdeterminize, -, -, hsimulate, -⟩ :=
    results_eq_of_same slipCycle_wellFormed (by decide) slipCycle_same {} [] "a" 5 15
  exact ⟨by decide, by decide, htable, hminimize, hdeterminize, hsimulate⟩

end Automaton
end FiniteAutomata
