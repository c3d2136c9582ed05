import FiniteAutomata.Proofs.Determinization

/-! # A determinized automaton runs in lockstep

On every word, an automaton and its determinization report the same. Before each symbol and after the
last, the deterministic automaton is in the one state whose power-state is what the other has active.
-/
namespace FiniteAutomata

namespace SimulationReport

/-- Two reports on one word agree, the second being in the number of what the first has active; where
the runs are blocked, nothing is active in either. -/
structure Lockstep (powerStates : List (List StateId)) (r r' : SimulationReport) : Prop where
  accepted : r'.accepted = r.accepted
  blocked : r'.blocked = r.blocked
  message : r'.message = r.message
  length : r'.trace.length = r.trace.length
  active : ∀ m e e', r.trace[2 * m]? = some e → r'.trace[2 * m]? = some e' →
    if r.blocked = true ∧ 2 * m + 1 = r.trace.length then e.active = [] ∧ e'.active = []
    else ∃ i, e'.active = [.ofNat i] ∧ powerStates[i]? = some e.active

end SimulationReport

namespace Determinization
variable {n : Nat} {ix : Index n} {limit : Nat} {p : Progress n} {a : Automaton} {i : Fin n}

theorem getElem?_powerStates (labelStart : String) (j : Nat) :
    (assemble ix labelStart p).powerStates[j]? = p.sets[j]?.map ix.ids := by
  unfold assemble
  rw [List.getElem?_map, Array.getElem?_toList]

/-- As long as a word leaves something, the two automata are in corresponding states after it. -/
theorem Explored.active_of_not_starves (h : Complete ix (ix.start i) limit p)
    (hr : ix.Represents a) (hs : p.sets.size ≤ UInt32.size) (labelStart : String) {w : List Char}
    {xs ys : List StateId} (hx : xs.Pairwise (· < ·)) (hy : ys.Pairwise (· < ·))
    (hxs : ∀ q, q ∈ xs ↔ Reads a.transitions (ix.idAt i) w q)
    (hys : ∀ q, q ∈ ys ↔ Reads p.transitions.toList 0 w q)
    (hne : ¬ Starves a.transitions (ix.idAt i) w) :
    ∃ j, ys = [.ofNat j] ∧ (assemble ix labelStart p).powerStates[j]? = some xs := by
  have hfull : (ix.after (ix.start i) w).isEmpty = false := by
    rw [← Bool.not_eq_true, hr.isEmpty_after_start]
    exact hne
  obtain ⟨j, hj⟩ := h.exists_number_after hr hfull
  have hxs' : xs = ix.ids (ix.after (ix.start i) w) := by
    refine eq_of_ascending hx (hr.pairwise_ids _) fun q => ?_
    rw [hxs, hr.mem_ids_after_start]
  have hys' : ys = [.ofNat j] := by
    refine eq_of_ascending hy (List.pairwise_singleton _ _) fun q => ?_
    rw [hys, h.reads_iff hr hs, List.mem_singleton]
    constructor
    · rintro ⟨k, hk, rfl⟩
      have hkj := (h.number _ _).mpr hk
      rw [(h.number _ _).mpr hj] at hkj
      rw [Option.some.inj hkj]
    · rintro rfl
      exact ⟨j, hj, rfl⟩
  refine ⟨j, hys', ?_⟩
  rw [getElem?_powerStates, hj, hxs']
  rfl

/-- The runs of an automaton and of what its search found agree on every word. -/
theorem Explored.lockstep (h : Complete ix (ix.start i) limit p) (hr : ix.Represents a)
    (hs : p.sets.size ≤ UInt32.size) (labelStart : String) {word : List Char}
    {r r' : SimulationReport} {k k' : Nat} (hd : r.Describes a (ix.idAt i) word k)
    (hd' : r'.Describes (assemble ix labelStart p).automaton 0 word k') :
    SimulationReport.Lockstep (assemble ix labelStart p).powerStates r r' := by
  have hstarves : ∀ w, Starves p.transitions.toList 0 w ↔ Starves a.transitions (ix.idAt i) w :=
    fun w => (h.starves_iff hr hs).trans hr.isEmpty_after_start
  have hlengths : starvedLengths p.transitions.toList 0 word =
      starvedLengths a.transitions (ix.idAt i) word := by
    unfold starvedLengths
    simp only [hstarves]
  have haccepted : r'.accepted = r.accepted := by
    rw [Bool.eq_iff_iff, hd'.accepted, hd.accepted, h.acceptsFrom_iff hr hs labelStart]
    exact hr.isAccepting_after_start
  have hblocked : r'.blocked = r.blocked := by
    rw [Bool.eq_iff_iff, hd'.blocked, hd.blocked, ← hlengths]
    rfl
  have hk : k' = k := by
    have hstops : StopsAt p.transitions.toList 0 word k' := hd'.stops
    unfold StopsAt at hstops
    rw [hlengths] at hstops
    exact StopsAt.unique hstops hd.stops
  subst hk
  refine ⟨haccepted, hblocked, ?_, by rw [hd'.length, hd.length], ?_⟩
  · rw [hd'.message, hd.message, haccepted, hblocked]
  · intro m e e' he he'
    have hm : m ≤ k' := by
      have hlt := (List.getElem?_eq_some_iff.mp he).1
      rw [hd.length] at hlt
      omega
    have hends : r.blocked = true ∧ 2 * m + 1 = r.trace.length ↔
        Starves a.transitions (ix.idAt i) (word.take m) := by
      have hlast : 2 * m + 1 = 1 + 2 * k' ↔ m = k' := by omega
      rw [hd.starves_iff hm, hd.length, hlast]
    obtain ⟨d, hde, hasc, hmem⟩ := hd.closed m hm
    obtain ⟨d', hde', hasc', hmem'⟩ := hd'.closed m hm
    obtain rfl := Option.some.inj (he.symm.trans hde)
    obtain rfl := Option.some.inj (he'.symm.trans hde')
    split
    · rename_i hend
      have hstarved := hends.mp hend
      constructor
      · exact List.eq_nil_iff_forall_not_mem.mpr fun q hq => hstarved q ((hmem q).mp hq)
      · exact List.eq_nil_iff_forall_not_mem.mpr fun q hq =>
          (hstarves _).mpr hstarved q ((hmem' q).mp hq)
    · rename_i hlive
      exact h.active_of_not_starves hr hs labelStart hasc hasc' hmem hmem'
        fun hstarved => hlive (hends.mpr hstarved)

/-- The label on a state is left to the drawing. -/
def unlabelled (q : State) : State := { q with label := "" }

theorem unlabelled_assemble (ix : Index n) (labelStart labelStart' : String) (p : Progress n) :
    (assemble ix labelStart p).automaton.states.map unlabelled =
      (assemble ix labelStart' p).automaton.states.map unlabelled := by
  unfold assemble
  rw [List.map_map, List.map_map]
  rfl

end Determinization

namespace Automaton
variable {a : Automaton} {limits : Limits} {d : Determinization}

/-- A determinization is deterministic, its only initial state is 0, and it runs every word in
lockstep with the automaton that it was made from. Simplification gives the same automaton with other
labels. -/
theorem determinize_lockstep (hl : limits.maxPowerStates ≤ 2 ^ 32)
    (h : (a.determinize limits).outcome = .ok d) :
    d.automaton.validate.outcome = .ok () ∧
    (d.automaton.states.filter (·.isInitial)).map (·.id) = [0] ∧
    (∀ word, ∃ r r', (a.simulate word).outcome = .ok r ∧
      (d.automaton.simulate word).outcome = .ok r' ∧ r.Lockstep d.powerStates r') ∧
    ∃ b, (a.simplify limits).outcome = .ok b ∧ b.transitions = d.automaton.transitions ∧
      b.states.map Determinization.unlabelled =
        d.automaton.states.map Determinization.unlabelled := by
  obtain ⟨ix, i, p, hix, hi, hp, rfl⟩ := determinize_eq_ok h
  have hr := Index.represents_of_eq_ok hix
  have hx := Determinization.explored_explore (hr.isEmpty_start i) hp
  have hs : p.sets.size ≤ UInt32.size := Nat.le_trans hx.small (Nat.max_le.mpr ⟨hl, by decide⟩)
  have hdet := hx.deterministic hr hs "D"
  have hstate : a.initialState? = some (ix.states.get i) := by
    rw [← hr.initial, hi]
    rfl
  refine ⟨validate_eq_ok_iff.mpr hdet, ?_, ?_,
    Determinization.assemble ix "s" p |>.automaton, ?_, rfl,
    Determinization.unlabelled_assemble ix "s" "D" p⟩
  · rw [hx.filter_isInitial "D"]
    rfl
  · intro word
    obtain ⟨r, k, hrun, hd⟩ := exists_simulate (Index.wellFormed_of_eq_ok hix) hstate word
    obtain ⟨r', k', hrun', hd'⟩ := exists_simulate hdet.wellFormed (hx.initialState? "D") word
    exact ⟨r, r', hrun, hrun', hx.lockstep hr hs "D" hd hd'⟩
  · unfold simplify
    rw [Logged.outcome_bind, hix]
    refine Outcome.bind_eq_ok.mpr ⟨ix, rfl, ?_⟩
    rw [hi]
    dsimp only
    rw [Logged.outcome_bind, Determinization.ofIndex_eq_ok.mpr ⟨p, hp, rfl⟩]
    rfl

theorem determinize_slipCycle :
    ∃ d r, (slipCycle.determinize {}).outcome = .ok d ∧ d.automaton.validate.outcome = .ok () ∧
      (d.automaton.simulate "a").outcome = .ok r ∧ r.accepted = true := by
  have hl : 2 ^ slipCycle.states.length ≤ ({} : Limits).maxPowerStates := by decide
  obtain ⟨d, hd⟩ := exists_determinize slipCycle_wellFormed
    (s := { id := 5, isInitial := true }) rfl hl
  obtain ⟨hvalid, -, hruns, -⟩ := determinize_lockstep (by decide) hd
  obtain ⟨r, r', hr, hr', hlock⟩ := hruns "a"
  obtain ⟨t, k, ht, hacc⟩ := exists_simulate slipCycle_wellFormed
    (s := { id := 5, isInitial := true }) rfl "a"
  obtain rfl := Except.ok.inj (hr.symm.trans ht)
  refine ⟨d, r', hd, hvalid, hr', ?_⟩
  rw [hlock.accepted]
  exact hacc.accepted.mpr ⟨{ id := 9, isFinal := true }, by decide, rfl, reads_slipCycle⟩

end Automaton
end FiniteAutomata
