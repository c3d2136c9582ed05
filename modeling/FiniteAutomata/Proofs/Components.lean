import FiniteAutomata.Language.Components
import FiniteAutomata.Proofs.Entries
import FiniteAutomata.Proofs.Reachability

/-! # Strong components tell cycles

However the strong components of a graph are listed, two positions get the same number exactly when each
of them reaches the other, and no entry outside the table is asked for or written. The listing by least
positions is one of those.
-/
namespace FiniteAutomata
namespace ArcGraph
variable {n : Nat} {g : ArcGraph n} {i j k : Fin n} {components : List (List (Fin n))}

theorem leads_successors_iff :
    Search.Leads g.successors i j ↔ ∃ e ∈ g.arcs, e.source = i ∧ e.target = j := by
  simp [Search.Leads, successors, and_assoc]

/-- Each of the two positions can be reached from the other. -/
def Connects (g : ArcGraph n) (i j : Fin n) : Prop :=
  Search.Reaches g.successors i j ∧ Search.Reaches g.successors j i

namespace Connects

theorem refl (g : ArcGraph n) (i : Fin n) : g.Connects i i :=
  ⟨Relation.ReflTransGen.refl, Relation.ReflTransGen.refl⟩

theorem symm (h : g.Connects i j) : g.Connects j i := ⟨h.2, h.1⟩

theorem trans (h : g.Connects i j) (h' : g.Connects j k) : g.Connects i k :=
  ⟨h.1.trans h'.1, h'.2.trans h.2⟩

end Connects

theorem mem_reached : j ∈ g.reached.get i ↔ Search.Reaches g.successors i j := by
  have hrows : (Vector.ofFn g.successors).get = g.successors := by
    funext k
    exact Vector.getElem_ofFn k.isLt
  have hget : g.reached.get i = Search.reach g.successors (.singleton i) := by
    rw [reached, hrows]
    exact Vector.getElem_ofFn i.isLt
  rw [hget, Search.mem_reach]
  simp only [StateSet.mem_singleton, exists_eq_left]

theorem mem_component : j ∈ component g.reached i ↔ g.Connects i j := by
  rw [component, List.mem_filter, Bool.and_eq_true, StateSet.contains_iff, StateSet.contains_iff,
    mem_reached, mem_reached]
  exact and_iff_right (List.mem_finRange j)

theorem component_eq (h : g.Connects i j) : component g.reached i = component g.reached j := by
  refine List.filter_congr fun k _ => Bool.eq_iff_iff.mpr ?_
  simp only [Bool.and_eq_true, StateSet.contains_iff, mem_reached]
  exact ⟨h.symm.trans, h.trans⟩

/-- The lists are the strong components of the graph, in whatever order. -/
structure Splits (g : ArcGraph n) (components : List (List (Fin n))) : Prop where
  covers : ∀ i, ∃ c ∈ components, i ∈ c
  disjoint : components.Pairwise List.Disjoint
  connected : ∀ c ∈ components, ∀ i ∈ c, ∀ j, j ∈ c ↔ g.Connects i j

theorem mem_strongComponents {c : List (Fin n)} : c ∈ g.strongComponents ↔
    ∃ i, component g.reached i = c ∧ c.head? = some i := by
  rw [strongComponents, List.mem_filterMap]
  constructor
  · rintro ⟨i, -, h⟩
    obtain ⟨hhead, heq⟩ := Option.ite_none_right_eq_some.mp h
    cases heq
    exact ⟨i, rfl, hhead⟩
  · rintro ⟨i, rfl, hhead⟩
    exact ⟨i, List.mem_finRange i, if_pos hhead⟩

theorem splits_strongComponents (g : ArcGraph n) : g.Splits g.strongComponents where
  covers := by
    intro i
    have hi : i ∈ component g.reached i := mem_component.mpr (.refl g i)
    obtain ⟨j, rest, hcons⟩ := List.exists_cons_of_ne_nil (List.ne_nil_of_mem hi)
    have hj : g.Connects i j := mem_component.mp (hcons ▸ List.mem_cons_self ..)
    refine ⟨component g.reached i, mem_strongComponents.mpr ⟨j, (component_eq hj).symm, ?_⟩, hi⟩
    rw [hcons, List.head?_cons]
  disjoint := by
    refine List.pairwise_filterMap.mpr ((List.nodup_finRange n).imp ?_)
    intro i j hne c hc d hd k hkc hkd
    obtain ⟨hi, hc⟩ := Option.ite_none_right_eq_some.mp hc
    obtain ⟨hj, hd⟩ := Option.ite_none_right_eq_some.mp hd
    cases hc
    cases hd
    have hij : g.Connects i j := (mem_component.mp hkc).trans (mem_component.mp hkd).symm
    rw [component_eq hij, hj] at hi
    exact hne (Option.some.inj hi).symm
  connected := by
    intro c hc i hi j
    obtain ⟨k, rfl, -⟩ := mem_strongComponents.mp hc
    rw [← component_eq (mem_component.mp hi).symm]
    exact mem_component

namespace Splits

theorem place_unique (h : g.Splits components) {l m : Nat} {c d : List (Fin n)}
    (hl : components[l]? = some c) (hm : components[m]? = some d) (hi : i ∈ c) (hj : i ∈ d) : l = m := by
  obtain ⟨hlt, rfl⟩ := List.getElem?_eq_some_iff.mp hl
  obtain ⟨hmt, rfl⟩ := List.getElem?_eq_some_iff.mp hm
  have hapart := List.pairwise_iff_getElem.mp h.disjoint
  by_contra hne
  rcases Nat.lt_or_gt_of_ne hne with hbefore | hafter
  · exact hapart l m hlt hmt hbefore hi hj
  · exact hapart m l hmt hlt hafter hj hi

/-- The table can be filled, and its numbers tell whether positions reach each other. -/
theorem exists_numbers (h : g.Splits components) :
    ∃ (table : Array Nat) (number : Fin n → Nat), numbers components = .ok table ∧
      (∀ i : Fin n, table[i.val]? = some (number i)) ∧
      ∀ i j, number i = number j ↔ g.Connects i j := by
  have hapart : components.Pairwise fun c d => ∀ i ∈ c, ∀ j ∈ d, Fin.val i ≠ Fin.val j :=
    h.disjoint.imp fun hd i hi j hj he => hd hi (Fin.ext he ▸ hj)
  obtain ⟨table, htable, -, hnumbered, -⟩ := Table.exists_foldlM_number Fin.val id hapart 0
    (Array.replicate n 0) fun _ _ i _ => by
      rw [Array.size_replicate]
      exact i.isLt
  have hplace (i : Fin n) : ∃ (l : Nat) (c : List (Fin n)), components[l]? = some c ∧ i ∈ c := by
    obtain ⟨c, hc, hi⟩ := h.covers i
    obtain ⟨l, hl⟩ := List.getElem?_of_mem hc
    exact ⟨l, c, hl, hi⟩
  choose number listed hlisted hmem using hplace
  refine ⟨table, number, htable, fun i => ?_, fun i j => ?_⟩
  · rw [hnumbered _ _ (hlisted i) i (hmem i), id, Nat.zero_add]
  · rw [← h.connected _ (List.mem_of_getElem? (hlisted i)) i (hmem i)]
    constructor
    · intro he
      have hsame : listed i = listed j := Option.some.inj (by rw [← hlisted i, ← hlisted j, he])
      rw [hsame]
      exact hmem j
    · intro hj
      exact h.place_unique (hlisted i) (hlisted j) hj (hmem j)

/-- The search for a cycle has an answer, which tells whether an arc that consumes a symbol connects
positions that reach each other. -/
theorem exists_hasConsumingCycle (h : g.Splits components) :
    ∃ b, g.hasConsumingCycle components = .ok b ∧
      (b = true ↔ ∃ e ∈ g.arcs, e.consumes = true ∧ g.Connects e.source e.target) := by
  obtain ⟨table, number, htable, hnumber, hsame⟩ := h.exists_numbers
  refine ⟨g.arcs.any fun e => e.consumes && number e.source == number e.target, ?_, ?_⟩
  · rw [hasConsumingCycle, htable, Outcome.ok_bind]
    refine Outcome.anyM_eq_ok (List.forall₂_same.mpr fun e _ => ?_)
    rw [Table.entry_eq_ok.mpr (hnumber e.source), Table.entry_eq_ok.mpr (hnumber e.target)]
    cases e.consumes <;> rfl
  · simp only [List.any_eq_true, Bool.and_eq_true, beq_iff_eq, hsame]

/-- The answer depends on nothing but which arcs there are, in whatever order components are listed. -/
theorem hasConsumingCycle_congr (h : g.Splits components) {g' : ArcGraph n}
    {components' : List (List (Fin n))} (h' : g'.Splits components')
    (harcs : ∀ e, e ∈ g.arcs ↔ e ∈ g'.arcs) :
    g.hasConsumingCycle components = g'.hasConsumingCycle components' := by
  have hleads : Search.Leads g.successors = Search.Leads g'.successors := by
    funext i j
    simp only [leads_successors_iff, harcs]
  have hconnects (i j : Fin n) : g.Connects i j ↔ g'.Connects i j := by
    rw [Connects, Connects, Search.Reaches, Search.Reaches, hleads]
  obtain ⟨b, hb, hcycle⟩ := h.exists_hasConsumingCycle
  obtain ⟨c, hc, hcycle'⟩ := h'.exists_hasConsumingCycle
  rw [hb, hc, Except.ok.injEq, Bool.eq_iff_iff, hcycle, hcycle']
  simp only [harcs, hconnects]

end Splits
end ArcGraph
end FiniteAutomata
