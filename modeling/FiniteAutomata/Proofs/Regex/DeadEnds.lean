import FiniteAutomata.Proofs.Language
import FiniteAutomata.Proofs.Regex.Compilation

/-! # Compiled patterns have no dead ends

Whatever was built since, the exit of the fragment is in reach of every state of it, so that in the
automaton of a pattern every beginning of a path can be completed to an accepting one.
-/
namespace FiniteAutomata
namespace Regex
namespace Builder
variable {old mid new : Builder} {f g : Fragment} {P Q : RegularExpression Char} {k : Nat}
  {p q r : StateId}

/-- From every state made since, some word is read to the exit of the fragment. -/
def Finishes (old new : Builder) (f : Fragment) : Prop :=
  new.size ≤ UInt32.size → ∀ k, old.size ≤ k → k < new.size →
    ∃ w, Reads new.transitions.toList (.ofNat k) w (.ofNat f.exit)

theorem Adds.subset (h : Adds old new f P) :
    ∀ t ∈ old.transitions.toList, t ∈ new.transitions.toList := by
  obtain ⟨ts, hts, -⟩ := h
  intro t ht
  rw [hts]
  exact List.mem_append_left _ ht

theorem Adds.size_le (h : Adds old new f P) : old.size ≤ new.size := by
  obtain ⟨-, -, hle, -⟩ := h
  exact hle

theorem Adds.entry (h : Adds old new f P) (hs : new.size ≤ UInt32.size) :
    old.size ≤ f.entry ∧ f.entry < new.size := by
  obtain ⟨ts, -, -, hpart⟩ := h
  exact (hpart hs).entry

theorem Adds.exit_lt (h : Adds old new f P) (hs : new.size ≤ UInt32.size) : f.exit < new.size := by
  obtain ⟨ts, -, -, hpart⟩ := h
  exact (hpart hs).exit.2

theorem Finishes.symbol (b : Builder) (c : Char) : Finishes b (b.symbol c).2 (b.symbol c).1 := by
  intro hs k hle hlt
  by_cases hk : k = b.size
  · subst hk
    exact ⟨[c], (Reads.refl _ _).symbol (by simp [Builder.symbol, newPair, connect])⟩
  · have hsize : (b.symbol c).2.size = b.size + 2 := rfl
    obtain rfl : k = b.size + 1 := by omega
    exact ⟨[], Reads.refl _ _⟩

theorem Finishes.concat (hg : Adds mid new g Q) (hff : Finishes old mid f)
    (hgf : Finishes mid new g) : Finishes old (new.concat f g).2 (new.concat f g).1 := by
  intro hs k hle hlt
  have hsub : ∀ t ∈ new.transitions.toList, t ∈ (new.concat f g).2.transitions.toList := by
    simp_all [Builder.concat, connect]
  have hjoint : ⟨.ofNat f.exit, .ofNat g.entry, .epsilon⟩ ∈ (new.concat f g).2.transitions.toList := by
    simp [Builder.concat, connect]
  by_cases hk : k < mid.size
  · obtain ⟨u, hu⟩ := hff (Nat.le_trans hg.size_le hs) k hle hk
    obtain ⟨hmid, hnew⟩ := hg.entry hs
    obtain ⟨v, hv⟩ := hgf hs g.entry hmid hnew
    have hu := (hu.mono hg.subset).mono hsub
    exact ⟨u ++ v, (hu.slip hjoint).trans (hv.mono hsub)⟩
  · obtain ⟨v, hv⟩ := hgf hs k (Nat.not_lt.mp hk) hlt
    exact ⟨v, hv.mono hsub⟩

theorem Finishes.union (hf : Adds old mid f P) (hg : Adds mid new g Q) (hff : Finishes old mid f)
    (hgf : Finishes mid new g) : Finishes old (new.union f g).2 (new.union f g).1 := by
  intro hs k hle hlt
  have hsize : (new.union f g).2.size = new.size + 2 := rfl
  have hexit : (new.union f g).1.exit = new.size + 1 := rfl
  have hsub : ∀ t ∈ new.transitions.toList, t ∈ (new.union f g).2.transitions.toList := by
    simp_all [Builder.union, newPair, connect]
  have hs' : new.size ≤ UInt32.size := by omega
  have hleft : ∀ k, old.size ≤ k → k < mid.size → ∃ w,
      Reads (new.union f g).2.transitions.toList (.ofNat k) w (.ofNat (new.size + 1)) := by
    intro k hle hlt
    obtain ⟨u, hu⟩ := hff (Nat.le_trans hg.size_le hs') k hle hlt
    have hu := (hu.mono hg.subset).mono hsub
    exact ⟨u, hu.slip (by simp [Builder.union, newPair, connect])⟩
  rw [hexit]
  by_cases hk : k < mid.size
  · exact hleft k hle hk
  · by_cases hk' : k < new.size
    · obtain ⟨v, hv⟩ := hgf hs' k (Nat.not_lt.mp hk) hk'
      have hv := hv.mono hsub
      exact ⟨v, hv.slip (by simp [Builder.union, newPair, connect])⟩
    · by_cases hentry : k = new.size
      · obtain ⟨hold, hmid⟩ := hf.entry (Nat.le_trans hg.size_le hs')
        obtain ⟨u, hu⟩ := hleft f.entry hold hmid
        subst hentry
        exact ⟨u, hu.epsilon (by simp [Builder.union, newPair, connect])⟩
      · obtain rfl : k = new.size + 1 := by omega
        exact ⟨[], Reads.refl _ _⟩

theorem Finishes.star (hf : Finishes old new f) : Finishes old (new.star f).2 (new.star f).1 := by
  intro hs k hle hlt
  have hsize : (new.star f).2.size = new.size + 2 := rfl
  have hexit : (new.star f).1.exit = new.size + 1 := rfl
  have hsub : ∀ t ∈ new.transitions.toList, t ∈ (new.star f).2.transitions.toList := by
    simp_all [Builder.star, newPair, connect]
  rw [hexit]
  by_cases hk : k < new.size
  · obtain ⟨u, hu⟩ := hf (by omega) k hle hk
    have hu := hu.mono hsub
    exact ⟨u, hu.slip (by simp [Builder.star, newPair, connect])⟩
  · by_cases hentry : k = new.size
    · subst hentry
      exact ⟨[], (Reads.refl _ _).epsilon (by simp [Builder.star, newPair, connect])⟩
    · obtain rfl : k = new.size + 1 := by omega
      exact ⟨[], Reads.refl _ _⟩

theorem compositional_finishes :
    Compositional fun old new f P => Adds old new f P ∧ Finishes old new f where
  symbol := fun b c => ⟨compositional_adds.symbol b c, .symbol b c⟩
  concat := fun hf hg => ⟨compositional_adds.concat hf.1 hg.1, .concat hg.1 hf.2 hg.2⟩
  union := fun hf hg => ⟨compositional_adds.union hf.1 hg.1, .union hf.1 hg.1 hf.2 hg.2⟩
  star := fun hf => ⟨compositional_adds.star hf.1, hf.2.star⟩

theorem Finishes.live {b : Builder} (h : Finishes {} b f) (hs : b.size ≤ UInt32.size)
    (hf : f.exit < b.size) (hw : (b.automaton f).WellFormed) : (b.automaton f).Live := by
  intro w q hq
  obtain ⟨s, hs', rfl⟩ := hq.exists_state hw
  obtain ⟨k, hk, rfl⟩ := mem_states.mp hs'
  obtain ⟨v, hv⟩ := h hs k (Nat.zero_le k) hk
  exact ⟨v, (acceptsFrom_automaton hf).mpr hv⟩

end Builder

theorem live_emptyWord : emptyWord.Live := by
  have hin : ∀ t ∈ ({ size := 1 } : Builder).transitions.toList,
      t.source.toNat < 1 ∧ t.target.toNat < 1 := fun t ht => absurd ht List.not_mem_nil
  have hw := Builder.wellFormed_automaton (f := ⟨0, 0⟩) (by decide) hin
  refine Builder.Finishes.live ?_ (by decide) Nat.zero_lt_one hw
  intro _ k _ hk
  obtain rfl := Nat.lt_one_iff.mp hk
  exact ⟨[], Reads.refl _ _⟩

theorem live_compile {pattern : String} {a : Automaton} (h : (compile pattern).outcome = .ok a)
    (hw : a.WellFormed) : a.Live := by
  obtain ⟨post, hpost, ⟨rfl, rfl⟩ | ⟨hne, ha⟩⟩ := compile_eq_ok h
  · exact live_emptyWord
  · obtain ⟨ts, g, P, -, -, -, hwrites⟩ := exists_parse_of_ofPattern hpost
    obtain rfl := holes_of_ofPostfix hwrites ha
    obtain ⟨b, f, hfold, hadds, hfinishes⟩ :=
      Assembly.exists_foldlM_of Builder.compositional_finishes hwrites rfl {}
    obtain rfl := automaton_eq_of_ofPostfix hfold ha
    have hs : b.size ≤ UInt32.size := by simpa [Builder.automaton] using hw.length_le
    exact hfinishes.live hs (hadds.exit_lt hs) hw

theorem language_compile {pattern : String} {a : Automaton} (h : (compile pattern).outcome = .ok a)
    (hw : a.WellFormed) {s : State} (hs : a.initialState? = some s) {P : RegularExpression Char}
    (hP : Denotes pattern.toList P) : a.language = P.matches' := by
  apply Language.ext
  intro w
  obtain ⟨r, hr, hacc⟩ := exists_simulate_of_denotes h hw.length_le hP (String.ofList w)
  rw [Automaton.accepted_iff_mem_language hw hs hr, String.toList_ofList] at hacc
  exact hacc

end Regex
end FiniteAutomata
