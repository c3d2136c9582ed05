import FiniteAutomata.Proofs.CanonicalOrder
import FiniteAutomata.Proofs.Minimization.Residuals
import FiniteAutomata.Proofs.Regex.DeadEnds

/-! # Deciding whether patterns are equivalent

A pattern is compiled, determinized, minimized and determinized again. What minimization leaves is
minimal, as no dead states have come up before, and the last step numbers its states in an order that
depends on the language only. So two patterns denote the same language exactly if the same automaton
comes out for both.
-/
namespace FiniteAutomata
namespace Regex
variable {pattern pattern' : String} {limits : Limits} {a x y : Automaton}

/-- The minimal automaton of a pattern, its states numbered in the order of a search. -/
def canonical (pattern : String) (limits : Limits) : Logged Automaton := do
  let a ← compile pattern
  let d ← a.toDeterministic limits
  let m ← d.minimize limits
  m.toDeterministic limits

theorem canonical_eq_ok :
    (canonical pattern limits).outcome = .ok x ↔ ∃ a d m, (compile pattern).outcome = .ok a ∧
      (a.toDeterministic limits).outcome = .ok d ∧ (d.minimize limits).outcome = .ok m ∧
      (m.toDeterministic limits).outcome = .ok x := by
  unfold canonical
  simp only [Logged.outcome_bind, Outcome.bind_eq_ok]
  constructor
  · rintro ⟨a, ha, d, hd, m, hm, hx⟩
    exact ⟨a, d, m, ha, hd, hm, hx⟩
  · rintro ⟨a, d, m, ha, hd, hm, hx⟩
    exact ⟨a, ha, d, hd, m, hm, hx⟩

theorem minimal_of_compile {d m : Automaton} (hl : limits.maxPowerStates ≤ 2 ^ 32)
    (ha : (compile pattern).outcome = .ok a) (hd : (a.toDeterministic limits).outcome = .ok d)
    (hm : (d.minimize limits).outcome = .ok m) :
    m.Minimal ∧ ∀ P, Denotes pattern.toList P → m.language = P.matches' := by
  obtain ⟨n, ix, i, p, hw, hr, hi, -, -⟩ := Automaton.toDeterministic_eq_ok hd
  obtain ⟨hdet, hlanguage, -⟩ := Automaton.toDeterministic_keeps hl hd
  have hcondenses := Automaton.condenses_minimize hdet hm
  have hlive := (live_compile ha hw).toDeterministic hl hd
  refine ⟨hcondenses.minimal hdet hlive, ?_⟩
  intro P hP
  rw [hcondenses.language, hlanguage]
  exact language_compile ha hw (Automaton.initialState?_of_initial hr hi) hP

theorem language_canonical (hl : limits.maxPowerStates ≤ 2 ^ 32)
    (hx : (canonical pattern limits).outcome = .ok x) {P : RegularExpression Char}
    (hP : Denotes pattern.toList P) : x.language = P.matches' := by
  obtain ⟨a, d, m, ha, hd, hm, hx⟩ := canonical_eq_ok.mp hx
  obtain ⟨-, hlanguage⟩ := minimal_of_compile hl ha hd hm
  rw [(Automaton.toDeterministic_keeps hl hx).2.1, hlanguage P hP]

/-- Two patterns denote the same language exactly if their canonical automata are equal. -/
theorem canonical_eq_iff (hl : limits.maxPowerStates ≤ 2 ^ 32)
    (hx : (canonical pattern limits).outcome = .ok x)
    (hy : (canonical pattern' limits).outcome = .ok y) :
    (∃ P, Denotes pattern.toList P) ∧ (∃ Q, Denotes pattern'.toList Q) ∧
      ∀ P Q, Denotes pattern.toList P → Denotes pattern'.toList Q →
        (x = y ↔ P.matches' = Q.matches') := by
  obtain ⟨a, d, m, ha, hd, hm, hx'⟩ := canonical_eq_ok.mp hx
  obtain ⟨b, e, k, hb, he, hk, hy'⟩ := canonical_eq_ok.mp hy
  refine ⟨exists_denotes ha, exists_denotes hb, ?_⟩
  intro P Q hP hQ
  constructor
  · intro hxy
    rw [← language_canonical hl hx hP, ← language_canonical hl hy hQ, hxy]
  · intro hPQ
    obtain ⟨hminimal, hlanguage⟩ := minimal_of_compile hl ha hd hm
    obtain ⟨hminimal', hlanguage'⟩ := minimal_of_compile hl hb he hk
    have hsame : m.language = k.language := by rw [hlanguage P hP, hlanguage' Q hQ, hPQ]
    exact hminimal.toDeterministic_eq hminimal' hsame hx' hy'

theorem mem_kstar_char {c : Char} {w : List Char} :
    w ∈ (RegularExpression.char c).star.matches' ↔ ∀ d ∈ w, d = c := by
  rw [RegularExpression.matches'_star, RegularExpression.matches'_char, Language.mem_kstar]
  constructor
  · rintro ⟨ws, rfl, hws⟩ d hd
    obtain ⟨u, hu, hd⟩ := List.mem_flatten.mp hd
    obtain rfl : u = [c] := hws u hu
    exact List.mem_singleton.mp hd
  · intro hw
    refine ⟨w.map fun d => [d], ?_, ?_⟩
    · rw [← List.flatMap_def, List.flatMap_singleton']
    · intro u hu
      obtain ⟨d, hd, rfl⟩ := List.mem_map.mp hu
      rw [hw d hd]
      rfl

/-- For the repetition of one symbol, one state is enough. -/
theorem length_le_one_of_language_star {m : Automaton} (hm : m.Minimal) {c : Char}
    (h : m.language = (RegularExpression.char c).star.matches') : m.states.length ≤ 1 := by
  have hsame : ∀ q ∈ m.states, m.languageFrom q.id = m.language := by
    intro q hq
    obtain ⟨u, hu⟩ := hm.connected q hq
    obtain ⟨v, hv⟩ := hm.live u q.id hu
    have huv := Automaton.mem_language_of_leadsTo hu hv
    rw [h, mem_kstar_char] at huv
    rw [hm.deterministic.languageFrom_eq hu]
    apply Language.ext
    intro w
    rw [Language.mem_leftQuotient, h, mem_kstar_char, mem_kstar_char]
    constructor
    · intro hw d hd
      exact hw d (List.mem_append_right u hd)
    · intro hw d hd
      rcases List.mem_append.mp hd with hd | hd
      · exact huv d (List.mem_append_left v hd)
      · exact hw d hd
  have hnodup : m.states.Nodup := hm.deterministic.wellFormed.nodup.of_map _
  match hstates : m.states with
  | [] => exact Nat.zero_le 1
  | [_] => exact Nat.le_refl 1
  | p :: q :: rest =>
    have hp : p ∈ m.states := by simp [hstates]
    have hq : q ∈ m.states := by simp [hstates]
    have hpq : p = q := hm.distinguished p hp q hq ((hsame p hp).trans (hsame q hq).symm)
    rw [hstates, hpq] at hnodup
    simp at hnodup

theorem exists_canonical_of_star {c : Char} {s : State} {P : RegularExpression Char}
    (hl : limits.maxPowerStates = 2 ^ 32) (hp : maxCount ≤ limits.maxPairChecks)
    (ha : (compile pattern).outcome = .ok a) (hw : a.WellFormed) (hs : a.initialState? = some s)
    (hlength : a.states.length ≤ 32) (hP : Denotes pattern.toList P)
    (h : P.matches' = (RegularExpression.char c).star.matches') :
    ∃ x, (canonical pattern limits).outcome = .ok x := by
  have hle : limits.maxPowerStates ≤ 2 ^ 32 := Nat.le_of_eq hl
  have hpower : ∀ k ≤ 32, 2 ^ k ≤ limits.maxPowerStates := by
    intro k hk
    rw [hl]
    exact Nat.pow_le_pow_right (by decide) hk
  obtain ⟨d, hd⟩ := Automaton.exists_toDeterministic hw hs (hpower _ hlength)
  obtain ⟨hdet, -, -⟩ := Automaton.toDeterministic_keeps hle hd
  obtain ⟨m, hm⟩ := Automaton.exists_minimize hdet hp
  obtain ⟨hminimal, hlanguage⟩ := minimal_of_compile hle ha hd hm
  have hone := length_le_one_of_language_star hminimal ((hlanguage P hP).trans h)
  obtain ⟨q, hq⟩ := hminimal.deterministic.initial
  obtain ⟨x, hx⟩ := Automaton.exists_toDeterministic hminimal.deterministic.wellFormed hq
    (hpower _ (Nat.le_trans hone (by decide)))
  exact ⟨x, canonical_eq_ok.mpr ⟨a, d, m, ha, hd, hm, hx⟩⟩

theorem denotes_star : Denotes "a*".toList (RegularExpression.char 'a').star :=
  .derived (.alternative (.single (.star (w := ['a']) (.atom (.symbol ⟨rfl, by decide⟩)))))

theorem denotes_star_star : Denotes "a**".toList (RegularExpression.char 'a').star.star :=
  .derived (.alternative (.single (.star (w := ['a', '*'])
    (.star (w := ['a']) (.atom (.symbol ⟨rfl, by decide⟩))))))

theorem matches_star_star : (RegularExpression.char 'a').star.star.matches' =
    (RegularExpression.char 'a').star.matches' := by
  rw [RegularExpression.matches'_star, RegularExpression.matches'_star, kstar_idem]

theorem exists_canonical_star_star (limits : Limits) (hl : limits.maxPowerStates = 2 ^ 32)
    (hp : maxCount ≤ limits.maxPairChecks) :
    (∃ x, (canonical "a*" limits).outcome = .ok x) ∧
      ∃ y, (canonical "a**" limits).outcome = .ok y := by
  constructor
  · obtain ⟨a, s, ha, hw, hs, hlength⟩ : ∃ a s, (compile "a*").outcome = .ok a ∧ a.WellFormed ∧
        a.initialState? = some s ∧ a.states.length ≤ 32 :=
      ⟨_, _, rfl, ⟨by decide, by decide⟩, rfl, by decide⟩
    exact exists_canonical_of_star hl hp ha hw hs hlength denotes_star rfl
  · obtain ⟨a, s, ha, hw, hs, hlength⟩ : ∃ a s, (compile "a**").outcome = .ok a ∧ a.WellFormed ∧
        a.initialState? = some s ∧ a.states.length ≤ 32 :=
      ⟨_, _, rfl, ⟨by decide, by decide⟩, rfl, by decide⟩
    exact exists_canonical_of_star hl hp ha hw hs hlength denotes_star_star matches_star_star

theorem canonical_star_star :
    ∃ x y, (canonical "a*" { maxPowerStates := 2 ^ 32, maxPairChecks := maxCount }).outcome = .ok x ∧
      (canonical "a**" { maxPowerStates := 2 ^ 32, maxPairChecks := maxCount }).outcome = .ok y ∧
      x = y := by
  obtain ⟨⟨x, hx⟩, y, hy⟩ := exists_canonical_star_star
    { maxPowerStates := 2 ^ 32, maxPairChecks := maxCount } rfl (Nat.le_refl _)
  obtain ⟨-, -, hiff⟩ := canonical_eq_iff (Nat.le_refl _) hx hy
  exact ⟨x, y, hx, hy, (hiff _ _ denotes_star denotes_star_star).mpr matches_star_star.symm⟩

end Regex
end FiniteAutomata
