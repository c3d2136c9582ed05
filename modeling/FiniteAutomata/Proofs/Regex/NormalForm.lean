import FiniteAutomata.Proofs.Structure
import FiniteAutomata.Proofs.Regex.DeadEnds
import FiniteAutomata.Proofs.Regex.Parentheses

/-! # The normal form of compiled patterns

Nothing enters the entry of a fragment and nothing leaves its exit, so that the joints of a larger part
are all that ever leaves the exits of smaller ones. Every other state is left on one symbol or by one or
two epsilon transitions, and all states are reached from the entry. How many states and transitions there
are is counted along the expression, which has as many symbols, alternatives and repetitions as the
pattern has of the characters that stand for them.
-/
namespace FiniteAutomata
namespace Regex

instance : DecidablePred IsSymbol := fun c =>
  inferInstanceAs (Decidable (c.isAlphanum = true ∧ c ≠ Label.epsilonMark))

/-- One transition on a symbol, or one or two epsilon transitions. -/
def Branches (ts : List Transition) : Prop :=
  (∃ t c, ts = [t] ∧ t.label = .symbol c) ∨
    (ts.length = 1 ∨ ts.length = 2) ∧ ∀ t ∈ ts, t.label = .epsilon

/-- The transitions that leave the state with the number. -/
def leaving (ts : List Transition) (k : Nat) : List Transition :=
  ts.filter fun t => t.source.toNat = k

section Leaving
variable {ts us : List Transition} {t : Transition} {k : Nat}

theorem leaving_nil : leaving [] k = [] := rfl

theorem leaving_append : leaving (ts ++ us) k = leaving ts k ++ leaving us k := List.filter_append ..

theorem leaving_cons_self (h : t.source.toNat = k) : leaving (t :: ts) k = t :: leaving ts k :=
  List.filter_cons_of_pos (decide_eq_true h)

theorem leaving_cons_of_ne (h : t.source.toNat ≠ k) : leaving (t :: ts) k = leaving ts k :=
  List.filter_cons_of_neg (by simpa using h)

theorem leaving_eq_nil (h : ∀ t ∈ ts, t.source.toNat ≠ k) : leaving ts k = [] :=
  List.filter_eq_nil_iff.mpr fun t ht => by simpa using h t ht

theorem branches_one (h : t.label = .epsilon) : Branches [t] :=
  Or.inr ⟨Or.inl rfl, by simpa using h⟩

theorem branches_two {u : Transition} (ht : t.label = .epsilon) (hu : u.label = .epsilon) :
    Branches [t, u] :=
  Or.inr ⟨Or.inr rfl, by simp [ht, hu]⟩

end Leaving

/-- Nothing enters the entry of the fragment or leaves its exit, every other of its states branches,
and all are reached from the entry. -/
structure NormalForm (lo hi : Nat) (ts : List Transition) (f : Fragment) : Prop where
  distinct : f.entry ≠ f.exit
  unentered : ∀ t ∈ ts, t.target.toNat ≠ f.entry
  unleft : ∀ t ∈ ts, t.source.toNat ≠ f.exit
  branches : ∀ k, lo ≤ k → k < hi → k ≠ f.exit → Branches (leaving ts k)
  reached : ∀ k, lo ≤ k → k < hi → ∃ w, Reads ts (.ofNat f.entry) w (.ofNat k)

theorem Part.leaving_outside {lo hi : Nat} {ts : List Transition} {f : Fragment}
    {P : RegularExpression Char} (h : Part lo hi ts f P) {k : Nat} (hk : k < lo ∨ hi ≤ k) :
    leaving ts k = [] := by
  refine leaving_eq_nil fun t ht => ?_
  have hin := h.inside t ht
  omega

namespace NormalForm
open Automaton (toNat_ofNat)
open Regex.Part (concatJoint unionJoints starJoints)
variable {lo mid hi : Nat} {ts us : List Transition} {f g : Fragment} {P Q : RegularExpression Char}

theorem branches_append (nf : NormalForm lo hi ts f) {js : List Transition}
    (hexit : Branches (leaving js f.exit))
    (hjs : ∀ t ∈ js, t.source.toNat = f.exit ∨ t.source.toNat < lo ∨ hi ≤ t.source.toNat) {k : Nat}
    (hle : lo ≤ k) (hlt : k < hi) : Branches (leaving (ts ++ js) k) := by
  rw [leaving_append]
  by_cases hk : k = f.exit
  · subst hk
    rw [leaving_eq_nil nf.unleft]
    exact hexit
  · have hnone : leaving js k = [] := leaving_eq_nil fun t ht => by
      have hsource := hjs t ht
      omega
    rw [hnone, List.append_nil]
    exact nf.branches k hle hlt hk

theorem symbol (hs : lo + 2 ≤ UInt32.size) (c : Char) :
    NormalForm lo (lo + 2) [⟨.ofNat lo, .ofNat (lo + 1), .symbol c⟩] ⟨lo, lo + 1⟩ := by
  have hlo : (UInt32.ofNat lo).toNat = lo := toNat_ofNat hs (by omega)
  have hnext : (UInt32.ofNat (lo + 1)).toNat = lo + 1 := toNat_ofNat hs (by omega)
  refine ⟨by simp, ?_, ?_, ?_, ?_⟩
  · intro t ht
    obtain rfl := List.mem_singleton.mp ht
    dsimp only
    omega
  · intro t ht
    obtain rfl := List.mem_singleton.mp ht
    dsimp only
    omega
  · intro k hle hlt hne
    obtain rfl : k = lo := by simp only at hne; omega
    rw [leaving_cons_self hlo]
    exact Or.inl ⟨_, c, rfl, rfl⟩
  · intro k hle hlt
    by_cases hk : k = lo
    · subst hk
      exact ⟨[], .refl _ _⟩
    · obtain rfl : k = lo + 1 := by omega
      exact ⟨[c], (Reads.refl _ _).symbol (List.mem_singleton_self _)⟩

theorem branches_concat (hf : Part lo mid ts f P) (hg : Part mid hi us g Q)
    (nf : NormalForm lo mid ts f) (ng : NormalForm mid hi us g) {k : Nat} (hle : lo ≤ k) (hlt : k < hi)
    (hne : k ≠ g.exit) : Branches (leaving (ts ++ us ++ [concatJoint f g]) k) := by
  have hfexit := hf.exit
  have hsource : (concatJoint f g).source.toNat = f.exit := hf.toNat_exit
  rw [leaving_append, leaving_append]
  by_cases hk : k < mid
  · rw [hg.leaving_outside (Or.inl hk), List.append_nil, ← leaving_append]
    refine nf.branches_append ?_ (by simp [hsource]) hle hk
    rw [leaving_cons_self hsource]
    exact branches_one rfl
  · rw [hf.leaving_outside (Or.inr (Nat.not_lt.mp hk)), leaving_cons_of_ne (by omega), leaving_nil,
      List.nil_append, List.append_nil]
    exact ng.branches k (Nat.not_lt.mp hk) hlt hne

theorem reached_concat (hf : Part lo mid ts f P) (nf : NormalForm lo mid ts f)
    (ng : NormalForm mid hi us g) {k : Nat} (hle : lo ≤ k) (hlt : k < hi) :
    ∃ w, Reads (ts ++ us ++ [concatJoint f g]) (.ofNat f.entry) w (.ofNat k) := by
  have hleft : ∀ t ∈ ts, t ∈ ts ++ us ++ [concatJoint f g] := by simp_all
  have hright : ∀ t ∈ us, t ∈ ts ++ us ++ [concatJoint f g] := by simp_all
  by_cases hk : k < mid
  · obtain ⟨w, hw⟩ := nf.reached k hle hk
    exact ⟨w, hw.mono hleft⟩
  · obtain ⟨v, hv⟩ := nf.reached f.exit hf.exit.1 hf.exit.2
    obtain ⟨w, hw⟩ := ng.reached k (Nat.not_lt.mp hk) hlt
    exact ⟨v ++ w, ((hv.mono hleft).slip (by simp [concatJoint])).trans (hw.mono hright)⟩

theorem concat (hf : Part lo mid ts f P) (hg : Part mid hi us g Q) (nf : NormalForm lo mid ts f)
    (ng : NormalForm mid hi us g) :
    NormalForm lo hi (ts ++ us ++ [concatJoint f g]) ⟨f.entry, g.exit⟩ := by
  have hfentry := hf.entry
  have hfexit := hf.exit
  have hgentry := hg.entry
  have hgexit := hg.exit
  have hsource : (concatJoint f g).source.toNat = f.exit := hf.toNat_exit
  have htarget : (concatJoint f g).target.toNat = g.entry := hg.toNat_entry
  have houter : ∀ t ∈ ts ++ us ++ [concatJoint f g],
      t.target.toNat ≠ f.entry ∧ t.source.toNat ≠ g.exit := by
    intro t ht
    simp only [List.mem_append, List.mem_singleton] at ht
    rcases ht with (ht | ht) | rfl
    · have hin := hf.inside t ht
      exact ⟨nf.unentered t ht, by omega⟩
    · have hin := hg.inside t ht
      exact ⟨by omega, ng.unleft t ht⟩
    · omega
  exact {
    distinct := by dsimp only; omega
    unentered := fun t ht => (houter t ht).1
    unleft := fun t ht => (houter t ht).2
    branches := fun k hle hlt hne => branches_concat hf hg nf ng hle hlt hne
    reached := fun k hle hlt => reached_concat hf nf ng hle hlt }

theorem reached_union (hf : Part lo mid ts f P) (nf : NormalForm lo mid ts f)
    (ng : NormalForm mid hi us g) {k : Nat} (hle : lo ≤ k) (hlt : k < hi + 2) :
    ∃ w, Reads (ts ++ us ++ unionJoints hi f g) (.ofNat hi) w (.ofNat k) := by
  have hleft : ∀ t ∈ ts, t ∈ ts ++ us ++ unionJoints hi f g := by simp_all
  have hright : ∀ t ∈ us, t ∈ ts ++ us ++ unionJoints hi f g := by simp_all
  have hreached : ∀ k, lo ≤ k → k < mid →
      ∃ w, Reads (ts ++ us ++ unionJoints hi f g) (.ofNat hi) w (.ofNat k) := by
    intro k hle hlt
    obtain ⟨w, hw⟩ := nf.reached k hle hlt
    exact ⟨w, (hw.mono hleft).epsilon (by simp [unionJoints])⟩
  by_cases hk : k < mid
  · exact hreached k hle hk
  · by_cases hk' : k < hi
    · obtain ⟨w, hw⟩ := ng.reached k (Nat.not_lt.mp hk) hk'
      exact ⟨w, (hw.mono hright).epsilon (by simp [unionJoints])⟩
    · by_cases hentry : k = hi
      · subst hentry
        exact ⟨[], .refl _ _⟩
      · obtain rfl : k = hi + 1 := by omega
        obtain ⟨w, hw⟩ := hreached f.exit hf.exit.1 hf.exit.2
        exact ⟨w, hw.slip (by simp [unionJoints])⟩

theorem branches_union (hf : Part lo mid ts f P) (hg : Part mid hi us g Q) (hs : hi + 2 ≤ UInt32.size)
    (nf : NormalForm lo mid ts f) (ng : NormalForm mid hi us g) {k : Nat} (hle : lo ≤ k)
    (hlt : k < hi + 1) : Branches (leaving (ts ++ us ++ unionJoints hi f g) k) := by
  have hfexit := hf.exit
  have hgexit := hg.exit
  have hfirst : (UInt32.ofNat hi).toNat = hi := toNat_ofNat hs (by omega)
  have hfx := hf.toNat_exit
  have hgx := hg.toNat_exit
  have hsources : ∀ t ∈ unionJoints hi f g,
      t.source.toNat = hi ∨ t.source.toNat = f.exit ∨ t.source.toNat = g.exit := by
    simp only [unionJoints, List.forall_mem_cons, hfirst, hfx, hgx]
    simp
  rw [leaving_append, leaving_append]
  by_cases hk : k < mid
  · rw [hg.leaving_outside (Or.inl hk), List.append_nil, ← leaving_append]
    refine nf.branches_append ?_ (fun t ht => by have hsource := hsources t ht; omega) hle hk
    rw [unionJoints, leaving_cons_of_ne (by dsimp only; omega),
      leaving_cons_of_ne (by dsimp only; omega), leaving_cons_self hfx,
      leaving_cons_of_ne (by dsimp only; omega)]
    exact branches_one rfl
  · rw [hf.leaving_outside (Or.inr (Nat.not_lt.mp hk)), List.nil_append]
    by_cases hk' : k < hi
    · rw [← leaving_append]
      refine ng.branches_append ?_ (fun t ht => by have hsource := hsources t ht; omega)
        (Nat.not_lt.mp hk) hk'
      rw [unionJoints, leaving_cons_of_ne (by dsimp only; omega),
        leaving_cons_of_ne (by dsimp only; omega), leaving_cons_of_ne (by dsimp only; omega),
        leaving_cons_self hgx]
      exact branches_one rfl
    · obtain rfl : k = hi := by omega
      rw [hg.leaving_outside (Or.inr (Nat.le_refl _)), unionJoints, leaving_cons_self hfirst,
        leaving_cons_self hfirst, leaving_cons_of_ne (by dsimp only; omega),
        leaving_cons_of_ne (by dsimp only; omega)]
      exact branches_two rfl rfl

theorem union (hf : Part lo mid ts f P) (hg : Part mid hi us g Q) (hs : hi + 2 ≤ UInt32.size)
    (nf : NormalForm lo mid ts f) (ng : NormalForm mid hi us g) :
    NormalForm lo (hi + 2) (ts ++ us ++ unionJoints hi f g) ⟨hi, hi + 1⟩ := by
  have hfentry := hf.entry
  have hfexit := hf.exit
  have hgentry := hg.entry
  have hgexit := hg.exit
  have hfirst : (UInt32.ofNat hi).toNat = hi := toNat_ofNat hs (by omega)
  have hlast : (UInt32.ofNat (hi + 1)).toNat = hi + 1 := toNat_ofNat hs (by omega)
  have hfe := hf.toNat_entry
  have hfx := hf.toNat_exit
  have hge := hg.toNat_entry
  have hgx := hg.toNat_exit
  have houter : ∀ t ∈ ts ++ us ++ unionJoints hi f g,
      t.target.toNat ≠ hi ∧ t.source.toNat ≠ hi + 1 := by
    intro t ht
    simp only [unionJoints, List.mem_append, List.mem_cons, List.not_mem_nil, or_false] at ht
    rcases ht with (ht | ht) | rfl | rfl | rfl | rfl
    · have hin := hf.inside t ht
      omega
    · have hin := hg.inside t ht
      omega
    all_goals dsimp only; omega
  exact {
    distinct := by simp
    unentered := fun t ht => (houter t ht).1
    unleft := fun t ht => (houter t ht).2
    branches := fun k hle hlt hne => branches_union hf hg hs nf ng hle (by dsimp only at hne; omega)
    reached := fun k hle hlt => reached_union hf nf ng hle hlt }

theorem branches_star (hf : Part lo hi ts f P) (hs : hi + 2 ≤ UInt32.size) (nf : NormalForm lo hi ts f)
    {k : Nat} (hle : lo ≤ k) (hlt : k < hi + 1) : Branches (leaving (ts ++ starJoints hi f) k) := by
  have hfexit := hf.exit
  have hfirst : (UInt32.ofNat hi).toNat = hi := toNat_ofNat hs (by omega)
  have hfx := hf.toNat_exit
  have hsources : ∀ t ∈ starJoints hi f, t.source.toNat = hi ∨ t.source.toNat = f.exit := by
    simp only [starJoints, List.forall_mem_cons, hfirst, hfx]
    simp
  by_cases hk : k < hi
  · refine nf.branches_append ?_ (fun t ht => by have hsource := hsources t ht; omega) hle hk
    rw [starJoints, leaving_cons_of_ne (by dsimp only; omega),
      leaving_cons_of_ne (by dsimp only; omega), leaving_cons_self hfx, leaving_cons_self hfx]
    exact branches_two rfl rfl
  · obtain rfl : k = hi := by omega
    rw [leaving_append, hf.leaving_outside (Or.inr (Nat.le_refl _)), starJoints,
      leaving_cons_self hfirst, leaving_cons_self hfirst, leaving_cons_of_ne (by dsimp only; omega),
      leaving_cons_of_ne (by dsimp only; omega)]
    exact branches_two rfl rfl

theorem reached_star (nf : NormalForm lo hi ts f) {k : Nat} (hle : lo ≤ k) (hlt : k < hi + 2) :
    ∃ w, Reads (ts ++ starJoints hi f) (.ofNat hi) w (.ofNat k) := by
  have hinner : ∀ t ∈ ts, t ∈ ts ++ starJoints hi f := by simp_all
  by_cases hk : k < hi
  · obtain ⟨w, hw⟩ := nf.reached k hle hk
    exact ⟨w, (hw.mono hinner).epsilon (by simp [starJoints])⟩
  · by_cases hentry : k = hi
    · subst hentry
      exact ⟨[], .refl _ _⟩
    · obtain rfl : k = hi + 1 := by omega
      exact ⟨[], (Reads.refl _ _).epsilon (by simp [starJoints])⟩

theorem star (hf : Part lo hi ts f P) (hs : hi + 2 ≤ UInt32.size) (nf : NormalForm lo hi ts f) :
    NormalForm lo (hi + 2) (ts ++ starJoints hi f) ⟨hi, hi + 1⟩ := by
  have hfentry := hf.entry
  have hfexit := hf.exit
  have hfirst : (UInt32.ofNat hi).toNat = hi := toNat_ofNat hs (by omega)
  have hlast : (UInt32.ofNat (hi + 1)).toNat = hi + 1 := toNat_ofNat hs (by omega)
  have hfe := hf.toNat_entry
  have hfx := hf.toNat_exit
  have houter : ∀ t ∈ ts ++ starJoints hi f, t.target.toNat ≠ hi ∧ t.source.toNat ≠ hi + 1 := by
    intro t ht
    simp only [starJoints, List.mem_append, List.mem_cons, List.not_mem_nil, or_false] at ht
    rcases ht with ht | rfl | rfl | rfl | rfl
    · have hin := hf.inside t ht
      omega
    all_goals dsimp only; omega
  exact {
    distinct := by simp
    unentered := fun t ht => (houter t ht).1
    unleft := fun t ht => (houter t ht).2
    branches := fun k hle hlt hne => branches_star hf hs nf hle (by dsimp only at hne; omega)
    reached := fun k hle hlt => reached_star nf hle hlt }

end NormalForm

/-- The weight of an expression, given what its symbols, alternatives, concatenations and repetitions
weigh. -/
def weight (symbol union concat star : Nat) : RegularExpression Char → Nat
  | .zero | .epsilon => 0
  | .char _ => symbol
  | .plus P Q => weight symbol union concat star P + weight symbol union concat star Q + union
  | .comp P Q => weight symbol union concat star P + weight symbol union concat star Q + concat
  | .star P => weight symbol union concat star P + star

section Weight
variable {x u c k : Nat} {P Q : RegularExpression Char}

theorem weight_mul : weight x u c k (P * Q) = weight x u c k P + weight x u c k Q + c := rfl

theorem weight_plus : weight x u c k (P + Q) = weight x u c k P + weight x u c k Q + u := rfl

theorem weight_star : weight x u c k P.star = weight x u c k P + k := rfl

/-- Of the operators only concatenation is not written, and between two symbols there is always one that
joins two parts. -/
theorem Derives.weight_add {N : Nonterminal} {w : List Char} (h : Derives N w P) :
    weight x u c k P + c * (w.count '|' + 1) =
      (x + c) * w.countP (fun c => IsSymbol c) + u * w.count '|' + k * w.count '*' := by
  induction h with
  | @symbol d hd =>
    have hbar := hd.ne_of_not_alphanum (d := '|') (by decide)
    have hstar := hd.ne_of_not_alphanum (d := '*') (by decide)
    simp [weight, hd, hbar, hstar]
  | group _ ih =>
    have hopen : ¬ IsSymbol '(' := by decide
    have hclose : ¬ IsSymbol ')' := by decide
    simpa [hopen, hclose] using ih
  | atom _ ih => exact ih
  | @star w P _ ih =>
    have hstar : ¬ IsSymbol '*' := by decide
    have hsymbols : (w ++ ['*']).countP (fun c => IsSymbol c) = w.countP fun c => IsSymbol c := by
      simp [hstar]
    have hbars : (w ++ ['*']).count '|' = w.count '|' := by simp
    have hstars : (w ++ ['*']).count '*' = w.count '*' + 1 := by simp
    rw [weight_star, hsymbols, hbars, hstars, Nat.mul_succ k]
    omega
  | single _ ih => exact ih
  | concat _ _ ih ih' =>
    rw [weight_mul, List.count_append, List.countP_append, List.count_append]
    simp only [Nat.mul_add] at ih ih' ⊢
    omega
  | alternative _ ih => exact ih
  | @union v w P Q _ _ ih ih' =>
    have hbar : ¬ IsSymbol '|' := by decide
    have hsymbols : (v ++ '|' :: w).countP (fun c => IsSymbol c) =
        v.countP (fun c => IsSymbol c) + w.countP fun c => IsSymbol c := by
      simp [hbar]
    have hbars : (v ++ '|' :: w).count '|' = v.count '|' + (w.count '|' + 1) := by simp
    have hstars : (v ++ '|' :: w).count '*' = v.count '*' + w.count '*' := by simp
    rw [weight_plus, hsymbols, hbars, hstars]
    simp only [Nat.mul_add] at ih ih' ⊢
    omega

end Weight

theorem IsHollow.countP_isSymbol {w : List Char} (h : IsHollow w) :
    w.countP (fun c => IsSymbol c) = 0 := by
  obtain ⟨n, rfl⟩ := h
  have hopen : ¬ IsSymbol '(' := by decide
  have hclose : ¬ IsSymbol ')' := by decide
  simp [List.countP_replicate, hopen, hclose]

namespace Builder
variable {old mid new b : Builder} {f g : Fragment} {P Q : RegularExpression Char}

theorem joined_normalForm :
    Joined fun lo hi ts f P => Part lo hi ts f P ∧ NormalForm lo hi ts f where
  symbol := fun hs c => ⟨.symbol hs c, .symbol hs c⟩
  concat := fun hf hg => ⟨hf.1.concat hg.1, .concat hf.1 hg.1 hf.2 hg.2⟩
  union := fun hf hg hs => ⟨hf.1.union hg.1 hs, .union hf.1 hg.1 hs hf.2 hg.2⟩
  star := fun hf hs => ⟨hf.1.star hs, .star hf.1 hs hf.2⟩

/-- How much was built since. -/
def Grows (old new : Builder) (_ : Fragment) (P : RegularExpression Char) : Prop :=
  new.size = old.size + weight 2 2 0 2 P ∧
    new.transitions.size = old.transitions.size + weight 1 4 1 4 P

theorem compositional_grows : Compositional Grows where
  symbol := by
    intro b c
    simp [Grows, symbol, newPair, connect, weight]
  concat := by
    rintro old mid new f g P Q ⟨hsize, hcount⟩ ⟨hsize', hcount'⟩
    simp only [Grows, concat, connect, Array.size_push, weight_mul]
    omega
  union := by
    rintro old mid new f g P Q ⟨hsize, hcount⟩ ⟨hsize', hcount'⟩
    simp only [Grows, union, newPair, connect, Array.size_push, weight_plus]
    omega
  star := by
    rintro old new f P ⟨hsize, hcount⟩
    simp only [Grows, star, newPair, connect, Array.size_push, weight_star]
    omega

theorem Compositional.and {C D : Builder → Builder → Fragment → RegularExpression Char → Prop}
    (hC : Compositional C) (hD : Compositional D) :
    Compositional fun old new f P => C old new f P ∧ D old new f P where
  symbol := fun b c => ⟨hC.symbol b c, hD.symbol b c⟩
  concat := fun hf hg => ⟨hC.concat hf.1 hg.1, hD.concat hf.2 hg.2⟩
  union := fun hf hg => ⟨hC.union hf.1 hg.1, hD.union hf.2 hg.2⟩
  star := fun hf => ⟨hC.star hf.1, hD.star hf.2⟩

theorem exists_filter_states (flag : State → Bool) {e : Nat} (he : e < b.size)
    (hflag : ∀ n, flag (.onGrid .patternLayout "q" (.ofNat n) (n == f.entry) (n == f.exit)) = (n == e)) :
    ∃ q, (b.automaton f).states.filter flag = [q] ∧ q.id = .ofNat e := by
  have hone : (List.range b.size).filter (fun n => n == e) = [e] := by
    rw [List.filter_beq, List.count_eq_one_of_mem List.nodup_range (List.mem_range.mpr he)]
    rfl
  have hflagged : (List.range b.size).filter (flag ∘ fun n =>
      .onGrid .patternLayout "q" (.ofNat n) (n == f.entry) (n == f.exit)) = [e] :=
    (List.filter_congr fun n _ => hflag n).trans hone
  refine ⟨.onGrid .patternLayout "q" (.ofNat e) (e == f.entry) (e == f.exit), ?_, rfl⟩
  rw [automaton, List.filter_map, hflagged]
  rfl

theorem filter_source {ts : List Transition} {k : Nat} (hk : k < UInt32.size) :
    ts.filter (fun t => t.source = .ofNat k) = leaving ts k := by
  refine List.filter_congr fun t _ => decide_eq_decide.mpr ?_
  rw [← UInt32.toNat_inj, UInt32.toNat_ofNat_of_lt' hk]

theorem connected_of_reached (hf : f.entry < b.size)
    (h : ∀ k < b.size, ∃ w, Reads b.transitions.toList (.ofNat f.entry) w (.ofNat k)) :
    (b.automaton f).Connected := by
  intro q hq
  obtain ⟨k, hk, rfl⟩ := mem_states.mp hq
  obtain ⟨s, hs, hid⟩ := exists_initialState hf
  obtain ⟨w, hw⟩ := h k hk
  exact ⟨w, s, hs, hid ▸ hw⟩

theorem exists_ends (hpart : Part 0 b.size b.transitions.toList f P)
    (hnormal : NormalForm 0 b.size b.transitions.toList f) :
    ∃ p q, (b.automaton f).states.filter (·.isInitial) = [p] ∧
      (b.automaton f).states.filter (·.isFinal) = [q] ∧ p.id ≠ q.id ∧
      ∀ t ∈ (b.automaton f).transitions, t.target ≠ p.id ∧ t.source ≠ q.id := by
  obtain ⟨p, hp, hpid⟩ := exists_filter_states (f := f) (·.isInitial) hpart.entry.2 fun n => rfl
  obtain ⟨q, hq, hqid⟩ := exists_filter_states (f := f) (·.isFinal) hpart.exit.2 fun n => rfl
  refine ⟨p, q, hp, hq, ?_, fun t ht => ⟨?_, ?_⟩⟩
  · rw [hpid, hqid, Ne, Automaton.ofNat_inj hpart.small hpart.entry.2 hpart.exit.2]
    exact hnormal.distinct
  · intro he
    exact hnormal.unentered t ht (by rw [he, hpid, hpart.toNat_entry])
  · intro he
    exact hnormal.unleft t ht (by rw [he, hqid, hpart.toNat_exit])

theorem branches_of_not_final (hsmall : b.size ≤ UInt32.size)
    (hnormal : NormalForm 0 b.size b.transitions.toList f) {r : State} (hr : r ∈ (b.automaton f).states)
    (hfinal : r.isFinal = false) :
    Branches ((b.automaton f).transitions.filter fun t => t.source = r.id) := by
  obtain ⟨n, hn, rfl⟩ := mem_states.mp hr
  have hne : n ≠ f.exit := by simpa [State.onGrid] using hfinal
  have hbranches := hnormal.branches n (Nat.zero_le n) hn hne
  rw [← filter_source (Nat.lt_of_lt_of_le hn hsmall)] at hbranches
  exact hbranches

end Builder

/-- A pattern with symbols compiles to a fragment in normal form, as large as its expression is heavy. -/
theorem exists_normalForm {pattern : String} {a : Automaton} (h : (compile pattern).outcome = .ok a)
    (hs : a.states.length ≤ UInt32.size) (hpos : 1 ≤ pattern.toList.countP fun c => IsSymbol c) :
    ∃ (b : Builder) (f : Fragment) (P : RegularExpression Char), b.automaton f = a ∧
      Derives .union pattern.toList P ∧ Part 0 b.size b.transitions.toList f P ∧
      NormalForm 0 b.size b.transitions.toList f ∧
      b.size = weight 2 2 0 2 P ∧ b.transitions.size = weight 1 4 1 4 P := by
  obtain ⟨post, hpost, hcompiled⟩ := compile_eq_ok h
  obtain ⟨ts, g, P, htext, hsyms, hp, hwrites⟩ := exists_parse_of_ofPattern hpost
  obtain ⟨rfl, rfl⟩ | ⟨-, ha⟩ := hcompiled
  · have hhollow := hp.isHollow (hwrites.eq_hole rfl).2
    rw [htext] at hhollow
    rw [hhollow.countP_isSymbol] at hpos
    cases hpos
  · obtain rfl := holes_of_ofPostfix hwrites ha
    have hd := hp.derives rfl hsyms
    rw [htext] at hd
    obtain ⟨b, f, hfold, ⟨us, hus, -, hform⟩, hsize, hcount⟩ := Assembly.exists_foldlM_of
      (Builder.joined_normalForm.compositional.and Builder.compositional_grows) hwrites rfl {}
    obtain rfl := automaton_eq_of_ofPostfix hfold ha
    obtain rfl : b.transitions.toList = us := by simpa using hus
    obtain ⟨hpart, hnormal⟩ := hform (by simpa [Builder.automaton] using hs)
    exact ⟨b, f, P, rfl, hd, hpart, hnormal, by simpa using hsize, by simpa using hcount⟩

/-- The automaton of a pattern with symbols has two states for each symbol, alternative and repetition,
numbered by their places. One is initial and another one final; nothing enters the former or leaves the
latter. Every other state has one transition on a symbol or one or two epsilon transitions, and all of
them are of use. -/
theorem compile_normalForm {pattern : String} {a : Automaton} (h : (compile pattern).outcome = .ok a)
    (hs : a.states.length < 2 ^ 32) {s u k : Nat}
    (hsymbols : pattern.toList.countP (fun c => IsSymbol c) = s)
    (halternatives : pattern.toList.count '|' = u) (hrepetitions : pattern.toList.count '*' = k)
    (hpos : 1 ≤ s) :
    a.states.length = 2 * (s + u + k) ∧
    a.ids.map UInt32.toNat = List.range a.states.length ∧
    (a.transitions.length : Int) = 2 * s - 1 - u + 4 * (u + k) ∧
    (∃ p q, a.states.filter (·.isInitial) = [p] ∧ a.states.filter (·.isFinal) = [q] ∧ p.id ≠ q.id ∧
      ∀ t ∈ a.transitions, t.target ≠ p.id ∧ t.source ≠ q.id) ∧
    (∀ r ∈ a.states, r.isFinal = false → Branches (a.transitions.filter fun t => t.source = r.id)) ∧
    a.structureReport.outcome = .ok ⟨[], [], []⟩ := by
  subst hsymbols halternatives hrepetitions
  have hsize : a.states.length ≤ UInt32.size := Nat.le_of_lt hs
  obtain ⟨b, f, P, rfl, hd, hpart, hnormal, hstates, htransitions⟩ := exists_normalForm h hsize hpos
  have hlength : (b.automaton f).states.length = b.size := by simp [Builder.automaton]
  have hsmall : b.size ≤ UInt32.size := hpart.small
  have hw : (b.automaton f).WellFormed := Builder.wellFormed_automaton hsmall fun t ht =>
    ⟨(hpart.inside t ht).1.2, (hpart.inside t ht).2.2⟩
  refine ⟨?_, (Builder.numbered_automaton b f).map_toNat hsmall, ?_, Builder.exists_ends hpart hnormal,
    fun _ => Builder.branches_of_not_final hsmall hnormal, ?_⟩
  · have hweight := hd.weight_add (x := 2) (u := 2) (c := 0) (k := 2)
    omega
  · have hweight := hd.weight_add (x := 1) (u := 4) (c := 1) (k := 4)
    have hcount : (b.automaton f).transitions.length = b.transitions.size := Array.length_toList
    omega
  · obtain ⟨i, hi, -⟩ := Builder.exists_initialState hpart.entry.2
    have hc : (b.automaton f).Connected := Builder.connected_of_reached hpart.entry.2 fun n hn =>
      hnormal.reached n (Nat.zero_le n) hn
    exact Automaton.structureReport_of_connected hw hi hc (live_compile h hw)

theorem compile_normalForm_alternatives :
    ∃ a, (compile "a|b*").outcome = .ok a ∧ a.states.length = 8 ∧ a.transitions.length = 10 ∧
      a.structureReport.outcome = .ok ⟨[], [], []⟩ := by
  obtain ⟨a, ha, hs⟩ : ∃ a, (compile "a|b*").outcome = .ok a ∧ a.states.length < 2 ^ 32 :=
    ⟨_, rfl, by decide⟩
  obtain ⟨hstates, -, htransitions, -, -, hreport⟩ :=
    compile_normalForm ha hs (s := 2) (u := 1) (k := 1) (by decide) (by decide) (by decide) (by decide)
  exact ⟨a, ha, hstates, Int.ofNat_inj.mp htransitions, hreport⟩

end Regex
end FiniteAutomata
