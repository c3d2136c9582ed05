import Mathlib.Data.List.TakeWhile
import FiniteAutomata.Proofs.Outcome
import FiniteAutomata.Proofs.Regex.Order
import FiniteAutomata.Proofs.Regex.Tokens

/-! # Every balanced list of tokens parses

Postfix order asks no more of tokens than that their parentheses match. Reading such tokens from the
left, one is always inside some open groups, behind a part of a pattern at each level, so that the
tokens parse once a hole is put wherever an operand is missing.
-/
namespace FiniteAutomata
namespace Regex

/-- The parentheses match when the given number of groups is open. -/
def Balanced : Nat → List Placed → Prop
  | depth, [] => depth = 0
  | depth, t :: rest =>
    match t.token with
    | .opening => Balanced (depth + 1) rest
    | .closing => ∃ outer, depth = outer + 1 ∧ Balanced outer rest
    | _ => Balanced depth rest

/-- Behind the tokens an operand of the nonterminal is expected, inside that many open groups. -/
inductive Opens : Nonterminal → List Placed → Nat → Prop where
  | start : Opens .union [] 0
  | group {ts : List Placed} {depth : Nat} (p : Nat) :
    Opens .atom ts depth → Opens .union (ts ++ [⟨p, .opening⟩]) (depth + 1)
  | alternative {ts : List Placed} {depth : Nat} : Opens .union ts depth → Opens .concat ts depth
  | union {ts us : List Placed} {depth g : Nat} {P : RegularExpression Char} (p : Nat) :
    Opens .union ts depth → Parses .union us g P → Opens .concat (ts ++ us ++ [⟨p, .union⟩]) depth
  | single {ts : List Placed} {depth : Nat} : Opens .concat ts depth → Opens .star ts depth
  | concat {ts us : List Placed} {depth g : Nat} {P : RegularExpression Char} (p : Nat) :
    Opens .concat ts depth → Parses .concat us g P →
      Opens .star (ts ++ us ++ [⟨p, .concat⟩]) depth
  | atom {ts : List Placed} {depth : Nat} : Opens .star ts depth → Opens .atom ts depth

/-- The tokens end with a complete part of the nonterminal. -/
def Completes (N : Nonterminal) (ts : List Placed) (depth : Nat) : Prop :=
  ∃ us vs g P, ts = us ++ vs ∧ Opens N us depth ∧ Parses N vs g P

theorem Completes.concat {ts : List Placed} {depth : Nat} (h : Completes .star ts depth) :
    Completes .concat ts depth := by
  obtain ⟨us, vs, g, P, rfl, ho, hp⟩ := h
  cases ho with
  | single ho => exact ⟨us, vs, g, P, rfl, ho, .single hp⟩
  | @concat ts' us' _ h Q p ho hp' =>
    exact ⟨ts', us' ++ ⟨p, .concat⟩ :: vs, _, _, by simp, ho, .concat p hp' hp⟩

theorem Completes.union {ts : List Placed} {depth : Nat} (h : Completes .concat ts depth) :
    Completes .union ts depth := by
  obtain ⟨us, vs, g, P, rfl, ho, hp⟩ := h
  cases ho with
  | alternative ho => exact ⟨us, vs, g, P, rfl, ho, .alternative hp⟩
  | @union ts' us' _ h Q p ho hp' =>
    exact ⟨ts', us' ++ ⟨p, .union⟩ :: vs, _, _, by simp, ho, .union p hp' hp⟩

theorem Completes.parses {ts : List Placed} (h : Completes .union ts 0) :
    ∃ g P, Parses .union ts g P := by
  obtain ⟨us, vs, g, P, rfl, ho, hp⟩ := h
  cases ho with
  | start => exact ⟨g, P, hp⟩

theorem Completes.close {ts : List Placed} {depth : Nat} (h : Completes .union ts (depth + 1))
    (q : Nat) : Completes .star (ts ++ [⟨q, .closing⟩]) depth := by
  obtain ⟨us, vs, g, P, rfl, ho, hp⟩ := h
  cases ho with
  | @group ts' _ p ho =>
    cases ho with
    | atom ho =>
      exact ⟨ts', ⟨p, .opening⟩ :: vs ++ [⟨q, .closing⟩], g, P, by simp, ho,
        .atom (.group p q hp)⟩

theorem Completes.repeat {ts : List Placed} {depth : Nat} (h : Completes .star ts depth)
    (q : Nat) : Completes .star (ts ++ [⟨q, .star⟩]) depth := by
  obtain ⟨us, vs, g, P, rfl, ho, hp⟩ := h
  exact ⟨us, vs ++ [⟨q, .star⟩], g, _, by simp, ho, .star q hp⟩

theorem Completes.expectStar {ts : List Placed} {depth : Nat} (h : Completes .concat ts depth)
    (q : Nat) : Opens .star (ts ++ [⟨q, .concat⟩]) depth := by
  obtain ⟨us, vs, g, P, rfl, ho, hp⟩ := h
  exact .concat q ho hp

theorem Completes.expectConcat {ts : List Placed} {depth : Nat} (h : Completes .union ts depth)
    (q : Nat) : Opens .star (ts ++ [⟨q, .union⟩]) depth := by
  obtain ⟨us, vs, g, P, rfl, ho, hp⟩ := h
  exact .single (.union q ho hp)

theorem Opens.hole {ts : List Placed} {depth : Nat} (h : Opens .star ts depth) :
    Completes .star ts depth :=
  ⟨ts, [], 1, 0, (List.append_nil ts).symm, h, .atom .hole⟩

theorem Opens.symbol {ts : List Placed} {depth : Nat} (h : Opens .star ts depth) (p : Nat)
    (c : Char) : Completes .star (ts ++ [⟨p, .symbol c⟩]) depth :=
  ⟨ts, [⟨p, .symbol c⟩], 0, _, rfl, h, .atom (.symbol p c)⟩

theorem Opens.enter {ts : List Placed} {depth : Nat} (h : Opens .star ts depth) (p : Nat) :
    Opens .star (ts ++ [⟨p, .opening⟩]) (depth + 1) :=
  .single (.alternative (.group p (.atom h)))

/-- What follows does not begin an operand. -/
def Resumes (ts : List Placed) : Prop := ∀ t ∈ ts.head?, t.token.startsOperand = false

theorem Gapless.resumes {t : Placed} {rest : List Placed} (h : Token.Gapless (t :: rest))
    (ht : t.token.endsOperand = true) : Resumes rest := by
  intro u hu
  have hr := (List.isChain_cons.mp h).1 u hu
  rwa [ht, Bool.true_and] at hr

/-- The rest of the tokens can be read both where an operand is expected and, unless it begins with
one, where an operand is complete. -/
theorem exists_parse_of_rest {rest : List Placed} (hg : Token.Gapless rest) :
    (∀ ts depth, Completes .star ts depth → Resumes rest → Balanced depth rest →
      ∃ g P, Parses .union (ts ++ rest) g P) ∧
    ∀ ts depth, Opens .star ts depth → Balanced depth rest →
      ∃ g P, Parses .union (ts ++ rest) g P := by
  induction rest with
  | nil =>
    have hcomplete : ∀ ts depth, Completes .star ts depth → Balanced depth [] →
        ∃ g P, Parses .union (ts ++ []) g P := by
      rintro ts depth hc rfl
      rw [List.append_nil]
      exact hc.concat.union.parses
    exact ⟨fun ts depth hc _ hb => hcomplete ts depth hc hb,
      fun ts depth ho hb => hcomplete ts depth ho.hole hb⟩
  | cons t rest ih =>
    obtain ⟨p, tok⟩ := t
    obtain ⟨ihc, iho⟩ := ih (List.isChain_cons.mp hg).2
    have hnext : ∀ ts : List Placed, ts ++ ⟨p, tok⟩ :: rest = ts ++ [⟨p, tok⟩] ++ rest := by simp
    have hcomplete : ∀ ts depth, Completes .star ts depth → Resumes (⟨p, tok⟩ :: rest) →
        Balanced depth (⟨p, tok⟩ :: rest) → ∃ g P, Parses .union (ts ++ ⟨p, tok⟩ :: rest) g P := by
      intro ts depth hc hr hb
      have hstart : tok.startsOperand = false := hr ⟨p, tok⟩ rfl
      rw [hnext]
      cases tok with
      | symbol c => cases hstart
      | opening => cases hstart
      | closing =>
        obtain ⟨outer, rfl, hb⟩ := hb
        exact ihc _ _ (hc.concat.union.close p) (Gapless.resumes hg rfl) hb
      | star => exact ihc _ _ (hc.repeat p) (Gapless.resumes hg rfl) hb
      | concat => exact iho _ _ (hc.concat.expectStar p) hb
      | union => exact iho _ _ (hc.concat.union.expectConcat p) hb
    refine ⟨hcomplete, ?_⟩
    intro ts depth ho hb
    by_cases hstart : tok.startsOperand = true
    · rw [hnext]
      cases tok with
      | symbol c => exact ihc _ _ (ho.symbol p c) (Gapless.resumes hg rfl) hb
      | opening => exact iho _ _ (ho.enter p) hb
      | closing => cases hstart
      | star => cases hstart
      | concat => cases hstart
      | union => cases hstart
    · refine hcomplete ts depth ho.hole ?_ hb
      intro u hu
      obtain rfl : ⟨p, tok⟩ = u := by simpa using hu
      exact (Bool.not_eq_true _).mp hstart

theorem exists_parse_of_balanced {ts : List Placed} (hg : Token.Gapless ts)
    (hb : Balanced 0 ts) : ∃ g P, Parses .union ts g P :=
  (exists_parse_of_rest hg).2 [] 0 (.single (.alternative .start)) hb

namespace Postfix

theorem filter_dropWhile_isReleased (t : Token) (operators : List Placed) :
    (operators.dropWhile (isReleased t)).filter isOpening = operators.filter isOpening := by
  conv_rhs => rw [← List.takeWhile_append_dropWhile (p := isReleased t) (l := operators)]
  rw [List.filter_append, List.self_eq_append_left, List.filter_eq_nil_iff]
  intro p hp
  have hr := List.mem_takeWhile_imp hp
  unfold isReleased at hr
  unfold isOpening
  simp_all

theorem countP_dropWhile_isReleased (t : Token) (operators : List Placed) :
    (operators.dropWhile (isReleased t)).countP isOpening = operators.countP isOpening := by
  rw [List.countP_eq_length_filter, filter_dropWhile_isReleased, List.countP_eq_length_filter]

theorem filter_of_dropWhile {operators below : List Placed} {o : Placed}
    (h : operators.dropWhile (!isOpening ·) = o :: below) :
    operators.filter isOpening = o :: below.filter isOpening := by
  have ho : isOpening o = true := by
    have hd := List.head?_dropWhile_not (fun x => !isOpening x) operators
    rw [h] at hd
    simpa using hd
  conv_lhs => rw [← List.takeWhile_append_dropWhile (p := (!isOpening ·)) (l := operators), h]
  rw [List.filter_append, List.filter_cons_of_pos ho, List.append_left_eq_self,
    List.filter_eq_nil_iff]
  intro p hp
  have hr := List.mem_takeWhile_imp hp
  simpa using hr

theorem countP_of_dropWhile {operators below : List Placed} {o : Placed}
    (h : operators.dropWhile (!isOpening ·) = o :: below) :
    operators.countP isOpening = below.countP isOpening + 1 := by
  rw [List.countP_eq_length_filter, filter_of_dropWhile h, List.countP_eq_length_filter,
    List.length_cons]

theorem balanced_of_order {ts operators : List Placed} {post : Postfix}
    (h : order operators ts = .ok post) : Balanced (operators.countP isOpening) ts := by
  induction ts generalizing operators post with
  | nil =>
    rw [order] at h
    split at h
    · cases h
    · rename_i hnone
      rw [List.find?_eq_none] at hnone
      exact List.countP_eq_zero.mpr hnone
  | cons t ts ih =>
    obtain ⟨p, tok⟩ := t
    have hoperator : 1 ≤ tok.precedence → Balanced (operators.countP isOpening) ts := by
      intro ht
      rw [order_operator ht] at h
      obtain ⟨rest, hrest, -⟩ := Outcome.map_eq_ok.mp h
      have hb := ih hrest
      have hclosed : ¬isOpening ⟨p, tok⟩ = true :=
        (Bool.not_eq_true _).mpr (isOpening_eq_false_of_precedence ht)
      rwa [List.countP_cons_of_neg hclosed, countP_dropWhile_isReleased] at hb
    cases tok with
    | symbol c =>
      rw [order] at h
      obtain ⟨rest, hrest, -⟩ := Outcome.map_eq_ok.mp h
      exact ih hrest
    | opening =>
      rw [order] at h
      have hb := ih h
      rwa [List.countP_cons_of_pos (by rfl)] at hb
    | closing =>
      rw [order] at h
      dsimp only at h
      split at h
      · cases h
      · rename_i o below hdrop
        obtain ⟨rest, hrest, -⟩ := Outcome.map_eq_ok.mp h
        exact ⟨_, countP_of_dropWhile hdrop, ih hrest⟩
    | union => exact hoperator (by decide)
    | concat => exact hoperator (by decide)
    | star => exact hoperator (by decide)

theorem Writes.eq_hole {post : Postfix} {g : Nat} {P : RegularExpression Char}
    (h : Writes post g P) (he : post = []) : g = 1 ∧ P = 0 := by
  cases h with
  | hole => exact ⟨rfl, rfl⟩
  | symbol p c => cases he
  | star p _ => exact absurd he (by simp)
  | concat p _ _ => exact absurd he (by simp)
  | union p _ _ => exact absurd he (by simp)

theorem Writes.ne_nil {post : Postfix} {P : RegularExpression Char} (h : Writes post 0 P) :
    post ≠ [] := fun he => absurd (h.eq_hole he).1 Nat.zero_ne_one

theorem eq_nil_of_writes_zero {g : Nat} {post : Postfix} (h : Writes post g 0) : post = [] := by
  generalize he : (0 : RegularExpression Char) = P at h
  cases h with
  | hole => rfl
  | symbol p c => cases he
  | star p _ => cases he
  | concat p _ _ => cases he
  | union p _ _ => cases he

end Postfix

open Postfix Token

theorem Parses.isHollow {N : Nonterminal} {ts : List Placed} {g : Nat}
    {P : RegularExpression Char} (h : Parses N ts g P) (hP : P = 0) : IsHollow (text ts) := by
  induction h with
  | hole => exact ⟨0, rfl⟩
  | symbol p c => cases hP
  | group p q _ ih =>
    obtain ⟨n, hn⟩ := ih hP
    refine ⟨n + 1, ?_⟩
    rw [List.replicate_succ, List.replicate_succ']
    simp [char?, name, hn]
  | atom _ ih => exact ih hP
  | star p _ ih => cases hP
  | single _ ih => exact ih hP
  | concat p _ _ _ _ => cases hP
  | alternative _ ih => exact ih hP
  | union p _ _ _ _ => cases hP

theorem IsHollow.exists_parse {w : List Char} (h : IsHollow w) (pos : Nat) :
    ∃ ts, scan pos w = .ok ts ∧ Parses .atom (joined ts) 1 0 := by
  obtain ⟨n, rfl⟩ := h
  induction n generalizing pos with
  | zero => exact ⟨[], rfl, .hole⟩
  | succ n ih =>
    obtain ⟨ts, hts, hp⟩ := ih (pos + 1)
    let close : Placed := ⟨pos + 1 + (List.replicate n '(' ++ List.replicate n ')').length, .closing⟩
    refine ⟨⟨pos, .opening⟩ :: (ts ++ [close]), ?_, ?_⟩
    · rw [List.replicate_succ, List.replicate_succ', List.cons_append, ← List.append_assoc]
      exact scan_cons_eq_ok.mpr ⟨_, _, rfl, scan_append hts rfl, rfl⟩
    · rw [joined_cons rfl, joined_append_cons rfl]
      exact .group pos _ (.alternative (.single (.atom hp)))

theorem ofPattern_of_scan {w : List Char} {ts : List Placed} (h : scan 0 w = .ok ts) :
    ofPattern w = order [] (joined ts) := by
  rw [ofPattern, h]
  rfl

theorem Derives.exists_ofPattern {w : List Char} {P : RegularExpression Char}
    (h : Derives .union w P) : ∃ post, ofPattern w = .ok post ∧ Writes post 0 P := by
  obtain ⟨ts, hts, -, hp⟩ := h.exists_parse 0
  rw [ofPattern_of_scan hts]
  exact exists_order hp

theorem IsHollow.ofPattern {w : List Char} (h : IsHollow w) : ofPattern w = .ok [] := by
  obtain ⟨ts, hts, hp⟩ := h.exists_parse 0
  obtain ⟨post, hpost, hw⟩ := exists_order (.alternative (.single (.atom hp)))
  rw [ofPattern_of_scan hts, hpost, eq_nil_of_writes_zero hw]

/-- A pattern with a postfix order is one of the grammar up to holes. -/
theorem exists_parse_of_ofPattern {w : List Char} {post : Postfix} (h : ofPattern w = .ok post) :
    ∃ ts g P, text ts = w ∧ SymbolsIn ts ∧ Parses .union ts g P ∧ Writes post g P := by
  obtain ⟨ts, hts, ho⟩ := Outcome.bind_eq_ok.mp h
  obtain ⟨htext, hsyms⟩ := text_of_scan hts
  obtain ⟨g, P, hp⟩ := exists_parse_of_balanced (gapless_joined ts) (balanced_of_order ho)
  obtain ⟨post', hpost', hw⟩ := exists_order hp
  obtain rfl : post' = post := by
    rw [ho] at hpost'
    exact (Except.ok.inj hpost').symm
  exact ⟨joined ts, g, P, (text_joined ts).trans htext, hsyms.joined, hp, hw⟩

theorem denotes_iff_of_ofPattern_nil {w : List Char} {P : RegularExpression Char}
    (h : ofPattern w = .ok []) : Denotes w P ↔ P = 1 := by
  constructor
  · intro hd
    cases hd with
    | derived hd =>
      obtain ⟨post, hpost, hw⟩ := hd.exists_ofPattern
      obtain rfl := Except.ok.inj (h.symm.trans hpost)
      exact absurd rfl hw.ne_nil
    | hollow _ => rfl
  · rintro rfl
    obtain ⟨ts, g, P, rfl, -, hp, hw⟩ := exists_parse_of_ofPattern h
    exact .hollow (hp.isHollow (hw.eq_hole rfl).2)

theorem Denotes.writes {w : List Char} {P : RegularExpression Char} {post : Postfix}
    (hd : Denotes w P) (h : ofPattern w = .ok post) (hne : post ≠ []) : Writes post 0 P := by
  cases hd with
  | derived hd =>
    obtain ⟨post', hpost, hw⟩ := hd.exists_ofPattern
    obtain rfl := Except.ok.inj (h.symm.trans hpost)
    exact hw
  | hollow hh => exact absurd (Except.ok.inj (h.symm.trans hh.ofPattern)) hne

end Regex
end FiniteAutomata
