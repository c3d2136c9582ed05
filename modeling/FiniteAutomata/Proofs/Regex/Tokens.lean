import Mathlib.Data.List.Chain
import FiniteAutomata.Proofs.Regex.Grammar

/-! # From characters to tokens and back

Scanning loses nothing, and joining inserts a concatenation exactly where an operand directly follows
another. So the tokens of what the grammar derives parse without holes, and from the tokens of any
pattern its characters can be read off.
-/
namespace FiniteAutomata
namespace Regex
namespace Token

theorem ofChar_eq_ok {pos : Nat} {c : Char} {t : Token} (h : ofChar pos c = .ok t) :
    t.char? = some c ∧ ∀ d, t = symbol d → IsSymbol d := by
  unfold ofChar at h
  split at h
  · cases h
    exact ⟨by simp_all [char?, name], fun d hd => by cases hd⟩
  split at h
  · cases h
    exact ⟨by simp_all [char?, name], fun d hd => by cases hd⟩
  split at h
  · cases h
    exact ⟨by simp_all [char?, name], fun d hd => by cases hd⟩
  split at h
  · cases h
    exact ⟨by simp_all [char?, name], fun d hd => by cases hd⟩
  split at h
  · cases h
  split at h
  · rename_i hmark halnum
    cases h
    refine ⟨rfl, ?_⟩
    intro d hd
    cases hd
    exact ⟨halnum, hmark⟩
  · cases h

theorem ofChar_of_isSymbol {pos : Nat} {c : Char} (h : IsSymbol c) :
    ofChar pos c = .ok (symbol c) := by
  obtain ⟨halnum, hmark⟩ := h
  have hne : ∀ d : Char, d.isAlphanum = false → c ≠ d := by
    rintro d hd rfl
    rw [hd] at halnum
    cases halnum
  unfold ofChar
  rw [if_neg (hne '|' (by decide)), if_neg (hne '*' (by decide)), if_neg (hne '(' (by decide)),
    if_neg (hne ')' (by decide)), if_neg hmark, if_pos halnum]

theorem scan_cons_eq_ok {pos : Nat} {c : Char} {w : List Char} {ts : List Placed} :
    scan pos (c :: w) = .ok ts ↔
      ∃ t us, ofChar pos c = .ok t ∧ scan (pos + 1) w = .ok us ∧ ts = ⟨pos, t⟩ :: us := by
  rw [scan]
  cases ofChar pos c with
  | error e => simp [bind, Except.bind]
  | ok t =>
    cases scan (pos + 1) w with
    | error e => simp [bind, Except.bind]
    | ok us => simp [bind, Except.bind, pure, Except.pure, eq_comm]

theorem scan_append {pos : Nat} {v w : List Char} {ts us : List Placed}
    (hv : scan pos v = .ok ts) (hw : scan (pos + v.length) w = .ok us) :
    scan pos (v ++ w) = .ok (ts ++ us) := by
  induction v generalizing pos ts with
  | nil =>
    cases hv
    exact hw
  | cons c v ih =>
    obtain ⟨t, ts', ht, hts, rfl⟩ := scan_cons_eq_ok.mp hv
    have hlen : pos + (c :: v).length = pos + 1 + v.length := by
      rw [List.length_cons]
      omega
    exact scan_cons_eq_ok.mpr ⟨t, ts' ++ us, ht, ih hts (hlen ▸ hw), rfl⟩

theorem text_of_scan {pos : Nat} {w : List Char} {ts : List Placed} (h : scan pos w = .ok ts) :
    text ts = w ∧ SymbolsIn ts := by
  induction w generalizing pos ts with
  | nil =>
    cases h
    exact ⟨rfl, fun p c hm => by cases hm⟩
  | cons c w ih =>
    obtain ⟨t, us, ht, hus, rfl⟩ := scan_cons_eq_ok.mp h
    obtain ⟨hchar, hsym⟩ := ofChar_eq_ok ht
    obtain ⟨htext, hsyms⟩ := ih hus
    refine ⟨by rw [text_cons, hchar, htext]; rfl, ?_⟩
    intro p d hm
    rcases List.mem_cons.mp hm with he | hm
    · exact hsym d (Placed.mk.inj he).2.symm
    · exact hsyms p d hm

/-- No operand directly follows another. -/
def Gapless (ts : List Placed) : Prop :=
  ts.IsChain fun a b => (a.token.endsOperand && b.token.startsOperand) = false

theorem head?_joined (ts : List Placed) : (joined ts).head? = ts.head? := by
  fun_cases joined ts with
  | case1 => rfl
  | case2 => rfl
  | case3 => rfl

theorem gapless_joined (ts : List Placed) : Gapless (joined ts) := by
  unfold Gapless
  fun_induction joined ts with
  | case1 a b rest hcond ih =>
    refine List.isChain_cons.mpr ⟨?_, List.isChain_cons.mpr ⟨?_, ih⟩⟩
    · simp [startsOperand]
    · simp [endsOperand]
  | case2 a b rest hcond ih =>
    refine List.isChain_cons.mpr ⟨?_, ih⟩
    intro c hc
    rw [head?_joined] at hc
    obtain rfl : b = c := by simpa using hc
    exact (Bool.not_eq_true _).mp hcond
  | case3 ts hshort =>
    match ts, hshort with
    | [], _ => exact List.IsChain.nil
    | [a], _ => exact List.IsChain.singleton a
    | a :: b :: rest, hshort => exact absurd rfl (hshort a b rest)

theorem mem_joined {ts : List Placed} {t : Placed} (h : t ∈ joined ts) :
    t ∈ ts ∨ ∃ (k : Nat) (a b : Placed), ts[k]? = some a ∧ ts[k + 1]? = some b ∧
      a.token.endsOperand = true ∧ b.token.startsOperand = true ∧ t = ⟨b.position, concat⟩ := by
  fun_induction joined ts with
  | case1 a b rest hcond ih =>
    rw [Bool.and_eq_true] at hcond
    rcases List.mem_cons.mp h with rfl | h
    · exact Or.inl (List.mem_cons_self ..)
    rcases List.mem_cons.mp h with rfl | h
    · exact Or.inr ⟨0, a, b, rfl, rfl, hcond.1, hcond.2, rfl⟩
    · rcases ih h with h | ⟨k, x, y, hx, hy, h⟩
      · exact Or.inl (List.mem_cons_of_mem _ h)
      · exact Or.inr ⟨k + 1, x, y, hx, hy, h⟩
  | case2 a b rest hcond ih =>
    rcases List.mem_cons.mp h with rfl | h
    · exact Or.inl (List.mem_cons_self ..)
    · rcases ih h with h | ⟨k, x, y, hx, hy, h⟩
      · exact Or.inl (List.mem_cons_of_mem _ h)
      · exact Or.inr ⟨k + 1, x, y, hx, hy, h⟩
  | case3 ts hshort => exact Or.inl h

theorem text_joined (ts : List Placed) : text (joined ts) = text ts := by
  fun_induction joined ts with
  | case1 a b rest hcond ih =>
    rw [text_cons, text_cons, ih, text_cons a (b :: rest)]
    rfl
  | case2 a b rest hcond ih => rw [text_cons, ih, text_cons a (b :: rest)]
  | case3 ts hshort => rfl

theorem SymbolsIn.joined {ts : List Placed} (h : SymbolsIn ts) : SymbolsIn (joined ts) := by
  intro p c hm
  rcases mem_joined hm with hm | ⟨k, a, b, -, -, -, -, he⟩
  · exact h p c hm
  · cases he

theorem joined_append (xs : List Placed) (a b : Placed) (ys : List Placed) :
    joined (xs ++ a :: b :: ys) = joined (xs ++ [a]) ++
      if a.token.endsOperand && b.token.startsOperand then ⟨b.position, concat⟩ :: joined (b :: ys)
      else joined (b :: ys) := by
  induction xs with
  | nil =>
    rw [List.nil_append, List.nil_append, joined]
    split <;> rfl
  | cons x xs ih =>
    cases xs with
    | nil =>
      simp only [List.cons_append, List.nil_append] at ih ⊢
      rw [joined, ih, joined]
      split <;> rfl
    | cons y xs =>
      simp only [List.cons_append] at ih ⊢
      rw [joined, ih, joined]
      split <;> rfl

/-- Tokens that begin and end like an operand. -/
def IsOperand (ts : List Placed) : Prop :=
  (∃ b ys, ts = b :: ys ∧ b.token.startsOperand = true) ∧
    ∃ xs a, ts = xs ++ [a] ∧ a.token.endsOperand = true

theorem IsOperand.append {ts us : List Placed} (ht : IsOperand ts) (vs : List Placed)
    (hu : IsOperand us) :
    IsOperand (ts ++ vs ++ us) := by
  obtain ⟨⟨b, ys, rfl, hb⟩, -⟩ := ht
  obtain ⟨-, xs, a, rfl, ha⟩ := hu
  exact ⟨⟨b, ys ++ vs ++ (xs ++ [a]), by simp, hb⟩, b :: ys ++ vs ++ xs, a, by simp, ha⟩

theorem IsOperand.joined_append {ts us : List Placed} (ht : IsOperand ts) (hu : IsOperand us) :
    ∃ p, joined (ts ++ us) = joined ts ++ ⟨p, concat⟩ :: joined us := by
  obtain ⟨-, xs, a, rfl, ha⟩ := ht
  obtain ⟨⟨b, ys, rfl, hb⟩, -⟩ := hu
  refine ⟨b.position, ?_⟩
  rw [List.append_assoc, List.singleton_append, Token.joined_append, ha, hb]
  rfl

theorem joined_append_cons {b : Placed} (hb : b.token.startsOperand = false)
    (ts ys : List Placed) : joined (ts ++ b :: ys) = joined ts ++ joined (b :: ys) := by
  rcases List.eq_nil_or_concat ts with rfl | ⟨xs, a, rfl⟩
  · rfl
  · rw [List.concat_eq_append, List.append_assoc, List.singleton_append, joined_append, hb,
      Bool.and_false]
    rfl

theorem joined_cons {a : Placed} (ha : a.token.endsOperand = false) (ys : List Placed) :
    joined (a :: ys) = a :: joined ys := by
  cases ys with
  | nil => rfl
  | cons b ys => rw [joined, ha, Bool.false_and, if_neg Bool.false_ne_true]

end Token

open Token in
/-- The tokens of a derived pattern parse without holes to the same expression. -/
theorem Derives.exists_parse {N : Nonterminal} {w : List Char} {P : RegularExpression Char}
    (h : Derives N w P) (pos : Nat) :
    ∃ ts, scan pos w = .ok ts ∧ IsOperand ts ∧ Parses N (joined ts) 0 P := by
  induction h generalizing pos with
  | @symbol c hc =>
    refine ⟨[⟨pos, .symbol c⟩], ?_, ⟨⟨_, [], rfl, rfl⟩, [], _, rfl, rfl⟩, .symbol pos c⟩
    exact scan_cons_eq_ok.mpr ⟨_, [], ofChar_of_isSymbol hc, rfl, rfl⟩
  | @group w P _ ih =>
    obtain ⟨ts, hts, hop, hp⟩ := ih (pos + 1)
    let close : Placed := ⟨pos + 1 + w.length, .closing⟩
    refine ⟨⟨pos, .opening⟩ :: (ts ++ [close]), ?_, ?_, ?_⟩
    · have hclose : scan (pos + 1 + w.length) [')'] = .ok [close] := rfl
      exact scan_cons_eq_ok.mpr ⟨_, _, rfl, scan_append hts hclose, rfl⟩
    · exact ⟨⟨_, _, rfl, rfl⟩, ⟨pos, .opening⟩ :: ts, close, rfl, rfl⟩
    · rw [joined_cons rfl, joined_append_cons rfl]
      exact .group pos _ hp
  | atom _ ih =>
    obtain ⟨ts, hts, hop, hp⟩ := ih pos
    exact ⟨ts, hts, hop, .atom hp⟩
  | @star w P _ ih =>
    obtain ⟨ts, hts, hop, hp⟩ := ih pos
    let star : Placed := ⟨pos + w.length, .star⟩
    refine ⟨ts ++ [star], scan_append hts rfl, ?_, ?_⟩
    · obtain ⟨⟨b, ys, rfl, hb⟩, -⟩ := hop
      exact ⟨⟨b, ys ++ [star], rfl, hb⟩, b :: ys, star, rfl, rfl⟩
    · rw [joined_append_cons rfl]
      exact .star _ hp
  | single _ ih =>
    obtain ⟨ts, hts, hop, hp⟩ := ih pos
    exact ⟨ts, hts, hop, .single hp⟩
  | @concat v w P Q _ _ ih ih' =>
    obtain ⟨ts, hts, hop, hp⟩ := ih pos
    obtain ⟨us, hus, hop', hp'⟩ := ih' (pos + v.length)
    refine ⟨ts ++ us, scan_append hts hus, ?_, ?_⟩
    · simpa using hop.append [] hop'
    · obtain ⟨p, he⟩ := hop.joined_append hop'
      rw [he]
      exact .concat p hp hp'
  | alternative _ ih =>
    obtain ⟨ts, hts, hop, hp⟩ := ih pos
    exact ⟨ts, hts, hop, .alternative hp⟩
  | @union v w P Q _ _ ih ih' =>
    obtain ⟨ts, hts, hop, hp⟩ := ih pos
    obtain ⟨us, hus, hop', hp'⟩ := ih' (pos + v.length + 1)
    let bar : Placed := ⟨pos + v.length, .union⟩
    refine ⟨ts ++ bar :: us, ?_, ?_, ?_⟩
    · exact scan_append hts (scan_cons_eq_ok.mpr ⟨_, us, rfl, hus, rfl⟩)
    · simpa using hop.append [bar] hop'
    · rw [joined_append_cons rfl, joined_cons rfl]
      exact .union _ hp hp'

end Regex
end FiniteAutomata
