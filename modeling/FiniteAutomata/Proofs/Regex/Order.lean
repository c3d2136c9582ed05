import FiniteAutomata.Regex.Postfix
import FiniteAutomata.Proofs.Regex.Grammar

/-! # Postfix order

What a nonterminal derives is brought into postfix order from whatever the stack holds, as long as its
topmost operator binds less than the nonterminal. The operators that are not yet released stay on the
stack, above the ones that were there; together with what was written they are the postfix form.
-/
namespace FiniteAutomata
namespace Regex

namespace Nonterminal

/-- The precedence of the operators that a nonterminal may leave on the stack. -/
def rank : Nonterminal → Nat
  | union => 1
  | concat => 2
  | star => 3
  | atom => 4

end Nonterminal

namespace Postfix

/-- The postfix forms of expressions, a hole being written as nothing; with the number of holes. -/
inductive Writes : Postfix → Nat → RegularExpression Char → Prop where
  | hole : Writes [] 1 0
  | symbol (p : Nat) (c : Char) : Writes [⟨p, .symbol c⟩] 0 (.char c)
  | star {ts : Postfix} {g : Nat} {P : RegularExpression Char} (p : Nat) :
    Writes ts g P → Writes (ts ++ [⟨p, .star⟩]) g P.star
  | concat {ts us : Postfix} {g h : Nat} {P Q : RegularExpression Char} (p : Nat) :
    Writes ts g P → Writes us h Q → Writes (ts ++ us ++ [⟨p, .concat⟩]) (g + h) (P * Q)
  | union {ts us : Postfix} {g h : Nat} {P Q : RegularExpression Char} (p : Nat) :
    Writes ts g P → Writes us h Q → Writes (ts ++ us ++ [⟨p, .union⟩]) (g + h) (P + Q)

/-- The topmost operator binds less than the given precedence. -/
def Holds (k : Nat) (operators : List Placed) : Prop :=
  ∀ p ∈ operators.head?, p.token.precedence < k

/-- All operators bind at least as much as the given precedence. -/
def Binds (k : Nat) (operators : List Placed) : Prop := ∀ p ∈ operators, k ≤ p.token.precedence

theorem Holds.mono {j k : Nat} {operators : List Placed} (h : Holds j operators) (hjk : j ≤ k) :
    Holds k operators := fun p hp => Nat.lt_of_lt_of_le (h p hp) hjk

theorem Binds.mono {j k : Nat} {operators : List Placed} (h : Binds k operators) (hjk : j ≤ k) :
    Binds j operators := fun p hp => Nat.le_trans hjk (h p hp)

theorem holds_cons {k : Nat} {p : Placed} {operators : List Placed}
    (h : p.token.precedence < k) : Holds k (p :: operators) := by
  intro q hq
  obtain rfl : p = q := by simpa using hq
  exact h

theorem binds_nil (k : Nat) : Binds k [] := fun _ hp => absurd hp List.not_mem_nil

theorem binds_concat {k : Nat} {pending : List Placed} {t : Token} (h : Binds k pending)
    (ht : t.precedence ≤ k) (p : Nat) : Binds t.precedence (pending ++ [⟨p, t⟩]) := by
  intro q hq
  rcases List.mem_append.mp hq with hq | hq
  · exact Nat.le_trans ht (h q hq)
  · obtain rfl := List.mem_singleton.mp hq
    exact Nat.le_refl _

theorem precedence_lt_four (t : Token) : t.precedence < 4 := by
  cases t <;> simp [Token.precedence]

theorem holds_atom (operators : List Placed) : Holds Nonterminal.atom.rank operators :=
  fun p _ => precedence_lt_four p.token

theorem isOpening_eq_false_of_precedence {p : Placed} (h : 1 ≤ p.token.precedence) :
    isOpening p = false := by
  unfold isOpening
  cases hp : p.token <;> simp_all [Token.precedence]

theorem isReleased_iff {t : Token} {p : Placed} (ht : 1 ≤ t.precedence) :
    isReleased t p = true ↔ t.precedence ≤ p.token.precedence := by
  unfold isReleased
  rw [Bool.and_eq_true, decide_eq_true_eq, bne_iff_ne, and_iff_right_iff_imp]
  intro h he
  rw [he] at h
  exact absurd (Nat.le_trans ht h) (by decide)

private theorem takeWhile_append_of {α : Type} (f : α → Bool) (xs ys : List α)
    (hx : ∀ x ∈ xs, f x = true) (hy : ∀ y ∈ ys.head?, f y = false) :
    (xs ++ ys).takeWhile f = xs ∧ (xs ++ ys).dropWhile f = ys := by
  rw [List.takeWhile_append_of_pos hx, List.dropWhile_append_of_pos hx]
  cases ys with
  | nil => simp
  | cons y ys => simp [hy y rfl]

theorem order_operator {t : Token} (ht : 1 ≤ t.precedence) (operators : List Placed) (pos : Nat)
    (rest : List Placed) :
    order operators (⟨pos, t⟩ :: rest) = (operators.takeWhile (isReleased t) ++ ·) <$>
      order (⟨pos, t⟩ :: operators.dropWhile (isReleased t)) rest := by
  cases t <;> simp [Token.precedence] at ht
  all_goals rw [order]

theorem order_releasing {t : Token} (ht : 1 ≤ t.precedence) {pending operators : List Placed}
    (hp : Binds t.precedence pending) (ho : Holds t.precedence operators) (pos : Nat)
    (rest : List Placed) :
    order (pending ++ operators) (⟨pos, t⟩ :: rest) =
      (pending ++ ·) <$> order (⟨pos, t⟩ :: operators) rest := by
  have hsplit := takeWhile_append_of (isReleased t) pending operators
    (fun p hm => (isReleased_iff ht).mpr (hp p hm))
    (fun p hm => by
      rw [← Bool.not_eq_true, isReleased_iff ht]
      exact Nat.not_le.mpr (ho p hm))
  rw [order_operator ht, hsplit.1, hsplit.2]

theorem order_closing {pending operators : List Placed} (hp : Binds 1 pending) (p q : Nat)
    (rest : List Placed) :
    order (pending ++ ⟨p, .opening⟩ :: operators) (⟨q, .closing⟩ :: rest) =
      (pending ++ ·) <$> order operators rest := by
  have hsplit := takeWhile_append_of (fun x => !isOpening x) pending (⟨p, .opening⟩ :: operators)
    (fun x hm => by rw [isOpening_eq_false_of_precedence (hp x hm)]; rfl)
    (fun x hm => by
      obtain rfl : ⟨p, .opening⟩ = x := by simpa using hm
      rfl)
  rw [order]
  simp only [hsplit.1, hsplit.2]

theorem map_map_append (xs ys : Postfix) (e : Except SyntaxError Postfix) :
    (xs ++ ·) <$> ((ys ++ ·) <$> e) = (xs ++ ys ++ ·) <$> e := by
  rw [← comp_map]
  congr 1
  funext zs
  exact (List.append_assoc xs ys zs).symm

theorem map_nil_append (e : Except SyntaxError Postfix) : ([] ++ ·) <$> e = e := by
  cases e <;> rfl

/-- Between two operands, an operator releases what the first has left and waits below what the second
leaves. -/
theorem order_infix {t : Token} (ht : 1 ≤ t.precedence) {ts us rest operators : List Placed}
    {out pending out' pending' : Postfix} {p : Nat} (hb : Binds t.precedence pending)
    (ho : Holds t.precedence operators)
    (he : order operators (ts ++ ⟨p, t⟩ :: (us ++ rest)) =
      (out ++ ·) <$> order (pending ++ operators) (⟨p, t⟩ :: (us ++ rest)))
    (he' : order (⟨p, t⟩ :: operators) (us ++ rest) =
      (out' ++ ·) <$> order (pending' ++ ⟨p, t⟩ :: operators) rest) :
    order operators (ts ++ ⟨p, t⟩ :: us ++ rest) =
      (out ++ pending ++ out' ++ ·) <$> order (pending' ++ [⟨p, t⟩] ++ operators) rest := by
  rw [List.append_assoc, List.cons_append, he, order_releasing ht hb ho, map_map_append, he',
    map_map_append, List.append_assoc pending', List.singleton_append]

/-- What was written and what waits on the stack make up the postfix form. -/
theorem order_of_parses {N : Nonterminal} {ts : List Placed} {g : Nat}
    {P : RegularExpression Char} (h : Parses N ts g P) (operators : List Placed)
    (ho : Holds N.rank operators) (rest : List Placed) :
    ∃ out pending, order operators (ts ++ rest) = (out ++ ·) <$> order (pending ++ operators) rest ∧
      Binds N.rank pending ∧ Writes (out ++ pending) g P := by
  induction h generalizing operators rest with
  | hole =>
    exact ⟨[], [], (map_nil_append _).symm, binds_nil _, .hole⟩
  | symbol p c =>
    exact ⟨[⟨p, .symbol c⟩], [], by rw [List.singleton_append, order]; rfl, binds_nil _,
      .symbol p c⟩
  | @group ts g P p q _ ih =>
    obtain ⟨out, pending, he, hb, hw⟩ := ih (⟨p, .opening⟩ :: operators)
      (holds_cons Nat.zero_lt_one) (⟨q, .closing⟩ :: rest)
    refine ⟨out ++ pending, [], ?_, binds_nil _, by rwa [List.append_nil]⟩
    rw [← map_map_append, List.nil_append, ← order_closing hb p q rest, ← he]
    simp only [List.cons_append, List.append_assoc, List.nil_append]
    rw [order]
  | atom _ ih =>
    obtain ⟨out, pending, he, hb, hw⟩ := ih operators (holds_atom _) rest
    exact ⟨out, pending, he, hb.mono (by decide), hw⟩
  | @star ts g P p _ ih =>
    obtain ⟨out, pending, he, hb, hw⟩ := ih operators ho (⟨p, .star⟩ :: rest)
    refine ⟨out ++ pending, [⟨p, .star⟩], ?_, ?_, .star p hw⟩
    · rw [List.append_assoc, List.singleton_append, he,
        order_releasing (t := .star) (by decide) hb ho, map_map_append]
      rfl
    · exact binds_concat (binds_nil 3) (by decide) p
  | single _ ih =>
    obtain ⟨out, pending, he, hb, hw⟩ := ih operators (ho.mono (by decide)) rest
    exact ⟨out, pending, he, hb.mono (by decide), hw⟩
  | @concat ts us g h P Q p _ _ ih ih' =>
    obtain ⟨out, pending, he, hb, hw⟩ := ih operators ho (⟨p, .concat⟩ :: (us ++ rest))
    obtain ⟨out', pending', he', hb', hw'⟩ := ih' (⟨p, .concat⟩ :: operators)
      (holds_cons (Nat.lt_succ_self 2)) rest
    refine ⟨out ++ pending ++ out', pending' ++ [⟨p, .concat⟩], ?_, ?_, ?_⟩
    · exact order_infix (by decide) hb ho he he'
    · exact binds_concat hb' (by decide) p
    · simpa only [List.append_assoc] using Writes.concat p hw hw'
  | alternative _ ih =>
    obtain ⟨out, pending, he, hb, hw⟩ := ih operators (ho.mono (by decide)) rest
    exact ⟨out, pending, he, hb.mono (by decide), hw⟩
  | @union ts us g h P Q p _ _ ih ih' =>
    obtain ⟨out, pending, he, hb, hw⟩ := ih operators ho (⟨p, .union⟩ :: (us ++ rest))
    obtain ⟨out', pending', he', hb', hw'⟩ := ih' (⟨p, .union⟩ :: operators)
      (holds_cons (Nat.lt_succ_self 1)) rest
    refine ⟨out ++ pending ++ out', pending' ++ [⟨p, .union⟩], ?_, ?_, ?_⟩
    · exact order_infix (by decide) hb ho he he'
    · exact binds_concat hb' (by decide) p
    · simpa only [List.append_assoc] using Writes.union p hw hw'

theorem exists_order {ts : List Placed} {g : Nat} {P : RegularExpression Char}
    (h : Parses .union ts g P) : ∃ post, order [] ts = .ok post ∧ Writes post g P := by
  obtain ⟨out, pending, he, hb, hw⟩ := order_of_parses h []
    (fun p hp => by cases hp) []
  refine ⟨out ++ pending, ?_, hw⟩
  have hnone : pending.find? isOpening = none := by
    rw [List.find?_eq_none]
    intro p hp
    rw [isOpening_eq_false_of_precedence (hb p hp)]
    exact Bool.false_ne_true
  rw [List.append_nil, List.append_nil] at he
  rw [he, order, hnone]
  rfl

end Postfix
end Regex
end FiniteAutomata
