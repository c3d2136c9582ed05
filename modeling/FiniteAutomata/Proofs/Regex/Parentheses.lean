import FiniteAutomata.Proofs.Regex.Parsing

/-! # Parentheses and their partners

An opening parenthesis and a closing one behind it are partners when the parentheses between them
match. Postfix order keeps the opening parentheses without a partner on its stack, so it goes wrong
exactly at the first closing parenthesis without one, or at the end at the last opening one that is
left.
-/
namespace FiniteAutomata
namespace Regex

/-- Every parenthesis has its partner within the word. -/
inductive Nested : List Char → Prop where
  | nil : Nested []
  | other {c : Char} {w : List Char} : c ≠ '(' → c ≠ ')' → Nested w → Nested (c :: w)
  | group {u v : List Char} : Nested u → Nested v → Nested ('(' :: u ++ ')' :: v)

/-- The parentheses at the two places belong together. -/
def Partners (w : List Char) (i j : Nat) : Prop :=
  ∃ u v x, w = u ++ '(' :: v ++ ')' :: x ∧ Nested v ∧ u.length = i ∧ (u ++ '(' :: v).length = j

def LoneOpening (w : List Char) (i : Nat) : Prop := w[i]? = some '(' ∧ ∀ j, ¬ Partners w i j

def LoneClosing (w : List Char) (j : Nat) : Prop := w[j]? = some ')' ∧ ∀ i, ¬ Partners w i j

variable {u v w : List Char} {c d : Char} {i j k : Nat} {opens : List Nat}

namespace Nested

theorem append (hu : Nested u) (hv : Nested v) : Nested (u ++ v) := by
  induction hu with
  | nil => exact hv
  | other hopen hclose _ ih => exact .other hopen hclose ih
  | @group u u' hu _ _ ih =>
    rw [List.append_assoc, List.cons_append]
    exact .group hu ih

theorem count_eq (h : Nested w) : w.count '(' = w.count ')' := by
  induction h with
  | nil => rfl
  | other hopen hclose _ ih => rw [List.count_cons_of_ne hopen, List.count_cons_of_ne hclose, ih]
  | @group u v _ _ ih ih' => simp [ih, ih']; omega

theorem count_le (h : Nested w) (hw : w = u ++ v) : u.count ')' ≤ u.count '(' := by
  induction h generalizing u v with
  | nil =>
    obtain ⟨rfl, -⟩ := List.append_eq_nil_iff.mp hw.symm
    exact Nat.le_refl _
  | @other c w hopen hclose _ ih =>
    cases u with
    | nil => exact Nat.le_refl _
    | cons d u =>
      rw [List.cons_append, List.cons.injEq] at hw
      obtain ⟨rfl, htail⟩ := hw
      rw [List.count_cons_of_ne hopen, List.count_cons_of_ne hclose]
      exact ih htail
  | @group x y hx _ ih ih' =>
    cases u with
    | nil => exact Nat.le_refl _
    | cons d u =>
      rw [List.cons_append, List.cons_append, List.cons.injEq] at hw
      obtain ⟨rfl, htail⟩ := hw
      rcases List.append_eq_append_iff.mp htail with ⟨z, rfl, hz⟩ | ⟨z, rfl, -⟩
      · cases z with
        | nil => simp [hx.count_eq]
        | cons e z =>
          rw [List.cons_append, List.cons.injEq] at hz
          obtain ⟨rfl, hrest⟩ := hz
          have hle := ih' hrest
          simp [hx.count_eq]
          omega
      · have hle := ih rfl
        simp
        omega

end Nested

theorem Partners.append (h : Partners u i j) (v : List Char) : Partners (u ++ v) i j := by
  obtain ⟨x, y, z, rfl, hy, hi, hj⟩ := h
  exact ⟨x, y, z ++ v, by simp, hy, hi, hj⟩

theorem getElem?_concat_eq_some_iff :
    (u ++ [c])[i]? = some d ↔ u[i]? = some d ∨ i = u.length ∧ c = d := by
  rcases Nat.lt_trichotomy i u.length with hi | rfl | hi
  · rw [List.getElem?_append_left hi]
    simp [Nat.ne_of_lt hi]
  · simp
  · have hlength : (u ++ [c]).length ≤ i := by simp; omega
    rw [List.getElem?_eq_none hlength, List.getElem?_eq_none (Nat.le_of_lt hi)]
    simp [Nat.ne_of_gt hi]

/-- The word opens groups at the places of the list, the last of them first, and closes none of
these. -/
inductive Unclosed : List Char → List Nat → Prop where
  | nested {u : List Char} : Nested u → Unclosed u []
  | opening {u v : List Char} {opens : List Nat} : Unclosed u opens → Nested v →
    Unclosed (u ++ '(' :: v) (u.length :: opens)

namespace Unclosed

theorem append (h : Unclosed u opens) (hv : Nested v) : Unclosed (u ++ v) opens := by
  cases h with
  | nested hu => exact .nested (hu.append hv)
  | @opening x y opens hx hy =>
    rw [List.append_assoc, List.cons_append]
    exact .opening hx (hy.append hv)

theorem close (h : Unclosed u (k :: opens)) :
    Unclosed (u ++ [')']) opens ∧ Partners (u ++ [')']) k u.length := by
  cases h with
  | @opening x y opens hx hy =>
    constructor
    · rw [List.append_assoc]
      exact hx.append (.group hy .nil)
    · exact ⟨x, y, [], by simp, hy, rfl, rfl⟩

theorem lt (h : Unclosed u opens) (hi : i ∈ opens) : i < u.length := by
  induction h with
  | nested _ => exact absurd hi List.not_mem_nil
  | @opening x y opens _ _ ih =>
    rw [List.length_append, List.length_cons]
    rcases List.mem_cons.mp hi with rfl | hi
    · omega
    · have := ih hi
      omega

theorem le_head (h : Unclosed u (k :: opens)) (hi : i ∈ k :: opens) : i ≤ k := by
  cases h with
  | @opening x y opens hx _ =>
    rcases List.mem_cons.mp hi with rfl | hi
    · exact Nat.le_refl _
    · exact Nat.le_of_lt (hx.lt hi)

theorem getElem?_head (h : Unclosed u (k :: opens)) : u[k]? = some '(' := by
  cases h with
  | opening _ _ => simp

theorem not_partners (h : Unclosed u (k :: opens)) : ¬ Partners u k j := by
  cases h with
  | @opening x y opens hx hy =>
    rintro ⟨x', y', z, he, hy', hlength, -⟩
    rw [List.append_assoc, List.cons_append] at he
    obtain ⟨-, he⟩ := List.append_inj he hlength.symm
    rw [List.cons.injEq] at he
    -- the parentheses behind it would close more than they open
    have hsplit : y = (y' ++ [')']) ++ z := by simp [he.2]
    have hle := hy.count_le hsplit
    rw [List.count_append, List.count_append, hy'.count_eq] at hle
    exact absurd hle (Nat.not_succ_le_self _)

end Unclosed

theorem Nested.not_partners (h : Nested u) : ¬ Partners (u ++ ')' :: v) i u.length := by
  rintro ⟨x, y, z, he, hy, -, hlength⟩
  obtain ⟨hu, -⟩ := List.append_inj he hlength.symm
  have hle := h.count_le hu
  have heq := h.count_eq
  rw [hu, List.count_append, List.count_append, List.count_cons_self,
    List.count_cons_of_ne (by decide), hy.count_eq] at heq
  omega

/-- The word has been read up to here: all its closing parentheses have partners, and so have its
opening ones except for those at the places of the list. -/
structure Reading (u : List Char) (opens : List Nat) : Prop where
  unclosed : Unclosed u opens
  closing : ∀ j, u[j]? = some ')' → ∃ i, Partners u i j
  opening : ∀ i, u[i]? = some '(' → i ∈ opens ∨ ∃ j, Partners u i j

namespace Reading

theorem nil : Reading [] [] where
  unclosed := .nested .nil
  closing := by
    intro j hj
    cases hj
  opening := by
    intro i hi
    cases hi

theorem other (h : Reading u opens) (hopen : c ≠ '(') (hclose : c ≠ ')') :
    Reading (u ++ [c]) opens where
  unclosed := h.unclosed.append (.other hopen hclose .nil)
  closing := by
    intro j hj
    rcases getElem?_concat_eq_some_iff.mp hj with hj | ⟨-, he⟩
    · obtain ⟨i, hi⟩ := h.closing j hj
      exact ⟨i, hi.append _⟩
    · exact absurd he hclose
  opening := by
    intro i hi
    rcases getElem?_concat_eq_some_iff.mp hi with hi | ⟨-, he⟩
    · exact (h.opening i hi).imp_right fun ⟨j, hj⟩ => ⟨j, hj.append _⟩
    · exact absurd he hopen

theorem enter (h : Reading u opens) : Reading (u ++ ['(']) (u.length :: opens) where
  unclosed := .opening h.unclosed .nil
  closing := by
    intro j hj
    rcases getElem?_concat_eq_some_iff.mp hj with hj | ⟨-, he⟩
    · obtain ⟨i, hi⟩ := h.closing j hj
      exact ⟨i, hi.append _⟩
    · exact absurd he (by decide)
  opening := by
    intro i hi
    rcases getElem?_concat_eq_some_iff.mp hi with hi | ⟨rfl, -⟩
    · rcases h.opening i hi with hi | ⟨j, hj⟩
      · exact Or.inl (List.mem_cons_of_mem _ hi)
      · exact Or.inr ⟨j, hj.append _⟩
    · exact Or.inl List.mem_cons_self

theorem leave (h : Reading u (k :: opens)) : Reading (u ++ [')']) opens where
  unclosed := h.unclosed.close.1
  closing := by
    intro j hj
    rcases getElem?_concat_eq_some_iff.mp hj with hj | ⟨rfl, -⟩
    · obtain ⟨i, hi⟩ := h.closing j hj
      exact ⟨i, hi.append _⟩
    · exact ⟨k, h.unclosed.close.2⟩
  opening := by
    intro i hi
    rcases getElem?_concat_eq_some_iff.mp hi with hi | ⟨-, he⟩
    · rcases h.opening i hi with hi | ⟨j, hj⟩
      · rcases List.mem_cons.mp hi with rfl | hi
        · exact Or.inr ⟨_, h.unclosed.close.2⟩
        · exact Or.inl hi
      · exact Or.inr ⟨j, hj.append _⟩
    · exact absurd he (by decide)

end Reading

/-- All parentheses have partners. -/
def Matched (w : List Char) : Prop := (∀ j, ¬ LoneClosing w j) ∧ ∀ i, ¬ LoneOpening w i

/-- The place is that of the first closing parenthesis without a partner, or of the last opening one
if all closing ones have partners. -/
def Mismatched (w : List Char) (k : Nat) : Prop :=
  (LoneClosing w k ∧ ∀ j < k, ¬ LoneClosing w j) ∨
    ((∀ j, ¬ LoneClosing w j) ∧ LoneOpening w k ∧ ∀ i, k < i → ¬ LoneOpening w i)

namespace Reading

theorem matched (h : Reading w []) : Matched w := by
  constructor
  · intro j hj
    obtain ⟨i, hi⟩ := h.closing j hj.1
    exact hj.2 i hi
  · intro i hi
    rcases h.opening i hi.1 with hmem | ⟨j, hj⟩
    · exact absurd hmem List.not_mem_nil
    · exact hi.2 j hj

theorem mismatched_closing (h : Reading u []) (v : List Char) :
    Mismatched (u ++ ')' :: v) u.length := by
  left
  constructor
  · refine ⟨by simp, ?_⟩
    intro i
    cases h.unclosed with
    | nested hu => exact hu.not_partners
  · intro j hj hlone
    obtain ⟨hget, hnone⟩ := hlone
    rw [List.getElem?_append_left hj] at hget
    obtain ⟨i, hi⟩ := h.closing j hget
    exact hnone i (hi.append _)

theorem mismatched_opening (h : Reading w (k :: opens)) : Mismatched w k := by
  right
  refine ⟨?_, ⟨h.unclosed.getElem?_head, fun j => h.unclosed.not_partners⟩, ?_⟩
  · intro j hj
    obtain ⟨i, hi⟩ := h.closing j hj.1
    exact hj.2 i hi
  · intro i hi hlone
    rcases h.opening i hlone.1 with hmem | ⟨j, hj⟩
    · exact absurd (h.unclosed.le_head hmem) (Nat.not_le.mpr hi)
    · exact hlone.2 j hj

end Reading

namespace Token

/-- Every token has the place of what is written next; concatenations are not written. -/
def Aligned : Nat → List Placed → Prop
  | _, [] => True
  | pos, t :: ts => t.position = pos ∧ Aligned (pos + (text [t]).length) ts

theorem length_text_of_char? {t : Placed} (h : t.token.char? = some c) : (text [t]).length = 1 := by
  rw [text_cons, h]
  rfl

theorem aligned_of_scan {pos : Nat} {ts : List Placed} (h : scan pos w = .ok ts) :
    Aligned pos ts := by
  induction w generalizing pos ts with
  | nil =>
    cases h
    exact trivial
  | cons c w ih =>
    obtain ⟨t, us, ht, hus, rfl⟩ := scan_cons_eq_ok.mp h
    refine ⟨rfl, ?_⟩
    rw [length_text_of_char? (ofChar_eq_ok ht).1]
    exact ih hus

theorem Aligned.joined {pos : Nat} {ts : List Placed} (h : Aligned pos ts) :
    Aligned pos (joined ts) := by
  fun_induction Token.joined ts generalizing pos with
  | case1 a b rest hcond ih =>
    obtain ⟨ha, hb⟩ := h
    exact ⟨ha, hb.1, ih hb⟩
  | case2 a b rest hcond ih =>
    obtain ⟨ha, hb⟩ := h
    exact ⟨ha, ih hb⟩
  | case3 ts hshort => exact h

end Token

theorem IsSymbol.ne_of_not_alphanum (h : IsSymbol c) (hd : d.isAlphanum = false) : c ≠ d := by
  rintro rfl
  rw [h.1] at hd
  cases hd

namespace Postfix
open Token

/-- An order exists where all parentheses have partners, and otherwise the mismatched one is named. -/
inductive Judges (w : List Char) : Except SyntaxError Postfix → Prop where
  | ordered {post : Postfix} : Matched w → Judges w (.ok post)
  | refused {k : Nat} : Mismatched w k → Judges w (.error (.unmatchedParenthesis k))

theorem Judges.map {r : Except SyntaxError Postfix} (h : Judges w r) (f : Postfix → Postfix) :
    Judges w (f <$> r) := by
  cases h with
  | ordered hm => exact .ordered hm
  | refused hm => exact .refused hm

/-- The places of the opening parentheses on the stack. -/
def openings (operators : List Placed) : List Nat := (operators.filter isOpening).map Placed.position

theorem openings_dropWhile_isReleased {t : Token} (ht : 1 ≤ t.precedence) (pos : Nat)
    (operators : List Placed) :
    openings (⟨pos, t⟩ :: operators.dropWhile (isReleased t)) = openings operators := by
  have hclosed : ¬ isOpening ⟨pos, t⟩ = true :=
    (Bool.not_eq_true _).mpr (isOpening_eq_false_of_precedence ht)
  rw [openings, List.filter_cons_of_neg hclosed, filter_dropWhile_isReleased, openings]

/-- Reading on from a part of the word, postfix order keeps the opening parentheses that are left on
its stack. -/
theorem judges_order {ts operators : List Placed} (hu : Reading u (openings operators))
    (ha : Aligned u.length ts) (hs : SymbolsIn ts) : Judges (u ++ text ts) (order operators ts) := by
  induction ts generalizing operators u with
  | nil =>
    rw [order, text_nil, List.append_nil]
    cases hp : operators.find? isOpening with
    | some p =>
      rw [← List.head?_filter] at hp
      obtain ⟨below, hfilter⟩ := List.head?_eq_some_iff.mp hp
      rw [openings, hfilter] at hu
      exact .refused hu.mismatched_opening
    | none =>
      rw [← List.head?_filter, List.head?_eq_none_iff] at hp
      rw [openings, hp] at hu
      exact .ordered hu.matched
  | cons t ts ih =>
    obtain ⟨pos, tok⟩ := t
    obtain ⟨hpos, ha⟩ := ha
    obtain rfl : pos = u.length := hpos
    have hs' : SymbolsIn ts := hs.of_subset (List.subset_cons_self _ _)
    have hread : ∀ {operators : List Placed},
        Reading (u ++ text [⟨u.length, tok⟩]) (openings operators) →
        Judges (u ++ text (⟨u.length, tok⟩ :: ts)) (order operators ts) := by
      intro operators hr
      have hj := ih hr (by rwa [List.length_append]) hs'
      rwa [List.append_assoc, ← text_append] at hj
    have hoperator : 1 ≤ tok.precedence →
        Reading (u ++ text [⟨u.length, tok⟩]) (openings operators) →
        Judges (u ++ text (⟨u.length, tok⟩ :: ts)) (order operators (⟨u.length, tok⟩ :: ts)) := by
      intro ht hr
      rw [order_operator ht]
      apply Judges.map
      apply hread
      rwa [openings_dropWhile_isReleased ht]
    cases tok with
    | symbol c =>
      have hc := hs _ c List.mem_cons_self
      have hopen := hc.ne_of_not_alphanum (d := '(') (by decide)
      have hclose := hc.ne_of_not_alphanum (d := ')') (by decide)
      rw [order]
      exact (hread (hu.other hopen hclose)).map _
    | opening =>
      rw [order]
      exact hread hu.enter
    | closing =>
      rw [order]
      dsimp only
      split
      · rename_i hdrop
        have hfilter : operators.filter isOpening = [] := by
          rw [List.filter_eq_nil_iff]
          intro p hp
          simpa using List.dropWhile_eq_nil_iff.mp hdrop p hp
        rw [openings, hfilter] at hu
        exact .refused (hu.mismatched_closing _)
      · rename_i o below hdrop
        rw [openings, filter_of_dropWhile hdrop] at hu
        exact (hread hu.leave).map _
    | concat =>
      apply hoperator (by decide)
      simpa [char?] using hu
    | union => exact hoperator (by decide) (hu.other (c := '|') (by decide) (by decide))
    | star => exact hoperator (by decide) (hu.other (c := '*') (by decide) (by decide))

end Postfix
end Regex
end FiniteAutomata
