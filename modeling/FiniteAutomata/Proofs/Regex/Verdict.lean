import FiniteAutomata.Proofs.Regex.Compilation
import FiniteAutomata.Proofs.Regex.Parentheses

/-! # Which patterns compile, and what is wrong with the others

Exactly the patterns of the grammar compile, and those of parentheses around nothing. Any other
pattern is refused for the first character that is not allowed, else for a parenthesis without a
partner, else for an operator without an operand.
-/
namespace FiniteAutomata
namespace Regex
variable {w : List Char} {c : Char}

/-- The characters that may stand in a pattern. -/
def IsAllowed (c : Char) : Prop := IsSymbol c ∨ c ∈ ['|', '*', '(', ')']

/-- The first character that is not allowed is at the place. -/
def FirstDisallowed (w : List Char) (i : Nat) (c : Char) : Prop :=
  w[i]? = some c ∧ ¬ IsAllowed c ∧ ∀ j < i, ∀ d, w[j]? = some d → IsAllowed d

/-- An operand ends at the place, and another begins right behind it. -/
def Adjoins (w : List Char) (i : Nat) : Prop :=
  ∃ a b, w[i]? = some a ∧ w[i + 1]? = some b ∧ (IsSymbol a ∨ a = ')' ∨ a = '*') ∧
    (IsSymbol b ∨ b = '(')

/-- What may be wrong with a pattern, each fault only in the absence of those that are named before
it. -/
inductive Diagnoses (w : List Char) : SyntaxError → Prop where
  | reserved {i : Nat} : FirstDisallowed w i Label.epsilonMark → Diagnoses w (.reservedSymbol i)
  | unexpected {i : Nat} {c : Char} : FirstDisallowed w i c → c ≠ Label.epsilonMark →
    Diagnoses w (.unexpectedCharacter c i)
  | unmatched {i : Nat} : (∀ c ∈ w, IsAllowed c) → Mismatched w i →
    Diagnoses w (.unmatchedParenthesis i)
  | operator {i : Nat} {c : Char} : (∀ c ∈ w, IsAllowed c) → Matched w → w[i]? = some c →
    c = '|' ∨ c = '*' → Diagnoses w (.missingOperand c i)
  | juxtaposition {i : Nat} : (∀ c ∈ w, IsAllowed c) → Matched w → Adjoins w i →
    Diagnoses w (.missingOperand '.' (i + 1))

namespace Token

theorem isAllowed_of_ofChar {pos : Nat} {t : Token} (h : ofChar pos c = .ok t) : IsAllowed c := by
  obtain ⟨hchar, hsymbol⟩ := ofChar_eq_ok h
  cases t with
  | symbol d =>
    obtain rfl : d = c := Option.some.inj hchar
    exact Or.inl (hsymbol d rfl)
  | concat => cases hchar
  | _ =>
    obtain rfl := Option.some.inj hchar
    exact Or.inr (by decide)

/-- The error about a character that is not allowed. -/
def refusal (c : Char) (pos : Nat) : SyntaxError :=
  if c = Label.epsilonMark then .reservedSymbol pos else .unexpectedCharacter c pos

theorem of_ofChar_eq_error {pos : Nat} {e : SyntaxError} (h : ofChar pos c = .error e) :
    ¬ IsAllowed c ∧ e = refusal c pos := by
  have hallowed : ¬ IsAllowed c := by
    rintro (hs | hmem)
    · rw [ofChar_of_isSymbol hs] at h
      cases h
    · simp only [List.mem_cons, List.not_mem_nil, or_false] at hmem
      rcases hmem with rfl | rfl | rfl | rfl <;> cases h
  refine ⟨hallowed, ?_⟩
  unfold ofChar at h
  unfold refusal
  repeat' split at h
  all_goals cases h
  all_goals simp_all

theorem scan_eq_error {pos : Nat} {e : SyntaxError} (h : scan pos w = .error e) :
    ∃ i c, FirstDisallowed w i c ∧ e = refusal c (pos + i) := by
  induction w generalizing pos with
  | nil => cases h
  | cons c w ih =>
    rw [scan] at h
    cases ht : ofChar pos c with
    | error e' =>
      rw [ht] at h
      cases h
      obtain ⟨hc, rfl⟩ := of_ofChar_eq_error ht
      exact ⟨0, c, ⟨rfl, hc, fun j hj => absurd hj (Nat.not_lt_zero j)⟩, rfl⟩
    | ok t =>
      rw [ht] at h
      cases hs : scan (pos + 1) w with
      | ok ts =>
        rw [hs] at h
        cases h
      | error e' =>
        rw [hs] at h
        cases h
        obtain ⟨i, d, ⟨hd, hne, hbefore⟩, rfl⟩ := ih hs
        refine ⟨i + 1, d, ⟨hd, hne, ?_⟩, by rw [Nat.add_assoc, Nat.add_comm 1 i]⟩
        intro j hj x hx
        cases j with
        | zero =>
          obtain rfl := Option.some.inj hx
          exact isAllowed_of_ofChar ht
        | succ j => exact hbefore j (Nat.lt_of_succ_lt_succ hj) x hx

theorem isAllowed_of_scan {pos : Nat} {ts : List Placed} (h : scan pos w = .ok ts) :
    ∀ c ∈ w, IsAllowed c := by
  induction w generalizing pos ts with
  | nil => exact fun c hc => absurd hc List.not_mem_nil
  | cons d w ih =>
    obtain ⟨t, us, ht, hus, -⟩ := scan_cons_eq_ok.mp h
    intro c hc
    rcases List.mem_cons.mp hc with rfl | hc
    · exact isAllowed_of_ofChar ht
    · exact ih hus c hc

theorem char?_eq_some_iff {t : Token} : t.char? = some c ↔ t ≠ .concat ∧ t.name = c := by
  cases t <;> simp [char?]

theorem getElem?_of_scan {pos k : Nat} {ts : List Placed} {t : Placed} (h : scan pos w = .ok ts)
    (ht : ts[k]? = some t) :
    t.position = pos + k ∧ t.token ≠ .concat ∧ w[k]? = some t.token.name := by
  induction w generalizing pos k ts with
  | nil =>
    cases h
    cases ht
  | cons c w ih =>
    obtain ⟨t', us, ht', hus, rfl⟩ := scan_cons_eq_ok.mp h
    cases k with
    | zero =>
      obtain rfl := Option.some.inj ht
      obtain ⟨hne, rfl⟩ := char?_eq_some_iff.mp (ofChar_eq_ok ht').1
      exact ⟨rfl, hne, rfl⟩
    | succ k =>
      obtain ⟨hpos, hrest⟩ := ih hus ht
      exact ⟨by rw [hpos, Nat.add_assoc, Nat.add_comm 1 k], hrest⟩

theorem adjoins_of_scan {k : Nat} {ts : List Placed} {a b : Placed} (h : scan 0 w = .ok ts)
    (ha : ts[k]? = some a) (hb : ts[k + 1]? = some b) (hends : a.token.endsOperand = true)
    (hstarts : b.token.startsOperand = true) : Adjoins w k := by
  obtain ⟨-, hsymbols⟩ := text_of_scan h
  obtain ⟨-, -, hchar⟩ := getElem?_of_scan h ha
  obtain ⟨-, -, hchar'⟩ := getElem?_of_scan h hb
  obtain ⟨p, t⟩ := a
  obtain ⟨q, u⟩ := b
  refine ⟨t.name, u.name, hchar, hchar', ?_, ?_⟩
  · cases t with
    | symbol c => exact Or.inl (hsymbols p c (List.mem_of_getElem? ha))
    | closing => exact Or.inr (Or.inl rfl)
    | star => exact Or.inr (Or.inr rfl)
    | _ => cases hends
  · cases u with
    | symbol c => exact Or.inl (hsymbols q c (List.mem_of_getElem? hb))
    | opening => exact Or.inr rfl
    | _ => cases hstarts

end Token

namespace Postfix

theorem mem_of_order {ts operators : List Placed} {post : Postfix} (h : order operators ts = .ok post)
    {p : Placed} (hp : p ∈ post) : p ∈ operators ∨ p ∈ ts := by
  induction ts generalizing operators post with
  | nil =>
    rw [order] at h
    split at h
    · cases h
    · cases h
      exact Or.inl hp
  | cons t ts ih =>
    obtain ⟨q, tok⟩ := t
    have hoperator : 1 ≤ tok.precedence → p ∈ operators ∨ p ∈ (⟨q, tok⟩ : Placed) :: ts := by
      intro ht
      rw [order_operator ht] at h
      obtain ⟨rest, hrest, rfl⟩ := Outcome.map_eq_ok.mp h
      rcases List.mem_append.mp hp with hp | hp
      · exact Or.inl ((List.takeWhile_subset _) hp)
      · rcases ih hrest hp with hp | hp
        · rcases List.mem_cons.mp hp with rfl | hp
          · exact Or.inr List.mem_cons_self
          · exact Or.inl ((List.dropWhile_subset _) hp)
        · exact Or.inr (List.mem_cons_of_mem _ hp)
    cases tok with
    | symbol c =>
      rw [order] at h
      obtain ⟨rest, hrest, rfl⟩ := Outcome.map_eq_ok.mp h
      rcases List.mem_cons.mp hp with rfl | hp
      · exact Or.inr List.mem_cons_self
      · exact (ih hrest hp).imp_right (List.mem_cons_of_mem _)
    | opening =>
      rw [order] at h
      rcases ih h hp with hp | hp
      · rcases List.mem_cons.mp hp with rfl | hp
        · exact Or.inr List.mem_cons_self
        · exact Or.inl hp
      · exact Or.inr (List.mem_cons_of_mem _ hp)
    | closing =>
      rw [order] at h
      dsimp only at h
      split at h
      · cases h
      · rename_i o below hdrop
        obtain ⟨rest, hrest, rfl⟩ := Outcome.map_eq_ok.mp h
        rcases List.mem_append.mp hp with hp | hp
        · exact Or.inl ((List.takeWhile_subset _) hp)
        · rcases ih hrest hp with hp | hp
          · have hmem : p ∈ operators.dropWhile (!isOpening ·) := by
              rw [hdrop]
              exact List.mem_cons_of_mem _ hp
            exact Or.inl ((List.dropWhile_subset _) hmem)
          · exact Or.inr (List.mem_cons_of_mem _ hp)
    | union => exact hoperator (by decide)
    | concat => exact hoperator (by decide)
    | star => exact hoperator (by decide)

theorem Writes.not_parenthesis {post : Postfix} {g : Nat} {P : RegularExpression Char}
    (h : Writes post g P) : ∀ p ∈ post, p.token ≠ .opening ∧ p.token ≠ .closing := by
  induction h with
  | hole => exact fun p hp => absurd hp List.not_mem_nil
  | symbol p c => simp
  | star p _ ih =>
    intro q hq
    rcases List.mem_append.mp hq with hq | hq
    · exact ih q hq
    · obtain rfl := List.mem_singleton.mp hq
      exact ⟨by simp, by simp⟩
  | concat p _ _ ih ih' | union p _ _ ih ih' =>
    intro q hq
    simp only [List.mem_append, List.mem_singleton] at hq
    rcases hq with (hq | hq) | rfl
    · exact ih q hq
    · exact ih' q hq
    · exact ⟨by simp, by simp⟩

end Postfix

namespace Assembly

/-- The operators of patterns. -/
def IsOperator (t : Token) : Prop := t = .union ∨ t = .star ∨ t = .concat

theorem of_apply_eq_error {s : Assembly} {p : Placed} {x : Failure} (h : s.apply p = .error x)
    (hp : p.token ≠ .opening ∧ p.token ≠ .closing) :
    IsOperator p.token ∧ x = .error (.badPattern (.missingOperand p.token.name p.position)) := by
  obtain ⟨b, stack⟩ := s
  obtain ⟨pos, tok⟩ := p
  cases tok with
  | symbol c => cases h
  | opening => exact absurd rfl hp.1
  | closing => exact absurd rfl hp.2
  | star =>
    rcases stack with _ | ⟨inner, stack⟩
    · cases h
      exact ⟨Or.inr (Or.inl rfl), rfl⟩
    · cases h
  | concat =>
    have hoperator : IsOperator .concat := Or.inr (Or.inr rfl)
    rcases stack with _ | ⟨second, _ | ⟨first, stack⟩⟩
    · cases h
      exact ⟨hoperator, rfl⟩
    · cases h
      exact ⟨hoperator, rfl⟩
    · cases h
  | union =>
    have hoperator : IsOperator .union := Or.inl rfl
    rcases stack with _ | ⟨right, _ | ⟨left, stack⟩⟩
    · cases h
      exact ⟨hoperator, rfl⟩
    · cases h
      exact ⟨hoperator, rfl⟩
    · cases h

theorem of_foldlM_eq_error {post : Postfix} {s : Assembly} {x : Failure}
    (h : post.foldlM apply s = .error x)
    (hp : ∀ p ∈ post, p.token ≠ .opening ∧ p.token ≠ .closing) :
    ∃ p ∈ post, IsOperator p.token ∧
      x = .error (.badPattern (.missingOperand p.token.name p.position)) := by
  induction post generalizing s with
  | nil => cases h
  | cons p post ih =>
    rw [List.foldlM_cons] at h
    cases hs : s.apply p with
    | error y =>
      rw [hs] at h
      cases h
      exact ⟨p, List.mem_cons_self, of_apply_eq_error hs (hp p List.mem_cons_self)⟩
    | ok t =>
      rw [hs] at h
      obtain ⟨q, hq, hx⟩ := ih h fun q hq => hp q (List.mem_cons_of_mem _ hq)
      exact ⟨q, List.mem_cons_of_mem _ hq, hx⟩

theorem Applies.stack_ne_nil {tok : Token} {s t : Assembly} (h : Applies tok s t) :
    t.stack ≠ [] := by
  cases h <;> exact List.cons_ne_nil _ _

theorem stack_ne_nil_of_foldlM {post : Postfix} {s t : Assembly}
    (h : post.foldlM apply s = .ok t) (hs : post ≠ [] ∨ s.stack ≠ []) : t.stack ≠ [] := by
  induction post generalizing s with
  | nil =>
    cases h
    exact hs.resolve_left fun hne => hne rfl
  | cons p post ih =>
    obtain ⟨m, hm, h⟩ := Outcome.foldlM_cons_eq_ok.mp h
    exact ih h (Or.inr (applies_of_apply hm).stack_ne_nil)

end Assembly

/-- A postfix form has an automaton, or one of its operators is short of operands; it never leaves
fragments that are not joined. -/
theorem ofPostfix_outcome {post : Postfix} {g : Nat} {P : RegularExpression Char}
    (h : Postfix.Writes post g P) (hne : post ≠ []) :
    (∃ a, ofPostfix post = .ok a) ∨ ∃ p ∈ post, Assembly.IsOperator p.token ∧
      ofPostfix post = .refuse (.badPattern (.missingOperand p.token.name p.position)) := by
  cases hfold : post.foldlM Assembly.apply {} with
  | error x =>
    obtain ⟨p, hp, hoperator, rfl⟩ := Assembly.of_foldlM_eq_error hfold h.not_parenthesis
    refine Or.inr ⟨p, hp, hoperator, ?_⟩
    rw [ofPostfix, hfold]
    rfl
  | ok s =>
    left
    have hlength := Assembly.length_of_foldlM h hfold
    have hstack := Assembly.stack_ne_nil_of_foldlM hfold (Or.inl hne)
    obtain ⟨b, stack⟩ := s
    rcases stack with _ | ⟨f, _ | ⟨g, rest⟩⟩
    · exact absurd rfl hstack
    · exact ⟨_, ofPostfix_of_foldlM hfold⟩
    · simp at hlength
      omega

theorem compile_eq_refuse {pattern : String} {e : SyntaxError}
    (h : Postfix.ofPattern pattern.toList = .error e) :
    (compile pattern).outcome = .refuse (.badPattern e) := by
  rw [compile, h]
  rfl

theorem outcome_compile {pattern : String} {post : Postfix}
    (h : Postfix.ofPattern pattern.toList = .ok post) (hne : post ≠ []) :
    (compile pattern).outcome = ofPostfix post := by
  rw [compile, h]
  cases post with
  | nil => exact absurd rfl hne
  | cons p post =>
    dsimp only
    rw [Logged.outcome_bind, Logged.outcome_silent]
    cases ofPostfix (p :: post) <;> rfl

theorem Denotes.exists_compile {pattern : String} {P : RegularExpression Char}
    (h : Denotes pattern.toList P) : ∃ a, (compile pattern).outcome = .ok a := by
  cases h with
  | derived hd =>
    obtain ⟨post, hpost, hw⟩ := hd.exists_ofPattern
    obtain ⟨b, f, hfold, -⟩ := Assembly.exists_foldlM hw rfl {}
    refine ⟨b.automaton f, ?_⟩
    rw [outcome_compile hpost hw.ne_nil]
    exact ofPostfix_of_foldlM hfold
  | hollow hh =>
    refine ⟨emptyWord, ?_⟩
    rw [compile, hh.ofPattern]
    exact ofEmpty_eq

theorem diagnoses_operator {ts : List Placed} {post : Postfix} {p : Placed}
    (hscan : Token.scan 0 w = .ok ts) (hmatched : Matched w)
    (ho : Postfix.order [] (Token.joined ts) = .ok post) (hp : p ∈ post)
    (hoperator : Assembly.IsOperator p.token) :
    Diagnoses w (.missingOperand p.token.name p.position) := by
  have hallowed := Token.isAllowed_of_scan hscan
  have hmem := (Postfix.mem_of_order ho hp).resolve_left List.not_mem_nil
  rcases Token.mem_joined hmem with hmem | ⟨k, a, b, ha, hb, hends, hstarts, rfl⟩
  · obtain ⟨k, hk⟩ := List.getElem?_of_mem hmem
    obtain ⟨hpos, hne, hchar⟩ := Token.getElem?_of_scan hscan hk
    rw [Nat.zero_add] at hpos
    rw [hpos]
    apply Diagnoses.operator hallowed hmatched hchar
    rcases hoperator with he | he | he
    · exact Or.inl (by rw [he]; rfl)
    · exact Or.inr (by rw [he]; rfl)
    · exact absurd he hne
  · obtain ⟨hpos, -⟩ := Token.getElem?_of_scan hscan hb
    rw [Nat.zero_add] at hpos
    rw [hpos]
    exact .juxtaposition hallowed hmatched (Token.adjoins_of_scan hscan ha hb hends hstarts)

theorem diagnoses_refusal {i : Nat} (h : FirstDisallowed w i c) :
    Diagnoses w (Token.refusal c i) := by
  unfold Token.refusal
  split
  · rename_i hc
    rw [hc] at h
    exact .reserved h
  · rename_i hc
    exact .unexpected h hc

theorem judges_of_scan {ts : List Placed} (h : Token.scan 0 w = .ok ts) :
    Postfix.Judges w (Postfix.order [] (Token.joined ts)) := by
  obtain ⟨htext, hsymbols⟩ := Token.text_of_scan h
  have hread : Reading [] (Postfix.openings []) := Reading.nil
  have hj := Postfix.judges_order hread (Token.aligned_of_scan h).joined hsymbols.joined
  rwa [List.nil_append, Token.text_joined, htext] at hj

/-- A pattern compiles, or it is refused for something that is wrong with it. -/
theorem exists_compile_or_diagnoses (pattern : String) :
    (∃ a, (compile pattern).outcome = .ok a) ∨
      ∃ e, (compile pattern).outcome = .refuse (.badPattern e) ∧ Diagnoses pattern.toList e := by
  cases hscan : Token.scan 0 pattern.toList with
  | error e =>
    obtain ⟨i, c, hc, rfl⟩ := Token.scan_eq_error hscan
    rw [Nat.zero_add] at hscan
    right
    refine ⟨Token.refusal c i, compile_eq_refuse ?_, diagnoses_refusal hc⟩
    rw [Postfix.ofPattern, hscan]
    rfl
  | ok ts =>
    have hofPattern := ofPattern_of_scan hscan
    have hjudges := judges_of_scan hscan
    cases horder : Postfix.order [] (Token.joined ts) with
    | error e =>
      rw [horder] at hofPattern hjudges
      cases hjudges with
      | refused hm =>
        right
        exact ⟨_, compile_eq_refuse hofPattern, .unmatched (Token.isAllowed_of_scan hscan) hm⟩
    | ok post =>
      rw [horder] at hofPattern hjudges
      cases hjudges with
      | ordered hm =>
        obtain ⟨_, g, P, -, -, -, hw⟩ := exists_parse_of_ofPattern hofPattern
        by_cases hne : post = []
        · left
          have hdenotes := (denotes_iff_of_ofPattern_nil (hne ▸ hofPattern)).mpr rfl
          exact hdenotes.exists_compile
        · rw [outcome_compile hofPattern hne]
          rcases ofPostfix_outcome hw hne with hok | ⟨p, hp, hoperator, he⟩
          · exact Or.inl hok
          · right
            exact ⟨_, he, diagnoses_operator hscan hm horder hp hoperator⟩

/-- The patterns of the grammar compile, and those of parentheses around nothing. No other pattern
does, and what it is refused for is wrong with it. -/
theorem compile_verdict (pattern : String) :
    ((∃ a, (compile pattern).outcome = .ok a) ↔
      (∃ P, Derives .union pattern.toList P) ∨ IsHollow pattern.toList) ∧
    ((∃ a, (compile pattern).outcome = .ok a) ∨
      ∃ e, (compile pattern).outcome = .refuse (.badPattern e) ∧ Diagnoses pattern.toList e) := by
  refine ⟨⟨?_, ?_⟩, exists_compile_or_diagnoses pattern⟩
  · intro h
    obtain ⟨a, ha⟩ := h
    obtain ⟨P, hP⟩ := exists_denotes ha
    cases hP with
    | derived hd => exact Or.inl ⟨P, hd⟩
    | hollow hh => exact Or.inr hh
  · intro h
    rcases h with ⟨P, hd⟩ | hh
    · exact (Denotes.derived hd).exists_compile
    · exact (Denotes.hollow hh).exists_compile

/-- A group around nothing is no operand. -/
example : (compile "a()").outcome = .refuse (.badPattern (.missingOperand '.' 1)) := by
  rfl

end Regex
end FiniteAutomata
