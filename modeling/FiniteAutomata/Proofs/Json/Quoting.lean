import Mathlib.Data.List.Forall2
import FiniteAutomata.Json.Quoted

/-! # Quoted texts are read back as they were written

Every character is written as one piece, either as it is, or escaped by a letter or by its code. The
codes written are those of control characters, so no half of a surrogate pair occurs.
-/
namespace FiniteAutomata
namespace Json

/-- What a character is read back as: itself, or the code of a control character. -/
def Piece.Spells (p : Piece) (c : Char) : Prop := p = .char c ∨ c < ' ' ∧ p = .unit c.toNat

namespace Quoted
variable {text rest : List Char} {found : List Piece}

theorem pieces_letter (h : pieces text = some (found, rest)) {e c : Char} (hu : e ≠ 'u')
    (he : escaped? e = some c) : pieces ('\\' :: e :: text) = some (.char c :: found, rest) := by
  simp [pieces, hu, he, h]

theorem pieces_code (h : pieces text = some (found, rest)) {a b c d : Char} {code : Nat}
    (hcode : hexCode? a b c d = some code) :
    pieces ('\\' :: 'u' :: a :: b :: c :: d :: text) = some (.unit code :: found, rest) := by
  rw [pieces, hcode, h]
  rfl

theorem pieces_plain (h : pieces text = some (found, rest)) {c : Char} (hquote : c ≠ '"')
    (hslash : c ≠ '\\') (hc : ¬ c < ' ') : pieces (c :: text) = some (.char c :: found, rest) := by
  simp [pieces, hslash, hc, h]

theorem hexCode?_control {c : Char} (h : c < ' ') :
    hexCode? '0' '0' (hexChar (c.toNat / 16)) (hexChar (c.toNat % 16)) = some c.toNat := by
  have hcodes : ∀ n < 32, hexCode? '0' '0' (hexChar (n / 16)) (hexChar (n % 16)) = some n := by
    decide
  exact hcodes c.toNat h

theorem escape_cases (c : Char) :
    (∃ e, escape c = ['\\', e] ∧ e ≠ 'u' ∧ escaped? e = some c) ∨
      (c < ' ' ∧ escape c = ['\\', 'u', '0', '0', hexChar (c.toNat / 16), hexChar (c.toNat % 16)]) ∨
      (escape c = [c] ∧ c ≠ '"' ∧ c ≠ '\\' ∧ ¬ c < ' ') := by
  unfold escape
  iterate 7
    split
    · exact .inl ⟨_, rfl, by decide, by subst_vars; rfl⟩
  split
  case isTrue hc => exact .inr (.inl ⟨hc, rfl⟩)
  case isFalse hc => exact .inr (.inr ⟨rfl, by assumption, by assumption, hc⟩)

theorem pieces_escape (c : Char) (h : pieces text = some (found, rest)) :
    ∃ p : Piece, p.Spells c ∧ pieces (escape c ++ text) = some (p :: found, rest) := by
  obtain ⟨e, he, hu, hc⟩ | ⟨hc, he⟩ | ⟨he, hquote, hslash, hc⟩ := escape_cases c
  · exact ⟨.char c, .inl rfl, he ▸ pieces_letter h hu hc⟩
  · exact ⟨.unit c.toNat, .inr ⟨hc, rfl⟩, he ▸ pieces_code h (hexCode?_control hc)⟩
  · exact ⟨.char c, .inl rfl, he ▸ pieces_plain h hquote hslash hc⟩

theorem spell_unit {code : Nat} (h : code < 0xD800) (found : List Piece) :
    spell (.unit code :: found) = (Char.ofNat code :: ·) <$> spell found := by
  have hhigh : isHigh code = false := decide_eq_false fun hc => absurd hc.1 (by omega)
  have hlow : isLow code = false := decide_eq_false fun hc => absurd hc.1 (by omega)
  cases found with
  | nil => simp [spell, hhigh, hlow]
  | cons p found => cases p <;> simp [spell, hhigh, hlow]

theorem spell_cons {p : Piece} {c : Char} (h : p.Spells c) (found : List Piece) :
    spell (p :: found) = (c :: ·) <$> spell found := by
  obtain rfl | ⟨hc, rfl⟩ := h
  · rfl
  · have hcode : c.toNat < 32 := hc
    rw [spell_unit (by omega), Char.ofNat_toNat]

theorem pieces_escapes (cs rest : List Char) :
    ∃ found, pieces (cs.flatMap escape ++ '"' :: rest) = some (found, rest) ∧ spell found = some cs := by
  induction cs with
  | nil => exact ⟨[], by rw [List.flatMap_nil, List.nil_append, pieces], rfl⟩
  | cons c cs ih =>
    obtain ⟨found, hfound, hspell⟩ := ih
    obtain ⟨p, hp, hpieces⟩ := pieces_escape c hfound
    refine ⟨p :: found, ?_, ?_⟩
    · rw [List.flatMap_cons, List.append_assoc, hpieces]
    · rw [spell_cons hp, hspell]
      rfl

/-- A quoted text is read back, whatever characters there are in it. -/
theorem read_escapes (s : String) (rest : List Char) :
    read (s.toList.flatMap escape ++ '"' :: rest) = some (some s, rest) := by
  obtain ⟨found, hfound, hspell⟩ := pieces_escapes s.toList rest
  simp [read, hfound, hspell]

end Quoted
end Json
end FiniteAutomata
