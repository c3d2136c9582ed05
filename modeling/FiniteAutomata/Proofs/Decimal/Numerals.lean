import FiniteAutomata.Decimal.Shortest

/-! # Numerals are read back as they were written

A numeral is read to its end, which needs a character behind it that cannot continue it. What the
program writes for natural numbers and floating point numbers has no leading zeros and is read back.
-/
namespace FiniteAutomata

namespace Digit

theorem ofNat_of_lt {n : Nat} (h : n < 10) : ofNat n = [Fin.ofNat 10 n] := by
  rw [ofNat, if_pos h]

theorem ofNat_ne_nil (n : Nat) : ofNat n ≠ [] := by
  unfold ofNat
  split <;> simp

theorem ofNat_eq_cons {n : Nat} (h : 0 < n) : ∃ d ds, ofNat n = d :: ds ∧ d ≠ zero := by
  fun_induction ofNat n with
  | case1 n hlt =>
    refine ⟨_, _, rfl, ?_⟩
    rw [Ne, Fin.ext_iff, Fin.val_ofNat, Nat.mod_eq_of_lt hlt]
    exact Nat.ne_of_gt h
  | case2 n hge ih =>
    obtain ⟨d, ds, hds, hd⟩ := ih (by omega)
    exact ⟨d, ds ++ [Fin.ofNat 10 n], by rw [hds, List.cons_append], hd⟩

theorem pow_le_of_length {n : Nat} (h : 0 < n) : Nat.pow 10 ((ofNat n).length - 1) ≤ n := by
  fun_induction ofNat n with
  | case1 n hlt => exact h
  | case2 n hge ih =>
    have hpow := ih (by omega)
    have hlength := List.length_pos_iff.mpr (ofNat_ne_nil (n / 10))
    rw [List.length_append, List.length_singleton, Nat.add_sub_cancel]
    obtain ⟨k, hk⟩ := Nat.exists_eq_add_of_lt hlength
    rw [hk] at hpow ⊢
    simp only [Nat.zero_add, Nat.add_sub_cancel] at hpow ⊢
    have hsucc : Nat.pow 10 (k + 1) = Nat.pow 10 k * 10 := rfl
    omega

theorem toChar_ne {d : Digit} {c : Char} (h : ofChar? c = none) : d.toChar ≠ c := by
  rintro rfl
  simp at h

end Digit

namespace Numeral
open Digit

/-- The whole part and the exponent have digits, and the whole part has no needless zeros. -/
structure WellFormed (n : Numeral) : Prop where
  whole : ∃ d ds, n.whole = d :: ds ∧ (d = zero → ds = [])
  exponent : ∀ e ∈ n.exponent, e.digits ≠ []

/-- What stands here does not go on with a numeral. -/
def Ends (text : List Char) : Prop :=
  ∀ c ∈ text.head?, ofChar? c = none ∧ c ≠ '.' ∧ c ≠ 'e' ∧ c ≠ 'E'

theorem readDigits_map {ds : List Digit} {rest : List Char} (hds : ds ≠ [])
    (h : ∀ c ∈ rest.head?, ofChar? c = none) :
    readDigits (ds.map toChar ++ rest) = some (ds, rest) := by
  unfold readDigits
  rw [span_map_toChar ds h]
  cases ds with
  | nil => exact absurd rfl hds
  | cons d ds => rfl

theorem readWhole_map {d : Digit} {ds : List Digit} {rest : List Char} (hzero : d = zero → ds = [])
    (h : ∀ c ∈ rest.head?, ofChar? c = none) :
    readWhole ((d :: ds).map toChar ++ rest) = some (d :: ds, rest) := by
  unfold readWhole
  rw [span_map_toChar _ h]
  split
  · simp at *
  · rename_i heq
    simp only [Prod.mk.injEq, List.cons.injEq] at heq
    obtain ⟨⟨hd, hds⟩, -⟩ := heq
    rw [hzero hd] at hds
    cases hds
  · rfl

def fractionText (ds : List Digit) : List Char := if ds = [] then [] else '.' :: ds.map toChar

def exponentText : Option Exponent → List Char
  | none => []
  | some e => 'e' :: (if e.negative then '-' else '+') :: e.digits.map toChar

theorem text_eq (n : Numeral) : n.text = (if n.negative then ['-'] else []) ++ n.whole.map toChar
    ++ fractionText n.fraction ++ exponentText n.exponent := rfl

theorem readFraction_text (ds : List Digit) {rest : List Char}
    (h : ∀ c ∈ rest.head?, ofChar? c = none ∧ c ≠ '.') :
    readFraction (fractionText ds ++ rest) = some (ds, rest) := by
  unfold fractionText
  split
  · rename_i hds
    subst hds
    cases rest with
    | nil => rfl
    | cons c rest =>
      have hc := (h c rfl).2
      unfold readFraction
      split
      · rename_i heq
        exact absurd (List.cons.inj heq).1 hc
      · rfl
  · rename_i hds
    exact readDigits_map hds fun c hc => (h c hc).1

theorem readExponent_text {e : Option Exponent} {rest : List Char} (he : ∀ x ∈ e, x.digits ≠ [])
    (h : Ends rest) : readExponent (exponentText e ++ rest) = some (e, rest) := by
  cases e with
  | none =>
    cases rest with
    | nil => rfl
    | cons c rest =>
      obtain ⟨-, -, hlower, hupper⟩ := h c rfl
      unfold exponentText readExponent
      split
      · rename_i heq
        exact absurd (List.cons.inj heq).1 hlower
      · rename_i heq
        exact absurd (List.cons.inj heq).1 hupper
      · rfl
  | some e =>
    obtain ⟨negative, digits⟩ := e
    have hdigits := readDigits_map (he _ rfl) fun c hc => (h c hc).1
    cases negative <;> simp [exponentText, readExponent, hdigits]

theorem head_exponentText (e : Option Exponent) {rest : List Char} (h : Ends rest) :
    ∀ c ∈ (exponentText e ++ rest).head?, ofChar? c = none ∧ c ≠ '.' := by
  cases e with
  | none => exact fun c hc => ⟨(h c hc).1, (h c hc).2.1⟩
  | some e => simp [exponentText]; decide

theorem head_fractionText (ds : List Digit) {rest : List Char}
    (h : ∀ c ∈ rest.head?, ofChar? c = none ∧ c ≠ '.') :
    ∀ c ∈ (fractionText ds ++ rest).head?, ofChar? c = none := by
  unfold fractionText
  split
  · exact fun c hc => (h c hc).1
  · simp; decide

/-- A well-formed numeral is read back, and nothing behind it is touched. -/
theorem WellFormed.read_text {n : Numeral} (hn : n.WellFormed) {rest : List Char} (h : Ends rest) :
    read (n.text ++ rest) = some (n, rest) := by
  obtain ⟨negative, whole, fraction, exponent⟩ := n
  obtain ⟨⟨d, ds, rfl, hzero⟩, hexponent⟩ := hn
  have he := readExponent_text hexponent h
  have hbehind := head_exponentText exponent h
  have hf := readFraction_text fraction hbehind
  have hw := readWhole_map hzero (head_fractionText fraction hbehind)
  have hsign : d.toChar ≠ '-' := toChar_ne (by decide)
  rw [text_eq]
  simp only [List.append_assoc, List.map_cons, List.cons_append] at hw ⊢
  unfold read
  cases negative with
  | true => simp [hw, hf, he]
  | false =>
    simp only [Bool.false_eq_true, if_false, List.nil_append]
    split
    · rename_i heq
      exact absurd (List.cons.inj heq).1 hsign
    · simp [hw, hf, he]

theorem wellFormed_ofNat (n : Nat) : (ofNat n).WellFormed := by
  refine ⟨?_, fun e he => (by cases he)⟩
  rcases Nat.eq_zero_or_pos n with rfl | hn
  · exact ⟨zero, [], Digit.ofNat_of_lt (by decide), fun _ => rfl⟩
  · obtain ⟨d, ds, hds, hd⟩ := ofNat_eq_cons hn
    exact ⟨d, ds, hds, fun h => absurd h hd⟩

theorem significant_cons {d : Digit} (hd : d ≠ zero) (ds : List Digit) :
    ∃ es, significant (d :: ds) = d :: es := by
  unfold significant
  rw [List.reverse_cons, List.dropWhile_append]
  split
  · exact ⟨[], by simp [hd]⟩
  · exact ⟨_, by rw [List.reverse_append]; rfl⟩

theorem wellFormed_layout {negative : Bool} {d : Digit} {ds : List Digit} (hd : d ≠ zero)
    (power : Int) : (layout negative (d :: ds) power).WellFormed := by
  unfold layout
  split
  · split
    · exact ⟨⟨d, _, rfl, fun h => absurd h hd⟩, fun e he => (by cases he)⟩
    · exact ⟨⟨zero, [], rfl, fun _ => rfl⟩, fun e he => (by cases he)⟩
  · refine ⟨⟨d, [], rfl, fun _ => rfl⟩, ?_⟩
    rintro e ⟨rfl⟩
    exact ofNat_ne_nil _

end Numeral

namespace Binary
open Digit

theorem digits_nearest?_pos {i : Interval} {step digits : Nat} (hstep : 0 < step)
    (hle : step ≤ i.value) (h : i.nearest? step = some digits) : 0 < digits := by
  have hbelow : 0 < i.value / step := Nat.div_pos hle hstep
  unfold Interval.nearest? at h
  grind

theorem digits_search_pos {i : Interval} {places : Nat} (hpos : 0 < i.value)
    (hle : Nat.pow 10 places ≤ i.value) : 0 < (i.search places).digits := by
  induction places with
  | zero => exact hpos
  | succ places ih =>
    unfold Interval.search
    split
    · rename_i digits h
      exact digits_nearest?_pos (Nat.pow_pos (by decide)) hle h
    · exact ih (Nat.le_trans (Nat.pow_le_pow_right (by decide) (Nat.le_succ _)) hle)

theorem digits_powerOfTwo_pos (exponent : Int) : 0 < (powerOfTwo exponent).digits := by
  unfold powerOfTwo
  split <;> exact Nat.pow_pos (by decide)

theorem digits_shortest_pos {b : Binary} (h : 0 < b.mantissa) : 0 < b.shortest.digits := by
  have hpos : 0 < b.interval.value :=
    Nat.mul_pos (Nat.mul_pos (by decide) h) (digits_powerOfTwo_pos _)
  exact digits_search_pos hpos (pow_le_of_length hpos)

theorem mantissa_pos_of_ofFloat? {x : Float} {b : Binary} (h : ofFloat? x = some b) :
    0 < b.mantissa := by
  unfold ofFloat? at h
  dsimp only at h
  split at h
  · split at h
    · cases h
    · rename_i hne
      cases h
      exact Nat.pos_of_ne_zero hne
  · cases h
    exact Nat.add_pos_left (Nat.pow_pos (by decide)) _

end Binary

namespace Numeral

theorem wellFormed_ofFloat (x : Float) : (ofFloat x).WellFormed := by
  unfold ofFloat
  cases h : Binary.ofFloat? x with
  | none => exact ⟨⟨.zero, [], rfl, fun _ => rfl⟩, fun e he => (by cases he)⟩
  | some b =>
    obtain ⟨d, ds, hds, hd⟩ :=
      Digit.ofNat_eq_cons (Binary.digits_shortest_pos (Binary.mantissa_pos_of_ofFloat? h))
    obtain ⟨es, hes⟩ := significant_cons hd ds
    simp only [hds, hes]
    exact wellFormed_layout hd _

end Numeral
end FiniteAutomata
