import FiniteAutomata.Decimal.Digit

/-! # Numerals

A number as it is written: a sign, whole digits, digits after a point, and an exponent of ten. A
numeral means a natural number only if it is written as one; any numeral can be read as a floating
point number, by a rule that is cheaper than correct rounding and can be off in the last bit.
-/
namespace FiniteAutomata

structure Exponent where
  negative : Bool
  digits : List Digit
  deriving DecidableEq, Repr

structure Numeral where
  negative : Bool := false
  whole : List Digit
  /-- The digits after the point; without a point there are none. -/
  fraction : List Digit := []
  exponent : Option Exponent := none
  deriving DecidableEq, Repr

namespace Numeral

def ofNat (n : Nat) : Numeral := { whole := Digit.ofNat n }

/-- The characters of a numeral. The sign of an exponent is always written. -/
def text (n : Numeral) : List Char :=
  (if n.negative then ['-'] else []) ++ n.whole.map Digit.toChar
    ++ (if n.fraction = [] then [] else '.' :: n.fraction.map Digit.toChar)
    ++ match n.exponent with
      | none => []
      | some e => 'e' :: (if e.negative then '-' else '+') :: e.digits.map Digit.toChar

/-- Reads digits, of which there has to be one. -/
def readDigits (text : List Char) : Option (List Digit × List Char) :=
  match Digit.span text with
  | ([], _) => none
  | found => some found

/-- Reads whole digits: a zero stands alone. -/
def readWhole (text : List Char) : Option (List Digit × List Char) :=
  match Digit.span text with
  | ([], _) => none
  | (0 :: _ :: _, _) => none
  | found => some found

def readFraction : List Char → Option (List Digit × List Char)
  | '.' :: rest => readDigits rest
  | text => some ([], text)

def readExponent : List Char → Option (Option Exponent × List Char)
  | 'e' :: rest | 'E' :: rest =>
    let (negative, rest) :=
      match rest with
      | '-' :: rest => (true, rest)
      | '+' :: rest => (false, rest)
      | rest => (false, rest)
    (readDigits rest).map fun (digits, rest) => (some ⟨negative, digits⟩, rest)
  | text => some (none, text)

/-- Reads a numeral at the beginning of a text, as long as possible. -/
def read (text : List Char) : Option (Numeral × List Char) := do
  let (negative, text) :=
    match text with
    | '-' :: rest => (true, rest)
    | text => (false, text)
  let (whole, text) ← readWhole text
  let (fraction, text) ← readFraction text
  let (exponent, text) ← readExponent text
  return ({ negative, whole, fraction, exponent }, text)

/-- The natural number that a numeral is written as: it has neither sign, point nor exponent. -/
def natural? (n : Numeral) : Option Nat :=
  if n.negative ∨ n.fraction ≠ [] ∨ n.exponent ≠ none then none else some (Digit.toNat n.whole)

theorem readDigits_length {text later : List Char} {ds : List Digit}
    (h : readDigits text = some (ds, later)) : later.length ≤ text.length := by
  have := Digit.span_length text
  unfold readDigits at h
  split at h
  · simp at h
  · simp only [Option.some.injEq] at h
    rw [h] at this
    exact this

theorem readWhole_length {text later : List Char} {ds : List Digit}
    (h : readWhole text = some (ds, later)) : later.length < text.length := by
  unfold readWhole at h
  split at h
  · simp at h
  · simp at h
  · rename_i found hne _
    rw [Option.some.injEq] at h
    cases ds with
    | nil => exact absurd h (hne later)
    | cons d rest => exact Digit.span_length_lt h

theorem readFraction_length {text later : List Char} {ds : List Digit}
    (h : readFraction text = some (ds, later)) : later.length ≤ text.length := by
  unfold readFraction at h
  split at h
  · have := readDigits_length h
    simp only [List.length_cons]
    omega
  · simp only [Option.some.injEq, Prod.mk.injEq] at h
    simp [h.2]

theorem readExponent_length {text later : List Char} {e : Option Exponent}
    (h : readExponent text = some (e, later)) : later.length ≤ text.length := by
  unfold readExponent at h
  split at h
  all_goals try
    simp only [Option.map_eq_some_iff, Prod.mk.injEq, Prod.exists] at h
    obtain ⟨_, _, hd, -, rfl⟩ := h
    have := readDigits_length hd
    split at this <;> simp only [List.length_cons] at * <;> omega
  simp only [Option.some.injEq, Prod.mk.injEq] at h
  simp [h.2]

theorem read_length {text later : List Char} {n : Numeral}
    (h : read text = some (n, later)) : later.length < text.length := by
  simp only [read, Option.bind_eq_bind, Option.bind_eq_some_iff, Option.pure_def,
    Option.some.injEq, Prod.mk.injEq, Prod.exists] at h
  obtain ⟨_, _, hw, _, _, hf, _, _, he, -, rfl⟩ := h
  have h1 := readWhole_length hw
  have h2 := readFraction_length hf
  have h3 := readExponent_length he
  split at h1 <;> simp only [List.length_cons] at * <;> omega

end Numeral
end FiniteAutomata
