/-! # Decimal digits

Natural numbers as lists of digits, the most significant first.
-/
namespace FiniteAutomata

abbrev Digit := Fin 10

namespace Digit

def zero : Digit := ⟨0, Nat.zero_lt_succ 9⟩

def toChar (d : Digit) : Char := Char.ofNat ('0'.toNat + d.val)

def ofChar? (c : Char) : Option Digit :=
  if h : '0'.toNat ≤ c.toNat ∧ c.toNat ≤ '9'.toNat then
    some ⟨c.toNat - '0'.toNat, by
      have h0 : '0'.toNat = 48 := rfl
      have h9 : '9'.toNat = 57 := rfl
      omega⟩
  else none

/-- The digits of a number, without leading zeros unless the number is zero. -/
def ofNat (n : Nat) : List Digit :=
  if n < 10 then [Fin.ofNat 10 n] else ofNat (n / 10) ++ [Fin.ofNat 10 n]

/-- The number that digits spell. -/
def toNat (ds : List Digit) : Nat := ds.foldl (fun v d => 10 * v + d.val) 0

/-- The digits at the beginning of a text, and the rest of the text. -/
def span : List Char → List Digit × List Char
  | [] => ([], [])
  | c :: rest =>
    match ofChar? c with
    | some d =>
      let (ds, later) := span rest
      (d :: ds, later)
    | none => ([], c :: rest)

@[simp] theorem ofChar?_toChar (d : Digit) : ofChar? d.toChar = some d := by
  revert d
  decide

theorem toNat_concat (ds : List Digit) (d : Digit) :
    toNat (ds ++ [d]) = 10 * toNat ds + d.val := by
  rw [toNat, List.foldl_append]
  rfl

@[simp] theorem toNat_ofNat (n : Nat) : toNat (ofNat n) = n := by
  fun_induction ofNat n with
  | case1 n h =>
    simp [toNat]
    omega
  | case2 n h ih =>
    rw [toNat_concat, ih, Fin.val_ofNat]
    exact Nat.div_add_mod n 10

theorem span_length (text : List Char) : (span text).2.length ≤ text.length := by
  induction text with
  | nil => simp [span]
  | cons c rest ih =>
    unfold span
    split
    · simp only [List.length_cons]
      omega
    · simp

/-- Reading at least one digit shortens the text. -/
theorem span_length_lt {text later : List Char} {d : Digit} {ds : List Digit}
    (h : span text = (d :: ds, later)) : later.length < text.length := by
  cases text with
  | nil => simp [span] at h
  | cons c rest =>
    unfold span at h
    split at h
    · simp only [Prod.mk.injEq] at h
      have := span_length rest
      rw [h.2] at this
      simp only [List.length_cons]
      omega
    · simp at h

/-- Digits are read back from their characters when no digit follows. -/
theorem span_map_toChar (ds : List Digit) {rest : List Char}
    (h : ∀ c ∈ rest.head?, ofChar? c = none) : span (ds.map toChar ++ rest) = (ds, rest) := by
  induction ds with
  | nil =>
    cases rest with
    | nil => rfl
    | cons c rest => simp [span, h c (by simp)]
  | cons d ds ih => simp [span, ih]

end Digit
end FiniteAutomata
