import FiniteAutomata.Decimal.Numeral

/-! # Shortest numerals

A floating point number is written with the fewest digits that no other floating point number is
nearer to, and of those with the digits nearest to it. Everything is exact arithmetic on natural
numbers: the number and the ends of the interval that rounds to it are scaled to integers.
-/
namespace FiniteAutomata

/-- A positive number `mantissa * 2 ^ exponent` of a floating point format. -/
structure Binary where
  mantissa : Nat
  exponent : Int
  /-- Whether the next smaller number of the format is only half as far away as the next larger. -/
  closeBelow : Bool
  deriving DecidableEq, Repr

/-- The decimal number `digits * 10 ^ exponent`. -/
structure Decimal where
  digits : Nat
  exponent : Int
  deriving DecidableEq, Repr

namespace Binary

/-- A power of two as an integer times a power of ten. -/
def powerOfTwo (exponent : Int) : Decimal :=
  if 0 ≤ exponent then ⟨Nat.pow 2 exponent.natAbs, 0⟩ else ⟨Nat.pow 5 exponent.natAbs, exponent⟩

/-- The number and the ends of the interval that rounds to it, all with the same exponent of ten. -/
structure Interval where
  low : Nat
  value : Nat
  high : Nat
  /-- Whether the ends themselves round to the number. -/
  closed : Bool
  exponent : Int

def interval (b : Binary) : Interval :=
  let unit := powerOfTwo (b.exponent - 2)
  { low := (4 * b.mantissa - if b.closeBelow then 1 else 2) * unit.digits
    value := 4 * b.mantissa * unit.digits
    high := (4 * b.mantissa + 2) * unit.digits
    closed := b.mantissa % 2 == 0
    exponent := unit.exponent }

namespace Interval

def holdsAbove (i : Interval) (c : Nat) : Bool := i.low < c || i.closed && i.low == c

def holdsBelow (i : Interval) (c : Nat) : Bool := c < i.high || i.closed && c == i.high

/-- The multiple of a grid step that lies in the interval and is nearest to the number, the even one
of two that are equally near. -/
def nearest? (i : Interval) (step : Nat) : Option Nat :=
  let below := i.value / step
  let above := below + 1
  match i.holdsAbove (below * step), i.holdsBelow (above * step) with
  | false, false => none
  | true, false => some below
  | false, true => some above
  | true, true =>
    let down := i.value - below * step
    let up := above * step - i.value
    if down < up then some below
    else if up < down then some above
    else if below % 2 = 0 then some below else some above

/-- Tries the grids of finer and finer steps; the last one gives the number itself. -/
def search (i : Interval) : Nat → Decimal
  | 0 => ⟨i.value, i.exponent⟩
  | places + 1 =>
    match i.nearest? (Nat.pow 10 (places + 1)) with
    | some digits => ⟨digits, i.exponent + (places + 1)⟩
    | none => search i places

end Interval

/-- The shortest decimal number in the interval that rounds to the given number. -/
def shortest (b : Binary) : Decimal :=
  let i := b.interval
  i.search ((Digit.ofNat i.value).length - 1)

/-- The size of a finite floating point number; zero has none. -/
def ofFloat? (x : Float) : Option Binary :=
  let bits := x.toBits.toNat
  let biased := bits / Nat.pow 2 52 % Nat.pow 2 11
  let fraction := bits % Nat.pow 2 52
  if biased = 0 then
    if fraction = 0 then none else some ⟨fraction, -1074, false⟩
  else some ⟨Nat.pow 2 52 + fraction, Int.ofNat biased - 1075, fraction == 0 && biased != 1⟩

end Binary

namespace Numeral

def significant (ds : List Digit) : List Digit := (ds.reverse.dropWhile (· == .zero)).reverse

/-- Numbers with their first digit at these powers of ten are written without an exponent. -/
def isPlain (power : Int) : Bool := -5 ≤ power ∧ power ≤ 15

/-- The numeral with the given first digits, the very first of them at a power of ten. There is
always a point or an exponent. -/
def layout (negative : Bool) (ds : List Digit) (power : Int) : Numeral :=
  if isPlain power then
    if 0 ≤ power then
      let count := power.toNat + 1
      let after := ds.drop count
      { negative
        whole := ds.take count ++ .replicate (count - ds.length) .zero
        fraction := if after = [] then [.zero] else after }
    else { negative, whole := [.zero], fraction := .replicate (power.natAbs - 1) .zero ++ ds }
  else
    { negative
      whole := ds.take 1
      fraction := ds.drop 1
      exponent := some ⟨decide (power < 0), Digit.ofNat power.natAbs⟩ }

def isNegative (x : Float) : Bool := Nat.pow 2 63 ≤ x.toBits.toNat

def ofFloat (x : Float) : Numeral :=
  match Binary.ofFloat? x with
  | none => { negative := isNegative x, whole := [.zero], fraction := [.zero] }
  | some b =>
    let d := b.shortest
    let ds := Digit.ofNat d.digits
    layout (isNegative x) (significant ds) (d.exponent + ds.length - 1)

end Numeral
end FiniteAutomata
