import FiniteAutomata.Decimal.Numeral

/-! # Reading numerals as floating point numbers

The leading digits that fit into 64 bits form a significand, which is converted to floating point
and scaled once by a power of ten. Each of the two steps rounds, so the result can differ from the
nearest floating point number in the last bit.
-/
namespace FiniteAutomata

/-- A significand below `2 ^ 64` and an exponent of ten. -/
structure Scaled where
  significand : Nat
  exponent : Int
  deriving DecidableEq, Repr

namespace Scaled

def fits (significand : Nat) (d : Digit) : Bool := 10 * significand + d.val < UInt64.size

/-- Takes up whole digits. From the first that does not fit, each counts as a factor of ten. -/
def takeWhole (significand : Nat) : List Digit → Scaled
  | [] => ⟨significand, 0⟩
  | d :: ds =>
    if fits significand d then takeWhole (10 * significand + d.val) ds
    else ⟨significand, ds.length + 1⟩

/-- Takes up digits after the point, and ignores them from the first that does not fit. -/
def takeFraction (s : Scaled) : List Digit → Scaled
  | [] => s
  | d :: ds =>
    if fits s.significand d then
      takeFraction ⟨10 * s.significand + d.val, s.exponent - 1⟩ ds
    else s

def ofDigits (whole fraction : List Digit) : Scaled := (takeWhole 0 whole).takeFraction fraction

def maxExponent : Int := Int32.maxValue.toInt

def powerOfTen (k : Nat) : Float := Float.ofScientific 1 false k

/-- Scales by a power of ten. Beyond the range of the powers, a number is too large, or is made
smaller step by step until it vanishes. -/
def scale (f : Float) (exponent : Int) : Option Float :=
  if exponent.natAbs ≤ 308 then
    if exponent < 0 then some (f / powerOfTen exponent.natAbs)
    else
      let scaled := f * powerOfTen exponent.natAbs
      if scaled.isInf then none else some scaled
  else if f == 0 then some f
  else if 0 ≤ exponent then none
  else scale (f / 1e308) (exponent + 308)
termination_by exponent.natAbs

def toFloat? (s : Scaled) : Option Float := scale (UInt64.ofNat s.significand).toFloat s.exponent

end Scaled

namespace Numeral

/-- The size of the number that a numeral stands for, if it is not too large. An exponent too long to
calculate with makes a number vanish or makes it too large. -/
def magnitude? (n : Numeral) : Option Float :=
  let s := Scaled.ofDigits n.whole n.fraction
  match n.exponent with
  | none => s.toFloat?
  | some e =>
    let power : Int := Digit.toNat e.digits
    if Scaled.maxExponent < power then
      if e.negative ∨ s.significand = 0 then some 0 else none
    else
      Scaled.toFloat? ⟨s.significand, s.exponent + if e.negative then -power else power⟩

def float? (n : Numeral) : Option Float :=
  n.magnitude?.map fun f => if n.negative then -f else f

end Numeral
end FiniteAutomata
