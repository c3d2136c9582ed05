/-! # Limits

Ceilings for the constructions whose cost can explode, and the defaults of the string generator.
Counts are written in 64 bits, and a running count that would pass the largest one stays there.
-/
namespace FiniteAutomata

structure Limits where
  /-- How many power-states a determinization may number. -/
  maxPowerStates : Nat := 10000
  /-- How many pairs of states a minimization may look at, summed over all of its passes. -/
  maxPairChecks : Nat := 100000000
  /-- How many strings are generated unless a count is given. -/
  sampleCount : Nat := 5
  /-- How long a generated string may be unless a length is given. -/
  sampleLength : Nat := 15
  deriving DecidableEq, Repr, Inhabited

def maxCount : Nat := UInt64.size - 1

def countSum (a b : Nat) : Nat := min (a + b) maxCount

def countProduct (a b : Nat) : Nat := min (a * b) maxCount

end FiniteAutomata
