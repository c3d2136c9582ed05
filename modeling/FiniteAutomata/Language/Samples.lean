import FiniteAutomata.PowerState

/-! # Sample strings

Accepted strings are enumerated by a breadth-first search over power-states, the symbols taken in
ascending order. Each power-state is expanded only when it is first reached, so it contributes the
string that is first among the shortest ones leading to it.
-/
namespace FiniteAutomata
namespace Samples
variable {n : Nat}

/-- A power-state that was reached, with the word that reached it first. -/
structure Visit (n : Nat) where
  set : StateSet n
  word : List Char

/-- The words found so far and the power-states reached so far, both in their order. -/
structure Progress (n : Nat) where
  found : Array (List Char)
  visits : Array (Visit n)
  seen : Std.TreeMap Nat Unit

/-- Where a search ended: what it collected, and how many power-states were left unexpanded. -/
structure Result (n : Nat) where
  progress : Progress n
  left : Nat

def Progress.start (ix : Index n) (s : StateSet n) : Progress n :=
  ⟨if ix.isAccepting s then #[[]] else #[], #[⟨s, []⟩], (∅ : Std.TreeMap Nat Unit).insert s.key ()⟩

def Progress.visit (p : Progress n) (s : StateSet n) (word : List Char) : Progress n :=
  { p with visits := p.visits.push ⟨s, word⟩, seen := p.seen.insert s.key () }

/-- Follows one symbol from a power-state. The count may be reached by the string found here, and
then the search is over before the new power-state is entered. -/
def follow (ix : Index n) (count : Nat) (v : Visit n) (p : Progress n) (c : Char) :
    Except (Progress n) (Progress n) :=
  let t := ix.step v.set c
  if t.isEmpty || p.seen.contains t.key then .ok p
  else
    let word := v.word ++ [c]
    if ix.isAccepting t then
      let p := { p with found := p.found.push word }
      if count ≤ p.found.size then .error p else .ok (p.visit t word)
    else .ok (p.visit t word)

/-- Expands the power-states one after the other, from the given place on. There are at most as many
as there are sets of positions, which is the budget. -/
def expand (ix : Index n) (count length : Nat) : Nat → Nat → Progress n → Result n
  | 0, _, p => ⟨p, 0⟩
  | budget + 1, place, p =>
    match p.visits[place]? with
    | none => ⟨p, 0⟩
    | some v =>
      if count ≤ p.found.size then ⟨p, p.visits.size - (place + 1)⟩
      else if length ≤ v.word.length then expand ix count length budget (place + 1) p
      else
        match ix.alphabet.foldlM (follow ix count v) p with
        | .ok p => expand ix count length budget (place + 1) p
        | .error p => ⟨p, p.visits.size - (place + 1)⟩

def search (ix : Index n) (count length : Nat) (initial : Fin n) : Result n :=
  expand ix count length (Nat.pow 2 n) 0 (.start ix (ix.start initial))

/-- The strings of a search, with a warning if the count cut it short. -/
def report (ix : Index n) (count length : Nat) (initial : Fin n) : Logged (List String) :=
  let result := search ix count length initial
  let found := result.progress.found
  let cut := count ≤ found.size ∧ result.left ≠ 0
  do
    .emitAll (if cut then [.samplesCut found.size] else [])
    .emit (.explored result.progress.visits.size)
    return found.toList.map String.ofList

end Samples

/-- Up to `count` accepted strings of at most `length` symbols, shortest first. -/
def Automaton.samples (a : Automaton) (count length : Nat) : Logged (List String) := do
  let ix ← Index.ofAutomaton a
  let initial ← .silent ix.requireInitial
  if ix.accepting.isEmpty ∨ count = 0 then return []
  else Samples.report ix count length initial

end FiniteAutomata
