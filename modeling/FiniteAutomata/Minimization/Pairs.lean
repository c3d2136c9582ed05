import FiniteAutomata.Limits
import FiniteAutomata.Minimization.Dfa

/-! # Distinguishing pairs

Pairs of positions of a complete automaton are marked when some word is accepted from one of them
only. First the pairs of which one accepts are marked, then, in passes, each pair that some symbol
takes to a marked pair, until a pass marks nothing. A pass sees the marks that it makes itself, so
the number of passes depends on the order of the pairs: the smaller position first, then the other.
-/
namespace FiniteAutomata

/-- For each position, which positions are marked as distinguishable from it. -/
abbrev Marks (m : Nat) := Vector (Vector Bool m) m

namespace Marks
variable {m : Nat}

def blank : Marks m := .replicate m (.replicate m false)

def marked (marks : Marks m) (p q : Fin m) : Bool := (marks.get p).get q

/-- Marks a pair, in both directions. -/
def mark (marks : Marks m) (p q : Fin m) : Marks m :=
  let marks := marks.set p ((marks.get p).set q true q.isLt) p.isLt
  marks.set q ((marks.get q).set p true p.isLt) q.isLt

@[simp] theorem marked_blank (i j : Fin m) : (blank : Marks m).marked i j = false := by
  have hrow : (blank : Marks m).get i = .replicate m false := Vector.getElem_replicate i.isLt
  rw [marked, hrow]
  exact Vector.getElem_replicate j.isLt

theorem marked_mark (marks : Marks m) (p q i j : Fin m) :
    (marks.mark p q).marked i j
      = (marks.marked i j || decide (i = p ∧ j = q) || decide (i = q ∧ j = p)) := by
  have hset {α : Type} (xs : Vector α m) (i j : Fin m) (x : α) :
      (xs.set i x i.isLt).get j = if i = j then x else xs.get j := by
    simp only [Fin.ext_iff]
    exact Vector.getElem_set i.isLt j.isLt
  unfold mark marked
  grind

/-- Goes through the pairs of a list, each first member with all the later ones. -/
def overPairs {α β : Type} (f : β → α → α → β) : β → List α → β
  | b, [] => b
  | b, p :: rest => overPairs f (rest.foldl (fun b q => f b p q) b) rest

/-- The pairs of which exactly one accepts. -/
def ofAcceptance (d : CompleteDfa m) (points : List (Fin m)) : Marks m :=
  overPairs (fun marks p q => if d.accepting.get p ≠ d.accepting.get q then marks.mark p q else marks)
    blank points

/-- Whether lists of moves lead to a marked pair at some symbol. -/
def anyMarked (marks : Marks m) : List (Fin m) → List (Fin m) → Bool
  | p :: ps, q :: qs => p ≠ q && marks.marked p q || anyMarked marks ps qs
  | _, _ => false

def splits (d : CompleteDfa m) (marks : Marks m) (p q : Fin m) : Bool :=
  marks.anyMarked (d.moves.get p) (d.moves.get q)

def pass (d : CompleteDfa m) (points : List (Fin m)) (marks : Marks m) : Marks m :=
  overPairs (fun marks p q =>
    if marks.marked p q then marks else if splits d marks p q then marks.mark p q else marks)
    marks points

/-- The number of pairs of distinct members of a list of the given length. -/
def pairCount (size : Nat) : Nat := countProduct size (size - 1) / 2

/-- Marks to which no pass adds anything, with the number of passes and of pairs looked at. -/
structure Settled (m : Nat) where
  marks : Marks m
  rounds : Nat
  checks : Nat

def tooManyChecks (limits : Limits) : Error := .resourceLimit .pairChecks limits.maxPairChecks

/-- Repeats passes until one changes nothing. Every other pass marks a pair, so that a budget of one
more than there are ordered pairs suffices. -/
def settle (d : CompleteDfa m) (points : List (Fin m)) (limits : Limits) :
    Nat → Settled m → Except Error (Settled m)
  | 0, s => .ok s
  | budget + 1, s =>
    let checks := countSum s.checks (pairCount points.length)
    if limits.maxPairChecks < checks then .error (tooManyChecks limits)
    else
      let marks := pass d points s.marks
      if marks = s.marks then .ok ⟨marks, s.rounds + 1, checks⟩
      else settle d points limits budget ⟨marks, s.rounds + 1, checks⟩

/-- All distinguishable pairs of the listed positions. The first marking counts as a look at every
pair, and if that alone passes the limit no table is made. -/
def fill (d : CompleteDfa m) (points : List (Fin m)) (limits : Limits) :
    Except Error (Settled m) :=
  let pairs := pairCount points.length
  if limits.maxPairChecks < pairs then .error (tooManyChecks limits)
  else
    settle d points limits (points.length * points.length + 1) ⟨ofAcceptance d points, 0, pairs⟩

/-- The classes of positions without a mark between them, each headed by its first member. -/
def classes (marks : Marks m) : List (Fin m) → List (List (Fin m))
  | [] => []
  | p :: rest =>
    (p :: rest.filter fun q => !marks.marked p q) :: classes marks (rest.filter (marks.marked p))
termination_by points => points.length
decreasing_by
  simp only [List.length_cons]
  exact Nat.lt_succ_of_le (by simpa using List.length_filter_le (marks.marked p) rest)

end Marks
end FiniteAutomata
