/-! # Layout grids

States made by the program are laid out on a grid, row by row, so that an editor can show them
without overlap.
-/
namespace FiniteAutomata

structure Grid where
  columns : Nat
  origin : Float × Float
  spacing : Float

namespace Grid

/-- The corner of the `n`-th cell, counted along the rows from the origin. -/
def cell (g : Grid) (n : Nat) : Float × Float :=
  (g.origin.1 + Float.ofNat (n % g.columns) * g.spacing,
   g.origin.2 + Float.ofNat (n / g.columns) * g.spacing)

/-- A grid without columns has no cells. -/
def cell? (g : Grid) (n : Nat) : Option (Float × Float) :=
  if g.columns = 0 then none else some (g.cell n)

/-- Where compiled patterns are drawn. -/
def patternLayout : Grid := ⟨8, (50, 100), 90⟩

/-- Where determinized and minimized automata are drawn. -/
def resultLayout : Grid := ⟨4, (150, 150), 120⟩

end Grid
end FiniteAutomata
