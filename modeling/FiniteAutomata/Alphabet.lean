/-! # Alphabets

An alphabet is kept as the strictly ascending list of its symbols, ordered by code point. Every
construction that goes through the symbols one by one does so in this order.
-/
namespace FiniteAutomata

abbrev Alphabet := List Char

namespace Alphabet

/-- Adds a symbol at its place, unless it is there already. -/
def insert (c : Char) : Alphabet → Alphabet
  | [] => [c]
  | d :: rest => if c < d then c :: d :: rest else if c = d then d :: rest else d :: insert c rest

def ofSymbols (symbols : List Char) : Alphabet :=
  symbols.foldl (fun alphabet c => insert c alphabet) []

/-- The column of a symbol, counted from the smallest symbol of the alphabet. -/
def column? (alphabet : Alphabet) (c : Char) : Option Nat :=
  alphabet.idxOf? c

theorem mem_insert {c d : Char} {alphabet : Alphabet} :
    d ∈ insert c alphabet ↔ d = c ∨ d ∈ alphabet := by
  induction alphabet with
  | nil => simp [insert]
  | cons a rest ih =>
    unfold insert
    split
    · simp
    · split
      · rename_i h
        subst h
        simp
      · simp only [List.mem_cons, ih]
        constructor
        · rintro (h | h | h) <;> simp [h]
        · rintro (h | h | h) <;> simp [h]

private theorem mem_foldl_insert {symbols : List Char} {alphabet : Alphabet} {c : Char} :
    c ∈ symbols.foldl (fun a d => insert d a) alphabet ↔ c ∈ symbols ∨ c ∈ alphabet := by
  induction symbols generalizing alphabet with
  | nil => simp
  | cons s rest ih =>
    rw [List.foldl_cons, ih, mem_insert, List.mem_cons]
    constructor
    · rintro (h | h | h) <;> simp [h]
    · rintro ((h | h) | h) <;> simp [h]

@[simp] theorem mem_ofSymbols {symbols : List Char} {c : Char} :
    c ∈ ofSymbols symbols ↔ c ∈ symbols := by
  simp [ofSymbols, mem_foldl_insert]

theorem pairwise_insert {c : Char} {alphabet : Alphabet} (h : alphabet.Pairwise (· < ·)) :
    (insert c alphabet).Pairwise (· < ·) := by
  induction alphabet with
  | nil => simp [insert]
  | cons a rest ih =>
    obtain ⟨ha, hrest⟩ := List.pairwise_cons.mp h
    unfold insert
    split
    · rename_i hc
      refine List.pairwise_cons.mpr ⟨fun d hd => ?_, h⟩
      rcases List.mem_cons.mp hd with rfl | hd
      · exact hc
      · exact Char.lt_trans hc (ha d hd)
    · split
      · exact h
      · rename_i hlt hne
        refine List.pairwise_cons.mpr ⟨fun d hd => ?_, ih hrest⟩
        rcases mem_insert.mp hd with rfl | hd
        · exact Std.lt_of_le_of_ne (Char.not_lt.mp hlt) (Ne.symm hne)
        · exact ha d hd

private theorem pairwise_foldl_insert {symbols : List Char} {alphabet : Alphabet}
    (h : alphabet.Pairwise (· < ·)) :
    (symbols.foldl (fun a d => insert d a) alphabet).Pairwise (· < ·) := by
  induction symbols generalizing alphabet with
  | nil => exact h
  | cons s rest ih => exact ih (pairwise_insert h)

theorem pairwise_ofSymbols (symbols : List Char) : (ofSymbols symbols).Pairwise (· < ·) :=
  pairwise_foldl_insert List.Pairwise.nil

end Alphabet
end FiniteAutomata
