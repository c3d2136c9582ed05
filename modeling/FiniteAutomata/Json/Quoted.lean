import FiniteAutomata.Json.Value

/-! # Quoted texts

Between its quotes a text is written as it is, except that quotes, backslashes and control characters
are escaped. Any character may be escaped by the code of its UTF-16 units; the two halves of a
surrogate pair have to follow each other.
-/
namespace FiniteAutomata
namespace Json

/-- A character or an escaped UTF-16 unit. -/
inductive Piece where
  | char (c : Char)
  | unit (code : Nat)
  deriving DecidableEq, Repr

namespace Quoted

def hexChar (d : Nat) : Char := if d < 10 then Char.ofNat (48 + d) else Char.ofNat (87 + d)

def hexValue? (c : Char) : Option Nat :=
  if '0' ≤ c ∧ c ≤ '9' then some (c.toNat - 48)
  else if 'a' ≤ c ∧ c ≤ 'f' then some (c.toNat - 87)
  else if 'A' ≤ c ∧ c ≤ 'F' then some (c.toNat - 55)
  else none

/-- The code that four hexadecimal digits spell. -/
def hexCode? (a b c d : Char) : Option Nat := do
  return ((← hexValue? a) * 16 + (← hexValue? b)) * 256 + (← hexValue? c) * 16 + (← hexValue? d)

def escape (c : Char) : List Char :=
  if c = '"' then ['\\', '"']
  else if c = '\\' then ['\\', '\\']
  else if c = '\n' then ['\\', 'n']
  else if c = '\r' then ['\\', 'r']
  else if c = '\t' then ['\\', 't']
  else if c = '\x08' then ['\\', 'b']
  else if c = '\x0c' then ['\\', 'f']
  else if c < ' ' then ['\\', 'u', '0', '0', hexChar (c.toNat / 16), hexChar (c.toNat % 16)]
  else [c]

/-- The character that a letter after a backslash stands for. -/
def escaped? (c : Char) : Option Char :=
  if c = '"' ∨ c = '\\' ∨ c = '/' then some c
  else if c = 'n' then some '\n'
  else if c = 'r' then some '\r'
  else if c = 't' then some '\t'
  else if c = 'b' then some '\x08'
  else if c = 'f' then some '\x0c'
  else none

/-- The pieces up to the closing quote, and what follows it. -/
def pieces : List Char → Option (List Piece × List Char)
  | [] => none
  | '"' :: rest => some ([], rest)
  | '\\' :: 'u' :: a :: b :: c :: d :: rest => do
    let code ← hexCode? a b c d
    let (later, rest) ← pieces rest
    return (.unit code :: later, rest)
  | '\\' :: e :: rest => do
    let c ← escaped? e
    let (later, rest) ← pieces rest
    return (.char c :: later, rest)
  | c :: rest =>
    if c < ' ' then none
    else do
      let (later, rest) ← pieces rest
      return (.char c :: later, rest)

def isHigh (code : Nat) : Bool := 0xD800 ≤ code ∧ code < 0xDC00

def isLow (code : Nat) : Bool := 0xDC00 ≤ code ∧ code < 0xE000

def pair (high low : Nat) : Char :=
  Char.ofNat (0x10000 + (high - 0xD800) * 0x400 + (low - 0xDC00))

/-- The text that pieces spell, unless half of a surrogate pair stands alone. -/
def spell : List Piece → Option (List Char)
  | [] => some []
  | .char c :: rest => (c :: ·) <$> spell rest
  | .unit high :: .unit low :: rest =>
    if isHigh high then
      if isLow low then (pair high low :: ·) <$> spell rest else none
    else if isLow high then none
    else (Char.ofNat high :: ·) <$> spell (.unit low :: rest)
  | .unit code :: rest =>
    if isHigh code || isLow code then none else (Char.ofNat code :: ·) <$> spell rest

/-- Reads a quoted text after its opening quote. -/
def read (text : List Char) : Option (Quoted × List Char) := do
  let (found, rest) ← pieces text
  return ((spell found).map String.ofList, rest)

/-- Writes a text with its quotes. What spells no text is written as the empty text. -/
def write (s : Quoted) : List Char := '"' :: ((s.getD "").toList.flatMap escape ++ ['"'])

theorem pieces_length {text later : List Char} {found : List Piece}
    (h : pieces text = some (found, later)) : later.length ≤ text.length := by
  fun_induction pieces text generalizing found with
  | case1 => simp at h
  | case2 rest =>
    simp only [Option.some.injEq, Prod.mk.injEq] at h
    simp [← h.2]
  | case3 a b c d rest ih =>
    simp only [Option.bind_eq_bind, Option.bind_eq_some_iff, Option.pure_def,
      Option.some.injEq, Prod.mk.injEq] at h
    obtain ⟨_, _, ⟨_, _⟩, hr, -, rfl⟩ := h
    have := ih hr
    simp only [List.length_cons] at this ⊢
    omega
  | case4 e rest _ ih =>
    simp only [Option.bind_eq_bind, Option.bind_eq_some_iff, Option.pure_def,
      Option.some.injEq, Prod.mk.injEq] at h
    obtain ⟨_, _, ⟨_, _⟩, hr, -, rfl⟩ := h
    have := ih hr
    simp only [List.length_cons] at this ⊢
    omega
  | case5 => simp at h
  | case6 c rest _ _ _ _ ih =>
    simp only [Option.bind_eq_bind, Option.bind_eq_some_iff, Option.pure_def,
      Option.some.injEq, Prod.mk.injEq] at h
    obtain ⟨⟨_, _⟩, hr, -, rfl⟩ := h
    have := ih hr
    simp only [List.length_cons] at this ⊢
    omega

theorem read_length {text later : List Char} {q : Quoted} (h : read text = some (q, later)) :
    later.length ≤ text.length := by
  simp only [read, Option.bind_eq_bind, Option.bind_eq_some_iff, Option.pure_def,
    Option.some.injEq, Prod.mk.injEq] at h
  obtain ⟨⟨_, _⟩, hp, -, rfl⟩ := h
  exact pieces_length hp

end Quoted
end Json
end FiniteAutomata
