import FiniteAutomata.Json.Quoted

/-! # Reading JSON

The text is read token by token, and a machine with a stack of open arrays and objects puts the
tokens together. Nothing but the length of the text bounds the depth of nesting.
-/
namespace FiniteAutomata
namespace Json

inductive Token where
  | openArray
  | closeArray
  | openObject
  | closeObject
  | comma
  | colon
  | null
  | bool (b : Bool)
  | num (n : Numeral)
  | str (s : Quoted)
  deriving DecidableEq, Repr

def isBlank (c : Char) : Bool := c = ' ' || c = '\n' || c = '\t' || c = '\r'

/-- What is left of a text after the given characters. -/
def expect : List Char → List Char → Option (List Char)
  | [], text => some text
  | w :: word, c :: text => if w = c then expect word text else none
  | _ :: _, [] => none

/-- Reads the token that starts with the given character. -/
def Token.read (c : Char) (rest : List Char) : Option (Token × List Char) :=
  match c with
  | '[' => some (openArray, rest)
  | ']' => some (closeArray, rest)
  | '\x7b' => some (openObject, rest)
  | '\x7d' => some (closeObject, rest)
  | ',' => some (comma, rest)
  | ':' => some (colon, rest)
  | 'n' => (expect ['u', 'l', 'l'] rest).map (null, ·)
  | 't' => (expect ['r', 'u', 'e'] rest).map (bool true, ·)
  | 'f' => (expect ['a', 'l', 's', 'e'] rest).map (bool false, ·)
  | '"' => (Quoted.read rest).map fun (q, rest) => (str q, rest)
  | c => (Numeral.read (c :: rest)).map fun (n, rest) => (num n, rest)

theorem expect_length {word text later : List Char} (h : expect word text = some later) :
    later.length ≤ text.length := by
  fun_induction expect word text with
  | case1 => simp_all
  | case2 _ _ _ ih =>
    have := ih h
    simp only [List.length_cons]
    omega
  | case3 => simp at h
  | case4 => simp at h

/-- An open array or object, with what was read of it, the last first. -/
inductive Frame where
  | items (before : List Json)
  | member (before : List (Quoted × Json)) (key : Quoted)

inductive Machine where
  | value (open_ : List Frame)
  | firstItem (open_ : List Frame)
  | firstKey (open_ : List Frame)
  | key (before : List (Quoted × Json)) (open_ : List Frame)
  | colon (before : List (Quoted × Json)) (key : Quoted) (open_ : List Frame)
  /-- A value is complete; without an open array or object it is the whole value. -/
  | complete (v : Json) (open_ : List Frame)

namespace Machine

def beginValue (open_ : List Frame) : Token → Option Machine
  | .openArray => some (firstItem open_)
  | .openObject => some (firstKey open_)
  | .null => some (complete .null open_)
  | .bool b => some (complete (.bool b) open_)
  | .num n => some (complete (.num n) open_)
  | .str s => some (complete (.str s) open_)
  | _ => none

def step : Machine → Token → Option Machine
  | value open_, t => beginValue open_ t
  | firstItem open_, .closeArray => some (complete (.arr []) open_)
  | firstItem open_, t => beginValue (.items [] :: open_) t
  | firstKey open_, .closeObject => some (complete (.obj []) open_)
  | firstKey open_, .str k => some (colon [] k open_)
  | key before open_, .str k => some (colon before k open_)
  | colon before k open_, .colon => some (value (.member before k :: open_))
  | complete v (.items before :: open_), .comma => some (value (.items (v :: before) :: open_))
  | complete v (.items before :: open_), .closeArray =>
    some (complete (.arr (v :: before).reverse) open_)
  | complete v (.member before k :: open_), .comma => some (key ((k, v) :: before) open_)
  | complete v (.member before k :: open_), .closeObject =>
    some (complete (.obj ((k, v) :: before).reverse) open_)
  | _, _ => none

end Machine

theorem Token.read_length {c : Char} {rest later : List Char} {t : Token}
    (h : Token.read c rest = some (t, later)) : later.length ≤ rest.length := by
  unfold Token.read at h
  split at h
  all_goals try
    simp only [Option.some.injEq, Prod.mk.injEq] at h
    simp [h.2]
  all_goals simp only [Option.map_eq_some_iff, Prod.mk.injEq, Prod.exists] at h
  · obtain ⟨_, he, -, rfl⟩ := h
    exact expect_length he
  · obtain ⟨_, he, -, rfl⟩ := h
    exact expect_length he
  · obtain ⟨_, he, -, rfl⟩ := h
    exact expect_length he
  · obtain ⟨_, _, hq, -, rfl⟩ := h
    exact Quoted.read_length hq
  · obtain ⟨_, _, hn, -, rfl⟩ := h
    exact Nat.lt_succ_iff.mp (Numeral.read_length hn)

def Machine.run (m : Machine) : List Char → Option Machine
  | [] => some m
  | c :: rest =>
    if isBlank c then run m rest
    else
      match _h : Token.read c rest with
      | none => none
      | some (t, later) =>
        match m.step t with
        | none => none
        | some m => run m later
termination_by text => text.length
decreasing_by
  · exact Nat.lt_succ_self _
  · exact Nat.lt_succ_of_le (Token.read_length _h)

/-- The value that a text spells, with nothing but blanks around it. -/
def read (text : List Char) : Option Json :=
  match Machine.run (.value []) text with
  | some (.complete v []) => some v
  | _ => none

end Json
end FiniteAutomata
