import Mathlib.Computability.RegularExpressions
import FiniteAutomata.Regex.Token

/-! # The grammar of patterns

Alternatives bind least, concatenation by juxtaposition binds more, repetition most, and parentheses
group. The grammar is left-recursive, so that a pattern is derived in one way only, and every
derivation carries the regular expression that it stands for. On tokens, where every concatenation is
written, the same grammar is given with holes: places where an operand is expected and nothing stands.
-/
namespace FiniteAutomata
namespace Regex

inductive Nonterminal where
  | union
  | concat
  | star
  | atom
  deriving DecidableEq, Repr

/-- The characters that stand for themselves. -/
def IsSymbol (c : Char) : Prop := c.isAlphanum = true ∧ c ≠ Label.epsilonMark

/-- The characters that a nonterminal derives, with the expression that they stand for. -/
inductive Derives : Nonterminal → List Char → RegularExpression Char → Prop where
  | symbol {c : Char} : IsSymbol c → Derives .atom [c] (.char c)
  | group {w : List Char} {P : RegularExpression Char} :
    Derives .union w P → Derives .atom ('(' :: w ++ [')']) P
  | atom {w : List Char} {P : RegularExpression Char} : Derives .atom w P → Derives .star w P
  | star {w : List Char} {P : RegularExpression Char} :
    Derives .star w P → Derives .star (w ++ ['*']) P.star
  | single {w : List Char} {P : RegularExpression Char} : Derives .star w P → Derives .concat w P
  | concat {v w : List Char} {P Q : RegularExpression Char} :
    Derives .concat v P → Derives .star w Q → Derives .concat (v ++ w) (P * Q)
  | alternative {w : List Char} {P : RegularExpression Char} :
    Derives .concat w P → Derives .union w P
  | union {v w : List Char} {P Q : RegularExpression Char} :
    Derives .union v P → Derives .concat w Q → Derives .union (v ++ '|' :: w) (P + Q)

/-- Some opening parentheses, then as many closing ones. -/
def IsHollow (w : List Char) : Prop := ∃ n, w = List.replicate n '(' ++ List.replicate n ')'

/-- What a pattern denotes: what the grammar makes of it, or the empty word if it has no symbols. -/
inductive Denotes (w : List Char) : RegularExpression Char → Prop where
  | derived {P : RegularExpression Char} : Derives .union w P → Denotes w P
  | hollow : IsHollow w → Denotes w 1

/-- The tokens that a nonterminal derives, the number of holes among them, and the expression. -/
inductive Parses : Nonterminal → List Placed → Nat → RegularExpression Char → Prop where
  | hole : Parses .atom [] 1 0
  | symbol (p : Nat) (c : Char) : Parses .atom [⟨p, .symbol c⟩] 0 (.char c)
  | group {ts : List Placed} {g : Nat} {P : RegularExpression Char} (p q : Nat) :
    Parses .union ts g P → Parses .atom (⟨p, .opening⟩ :: ts ++ [⟨q, .closing⟩]) g P
  | atom {ts : List Placed} {g : Nat} {P : RegularExpression Char} :
    Parses .atom ts g P → Parses .star ts g P
  | star {ts : List Placed} {g : Nat} {P : RegularExpression Char} (p : Nat) :
    Parses .star ts g P → Parses .star (ts ++ [⟨p, .star⟩]) g P.star
  | single {ts : List Placed} {g : Nat} {P : RegularExpression Char} :
    Parses .star ts g P → Parses .concat ts g P
  | concat {ts us : List Placed} {g h : Nat} {P Q : RegularExpression Char} (p : Nat) :
    Parses .concat ts g P → Parses .star us h Q →
      Parses .concat (ts ++ ⟨p, .concat⟩ :: us) (g + h) (P * Q)
  | alternative {ts : List Placed} {g : Nat} {P : RegularExpression Char} :
    Parses .concat ts g P → Parses .union ts g P
  | union {ts us : List Placed} {g h : Nat} {P Q : RegularExpression Char} (p : Nat) :
    Parses .union ts g P → Parses .concat us h Q →
      Parses .union (ts ++ ⟨p, .union⟩ :: us) (g + h) (P + Q)

namespace Token

/-- Whether a token is written in the pattern; concatenation is not. -/
def char? : Token → Option Char
  | concat => none
  | t => some t.name

/-- The characters that tokens were read from. -/
def text (ts : List Placed) : List Char := ts.filterMap fun t => t.token.char?

@[simp] theorem text_nil : text [] = [] := rfl

@[simp] theorem text_cons (t : Placed) (ts : List Placed) :
    text (t :: ts) = t.token.char?.toList ++ text ts := by
  unfold text
  cases h : t.token.char? <;> simp [h]

@[simp] theorem text_append (ts us : List Placed) : text (ts ++ us) = text ts ++ text us :=
  List.filterMap_append

/-- The symbols among the tokens are symbols of patterns. -/
def SymbolsIn (ts : List Placed) : Prop := ∀ p c, ⟨p, symbol c⟩ ∈ ts → IsSymbol c

theorem SymbolsIn.of_subset {ts us : List Placed} (h : SymbolsIn us) (hs : ts ⊆ us) :
    SymbolsIn ts := fun p c hm => h p c (hs hm)

end Token

theorem Parses.derives {N : Nonterminal} {ts : List Placed} {g : Nat} {P : RegularExpression Char}
    (h : Parses N ts g P) (hg : g = 0) (hs : Token.SymbolsIn ts) :
    Derives N (Token.text ts) P := by
  induction h with
  | hole => cases hg
  | symbol p c => exact .symbol (hs p c (List.mem_singleton_self _))
  | group p q _ ih =>
    have hd := ih hg (hs.of_subset (by simp))
    simpa [Token.char?, Token.name] using Derives.group hd
  | atom _ ih => exact .atom (ih hg hs)
  | star p _ ih =>
    have hd := ih hg (hs.of_subset (by simp))
    simpa [Token.char?, Token.name] using Derives.star hd
  | single _ ih => exact .single (ih hg hs)
  | concat p _ _ ih ih' =>
    obtain ⟨hg, hh⟩ := Nat.add_eq_zero_iff.mp hg
    have hd := ih hg (hs.of_subset (by simp))
    have hd' := ih' hh (hs.of_subset (by simp))
    simpa [Token.char?, Token.name] using Derives.concat hd hd'
  | alternative _ ih => exact .alternative (ih hg hs)
  | union p _ _ ih ih' =>
    obtain ⟨hg, hh⟩ := Nat.add_eq_zero_iff.mp hg
    have hd := ih hg (hs.of_subset (by simp))
    have hd' := ih' hh (hs.of_subset (by simp))
    simpa [Token.char?, Token.name] using Derives.union hd hd'

end Regex
end FiniteAutomata
