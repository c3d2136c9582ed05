import FiniteAutomata.Regex.Token

/-! # Postfix order

In postfix order each operator follows its operands and no parentheses are needed. Operators wait on
a stack until one that binds less tightly, a closing parenthesis or the end of the pattern releases
them; operators of one precedence associate to the left.
-/
namespace FiniteAutomata
namespace Regex

abbrev Postfix := List Placed

namespace Postfix

def isOpening (p : Placed) : Bool := p.token == .opening

/-- Whether an operator on the stack is released by the given one. -/
def isReleased (incoming : Token) (p : Placed) : Bool :=
  p.token != .opening && incoming.precedence ≤ p.token.precedence

/-- Brings tokens into postfix order; the topmost operator is the first of the stack. -/
def order (operators : List Placed) : List Placed → Except SyntaxError Postfix
  | [] =>
    match operators.find? isOpening with
    | some p => .error (.unmatchedParenthesis p.position)
    | none => .ok operators
  | p :: rest =>
    match p.token with
    | .symbol _ => (p :: ·) <$> order operators rest
    | .opening => order (p :: operators) rest
    | .closing =>
      match operators.dropWhile (!isOpening ·) with
      | [] => .error (.unmatchedParenthesis p.position)
      | _ :: below => (operators.takeWhile (!isOpening ·) ++ ·) <$> order below rest
    | .union | .concat | .star =>
      (operators.takeWhile (isReleased p.token) ++ ·)
        <$> order (p :: operators.dropWhile (isReleased p.token)) rest

def ofPattern (pattern : List Char) : Except SyntaxError Postfix := do
  let tokens ← Token.scan 0 pattern
  order [] (Token.joined tokens)

end Postfix
end Regex
end FiniteAutomata
