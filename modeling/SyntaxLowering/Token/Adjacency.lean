import SyntaxLowering.Token.Basic

/-!
# What follows a list element

The tree does not record whether the last element of a list is followed by a comma; the tokens
after the element do.
-/

namespace SyntaxLowering

/-- The position where the tokens that satisfy `p` end, if all of them stand in front of the
others: each round tests the token in the middle and goes on in one half. -/
def bisect (p : Token → Bool) (tokens : List Token) (low high : Nat) : Nat :=
  if low < high then
    let middle := (low + high) / 2
    if tokens[middle]?.any p then bisect p tokens (middle + 1) high
    else bisect p tokens low middle
  else low
termination_by high - low

/-- The tokens that start at or after a byte offset, of tokens ordered by where they start. -/
def tokensFrom (tokens : List Token) (offset : Nat) : List Token :=
  tokens.drop (bisect (fun t => t.span.start < offset) tokens 0 tokens.length)

/-- Whether the first two tokens that are not trivia are a comma and a closing delimiter. -/
def startsWithTrailingComma (tokens : List Token) : Bool :=
  match tokens.filter fun t => !t.kind.isTrivia with
  | first :: second :: _ => first.kind = .comma && second.kind.isClosing
  | _ => false

/-- Whether an element is followed by a comma and the end of its list. Without tokens or without
a span there is no sign of a comma. -/
def followedBySeparator : Option (List Token) → Option Span → Bool
  | some tokens, some span => startsWithTrailingComma (tokensFrom tokens span.stop)
  | _, _ => false

end SyntaxLowering
