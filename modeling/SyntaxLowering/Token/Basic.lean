import SyntaxLowering.Tree.Basic

/-!
# Tokens

Tokens are the finest division of a source text that separator analysis needs: commas, delimiters,
trivia, and opaque runs of everything else.
-/

namespace SyntaxLowering

/-- The class of a token. -/
inductive TokenKind where
  | comma | semicolon
  | openParen | closeParen | openBracket | closeBracket | openBrace | closeBrace
  | whitespace | comment | docComment
  | variableName | identifier | literal | operator
deriving DecidableEq, Repr

/-- Whether tokens of this kind may stand between any two others without meaning. -/
def TokenKind.isTrivia : TokenKind → Bool
  | whitespace | comment | docComment => true
  | _ => false

/-- Whether tokens of this kind close a list. -/
def TokenKind.isClosing : TokenKind → Bool
  | closeParen | closeBracket | closeBrace => true
  | _ => false

/-- A token with its text and where it stands in the source. -/
structure Token where
  kind : TokenKind
  text : String
  span : Span
deriving DecidableEq, Repr

/-- The token with the given text that starts at a byte offset. -/
def Token.startingAt (start : Nat) (kind : TokenKind) (text : String) : Token :=
  ⟨kind, text, start, start + text.utf8ByteSize⟩

end SyntaxLowering
