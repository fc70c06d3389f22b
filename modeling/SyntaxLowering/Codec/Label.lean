import SyntaxLowering.Json.Decoder
import SyntaxLowering.Token.Basic

/-!
# Labels of kinds

The names by which kinds of nodes and tokens are known in JSON and in reports.
-/

namespace SyntaxLowering

namespace Kind

/-- The name of a kind of node. -/
def label : Kind → String
  | null => "Null"
  | bool => "Bool"
  | int => "Int"
  | str => "Str"
  | var => "Variable"
  | name => "Name"
  | assign => "Assign"
  | notIdentical => "NotIdentical"
  | ternary => "Ternary"
  | propertyFetch => "PropertyFetch"
  | nullsafePropertyFetch => "NullsafePropertyFetch"
  | methodCall => "MethodCall"
  | nullsafeMethodCall => "NullsafeMethodCall"
  | staticCall => "StaticCall"
  | functionCall => "FuncCall"
  | new => "New"
  | clone => "CloneExpr"
  | closure => "Closure"
  | expression => "Expression"
  | ret => "Return"
  | functionDecl => "Function"
  | classDecl => "Class"
  | methodDecl => "ClassMethod"
  | group => "InlineStatements"
  | program => "Program"

/-- All kinds of nodes. -/
def all : List Kind :=
  [null, bool, int, str, var, name, assign, notIdentical, ternary, propertyFetch,
    nullsafePropertyFetch, methodCall, nullsafeMethodCall, staticCall, functionCall, new, clone,
    closure, expression, ret, functionDecl, classDecl, methodDecl, group, program]

/-- The kind of node with a name. -/
def ofLabel? (s : String) : Option Kind :=
  all.find? (·.label == s)

@[simp]
theorem ofLabel?_label (kind : Kind) : ofLabel? kind.label = some kind := by
  cases kind <;> decide +kernel

/-- A kind of node as JSON. -/
def toJson (kind : Kind) : Json :=
  .text kind.label

/-- A kind of node from JSON. -/
def decode (limit : Nat) (json : Json) : Option Kind :=
  (Json.Decode.tag limit json).bind ofLabel?

end Kind

namespace TokenKind

/-- The name of a kind of token. -/
def label : TokenKind → String
  | comma => "Comma"
  | semicolon => "Semicolon"
  | openParen => "OpenParen"
  | closeParen => "CloseParen"
  | openBracket => "OpenBracket"
  | closeBracket => "CloseBracket"
  | openBrace => "OpenBrace"
  | closeBrace => "CloseBrace"
  | whitespace => "Whitespace"
  | comment => "Comment"
  | docComment => "DocComment"
  | variableName => "Variable"
  | identifier => "Identifier"
  | literal => "Literal"
  | operator => "Operator"

/-- All kinds of tokens. -/
def all : List TokenKind :=
  [comma, semicolon, openParen, closeParen, openBracket, closeBracket, openBrace, closeBrace,
    whitespace, comment, docComment, variableName, identifier, literal, operator]

/-- The kind of token with a name. -/
def ofLabel? (s : String) : Option TokenKind :=
  all.find? (·.label == s)

@[simp]
theorem ofLabel?_label (kind : TokenKind) : ofLabel? kind.label = some kind := by
  cases kind <;> decide +kernel

/-- A kind of token as JSON. -/
def toJson (kind : TokenKind) : Json :=
  .text kind.label

/-- A kind of token from JSON. -/
def decode (limit : Nat) (json : Json) : Option TokenKind :=
  (Json.Decode.tag limit json).bind ofLabel?

end TokenKind

end SyntaxLowering
