import SyntaxLowering.Token.Basic

/-!
# Scanning source text

`Lexeme.first` reads the first lexeme of a non-empty text and `scan` divides a whole text into
tokens. String literals and comments are kept whole, so that a comma inside them is never taken
for a separator; one that is not closed extends to the end of the text.

Every lexeme divides the text it is read from (`Lexeme.first_append`), so scanning always ends.
-/

namespace SyntaxLowering

/-- White space between tokens: space, tab, line feed, form feed and carriage return. -/
def isBlank (c : Char) : Bool :=
  c == ' ' || c == '\t' || c == '\n' || c == '\x0c' || c == '\r'

/-- Characters of a word: ASCII letters and digits, the underscore, and all beyond ASCII. -/
def isWordChar (c : Char) : Bool :=
  c.isAlphanum || c == '_' || 128 ≤ c.toNat

/-- The kind of a character that is a token by itself. -/
def delimiter? : Char → Option TokenKind
  | ',' => some .comma
  | ';' => some .semicolon
  | '(' => some .openParen
  | ')' => some .closeParen
  | '[' => some .openBracket
  | ']' => some .closeBracket
  | '{' => some .openBrace
  | '}' => some .closeBrace
  | _ => none

/-- The first lexeme of a text, after its first character. -/
structure Lexeme where
  kind : TokenKind
  /-- The characters of the lexeme after its first one. -/
  tail : List Char
  /-- The text after the lexeme. -/
  rest : List Char
deriving DecidableEq, Repr

namespace Lexeme

/-- The lexeme that goes on as long as its characters satisfy `p`. -/
def run (kind : TokenKind) (p : Char → Bool) (cs : List Char) : Lexeme :=
  ⟨kind, cs.takeWhile p, cs.dropWhile p⟩

/-- The lexeme with one more character in front of its tail. -/
def push (c : Char) (l : Lexeme) : Lexeme :=
  { l with tail := c :: l.tail }

/-- The rest of a string literal that ends at the next `quote` that no backslash precedes. -/
def quoted (quote : Char) : List Char → Lexeme
  | [] => ⟨.literal, [], []⟩
  | '\\' :: [] => ⟨.literal, ['\\'], []⟩
  | '\\' :: c :: cs => push '\\' (push c (quoted quote cs))
  | c :: cs => if c = quote then ⟨.literal, [c], cs⟩ else push c (quoted quote cs)

/-- The rest of a block comment, up to and including the next `*/`. -/
def block (kind : TokenKind) : List Char → Lexeme
  | [] => ⟨kind, [], []⟩
  | '*' :: '/' :: cs => ⟨kind, ['*', '/'], cs⟩
  | c :: cs => push c (block kind cs)

/-- The lexeme that a slash starts: a comment, or a lone operator. -/
def slash : List Char → Lexeme
  | '/' :: cs => run .comment (· != '\n') ('/' :: cs)
  | '*' :: '*' :: cs => push '*' (block .docComment ('*' :: cs))
  | '*' :: cs => push '*' (block .comment cs)
  | cs => ⟨.operator, [], cs⟩

/-- The first lexeme of the text `c :: cs`. -/
def first (c : Char) (cs : List Char) : Lexeme :=
  match delimiter? c with
  | some kind => ⟨kind, [], cs⟩
  | none =>
    if isBlank c then run .whitespace isBlank cs
    else if c = '#' then run .comment (· != '\n') cs
    else if c = '/' then slash cs
    else if c = '\x27' ∨ c = '\x22' then quoted c cs
    else if c = '$' then run .variableName isWordChar cs
    else if c.isDigit then run .literal isWordChar cs
    else if isWordChar c ∨ c = '\\' then run .identifier (fun d => isWordChar d || d == '\\') cs
    else ⟨.operator, [], cs⟩

/-! ### A lexeme divides its text -/

@[simp]
theorem run_append (kind : TokenKind) (p : Char → Bool) (cs : List Char) :
    (run kind p cs).tail ++ (run kind p cs).rest = cs := by
  simp [run, List.takeWhile_append_dropWhile]

@[simp]
theorem quoted_append (quote : Char) (cs : List Char) :
    (quoted quote cs).tail ++ (quoted quote cs).rest = cs := by
  fun_induction quoted quote cs <;> simp_all [push]

@[simp]
theorem block_append (kind : TokenKind) (cs : List Char) :
    (block kind cs).tail ++ (block kind cs).rest = cs := by
  fun_induction block kind cs <;> simp_all [push]

@[simp]
theorem slash_append (cs : List Char) : (slash cs).tail ++ (slash cs).rest = cs := by
  unfold slash
  split <;> simp [push]

/-- A lexeme and what follows it make up the text. -/
theorem first_append (c : Char) (cs : List Char) :
    (first c cs).tail ++ (first c cs).rest = cs := by
  unfold first
  repeat' split
  all_goals simp

theorem length_rest_le (c : Char) (cs : List Char) : (first c cs).rest.length ≤ cs.length := by
  have := congrArg List.length (first_append c cs)
  simp only [List.length_append] at this
  omega

end Lexeme

/-- The tokens of a text whose first character stands at byte offset `start`. -/
def scanFrom (start : Nat) : List Char → List Token
  | [] => []
  | c :: cs =>
    let lexeme := Lexeme.first c cs
    let token := Token.startingAt start lexeme.kind (String.ofList (c :: lexeme.tail))
    token :: scanFrom token.span.stop lexeme.rest
termination_by cs => cs.length
decreasing_by exact Nat.lt_succ_of_le (Lexeme.length_rest_le c cs)

/-- The tokens of a source text. -/
def scan (source : String) : List Token :=
  scanFrom 0 source.toList

end SyntaxLowering
