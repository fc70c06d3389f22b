import SyntaxLowering.Json.Basic

/-!
# JSON tokens

`Json.tokens?` divides a text into tokens, or refuses it. It reads one character at a time and
keeps what it has read of an unfinished token in its `Mode`.

The grammar is strict: no comments, only four characters of white space, no control characters in
strings, and numbers without superfluous zeros. An escaped surrogate without its partner is
well-formed, but its string denotes no text.
-/

namespace SyntaxLowering.Json

/-- A token of JSON text. -/
inductive Tok where
  | openBracket | closeBracket | openBrace | closeBrace | colon | comma
  | null
  | bool (value : Bool)
  | int (value : Int)
  | real (literal : String)
  | str (text : Option String)
deriving DecidableEq, Repr

/-! ### Strings -/

/-- A piece of a string: a character, or an escaped UTF-16 code unit. -/
inductive Piece where
  | char (c : Char)
  | unit (n : Nat)
deriving DecidableEq, Repr

/-- Whether a code unit is the first of a pair. -/
def isHighSurrogate (n : Nat) : Bool :=
  0xD800 ≤ n && n < 0xDC00

/-- Whether a code unit is the second of a pair. -/
def isLowSurrogate (n : Nat) : Bool :=
  0xDC00 ≤ n && n < 0xE000

/-- The character of a pair of surrogates. -/
def surrogatePair (high low : Nat) : Char :=
  Char.ofNat (0x10000 + (high - 0xD800) * 0x400 + (low - 0xDC00))

/-- The characters after some point of a string, and the second surrogate of a pair that is cut
there. -/
structure Assembly where
  chars : List Char := []
  low : Option Nat := none

/-- Puts one more piece in front. A surrogate must meet its partner. -/
def Assembly.push (a : Assembly) : Piece → Option Assembly
  | .char c => if a.low.isNone then some { chars := c :: a.chars } else none
  | .unit n =>
    match a.low with
    | some low =>
      if isHighSurrogate n then some { chars := surrogatePair n low :: a.chars } else none
    | none =>
      if isLowSurrogate n then some { a with low := some n }
      else if isHighSurrogate n then none
      else some { chars := Char.ofNat n :: a.chars }

/-- The text of a string from its pieces, last piece first. -/
def assemble? (pieces : List Piece) : Option String := do
  let a ← pieces.foldlM Assembly.push {}
  if a.low.isNone then some (String.ofList a.chars) else none

/-- The character of a one-letter escape. -/
def simpleEscape? : Char → Option Char
  | '\x22' => some '\x22'
  | '\\' => some '\\'
  | '/' => some '/'
  | 'b' => some '\x08'
  | 'f' => some '\x0c'
  | 'n' => some '\n'
  | 'r' => some '\r'
  | 't' => some '\t'
  | _ => none

/-- The value of a digit to base sixteen. -/
def hexDigit? (c : Char) : Option Nat :=
  if c.isDigit then some (c.toNat - '0'.toNat)
  else if 'a' ≤ c ∧ c ≤ 'f' then some (c.toNat - 'a'.toNat + 10)
  else if 'A' ≤ c ∧ c ≤ 'F' then some (c.toNat - 'A'.toNat + 10)
  else none

/-! ### Numbers and words -/

/-- Whether a character can occur in a number. -/
def isNumberChar (c : Char) : Bool :=
  c.isDigit || c == '-' || c == '+' || c == '.' || c == 'e' || c == 'E'

/-- Whether the text is a sequence of digits, one at least. -/
def isDigits (cs : List Char) : Bool :=
  !cs.isEmpty && cs.all Char.isDigit

/-- Whether the text is an exponent with its mark, or nothing. -/
def isExponent : List Char → Bool
  | [] => true
  | e :: cs =>
    (e == 'e' || e == 'E') &&
      match cs with
      | '+' :: ds | '-' :: ds => isDigits ds
      | ds => isDigits ds

/-- Whether the text is a fraction and an exponent, both of which may be missing. -/
def isFraction : List Char → Bool
  | '.' :: cs => isDigits (cs.takeWhile Char.isDigit) && isExponent (cs.dropWhile Char.isDigit)
  | cs => isExponent cs

/-- Whether the text is the part of a number before the point: no zero leads other digits. -/
def isWhole : List Char → Bool
  | ['0'] => true
  | '0' :: _ => false
  | cs => isDigits cs

/-- A number without its sign. -/
def unsigned? (negative : Bool) (cs : List Char) : Option Tok :=
  let whole := cs.takeWhile Char.isDigit
  let fraction := cs.dropWhile Char.isDigit
  let literal := String.ofList (if negative then '-' :: cs else cs)
  if isWhole whole && isFraction fraction then
    let value := Nat.ofDigitChars 10 whole 0
    if !fraction.isEmpty then some (.real literal)
    else if !negative then some (.int value)
    else if value = 0 then some (.real literal)
    else some (.int (-(value : Int)))
  else none

/-- The token of a number. -/
def number? : List Char → Option Tok
  | '-' :: cs => unsigned? true cs
  | cs => unsigned? false cs

/-- The token of a word. -/
def word? (cs : List Char) : Option Tok :=
  if cs = ['n', 'u', 'l', 'l'] then some .null
  else if cs = ['t', 'r', 'u', 'e'] then some (.bool true)
  else if cs = ['f', 'a', 'l', 's', 'e'] then some (.bool false)
  else none

/-! ### The lexer -/

/-- What is read of the token at hand, last character first. -/
inductive Mode where
  | between
  | string (pieces : List Piece)
  | escape (pieces : List Piece)
  /-- In an escaped code unit, with some digits still to come. -/
  | codeUnit (pieces : List Piece) (missing value : Nat)
  | number (chars : List Char)
  | word (chars : List Char)
deriving Repr

/-- A lexer between two characters. -/
structure Lexer where
  /-- The finished tokens, last one first. -/
  toks : List Tok := []
  mode : Mode := .between
deriving Repr

namespace Lexer

/-- Adds a finished token. -/
def emit (toks : List Tok) (tok : Tok) : Lexer :=
  ⟨tok :: toks, .between⟩

/-- Reads a character that does not belong to an unfinished token. -/
def start (toks : List Tok) (c : Char) : Option Lexer :=
  match c with
  | ' ' | '\t' | '\n' | '\r' => some ⟨toks, .between⟩
  | '[' => some (emit toks .openBracket)
  | ']' => some (emit toks .closeBracket)
  | '{' => some (emit toks .openBrace)
  | '}' => some (emit toks .closeBrace)
  | ':' => some (emit toks .colon)
  | ',' => some (emit toks .comma)
  | '\x22' => some ⟨toks, .string []⟩
  | c =>
    if c.isDigit || c == '-' then some ⟨toks, .number [c]⟩
    else if c.isLower then some ⟨toks, .word [c]⟩
    else none

/-- Ends a number or a word. -/
def finish (l : Lexer) : Option (List Tok) :=
  match l.mode with
  | .between => some l.toks
  | .number chars => (number? chars.reverse).map (· :: l.toks)
  | .word chars => (word? chars.reverse).map (· :: l.toks)
  | _ => none

/-- Reads one character. -/
def step (l : Lexer) (c : Char) : Option Lexer :=
  match l.mode with
  | .string pieces =>
    if c = '\x22' then some (emit l.toks (.str (assemble? pieces)))
    else if c = '\\' then some ⟨l.toks, .escape pieces⟩
    else if c.toNat < 0x20 then none
    else some ⟨l.toks, .string (.char c :: pieces)⟩
  | .escape pieces =>
    if c = 'u' then some ⟨l.toks, .codeUnit pieces 4 0⟩
    else (simpleEscape? c).map fun d => ⟨l.toks, .string (.char d :: pieces)⟩
  | .codeUnit pieces missing value =>
    (hexDigit? c).map fun d =>
      let value := 16 * value + d
      if missing ≤ 1 then ⟨l.toks, .string (.unit value :: pieces)⟩
      else ⟨l.toks, .codeUnit pieces (missing - 1) value⟩
  | .number chars =>
    if isNumberChar c then some ⟨l.toks, .number (c :: chars)⟩
    else l.finish.bind (start · c)
  | .word chars =>
    if c.isLower then some ⟨l.toks, .word (c :: chars)⟩
    else l.finish.bind (start · c)
  | .between => start l.toks c

end Lexer

/-- The tokens of a text, if it can be divided into tokens. -/
def tokens? (s : String) : Option (List Tok) := do
  let lexer ← s.toList.foldlM Lexer.step {}
  let toks ← lexer.finish
  return toks.reverse

end SyntaxLowering.Json
