import SyntaxLowering.Json.Lexer

/-!
# Reading JSON

`Json.parse?` reads a value from a text, or refuses it. It goes through the tokens once and keeps
the arrays and objects that are still open on a stack, so a value may be nested to any depth.
-/

namespace SyntaxLowering.Json

/-- An array or object that is not closed yet; what it holds so far is in reverse order. -/
inductive Frame where
  | array (items : List Json)
  /-- An object and the key of the value to be read. -/
  | object (fields : List (Option String × Json)) (key : Option String)

/-- A reader between two tokens, with the open arrays and objects around it. -/
inductive Reader where
  /-- A value must follow. -/
  | value (stack : List Frame)
  /-- After an opening bracket: a value or the end of the array must follow. -/
  | arrayStart (stack : List Frame)
  /-- After an opening brace: a key or the end of the object must follow. -/
  | objectStart (stack : List Frame)
  /-- After a comma in an object: a key must follow. -/
  | key (fields : List (Option String × Json)) (stack : List Frame)
  /-- After a key: a colon must follow. -/
  | colon (fields : List (Option String × Json)) (key : Option String) (stack : List Frame)
  /-- After a value. -/
  | done (value : Json) (stack : List Frame)

namespace Reader

/-- Reads a token where a value must stand. -/
def start (stack : List Frame) : Tok → Option Reader
  | .openBracket => some (arrayStart stack)
  | .openBrace => some (objectStart stack)
  | .null => some (done .null stack)
  | .bool b => some (done (.bool b) stack)
  | .int n => some (done (.int n) stack)
  | .real literal => some (done (.real literal) stack)
  | .str text => some (done (.str text) stack)
  | .closeBracket | .closeBrace | .colon | .comma => none

/-- Reads one token. -/
def step : Reader → Tok → Option Reader
  | value stack, tok => start stack tok
  | arrayStart stack, .closeBracket => some (done (.arr []) stack)
  | arrayStart stack, tok => start (.array [] :: stack) tok
  | objectStart stack, .closeBrace => some (done (.obj []) stack)
  | objectStart stack, .str k => some (colon [] k stack)
  | key fields stack, .str k => some (colon fields k stack)
  | colon fields k stack, .colon => some (value (.object fields k :: stack))
  | done v (.array items :: stack), .comma => some (value (.array (v :: items) :: stack))
  | done v (.array items :: stack), .closeBracket => some (done (.arr (v :: items).reverse) stack)
  | done v (.object fields k :: stack), .comma => some (key ((k, v) :: fields) stack)
  | done v (.object fields k :: stack), .closeBrace =>
    some (done (.obj ((k, v) :: fields).reverse) stack)
  | _, _ => none

/-- The value that was read, if it is complete. -/
def result? : Reader → Option Json
  | done v [] => some v
  | _ => none

end Reader

/-- The value that a list of tokens denotes. -/
def ofTokens? (toks : List Tok) : Option Json :=
  (toks.foldlM Reader.step (.value [])).bind Reader.result?

/-- The value that a text denotes. -/
def parse? (s : String) : Option Json :=
  (tokens? s).bind ofTokens?

end SyntaxLowering.Json
