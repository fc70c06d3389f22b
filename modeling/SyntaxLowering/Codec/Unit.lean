import SyntaxLowering.Batch
import SyntaxLowering.Codec.Tree
import SyntaxLowering.Json.Reader
import SyntaxLowering.Json.Writer

/-!
# Units and settings in JSON

Tokens, source units and settings as JSON values, and reading them from text.
-/

namespace SyntaxLowering

open Json.Decode

/-- How many arrays and objects may be nested in a text. -/
def nestingLimit : Nat := 127

/-- Reads a text as JSON and decodes the value. -/
def decodeText? {α : Type} (decode : Nat → Json → Option α) (text : String) : Option α :=
  (Json.parse? text).bind (decode nestingLimit)

/-- A token as JSON. -/
def Token.toJson (t : Token) : Json :=
  .record [("kind", t.kind.toJson), ("text", .text t.text), ("span", t.span.toJson)]

/-- A token from JSON. -/
def Token.decode : Nat → Json → Option Token
  | limit + 1, json =>
    match json.fields? ["kind", "text", "span"] with
    | some [kind, content, span] => do
      return ⟨← required (TokenKind.decode limit) kind, ← required Json.Decode.text content,
        ← required (Span.decode limit) span⟩
    | _ => none
  | 0, _ => none

/-- A token stream as JSON. -/
def tokensToJson (tokens : List Token) : Json :=
  .arr (tokens.map Token.toJson)

/-- A token stream from JSON. -/
def decodeTokens : Nat → Json → Option (List Token) :=
  list Token.decode

namespace SourceUnit

/-- A unit as JSON. -/
def toJson (u : SourceUnit) : Json :=
  .record [
    ("path", .text u.path),
    ("source", .nullable .text u.source),
    ("tokens", .nullable tokensToJson u.tokens),
    ("ast", u.tree.toJson)]

/-- A unit from JSON. -/
def decode : Nat → Json → Option SourceUnit
  | limit + 1, json =>
    match json.fields? ["path", "source", "tokens", "ast"] with
    | some [path, source, tokens, tree] => do
      return ⟨← required text path, ← withDefault none (nullable text) source,
        ← withDefault none (nullable (decodeTokens limit)) tokens,
        ← required (Node.decode limit) tree⟩
    | _ => none
  | 0, _ => none

/-- The unit in a file, given the text of the file if it could be read. -/
def ofFile : Option String → Except LoadError SourceUnit
  | none => .error .unreadable
  | some content =>
    match decodeText? decode content with
    | none => .error .malformed
    | some unit => .ok unit

end SourceUnit

namespace Settings

/-- Settings as JSON. -/
def toJson (s : Settings) : Json :=
  .record [
    ("nullsafe_variable_prefix", .text s.nullsafeStem),
    ("hoisted_variable_prefix", .text s.hoistStem),
    ("strict_null_check", .bool s.strictNullCheck),
    ("max_revisits", .nat s.maxRevisits),
    ("rules", .nullable (fun names => .arr (names.map .text)) s.rules),
    ("preserve_formatting", .bool s.preserveFormatting)]

/-- Settings from JSON. Whatever is left out has its usual value. -/
def decode : Nat → Json → Option Settings
  | limit + 1, json =>
    let usual : Settings := {}
    match json.fields? ["nullsafe_variable_prefix", "hoisted_variable_prefix",
      "strict_null_check", "max_revisits", "rules", "preserve_formatting"] with
    | some [nullsafeStem, hoistStem, strict, revisits, rules, preserve] => do
      return ⟨← withDefault usual.nullsafeStem text nullsafeStem,
        ← withDefault usual.hoistStem text hoistStem,
        ← withDefault usual.strictNullCheck bool strict,
        ← withDefault usual.maxRevisits nat revisits,
        ← withDefault usual.rules (nullable (list (fun _ => text) limit)) rules,
        ← withDefault usual.preserveFormatting bool preserve⟩
    | _ => none
  | 0, _ => none

/-- Why settings could not be loaded. -/
inductive LoadError where
  | unreadable
  | malformed
  | refused (error : SettingsError)
deriving DecidableEq, Repr

/-- The valid settings in a file, given the text of the file if it could be read. -/
def ofFile : Option String → Except LoadError Settings
  | none => .error .unreadable
  | some content =>
    match decodeText? decode content with
    | none => .error .malformed
    | some settings =>
      match settings.validate with
      | .error error => .error (.refused error)
      | .ok () => .ok settings

end Settings

end SyntaxLowering
