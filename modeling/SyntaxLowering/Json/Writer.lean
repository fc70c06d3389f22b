import SyntaxLowering.Json.Basic
import SyntaxLowering.Text.Quoted

/-!
# Writing JSON

`Json.compact` writes a value without any white space. `Json.pretty` writes every item and field
on a line of its own, indented by two spaces for each level; empty arrays and objects stay on one
line. Both append to the text written so far.
-/

namespace SyntaxLowering.Json

/-- A character as it stands in a string. Only quotes, backslashes and control characters are
escaped. -/
def escapeChar (c : Char) : String :=
  match c with
  | '\x22' => "\\\""
  | '\\' => "\\\\"
  | '\x08' => "\\b"
  | '\x0c' => "\\f"
  | '\n' => "\\n"
  | '\r' => "\\r"
  | '\t' => "\\t"
  | c =>
    if c.toNat < 0x10 then "\\u000" ++ Text.hex c.toNat
    else if c.toNat < 0x20 then "\\u00" ++ Text.hex c.toNat
    else c.toString

/-- A string in quotes. -/
def quote : Option String → String
  | some s => "\"" ++ String.join (s.toList.map escapeChar) ++ "\""
  | none => "\"\\ud800\""

/-- A value that is no array or object. -/
def scalar : Json → String
  | bool true => "true"
  | bool false => "false"
  | int n => n.repr
  | real literal => literal
  | str text => quote text
  | _ => "null"

mutual

/-- Writes a value without white space behind what is written already. -/
def compactOnto (out : String) : Json → String
  | arr [] => out ++ "[]"
  | arr (item :: items) => compactItems (item.compactOnto (out ++ "[")) items
  | obj [] => out ++ "\x7b\x7d"
  | obj ((key, value) :: fields) =>
    compactFields (value.compactOnto (out ++ "\x7b" ++ quote key ++ ":")) fields
  | other => out ++ other.scalar

/-- Writes the items of an array after the first one, and its end. -/
def compactItems (out : String) : List Json → String
  | [] => out ++ "]"
  | item :: items => compactItems (item.compactOnto (out ++ ",")) items

/-- Writes the fields of an object after the first one, and its end. -/
def compactFields (out : String) : List (Option String × Json) → String
  | [] => out ++ "\x7d"
  | (key, value) :: fields =>
    compactFields (value.compactOnto (out ++ "," ++ quote key ++ ":")) fields

end

/-- The text of a value without white space. -/
def compact (json : Json) : String :=
  json.compactOnto ""

/-- The start of a line at some level. -/
def newline (level : Nat) : String :=
  "\n" ++ String.ofList (List.replicate (2 * level) ' ')

mutual

/-- Writes a value that stands at some level of indentation, with a line for every item and
field, behind what is written already. -/
def prettyOnto (level : Nat) (out : String) : Json → String
  | arr [] => out ++ "[]"
  | arr (item :: items) =>
    prettyItems level (item.prettyOnto (level + 1) (out ++ "[" ++ newline (level + 1))) items
  | obj [] => out ++ "\x7b\x7d"
  | obj ((key, value) :: fields) =>
    prettyFields level
      (value.prettyOnto (level + 1) (out ++ "\x7b" ++ newline (level + 1) ++ quote key ++ ": "))
      fields
  | other => out ++ other.scalar

/-- Writes the items of an array after the first one, and its end. -/
def prettyItems (level : Nat) (out : String) : List Json → String
  | [] => out ++ newline level ++ "]"
  | item :: items =>
    prettyItems level (item.prettyOnto (level + 1) (out ++ "," ++ newline (level + 1))) items

/-- Writes the fields of an object after the first one, and its end. -/
def prettyFields (level : Nat) (out : String) : List (Option String × Json) → String
  | [] => out ++ newline level ++ "\x7d"
  | (key, value) :: fields =>
    prettyFields level
      (value.prettyOnto (level + 1) (out ++ "," ++ newline (level + 1) ++ quote key ++ ": "))
      fields

end

/-- The text of a value with a line for every item and field. -/
def pretty (json : Json) : String :=
  json.prettyOnto 0 ""

end SyntaxLowering.Json
