import SyntaxLowering.Json.Basic

/-!
# Decoding JSON

A decoder reads a domain value from a JSON value. A decoder of something that may be nested is
given the number of arrays and objects that may still be opened, which bounds the nesting of what
it accepts; parts that it does not look at are not counted.

Records are read from an object, by field names, or from an array, by position. Fields that may be
missing are those with a default.
-/

namespace SyntaxLowering.Json

/-- The values of the named fields in an object, `none` for missing ones. A named field may occur
only once; other fields do not matter. -/
def namedFields? (names : List String) (fields : List (Option String × Json)) :
    Option (List (Option Json)) :=
  if fields.any (·.1.isNone) then none
  else
    names.mapM fun name =>
      match fields.filter (·.1 == some name) with
      | [] => some none
      | [(_, value)] => some (some value)
      | _ => none

/-- The values of the named fields of a record, `none` for missing ones. An array holds them in
order, and the last ones may be missing. -/
def fields? (names : List String) : Json → Option (List (Option Json))
  | arr items =>
    if items.length ≤ names.length then
      some (items.map some ++ List.replicate (names.length - items.length) none)
    else none
  | obj fields => namedFields? names fields
  | _ => none

namespace Decode

variable {α : Type}

/-- A truth value. -/
def bool : Json → Option Bool
  | .bool b => some b
  | _ => none

/-- A text. -/
def text : Json → Option String
  | .str text => text
  | _ => none

/-- A natural number of at most 64 bits. -/
def nat : Json → Option Nat
  | .int n => if 0 ≤ n ∧ n ≤ 0xffffffffffffffff then some n.toNat else none
  | _ => none

/-- A signed number of 64 bits. -/
def int64 : Json → Option Int64
  | .int n =>
    if -0x8000000000000000 ≤ n ∧ n ≤ 0x7fffffffffffffff then some (Int64.ofInt n) else none
  | _ => none

/-- A value that may be `null`. -/
def nullable (decode : Json → Option α) : Json → Option (Option α)
  | .null => some none
  | json => (decode json).map some

/-- An array of values. -/
def list (decode : Nat → Json → Option α) : Nat → Json → Option (List α)
  | limit + 1, .arr items => items.mapM (decode limit)
  | _, _ => none

/-- The name of a constructor without contents: its bare name, or an object that maps the name to
`null`. -/
def tag : Nat → Json → Option String
  | _, .str name => name
  | _ + 1, .obj [(name, .null)] => name
  | _, _ => none

/-- A field that must be there. -/
def required (decode : Json → Option α) (field : Option Json) : Option α :=
  field.bind decode

/-- A field that may be missing. -/
def withDefault (default : α) (decode : Json → Option α) : Option Json → Option α
  | none => some default
  | some json => decode json

end Decode

end SyntaxLowering.Json
