/-!
# JSON values

Numbers are kept as exactly as their readers can tell them apart: an integer by its value, any
other number by how it is written. Objects keep the order of their fields and may hold a key more
than once.
-/

namespace SyntaxLowering

/-- A JSON value. -/
inductive Json where
  | null
  | bool (value : Bool)
  | int (value : Int)
  /-- A number with a fraction or an exponent, or `-0`. -/
  | real (literal : String)
  /-- A string; `none` stands for one with an unpaired surrogate, which denotes no text. -/
  | str (text : Option String)
  | arr (items : List Json)
  | obj (fields : List (Option String × Json))
deriving Repr

namespace Json

/-- A string. -/
def text (s : String) : Json :=
  .str (some s)

/-- A natural number. -/
def nat (n : Nat) : Json :=
  .int n

/-- An object with the given fields in order. -/
def record (fields : List (String × Json)) : Json :=
  .obj (fields.map fun (key, value) => (some key, value))

/-- The value, or `null` if there is none. -/
def nullable {α : Type} (encode : α → Json) : Option α → Json
  | none => null
  | some a => encode a

mutual

/-- How many arrays and objects are nested in a value. -/
def depth : Json → Nat
  | arr items => depthItems items + 1
  | obj fields => depthFields fields + 1
  | _ => 0

/-- The greatest depth in a list of values. -/
def depthItems : List Json → Nat
  | [] => 0
  | item :: rest => max item.depth (depthItems rest)

/-- The greatest depth in a list of fields. -/
def depthFields : List (Option String × Json) → Nat
  | [] => 0
  | (_, value) :: rest => max value.depth (depthFields rest)

end

end Json

end SyntaxLowering
