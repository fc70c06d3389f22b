import SyntaxLowering.Codec.Label
import SyntaxLowering.Tree.Walk

/-!
# Trees in JSON

`Node.toJson` writes a tree with all its fields; `Node.decode` reads one, with fields that hold
their default left out, in any order, or by position.
-/

namespace SyntaxLowering

open Json.Decode

/-- A span as JSON. -/
def Span.toJson (s : Span) : Json :=
  .record [("start", .nat s.start), ("end", .nat s.stop)]

/-- Printing marks as JSON. -/
def Marks.toJson (m : Marks) : Json :=
  .record [
    ("original_text_valid", .bool m.textValid),
    ("suppress_trailing_separator", .bool m.commaSuppressed)]

/-- The span and marks at the end of a record. -/
def placeToJson (span : Option Span) (marks : Marks) : List (String × Json) :=
  [("span", .nullable Span.toJson span), ("attrs", marks.toJson)]

/-- An argument as JSON, given its value as JSON. -/
def Arg.toJson (a : Arg Json) : Json :=
  .record ([
    ("value", a.value),
    ("name", .nullable .text a.name),
    ("unpack", .bool a.unpack),
    ("by_ref", .bool a.byRef)] ++ placeToJson a.span a.marks)

/-- A parameter as JSON, given its default as JSON. -/
def Param.toJson (p : Param Json) : Json :=
  .record ([
    ("name", .text p.name),
    ("type_hint", .nullable .text p.typeHint),
    ("default", .nullable id p.default),
    ("variadic", .bool p.variadic),
    ("by_ref", .bool p.byRef)] ++ placeToJson p.span p.marks)

/-- A captured variable as JSON. -/
def Capture.toJson (c : Capture) : Json :=
  .record ([("name", .text c.name), ("by_ref", .bool c.byRef)] ++ placeToJson c.span c.marks)

namespace Form

/-- The arguments of a call as JSON. -/
def argsToJson (args : List (Arg Json)) : String × Json :=
  ("args", .arr (args.map Arg.toJson))

/-- The parameters of a closure or declaration as JSON. -/
def paramsToJson (params : List (Param Json)) : String × Json :=
  ("params", .arr (params.map Param.toJson))

/-- The contents of a layer as JSON, given its children as JSON. -/
def contentToJson : Form Json → Json
  | null => .null
  | bool b => .bool b
  | int n => .int n.toInt
  | str s => .text s
  | var v => .text v
  | name n => .text n
  | assign target value => .record [("target", target), ("value", value)]
  | notIdentical left right => .record [("left", left), ("right", right)]
  | ternary condition ifTrue ifFalse =>
    .record [("condition", condition), ("if_true", ifTrue), ("if_false", ifFalse)]
  | propertyFetch object property => .record [("object", object), ("property", .text property)]
  | nullsafePropertyFetch object property =>
    .record [("object", object), ("property", .text property)]
  | methodCall object method args =>
    .record [("object", object), ("method", .text method), argsToJson args]
  | nullsafeMethodCall object method args =>
    .record [("object", object), ("method", .text method), argsToJson args]
  | staticCall scope method args =>
    .record [("class", scope), ("method", .text method), argsToJson args]
  | functionCall function args => .record [("function", function), argsToJson args]
  | new scope args => .record [("class", scope), argsToJson args]
  | clone object => .record [("object", object)]
  | closure params captures body isStatic =>
    .record [
      paramsToJson params,
      ("uses", .arr (captures.map Capture.toJson)),
      ("body", .arr body),
      ("is_static", .bool isStatic)]
  | expression value => value
  | ret value => .nullable id value
  | functionDecl n params body =>
    .record [("name", .text n), paramsToJson params, ("body", .arr body)]
  | classDecl n members => .record [("name", .text n), ("members", .arr members)]
  | methodDecl n modifiers params body =>
    .record [
      ("name", .text n),
      ("modifiers", .arr (modifiers.map .text)),
      paramsToJson params,
      ("body", .arr body)]
  | group statements => .arr statements
  | program statements => .arr statements

/-- A layer as JSON, given its children as JSON. Only `null` has no contents. -/
def toJson (form : Form Json) : Json :=
  match form with
  | null => Kind.null.toJson
  | form => .record [(form.kind.label, form.contentToJson)]

end Form

/-- A tree as JSON. -/
def Node.toJson (n : Node) : Json :=
  n.fold fun layer span marks => .record (("ast", layer.toJson) :: placeToJson span marks)

/-! ### Reading -/

/-- A span from JSON. -/
def Span.decode : Nat → Json → Option Span
  | _ + 1, json =>
    match json.fields? ["start", "end"] with
    | some [start, stop] => do return ⟨← required nat start, ← required nat stop⟩
    | _ => none
  | 0, _ => none

/-- Printing marks from JSON. -/
def Marks.decode : Nat → Json → Option Marks
  | _ + 1, json =>
    match json.fields? ["original_text_valid", "suppress_trailing_separator"] with
    | some [valid, suppressed] => do
      return ⟨← withDefault true bool valid, ← withDefault false bool suppressed⟩
    | _ => none
  | 0, _ => none

/-- The span of a record. -/
def decodeSpanField (limit : Nat) : Option Json → Option (Option Span) :=
  withDefault none (nullable (Span.decode limit))

/-- The marks of a record. -/
def decodeMarksField (limit : Nat) : Option Json → Option Marks :=
  withDefault {} (Marks.decode limit)

/-- A captured variable from JSON. -/
def Capture.decode : Nat → Json → Option Capture
  | limit + 1, json =>
    match json.fields? ["name", "by_ref", "span", "attrs"] with
    | some [name, byRef, span, marks] => do
      return ⟨← required text name, ← withDefault false bool byRef,
        ← decodeSpanField limit span, ← decodeMarksField limit marks⟩
    | _ => none
  | 0, _ => none

mutual

/-- A tree from JSON. -/
def Node.decode (limit : Nat) (json : Json) : Option Node :=
  match limit, json.fields? ["ast", "span", "attrs"] with
  | limit + 1, some [form, span, marks] => do
    return ⟨← required (Form.decode limit) form, ← decodeSpanField limit span,
      ← decodeMarksField limit marks⟩
  | _, _ => none
termination_by (limit, 0)

/-- A list of trees from JSON. -/
def Node.decodeList (limit : Nat) (json : Json) : Option (List Node) :=
  match limit, json with
  | limit + 1, .arr items => items.mapM (Node.decode limit)
  | _, _ => none
termination_by (limit, 0)

/-- An argument list from JSON. -/
def Arg.decodeList (limit : Nat) (json : Json) : Option (List (Arg Node)) :=
  match limit, json with
  | limit + 2, .arr items => items.mapM fun item =>
    match item.fields? ["value", "name", "unpack", "by_ref", "span", "attrs"] with
    | some [value, name, unpack, byRef, span, marks] => do
      return ⟨← required (Node.decode limit) value, ← withDefault none (nullable text) name,
        ← withDefault false bool unpack, ← withDefault false bool byRef,
        ← decodeSpanField limit span, ← decodeMarksField limit marks⟩
    | _ => none
  | 1, .arr [] => some []
  | _, _ => none
termination_by (limit, 0)

/-- A parameter list from JSON. -/
def Param.decodeList (limit : Nat) (json : Json) : Option (List (Param Node)) :=
  match limit, json with
  | limit + 2, .arr items => items.mapM fun item =>
    match item.fields? ["name", "type_hint", "default", "variadic", "by_ref", "span", "attrs"] with
    | some [name, typeHint, default, variadic, byRef, span, marks] => do
      return ⟨← required text name, ← withDefault none (nullable text) typeHint,
        ← withDefault none (nullable (Node.decode limit)) default,
        ← withDefault false bool variadic, ← withDefault false bool byRef,
        ← decodeSpanField limit span, ← decodeMarksField limit marks⟩
    | _ => none
  | 1, .arr [] => some []
  | _, _ => none
termination_by (limit, 0)

/-- A layer of a tree from JSON. -/
def Form.decode (limit : Nat) (json : Json) : Option (Form Node) :=
  match limit, json with
  | _, .str (some label) => if Kind.ofLabel? label = some .null then some .null else none
  | limit + 1, .obj [(some label, content)] =>
    (Kind.ofLabel? label).bind fun kind => Form.decodeContent kind limit content
  | _, _ => none
termination_by (limit, 0)

/-- The contents of a layer from JSON. -/
def Form.decodeContent (kind : Kind) (limit : Nat) (content : Json) : Option (Form Node) :=
  match kind with
  | .null =>
    match content with
    | .null => some .null
    | _ => none
  | .bool => (bool content).map .bool
  | .int => (int64 content).map .int
  | .str => (text content).map .str
  | .var => (text content).map .var
  | .name => (text content).map .name
  | .expression => (Node.decode limit content).map .expression
  | .ret => (nullable (Node.decode limit) content).map .ret
  | .group => (Node.decodeList limit content).map .group
  | .program => (Node.decodeList limit content).map .program
  | kind =>
    match limit with
    | 0 => none
    | limit + 1 => Form.decodeRecord kind limit content
termination_by (limit, 1)

/-- The contents of a layer that are written as a record. -/
def Form.decodeRecord (kind : Kind) (limit : Nat) (content : Json) : Option (Form Node) :=
  match kind with
  | .assign =>
    match content.fields? ["target", "value"] with
    | some [target, value] => do
      return .assign (← required (Node.decode limit) target) (← required (Node.decode limit) value)
    | _ => none
  | .notIdentical =>
    match content.fields? ["left", "right"] with
    | some [left, right] => do
      return .notIdentical (← required (Node.decode limit) left)
        (← required (Node.decode limit) right)
    | _ => none
  | .ternary =>
    match content.fields? ["condition", "if_true", "if_false"] with
    | some [condition, ifTrue, ifFalse] => do
      return .ternary (← required (Node.decode limit) condition)
        (← required (Node.decode limit) ifTrue) (← required (Node.decode limit) ifFalse)
    | _ => none
  | .propertyFetch =>
    match content.fields? ["object", "property"] with
    | some [object, property] => do
      return .propertyFetch (← required (Node.decode limit) object) (← required text property)
    | _ => none
  | .nullsafePropertyFetch =>
    match content.fields? ["object", "property"] with
    | some [object, property] => do
      return .nullsafePropertyFetch (← required (Node.decode limit) object)
        (← required text property)
    | _ => none
  | .methodCall =>
    match content.fields? ["object", "method", "args"] with
    | some [object, method, args] => do
      return .methodCall (← required (Node.decode limit) object) (← required text method)
        (← required (Arg.decodeList limit) args)
    | _ => none
  | .nullsafeMethodCall =>
    match content.fields? ["object", "method", "args"] with
    | some [object, method, args] => do
      return .nullsafeMethodCall (← required (Node.decode limit) object) (← required text method)
        (← required (Arg.decodeList limit) args)
    | _ => none
  | .staticCall =>
    match content.fields? ["class", "method", "args"] with
    | some [scope, method, args] => do
      return .staticCall (← required (Node.decode limit) scope) (← required text method)
        (← required (Arg.decodeList limit) args)
    | _ => none
  | .functionCall =>
    match content.fields? ["function", "args"] with
    | some [function, args] => do
      return .functionCall (← required (Node.decode limit) function)
        (← required (Arg.decodeList limit) args)
    | _ => none
  | .new =>
    match content.fields? ["class", "args"] with
    | some [scope, args] => do
      return .new (← required (Node.decode limit) scope) (← required (Arg.decodeList limit) args)
    | _ => none
  | .clone =>
    match content.fields? ["object"] with
    | some [object] => do return .clone (← required (Node.decode limit) object)
    | _ => none
  | .closure =>
    match content.fields? ["params", "uses", "body", "is_static"] with
    | some [params, captures, body, isStatic] => do
      return .closure (← required (Param.decodeList limit) params)
        (← required (list Capture.decode limit) captures)
        (← required (Node.decodeList limit) body) (← required bool isStatic)
    | _ => none
  | .functionDecl =>
    match content.fields? ["name", "params", "body"] with
    | some [name, params, body] => do
      return .functionDecl (← required text name) (← required (Param.decodeList limit) params)
        (← required (Node.decodeList limit) body)
    | _ => none
  | .classDecl =>
    match content.fields? ["name", "members"] with
    | some [name, members] => do
      return .classDecl (← required text name) (← required (Node.decodeList limit) members)
    | _ => none
  | .methodDecl =>
    match content.fields? ["name", "modifiers", "params", "body"] with
    | some [name, modifiers, params, body] => do
      return .methodDecl (← required text name)
        (← required (list (fun _ => text) limit) modifiers)
        (← required (Param.decodeList limit) params) (← required (Node.decodeList limit) body)
    | _ => none
  | _ => none
termination_by (limit, 1)

end

end SyntaxLowering
