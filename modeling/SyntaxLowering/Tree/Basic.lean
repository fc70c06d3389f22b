/-!
# Syntax trees

A program is a tree of nodes. Each node has a `Form` (what it is), the span of source text it was
read from, and two printing marks. Nodes that a rule builds have no span.

`Form` is parametric in what stands at the places of child nodes, so that one layer of a tree can
be described, searched and rebuilt without mentioning the layers below it; `Node` ties the knot.
-/

namespace SyntaxLowering

/-- A range of bytes in a source text, end exclusive. -/
structure Span where
  start : Nat
  stop : Nat
deriving DecidableEq, Repr

/-- The number of bytes in a range; a range that ends before it starts has none. -/
def Span.length (s : Span) : Nat :=
  s.stop - s.start

/-- Printing marks of a node or list element. -/
structure Marks where
  /-- The element may be printed by copying its span of the source text. -/
  textValid : Bool := true
  /-- No comma may be printed after the element when it ends its list. -/
  commaSuppressed : Bool := false
deriving DecidableEq, Repr

/-- The marks of an element whose source text no longer says what the element is. -/
def Marks.outdated (m : Marks) : Marks :=
  { m with textValid := false }

/-- The marks of an element after which no comma is printed. -/
def Marks.suppressComma (m : Marks) : Marks :=
  { m with commaSuppressed := true }

/-- An argument of a call. -/
structure Arg (α : Type) where
  value : α
  name : Option String := none
  unpack : Bool := false
  byRef : Bool := false
  span : Option Span := none
  marks : Marks := {}
deriving DecidableEq, Repr

/-- A parameter of a function, method or closure. -/
structure Param (α : Type) where
  name : String
  typeHint : Option String := none
  default : Option α := none
  variadic : Bool := false
  byRef : Bool := false
  span : Option Span := none
  marks : Marks := {}
deriving DecidableEq, Repr

/-- A variable that a closure captures. -/
structure Capture where
  name : String
  byRef : Bool := false
  span : Option Span := none
  marks : Marks := {}
deriving DecidableEq, Repr

/-- One layer of a tree, with an `α` in the place of every child node. -/
inductive Form (α : Type) where
  | null
  | bool (value : Bool)
  | int (value : Int64)
  | str (value : String)
  | var (name : String)
  /-- A bare name of a function, class or constant. -/
  | name (name : String)
  | assign (target value : α)
  | notIdentical (left right : α)
  | ternary (condition ifTrue ifFalse : α)
  | propertyFetch (object : α) (property : String)
  | nullsafePropertyFetch (object : α) (property : String)
  | methodCall (object : α) (method : String) (args : List (Arg α))
  | nullsafeMethodCall (object : α) (method : String) (args : List (Arg α))
  | staticCall (scope : α) (method : String) (args : List (Arg α))
  | functionCall (function : α) (args : List (Arg α))
  | new (scope : α) (args : List (Arg α))
  | clone (object : α)
  | closure (params : List (Param α)) (captures : List Capture) (body : List α) (isStatic : Bool)
  | expression (value : α)
  | ret (value : Option α)
  | functionDecl (name : String) (params : List (Param α)) (body : List α)
  | classDecl (name : String) (members : List α)
  | methodDecl (name : String) (modifiers : List String) (params : List (Param α)) (body : List α)
  /-- Statements that stand for a single one. -/
  | group (statements : List α)
  | program (statements : List α)
deriving DecidableEq, Repr

/-- A node of a syntax tree. -/
structure Node where
  form : Form Node
  span : Option Span := none
  marks : Marks := {}
deriving Repr

/-- The constructor of a form, without its contents. -/
inductive Kind where
  | null | bool | int | str | var | name | assign | notIdentical | ternary
  | propertyFetch | nullsafePropertyFetch | methodCall | nullsafeMethodCall | staticCall
  | functionCall | new | clone | closure | expression | ret | functionDecl | classDecl
  | methodDecl | group | program
deriving DecidableEq, Repr

variable {α : Type}

namespace Form

/-- The kind of a form. -/
def kind : Form α → Kind
  | null => .null
  | bool _ => .bool
  | int _ => .int
  | str _ => .str
  | var _ => .var
  | name _ => .name
  | assign .. => .assign
  | notIdentical .. => .notIdentical
  | ternary .. => .ternary
  | propertyFetch .. => .propertyFetch
  | nullsafePropertyFetch .. => .nullsafePropertyFetch
  | methodCall .. => .methodCall
  | nullsafeMethodCall .. => .nullsafeMethodCall
  | staticCall .. => .staticCall
  | functionCall .. => .functionCall
  | new .. => .new
  | clone _ => .clone
  | closure .. => .closure
  | expression _ => .expression
  | ret _ => .ret
  | functionDecl .. => .functionDecl
  | classDecl .. => .classDecl
  | methodDecl .. => .methodDecl
  | group _ => .group
  | program _ => .program

/-- The children of a layer in evaluation order: the values of arguments after the callee, the
defaults of parameters before the body. -/
def children : Form α → List α
  | null | bool _ | int _ | str _ | var _ | name _ => []
  | assign target value => [target, value]
  | notIdentical left right => [left, right]
  | ternary condition ifTrue ifFalse => [condition, ifTrue, ifFalse]
  | propertyFetch object _ | nullsafePropertyFetch object _ | clone object => [object]
  | methodCall object _ args | nullsafeMethodCall object _ args => object :: args.map (·.value)
  | staticCall scope _ args | new scope args => scope :: args.map (·.value)
  | functionCall function args => function :: args.map (·.value)
  | closure params _ body _ | functionDecl _ params body | methodDecl _ _ params body =>
    params.filterMap (·.default) ++ body
  | expression value => [value]
  | ret value => value.toList
  | classDecl _ statements | group statements | program statements => statements

/-- The arguments of a call. -/
def args : Form α → List (Arg α)
  | methodCall _ _ as | nullsafeMethodCall _ _ as | staticCall _ _ as => as
  | functionCall _ as | new _ as => as
  | _ => []

/-- The parameters of a closure or declaration. -/
def params : Form α → List (Param α)
  | closure ps _ _ _ | functionDecl _ ps _ | methodDecl _ _ ps _ => ps
  | _ => []

/-- The statement list of a layer. -/
def statements : Form α → List α
  | closure _ _ body _ | functionDecl _ _ body | methodDecl _ _ _ body => body
  | classDecl _ list | group list | program list => list
  | _ => []

/-- Whether a layer is a group of statements. -/
def isGroup : Form α → Bool
  | group _ => true
  | _ => false

/-- The variable names that a layer itself binds or refers to. -/
def ownVariables : Form α → List String
  | var v => [v]
  | closure params captures _ _ => params.map (·.name) ++ captures.map (·.name)
  | functionDecl _ params _ | methodDecl _ _ params _ => params.map (·.name)
  | _ => []

end Form

namespace Node

/-- A node built by a rule: no span, fresh marks. -/
def synthesized (form : Form Node) : Node :=
  { form }

/-- The kind of a node. -/
def kind (n : Node) : Kind :=
  n.form.kind

/-- Whether a node was built by a rule. -/
def isSynthesized (n : Node) : Bool :=
  n.span.isNone

/-- The node with its source text given up. -/
def outdated (n : Node) : Node :=
  { n with marks := n.marks.outdated }

/-- A synthesized `null`. -/
def null : Node := synthesized .null

/-- A synthesized variable. -/
def var (name : String) : Node := synthesized (.var name)

end Node

/-- What an element of a comma-separated list carries besides its contents. -/
class Listed (ε : Type) where
  span : ε → Option Span
  marks : ε → Marks
  withMarks : ε → Marks → ε

instance : Listed (Arg α) := ⟨Arg.span, Arg.marks, fun a m => { a with marks := m }⟩

instance : Listed (Param α) := ⟨Param.span, Param.marks, fun p m => { p with marks := m }⟩

instance : Listed Capture := ⟨Capture.span, Capture.marks, fun c m => { c with marks := m }⟩

/-- Whether an element can no longer be printed by copying source text. -/
def isStale (span : Option Span) (marks : Marks) : Bool :=
  span.isNone || !marks.textValid

/-- Whether a node can no longer be printed by copying source text. -/
def Node.isStale (n : Node) : Bool :=
  SyntaxLowering.isStale n.span n.marks

end SyntaxLowering
