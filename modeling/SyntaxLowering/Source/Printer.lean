import SyntaxLowering.Source.Slice
import SyntaxLowering.Token.Adjacency

/-!
# Printing trees

A `Printer` without a source regenerates every node. With one it copies the text of nodes and list
elements whose marks allow it, and keeps a comma after the last element of a list unless the
element suppresses it.
-/

namespace SyntaxLowering

/-- What a printer knows about the text that a tree was read from. -/
structure Printer where
  source : Option (List Char) := none
  tokens : Option (List Token) := none

/-- A string literal. Backslashes and single quotes are escaped by a backslash. -/
def quoteLiteral (s : String) : String :=
  let escaped := s.toList.flatMap fun c =>
    if c = '\\' ∨ c = '\x27' then ['\\', c] else [c]
  String.ofList ('\x27' :: escaped ++ ['\x27'])

/-- The white space before a statement at some depth. -/
def indent (depth : Nat) : String :=
  String.ofList (List.replicate (4 * depth) ' ')

/-- A text in parentheses if they are needed. -/
def parenthesized (needed : Bool) (text : String) : String :=
  if needed then "(" ++ text ++ ")" else text

/-- Whether a node needs parentheses as an operand of a ternary, a comparison or `clone`. -/
def Kind.isLooseOperand : Kind → Bool
  | assign | ternary => true
  | _ => false

/-- Whether a node needs parentheses on the left of a member access or a call. -/
def Kind.isLooseReceiver : Kind → Bool
  | assign | notIdentical | ternary | new | clone | closure => true
  | _ => false

/-- The text of a parameter before its default. -/
def Param.head {α : Type} (p : Param α) : String :=
  (match p.typeHint with
    | some hint => hint ++ " "
    | none => "") ++
  (if p.byRef then "&" else "") ++ (if p.variadic then "..." else "") ++ "$" ++ p.name

/-- The text of an argument before its value. -/
def Arg.head {α : Type} (a : Arg α) : String :=
  (match a.name with
    | some name => name ++ ": "
    | none => "") ++
  (if a.unpack then "..." else "") ++ (if a.byRef then "&" else "")

/-- The text of a captured variable. -/
def Capture.render (c : Capture) : String :=
  (if c.byRef then "&" else "") ++ "$" ++ c.name

/-- Modifiers before a declaration. -/
def renderModifiers (modifiers : List String) : String :=
  let head := String.intercalate " " modifiers
  if head.isEmpty then "" else head ++ " "

/-- Statements in braces, given their texts. -/
def renderBlock (depth : Nat) (statements : List String) : String :=
  "\x7b\n" ++ String.join (statements.map fun s => indent (depth + 1) ++ s ++ "\n") ++
    indent depth ++ "\x7d"

/-- Statements on lines of their own, given their texts. -/
def renderLines (depth : Nat) (statements : List String) : String :=
  String.intercalate ("\n" ++ indent depth) statements

namespace Printer

/-- The printer that copies what it can from a source text. -/
def withSource (source : String) (tokens : List Token) : Printer :=
  ⟨some source.toList, some tokens⟩

/-- The source text of an element, if it may and can be copied. -/
def verbatim? (p : Printer) (span : Option Span) (marks : Marks) : Option String :=
  match marks.textValid, span, p.source with
  | true, some span, some source => (slice? source span.start span.stop).map String.ofList
  | _, _, _ => none

/-- An element of a list, given its regenerated text. -/
def element {ε : Type} [Listed ε] (p : Printer) (e : ε) (text : String) : String :=
  (p.verbatim? (Listed.span e) (Listed.marks e)).getD text

/-- Whether a comma is printed after the last element of a list. -/
def keepsComma {ε : Type} [Listed ε] (p : Printer) (elements : List ε) : Bool :=
  match elements.getLast? with
  | some last =>
    !(Listed.marks last).commaSuppressed && followedBySeparator p.tokens (Listed.span last)
  | none => false

/-- A list, given the texts of its elements. -/
def commaList {ε : Type} [Listed ε] (p : Printer) (elements : List ε) (texts : List String) :
    String :=
  String.intercalate ", " texts ++ (if p.keepsComma elements then "," else "")

/-- The captured variables of a closure. -/
def captures (p : Printer) (cs : List Capture) : String :=
  if cs.isEmpty then ""
  else " use (" ++ p.commaList cs (cs.map fun c => p.element c c.render) ++ ")"

mutual

/-- The text of a node at some depth of nested blocks. -/
def render (p : Printer) (depth : Nat) : Node → String
  | ⟨form, span, marks⟩ =>
    match p.verbatim? span marks with
    | some text => text
    | none => renderForm p depth form

/-- The regenerated text of a node. -/
def renderForm (p : Printer) (depth : Nat) : Form Node → String
  | .null => "null"
  | .bool value => if value then "true" else "false"
  | .int value => value.toInt.repr
  | .str value => quoteLiteral value
  | .var name => "$" ++ name
  | .name name => name
  | .assign target value => render p depth target ++ " = " ++ render p depth value
  | .notIdentical left right =>
    parenthesized left.kind.isLooseOperand (render p depth left) ++ " !== " ++
      parenthesized right.kind.isLooseOperand (render p depth right)
  | .ternary condition ifTrue ifFalse =>
    parenthesized condition.kind.isLooseOperand (render p depth condition) ++ " ? " ++
      parenthesized ifTrue.kind.isLooseOperand (render p depth ifTrue) ++ " : " ++
      parenthesized ifFalse.kind.isLooseOperand (render p depth ifFalse)
  | .propertyFetch object property =>
    parenthesized object.kind.isLooseReceiver (render p depth object) ++ "->" ++ property
  | .nullsafePropertyFetch object property =>
    parenthesized object.kind.isLooseReceiver (render p depth object) ++ "?->" ++ property
  | .methodCall object method args =>
    parenthesized object.kind.isLooseReceiver (render p depth object) ++ "->" ++ method ++
      "(" ++ p.commaList args (renderArgs p depth args) ++ ")"
  | .nullsafeMethodCall object method args =>
    parenthesized object.kind.isLooseReceiver (render p depth object) ++ "?->" ++ method ++
      "(" ++ p.commaList args (renderArgs p depth args) ++ ")"
  | .staticCall scope method args =>
    parenthesized scope.kind.isLooseReceiver (render p depth scope) ++ "::" ++ method ++
      "(" ++ p.commaList args (renderArgs p depth args) ++ ")"
  | .functionCall function args =>
    parenthesized function.kind.isLooseReceiver (render p depth function) ++
      "(" ++ p.commaList args (renderArgs p depth args) ++ ")"
  | .new scope args =>
    "new " ++ render p depth scope ++ "(" ++ p.commaList args (renderArgs p depth args) ++ ")"
  | .clone object =>
    "clone " ++ parenthesized object.kind.isLooseOperand (render p depth object)
  | .closure params captures body isStatic =>
    (if isStatic then "static " else "") ++
      "function (" ++ p.commaList params (renderParams p depth params) ++ ")" ++
      p.captures captures ++ " " ++ renderBlock depth (renderStatements p (depth + 1) body)
  | .expression value => render p depth value ++ ";"
  | .ret none => "return;"
  | .ret (some value) => "return " ++ render p depth value ++ ";"
  | .functionDecl name params body =>
    "function " ++ name ++ "(" ++ p.commaList params (renderParams p depth params) ++ ")\n" ++
      indent depth ++ renderBlock depth (renderStatements p (depth + 1) body)
  | .classDecl name members =>
    "class " ++ name ++ "\n" ++ indent depth ++
      renderBlock depth (renderStatements p (depth + 1) members)
  | .methodDecl name modifiers params body =>
    renderModifiers modifiers ++ "function " ++ name ++
      "(" ++ p.commaList params (renderParams p depth params) ++ ")\n" ++
      indent depth ++ renderBlock depth (renderStatements p (depth + 1) body)
  | .group statements => renderLines depth (renderStatements p depth statements)
  | .program statements => renderLines depth (renderStatements p depth statements)

/-- The texts of arguments. -/
def renderArgs (p : Printer) (depth : Nat) : List (Arg Node) → List String
  | [] => []
  | ⟨value, name, unpack, byRef, span, marks⟩ :: rest =>
    let a : Arg Node := ⟨value, name, unpack, byRef, span, marks⟩
    p.element a (a.head ++ render p depth value) :: renderArgs p depth rest

/-- The texts of parameters. -/
def renderParams (p : Printer) (depth : Nat) : List (Param Node) → List String
  | [] => []
  | ⟨name, typeHint, none, variadic, byRef, span, marks⟩ :: rest =>
    let param : Param Node := ⟨name, typeHint, none, variadic, byRef, span, marks⟩
    p.element param param.head :: renderParams p depth rest
  | ⟨name, typeHint, some default, variadic, byRef, span, marks⟩ :: rest =>
    let param : Param Node := ⟨name, typeHint, some default, variadic, byRef, span, marks⟩
    p.element param (param.head ++ " = " ++ render p depth default) :: renderParams p depth rest

/-- The texts of statements. -/
def renderStatements (p : Printer) (depth : Nat) : List Node → List String
  | [] => []
  | statement :: rest => render p depth statement :: renderStatements p depth rest

end

/-- The text of a tree. -/
def print (p : Printer) (n : Node) : String :=
  p.render 0 n

end Printer

/-- The text of a tree, all of it regenerated. -/
def Node.toSource (n : Node) : String :=
  ({} : Printer).print n

end SyntaxLowering
