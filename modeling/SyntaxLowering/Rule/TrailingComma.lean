import SyntaxLowering.Rule.Basic

/-!
# Removing trailing commas

Older versions of the language do not allow a comma after the last argument, parameter or capture.
The tree does not hold commas, so the rule marks the last element of a list instead, and the
printer leaves out what the mark forbids.
-/

namespace SyntaxLowering.TrailingComma

variable {ε : Type} [Listed ε]

/-- Whether a comma follows an element and the element does not forbid it yet. -/
def isDue (ctx : Context) (e : ε) : Bool :=
  !(Listed.marks e).commaSuppressed && ctx.followedBySeparator (Listed.span e)

/-- Marks the last element of a list if a comma follows it; `none` if there is nothing to do. -/
def clean? (ctx : Context) : List ε → Option (List ε)
  | [] => none
  | [e] => if isDue ctx e then some [Listed.withMarks e (Listed.marks e).suppressComma] else none
  | e :: rest => (clean? ctx rest).map (e :: ·)

/-- Cleans two lists of one layer, each by itself. -/
def cleanBoth? {ζ : Type} [Listed ζ] (ctx : Context) (as : List ε) (bs : List ζ) :
    Option (List ε × List ζ) :=
  match clean? ctx as, clean? ctx bs with
  | none, none => none
  | as', bs' => some (as'.getD as, bs'.getD bs)

/-- Cleans the lists of one layer; `none` if there is nothing to do. -/
def cleanForm? (ctx : Context) : Form Node → Option (Form Node)
  | .functionCall function args => (clean? ctx args).map fun as => .functionCall function as
  | .methodCall object method args => (clean? ctx args).map fun as => .methodCall object method as
  | .staticCall scope method args => (clean? ctx args).map fun as => .staticCall scope method as
  | .new scope args => (clean? ctx args).map fun as => .new scope as
  | .closure params captures body isStatic =>
    (cleanBoth? ctx params captures).map fun (ps, cs) => .closure ps cs body isStatic
  | .functionDecl name params body =>
    (clean? ctx params).map fun ps => .functionDecl name ps body
  | .methodDecl name modifiers params body =>
    (clean? ctx params).map fun ps => .methodDecl name modifiers ps body
  | _ => none

/-- The rule. -/
def rule : Rule where
  name := "TrailingCommasInParamUse"
  description := "Remove trailing commas in param or use list"
  kinds := [.methodDecl, .functionDecl, .closure, .staticCall, .functionCall, .methodCall, .new]
  sample := some {
    before := "function inFunction(string $value1, string $value2,)\n\x7b\n    " ++
      "return function () use ($value1, $value2,) \x7b\n    \x7d;\n\x7d"
    after := "function inFunction(string $value1, string $value2)\n\x7b\n    " ++
      "return function () use ($value1, $value2) \x7b\n    \x7d;\n\x7d" }
  call ctx node names :=
    match cleanForm? ctx node.form with
    | none => .none node names
    | some form => ⟨.mutated, ⟨form, node.span, node.marks.outdated⟩, names⟩

end SyntaxLowering.TrailingComma
