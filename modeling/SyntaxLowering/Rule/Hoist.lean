import SyntaxLowering.Rule.Basic

/-!
# Hoisting instantiations

A `new` or `clone` may not be the object of a member access in older versions of the language.
The rule moves the first such object of a statement into an assignment of its own in front of it:
`return (clone $this)->getName();` becomes `$object1 = clone $this;` and
`return $object1->getName();`.

Only parts of the statement that are always evaluated are searched: ternary branches, arguments of
nullsafe calls and closures are not.
-/

namespace SyntaxLowering.Hoist

/-- The stem of the temporaries if nothing else is asked for. -/
def defaultStem : String := "object"

/-- Whether a node creates an object. -/
def isInstantiation (node : Node) : Bool :=
  match node.form with
  | .new .. | .clone _ => true
  | _ => false

/-- A node taken out of a larger piece of syntax, and the piece with a hole in its place. -/
structure Hole (β : Type) where
  content : Node
  fill : Node → β

/-- The hole in a larger piece. -/
def Hole.map {β γ : Type} (f : β → γ) (hole : Hole β) : Hole γ :=
  ⟨hole.content, fun n => f (hole.fill n)⟩

/-- The object of a member access, if it is an instantiation. -/
def direct? (object : Node) : Option (Hole Node) :=
  if isInstantiation object then some ⟨object, id⟩ else none

mutual

/-- The first instantiation that is the object of a member access, in the parts of an expression
that are always evaluated. The source text of every node and argument around the hole is given
up, since its contents are about to change. -/
def receiver? : Node → Option (Hole Node)
  | ⟨form, span, marks⟩ =>
    (receiverInForm? form).map (·.map fun form => ⟨form, span, marks.outdated⟩)

/-- The first instantiation in one layer of an expression. -/
def receiverInForm? : Form Node → Option (Hole (Form Node))
  | .methodCall object method args =>
    ((direct? object <|> receiver? object).map (·.map fun o => .methodCall o method args)) <|>
    ((receiverInArgs? args).map (·.map fun as => .methodCall object method as))
  | .propertyFetch object property =>
    (direct? object <|> receiver? object).map (·.map fun o => .propertyFetch o property)
  | .nullsafeMethodCall object method args =>
    (receiver? object).map (·.map fun o => .nullsafeMethodCall o method args)
  | .nullsafePropertyFetch object property =>
    (receiver? object).map (·.map fun o => .nullsafePropertyFetch o property)
  | .clone object => (receiver? object).map (·.map fun o => .clone o)
  | .staticCall scope method args =>
    ((receiver? scope).map (·.map fun s => .staticCall s method args)) <|>
    ((receiverInArgs? args).map (·.map fun as => .staticCall scope method as))
  | .new scope args =>
    ((receiver? scope).map (·.map fun s => .new s args)) <|>
    ((receiverInArgs? args).map (·.map fun as => .new scope as))
  | .functionCall function args =>
    ((receiver? function).map (·.map fun f => .functionCall f args)) <|>
    ((receiverInArgs? args).map (·.map fun as => .functionCall function as))
  | .assign target value =>
    ((receiver? target).map (·.map fun t => .assign t value)) <|>
    ((receiver? value).map (·.map fun v => .assign target v))
  | .notIdentical left right =>
    ((receiver? left).map (·.map fun l => .notIdentical l right)) <|>
    ((receiver? right).map (·.map fun r => .notIdentical left r))
  | .ternary condition ifTrue ifFalse =>
    (receiver? condition).map (·.map fun c => .ternary c ifTrue ifFalse)
  | _ => none

/-- The first instantiation in a list of arguments. -/
def receiverInArgs? : List (Arg Node) → Option (Hole (List (Arg Node)))
  | [] => none
  | ⟨value, name, unpack, byRef, span, marks⟩ :: rest =>
    ((receiver? value).map (·.map fun v =>
      ⟨v, name, unpack, byRef, span, marks.outdated⟩ :: rest)) <|>
    ((receiverInArgs? rest).map (·.map fun as =>
      ⟨value, name, unpack, byRef, span, marks⟩ :: as))

end

/-- The first instantiation to be hoisted out of a statement. -/
def receiverInStatement? : Node → Option (Hole Node)
  | ⟨.expression value, span, marks⟩ =>
    (receiver? value).map (·.map fun v => ⟨.expression v, span, marks.outdated⟩)
  | ⟨.ret (some value), span, marks⟩ =>
    (receiver? value).map (·.map fun v => ⟨.ret (some v), span, marks.outdated⟩)
  | _ => none

/-- The assignment of the object to a variable, and the statement with the variable in its place. -/
def hoisted (temp : Node) (hole : Hole Node) : Node :=
  Node.synthesized (.group [
    Node.synthesized (.expression (Node.synthesized (.assign temp hole.content))),
    hole.fill temp])

/-- The rule with a given stem. -/
def rule (stem : String) : Rule where
  name := "InstanceMethodCall"
  description := "Hoist new/clone receivers of member access into a temporary variable"
  kinds := [.expression, .ret]
  sample := some {
    before := "return (clone $this)->getName();"
    after := "$object1 = clone $this;\nreturn $object1->getName();" }
  call ctx node names :=
    if ctx.file.isNone then .none node names
    else
      match receiverInStatement? node with
      | none => .none node names
      | some hole =>
        match ctx.freshVariable names stem with
        | none => .none node names
        | some (temp, names) => .replace (hoisted temp hole) names

end SyntaxLowering.Hoist
