import SyntaxLowering.Tree.Walk
import SyntaxLowering.Token.Adjacency
import SyntaxLowering.FreshName

/-!
# Rules

A rule claims some kinds of nodes. Called on a node, it may leave it alone, change printing marks
in place, or put another tree in its place. What it knows besides the node is its `Context`; the
only state it can change is the supply of names.
-/

namespace SyntaxLowering

/-- What a rule may know about the surroundings of a node. -/
structure Context where
  /-- The file that the tree belongs to, if any. -/
  file : Option FileId
  /-- The tokens of the file, if known. -/
  tokens : Option (List Token)
  /-- Names that a new variable must not have. -/
  reserved : List String

/-- Whether an element of a list is followed by a comma and the end of the list. -/
def Context.followedBySeparator (ctx : Context) (span : Option Span) : Bool :=
  SyntaxLowering.followedBySeparator ctx.tokens span

/-- A new variable for the file. A tree of no file has none, because nothing would keep its name
apart from others. -/
def Context.freshVariable (ctx : Context) (names : NameSupply) (stem : String) :
    Option (Node × NameSupply) :=
  ctx.file.map fun file =>
    let (name, names) := names.allocate file stem ctx.reserved
    (Node.var name, names)

/-- What a rule reports about a call. -/
inductive Verdict where
  /-- The node was left alone. -/
  | unchanged
  /-- Only printing marks of the node or of its list elements were changed. -/
  | mutated
  /-- The node gives way to another tree. -/
  | replaced (replacement : Node)
deriving DecidableEq, Repr

/-- The effect of calling a rule on a node. -/
structure Effect where
  verdict : Verdict
  /-- The node as the call leaves it. -/
  node : Node
  names : NameSupply
deriving DecidableEq, Repr

/-- The effect of a call that does nothing. -/
def Effect.none (node : Node) (names : NameSupply) : Effect :=
  ⟨.unchanged, node, names⟩

/-- The effect of a call that puts another tree in the place of a node. The contents of the node
have moved there, and a synthesized `null` is left behind. -/
def Effect.replace (replacement : Node) (names : NameSupply) : Effect :=
  ⟨.replaced replacement, Node.null, names⟩

/-- Source text before and after a rule. -/
structure Sample where
  before : String
  after : String
deriving DecidableEq, Repr

/-- A lowering rule. -/
structure Rule where
  name : String
  description : String
  /-- Rules of higher priority are called first. -/
  priority : Nat := 100
  /-- The kinds of nodes that the rule is called on. -/
  kinds : List Kind
  sample : Option Sample := none
  call : Context → Node → NameSupply → Effect

/-- Whether a rule is called on nodes of a kind. -/
def Rule.claims (rule : Rule) (kind : Kind) : Bool :=
  rule.kinds.contains kind

end SyntaxLowering
