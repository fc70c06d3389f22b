import SyntaxLowering.Rule.Basic

/-!
# One pass over a tree

A pass visits every node after its children and calls the rules that claim its kind, in order. A
replacement is visited again, together with what is already lowered below it, until no rule replaces
it or the number of revisits is used up.

Two things happen between the visits of the children and the rules: groups of statements are
spliced into the list they stand in, and whatever contains something that can no longer be copied
from the source text loses its own source text.
-/

namespace SyntaxLowering

/-! ### Settling a layer after its children were visited -/

/-- An argument whose value lost its source text loses its own. -/
def Arg.settled (a : Arg Node) : Arg Node :=
  if a.value.isStale && a.span.isSome then { a with marks := a.marks.outdated } else a

/-- A parameter whose default lost its source text loses its own. -/
def Param.settled (p : Param Node) : Param Node :=
  if p.default.any (·.isStale) && p.span.isSome then { p with marks := p.marks.outdated } else p

/-- A statement list with the statements of its groups in the place of the groups. -/
def splice (statements : List Node) : List Node :=
  statements.flatMap fun n =>
    match n.form with
    | .group inner => inner
    | _ => [n]

namespace Form

/-- A layer with its arguments and parameters settled and its statement list spliced. -/
def settled : Form Node → Form Node
  | methodCall object method args => methodCall object method (args.map (·.settled))
  | nullsafeMethodCall object method args =>
    nullsafeMethodCall object method (args.map (·.settled))
  | staticCall scope method args => staticCall scope method (args.map (·.settled))
  | functionCall function args => functionCall function (args.map (·.settled))
  | new scope args => new scope (args.map (·.settled))
  | closure params captures body isStatic =>
    closure (params.map (·.settled)) captures (splice body) isStatic
  | functionDecl n params body => functionDecl n (params.map (·.settled)) (splice body)
  | classDecl n members => classDecl n (splice members)
  | methodDecl n modifiers params body =>
    methodDecl n modifiers (params.map (·.settled)) (splice body)
  | group statements => group (splice statements)
  | program statements => program (splice statements)
  | form => form

/-- Whether a node over this layer loses its source text: a child, argument or parameter has lost
its own or never had any, or a group stands in the statement list. -/
def outdatesText (form : Form Node) : Bool :=
  form.children.any (·.isStale) ||
  form.args.any (fun a => SyntaxLowering.isStale a.span a.marks) ||
  form.params.any (fun p => SyntaxLowering.isStale p.span p.marks) ||
  form.statements.any (·.form.isGroup)

end Form

/-- The node over a layer of visited children. -/
def Node.settle (form : Form Node) (span : Option Span) (marks : Marks) : Node :=
  ⟨form.settled, span, if form.outdatesText && span.isSome then marks.outdated else marks⟩

/-! ### Passes as computations -/

/-- What a verdict amounts to in statistics. -/
inductive Outcome where
  | unchanged | mutated | replaced
deriving DecidableEq, Repr

/-- The outcome of a call. -/
def Verdict.outcome : Verdict → Outcome
  | unchanged => .unchanged
  | mutated => .mutated
  | replaced _ => .replaced

/-- A call of a rule during a pass. -/
structure Call where
  rule : Rule
  /-- The kind of the node when its rules were selected. -/
  kind : Kind
  outcome : Outcome

/-- The result of a step of a pass. -/
structure Progress (α : Type) where
  value : α
  names : NameSupply
  /-- The calls made, in order. -/
  calls : List Call

/-- A step of a pass: it draws on a supply of names and makes calls. -/
def Pass (α : Type) : Type :=
  NameSupply → Progress α

namespace Pass

variable {α β : Type}

/-- The step that does nothing. -/
protected def pure (a : α) : Pass α := fun names =>
  ⟨a, names, []⟩

/-- One step after another. -/
protected def bind (p : Pass α) (f : α → Pass β) : Pass β := fun names =>
  let first := p names
  let second := f first.value first.names
  ⟨second.value, second.names, first.calls ++ second.calls⟩

instance : Monad Pass where
  pure := Pass.pure
  bind := Pass.bind

instance : LawfulMonad Pass := LawfulMonad.mk' Pass
  (by intro α x; funext names; simp [Functor.map, Pass.bind, Pass.pure])
  (by intro α β a f; funext names; simp [Bind.bind, Pure.pure, Pass.bind, Pass.pure])
  (by intro α β γ x f g; funext names; simp [Bind.bind, Pass.bind])

/-- Calls the rules that claim a kind on a node, in order, up to the first replacement, which
`revisit` takes over. -/
def applyRules (revisit : Node → Pass Node) (ctx : Context) (kind : Kind) :
    List Rule → Node → Pass Node
  | [], node => Pass.pure node
  | rule :: rules, node =>
    if rule.claims kind then fun names =>
      let effect := rule.call ctx node names
      let progress :=
        match effect.verdict with
        | .replaced replacement => revisit replacement effect.names
        | _ => applyRules revisit ctx kind rules effect.node effect.names
      { progress with calls := ⟨rule, kind, effect.verdict.outcome⟩ :: progress.calls }
    else applyRules revisit ctx kind rules node

/-- Visits a tree bottom-up; `revisit` says what becomes of a replacement. -/
def visitWith (revisit : Node → Pass Node) (rules : List Rule) (ctx : Context) (node : Node) :
    Pass Node :=
  node.fold fun layer span marks => do
    let form ← layer.mapM id
    let node := Node.settle form span marks
    applyRules revisit ctx node.kind rules node

/-- The defining equation of a visit: the children in order, then the rules. -/
theorem visitWith_mk (revisit : Node → Pass Node) (rules : List Rule) (ctx : Context)
    (form : Form Node) (span : Option Span) (marks : Marks) :
    visitWith revisit rules ctx ⟨form, span, marks⟩ = (do
      let form ← form.mapM (visitWith revisit rules ctx)
      let node := Node.settle form span marks
      applyRules revisit ctx node.kind rules node) := by
  rw [visitWith, Node.fold_mk, Form.mapM_map]
  rfl

/-- Visits a tree bottom-up. A replacement is visited in its turn as long as revisits are left;
the visits below it have one less. -/
def visit (rules : List Rule) (ctx : Context) : (revisits : Nat) → Node → Pass Node
  | 0, node => visitWith Pass.pure rules ctx node
  | revisits + 1, node => visitWith (visit rules ctx revisits) rules ctx node

end Pass

end SyntaxLowering
