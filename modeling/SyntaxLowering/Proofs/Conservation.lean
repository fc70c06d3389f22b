import SyntaxLowering.Proofs.Erasure
import SyntaxLowering.Proofs.TextReuse
import SyntaxLowering.Proofs.VisitedTrees

/-!
# Nothing of the source is lost or duplicated

A tree has a stock of things from its source: its nodes with spans, each by itself, and the elements
of its lists. Every step of a pass keeps the balance between the stock and what is still to be taken
away (`Conserves`): the nullsafe accesses, and the groups that stand in statement lists. After a
whole pass nothing is left to be taken away, so the stock has lost exactly these.
-/

namespace SyntaxLowering

variable {α β : Type}

/-- A layer without its children and list elements: its kind and its own names and literals. -/
def Form.bare : Form α → Form Unit
  | .null => .null
  | .bool value => .bool value
  | .int value => .int value
  | .str value => .str value
  | .var v => .var v
  | .name n => .name n
  | .assign _ _ => .assign () ()
  | .notIdentical _ _ => .notIdentical () ()
  | .ternary _ _ _ => .ternary () () ()
  | .propertyFetch _ property => .propertyFetch () property
  | .nullsafePropertyFetch _ property => .nullsafePropertyFetch () property
  | .methodCall _ method _ => .methodCall () method []
  | .nullsafeMethodCall _ method _ => .nullsafeMethodCall () method []
  | .staticCall _ method _ => .staticCall () method []
  | .functionCall _ _ => .functionCall () []
  | .new _ _ => .new () []
  | .clone _ => .clone ()
  | .closure _ _ _ isStatic => .closure [] [] [] isStatic
  | .expression _ => .expression ()
  | .ret value => .ret (value.map fun _ => ())
  | .functionDecl n _ _ => .functionDecl n [] []
  | .classDecl n _ => .classDecl n []
  | .methodDecl n modifiers _ _ => .methodDecl n modifiers [] []
  | .group _ => .group []
  | .program _ => .program []

/-- An argument without its value and marks. -/
def Arg.bare (a : Arg α) : Arg Unit :=
  { value := (), name := a.name, unpack := a.unpack, byRef := a.byRef, span := a.span }

/-- A parameter without its default and marks. -/
def Param.bare (p : Param α) : Param Unit :=
  { name := p.name, typeHint := p.typeHint, variadic := p.variadic, byRef := p.byRef,
    span := p.span }

/-- Something that a tree has from its source: a node with a span, or an element of a list. -/
inductive Item where
  | node (span : Span) (form : Form Unit)
  | arg (a : Arg Unit)
  | param (p : Param Unit)
  | capture (c : Capture)
deriving DecidableEq

/-- The elements of the lists of a layer. -/
def Form.elements (form : Form α) : List Item :=
  form.args.map (.arg ·.bare) ++ form.params.map (.param ·.bare) ++
    form.captures.map (.capture <| ·.erase .marks)

namespace Node

/-- What a node says by itself, with its place in the source. -/
def label (n : Node) : Option Span × Form Unit :=
  (n.span, n.form.bare)

/-- A node by itself, if it has a span. -/
def item (n : Node) : List Item :=
  n.span.toList.map (.node · n.form.bare)

/-- A node by itself, if it has a span and is a group. -/
def groupItem (n : Node) : List Item :=
  if n.form.isGroup then n.item else []

/-- Whether a node is a nullsafe access. -/
def isNullsafe (n : Node) : Bool :=
  n.kind == .nullsafeMethodCall || n.kind == .nullsafePropertyFetch

/-- What a run takes away at a node: the node itself if it is a nullsafe access, and the groups that
stand in its statement list. -/
def discardedAt (n : Node) : List Node :=
  (if n.isNullsafe then [n] else []) ++ n.form.statements.filter (·.form.isGroup)

/-- The nodes that a run takes away from a tree. -/
def discarded (n : Node) : List Node :=
  n.preorder.flatMap discardedAt

/-- All variables that closures in a tree capture. -/
def captures (n : Node) : List Capture :=
  n.preorder.flatMap (·.form.captures)

/-- Everything that a tree has from its source. -/
def stock (n : Node) : List Item :=
  n.preorder.flatMap fun m => m.item ++ m.form.elements

/-- Everything that a run takes away from a tree. -/
def spent (n : Node) : List Item :=
  n.discarded.flatMap item

theorem flatMap_item_discardedAt (n : Node) : n.discardedAt.flatMap item =
    (if n.isNullsafe then n.item else []) ++ n.form.statements.flatMap groupItem := by
  have hgroups (ns : List Node) :
      (ns.filter (·.form.isGroup)).flatMap item = ns.flatMap groupItem := by
    induction ns with
    | nil => rfl
    | cons m ns ih =>
      rw [List.filter_cons, List.flatMap_cons, groupItem, ← ih]
      split <;> rfl
  rw [discardedAt, List.flatMap_append, hgroups]
  split <;> simp

theorem stock_eq (n : Node) :
    n.stock = n.item ++ n.form.elements ++ n.form.children.flatMap stock := by
  cases n with
  | mk form span marks =>
    rw [stock, preorder_mk, List.flatMap_cons, List.flatMap_assoc]
    rfl

theorem spent_eq (n : Node) : n.spent = (if n.isNullsafe then n.item else []) ++
    n.form.statements.flatMap groupItem ++ n.form.children.flatMap spent := by
  have hspent (m : Node) : m.spent = m.preorder.flatMap (·.discardedAt.flatMap item) :=
    List.flatMap_assoc
  cases n with
  | mk form span marks =>
    rw [← flatMap_item_discardedAt, hspent, preorder_mk, List.flatMap_cons, List.flatMap_assoc]
    exact congrArg _ (List.flatMap_congr fun c _ => (hspent c).symm)

end Node

/-! ### What the steps of a pass leave alone at a node -/

@[simp]
theorem Form.bare_map (f : α → β) (form : Form α) : (form.map f).bare = form.bare := by
  cases form <;> simp [Form.map, Form.bare]

@[simp]
theorem Form.bare_settled (form : Form Node) : form.settled.bare = form.bare := by
  cases form <;> rfl

@[simp]
theorem Form.elements_map (f : α → β) (form : Form α) : (form.map f).elements = form.elements := by
  simp [Form.elements, Function.comp_def, Arg.map, Param.map, Arg.bare, Param.bare]

theorem Arg.bare_settled (a : Arg Node) : a.settled.bare = a.bare := by
  unfold Arg.settled; split <;> rfl

theorem Param.bare_settled (p : Param Node) : p.settled.bare = p.bare := by
  unfold Param.settled; split <;> rfl

@[simp]
theorem Form.elements_settled (form : Form Node) : form.settled.elements = form.elements := by
  simp [Form.elements, Function.comp_def, Arg.bare_settled, Param.bare_settled]

theorem Form.kind_bare (form : Form α) : form.bare.kind = form.kind := by
  cases form <;> rfl

/-- Two layers that say the same by themselves, with the same elements. -/
structure Form.Alike (form form' : Form Node) : Prop where
  bare : form'.bare = form.bare
  elements : form'.elements = form.elements

namespace Form.Alike

variable {form form' : Form Node} (h : Form.Alike form form') (span : Option Span)
  (marks marks' : Marks)

include h

theorem kind : form'.kind = form.kind := by
  rw [← Form.kind_bare, h.bare, Form.kind_bare]

theorem item : (⟨form', span, marks'⟩ : Node).item = (⟨form, span, marks⟩ : Node).item := by
  simp [Node.item, h.bare]

theorem groupItem :
    (⟨form', span, marks'⟩ : Node).groupItem = (⟨form, span, marks⟩ : Node).groupItem := by
  rw [Node.groupItem, Node.groupItem, h.item span marks marks', Form.isGroup_eq, Form.isGroup_eq]
  simp only [h.kind]

theorem isNullsafe :
    (⟨form', span, marks'⟩ : Node).isNullsafe = (⟨form, span, marks⟩ : Node).isNullsafe := by
  simp [Node.isNullsafe, Node.kind, h.kind]

end Form.Alike

theorem Form.Rel.alike {R : Node → Node → Prop} {form g : Form Node} (h : Form.Rel R form g) :
    Form.Alike form g.settled := by
  constructor
  · rw [Form.bare_settled, ← Form.bare_map (fun _ => ()) g, ← Form.bare_map (fun _ => ()) form]
    exact congrArg Form.bare h.shape.symm
  · rw [Form.elements_settled, ← Form.elements_map (fun _ => ()) g,
      ← Form.elements_map (fun _ => ()) form]
    exact congrArg Form.elements h.shape.symm

theorem TrailingComma.alike_of_cleanForm? {ctx : Context} {form form' : Form Node}
    (h : cleanForm? ctx form = some form') : Form.Alike form form' := by
  have hcleaned := Cleaned.of_cleanForm? h
  constructor
  · cases form with
    | functionCall | methodCall | staticCall | new | functionDecl | methodDecl | closure =>
      obtain ⟨_, -, rfl⟩ := Option.map_eq_some_iff.1 h
      rfl
    | _ => simp [cleanForm?] at h
  · have hargs := forall₂_map_eq hcleaned.args (Item.arg ·.bare) (by rintro _ _ ⟨_, rfl⟩; rfl)
    have hparams :=
      forall₂_map_eq hcleaned.params (Item.param ·.bare) (by rintro _ _ ⟨_, rfl⟩; rfl)
    have hcaptures := forall₂_map_eq hcleaned.captures (Item.capture <| ·.erase .marks)
      (by rintro _ _ ⟨_, rfl⟩; rfl)
    rw [Form.elements, Form.elements, hargs, hparams, hcaptures]

theorem Hoist.Refilled.elements_eq {c x : Node} {form form' : Form Node}
    (h : Hoist.Refilled c x form form') : form'.elements = form.elements := by
  have hargs : form'.args.map (Item.arg ·.bare) = form.args.map (Item.arg ·.bare) := by
    refine forall₂_map_eq h.args (Item.arg ·.bare) ?_
    rintro a b (rfl | ⟨-, rfl⟩) <;> rfl
  rw [Form.elements, Form.elements, hargs, h.params, h.captures]

theorem Hoist.Slot.alike {form : Form Node} {c : Node} {plug : Node → Form Node}
    (h : Slot form c plug) (x : Node) : Form.Alike form (plug x) :=
  ⟨by cases h <;> rfl, (h.refilled x).elements_eq⟩

theorem Hoist.StatementSlot.alike {form : Form Node} {c : Node} {plug : Node → Form Node}
    (h : StatementSlot form c plug) (x : Node) : Form.Alike form (plug x) :=
  ⟨by cases h <;> rfl, (h.refilled x).elements_eq⟩

/-! ### The balance of a step -/

/-- A step that loses nothing: what the tree has afterwards, together with what was to be taken away
before, is what it had before together with what is still to be taken away. -/
structure Conserves (n m : Node) : Prop where
  group : m.groupItem = n.groupItem
  balance : (m.stock ++ n.spent).Perm (n.stock ++ m.spent)

namespace Conserves

theorem refl (n : Node) : Conserves n n :=
  ⟨rfl, .refl _⟩

theorem trans {n m k : Node} (h : Conserves n m) (h' : Conserves m k) : Conserves n k := by
  refine ⟨h'.group.trans h.group, List.perm_iff_count.2 fun i => ?_⟩
  have hcount := h.balance.count_eq i
  have hcount' := h'.balance.count_eq i
  simp only [List.count_append] at hcount hcount' ⊢
  omega

theorem flatMap_groupItem {cs ds : List Node} (h : List.Forall₂ Conserves cs ds) :
    ds.flatMap Node.groupItem = cs.flatMap Node.groupItem := by
  induction h with
  | nil => rfl
  | cons hcd _ ih => rw [List.flatMap_cons, List.flatMap_cons, hcd.group, ih]

theorem flatMap_balance {cs ds : List Node} (h : List.Forall₂ Conserves cs ds) :
    (ds.flatMap Node.stock ++ cs.flatMap Node.spent).Perm
      (cs.flatMap Node.stock ++ ds.flatMap Node.spent) := by
  induction h with
  | nil => exact .refl _
  | cons hcd _ ih =>
    refine List.perm_iff_count.2 fun i => ?_
    have hcount := hcd.balance.count_eq i
    have ih := ih.count_eq i
    simp only [List.flatMap_cons, List.count_append] at hcount ih ⊢
    omega

/-- Splicing takes the groups of a list away, and nothing else. -/
theorem splice_balance (statements : List Node) :
    ((splice statements).flatMap Node.stock ++ statements.flatMap Node.groupItem ++
        statements.flatMap Node.spent).Perm
      (statements.flatMap Node.stock ++ (splice statements).flatMap Node.groupItem ++
        (splice statements).flatMap Node.spent) := by
  induction statements with
  | nil => exact .refl _
  | cons n rest ih =>
    refine List.perm_iff_count.2 fun i => ?_
    have ih := ih.count_eq i
    simp only [splice_cons, List.flatMap_cons, List.flatMap_append, List.count_append] at ih ⊢
    by_cases hgroup : n.form.isGroup = true
    · have hself : n.groupItem = n.item := if_pos hgroup
      have hstock := congrArg (List.count i) n.stock_eq
      have hspent := congrArg (List.count i) n.spent_eq
      have helements : n.form.elements = [] ∧ n.isNullsafe = false := by
        unfold Node.isNullsafe Node.kind
        cases hform : n.form <;> simp_all [Form.isGroup, Form.elements, Form.args, Form.params,
          Form.captures, Form.kind]
      rw [Form.children_of_isGroup hgroup, helements.1] at hstock
      rw [Form.children_of_isGroup hgroup, helements.2] at hspent
      simp only [List.count_append, List.append_nil, Bool.false_eq_true, if_false,
        List.nil_append] at hstock hspent
      rw [if_pos hgroup, hself]
      omega
    · have hself : n.groupItem = [] := if_neg hgroup
      simp only [if_neg hgroup, List.flatMap_cons, List.flatMap_nil, hself, List.count_append,
        List.count_nil]
      omega

theorem settle {n : Node} {g : Form Node} (h : Form.Rel Conserves n.form g) :
    Conserves n (Node.settle g n.span n.marks) := by
  obtain ⟨form, span, marks⟩ := n
  have halike := h.alike
  refine ⟨halike.groupItem span marks _, List.perm_iff_count.2 fun i => ?_⟩
  obtain ⟨-, -, -, hstatements⟩ := h.parts
  have hgroups := congrArg (List.count i) (flatMap_groupItem hstatements)
  have hchildren := (flatMap_balance h.children).count_eq i
  have hsplice := (splice_balance g.statements).count_eq i
  have hitem := halike.item span marks
    (if g.outdatesText && span.isSome then marks.outdated else marks)
  have hnullsafe := halike.isNullsafe span marks
    (if g.outdatesText && span.isSome then marks.outdated else marks)
  rw [Node.stock_eq ⟨form, span, marks⟩, Node.spent_eq ⟨form, span, marks⟩,
    Node.stock_eq (Node.settle g span marks), Node.spent_eq (Node.settle g span marks)]
  simp only [Node.settle, hitem, hnullsafe, halike.elements, Form.statements_settled,
    Form.children_settled]
  rw [Form.children_eq g] at hchildren
  simp only [List.flatMap_append, List.count_append] at hchildren hsplice hgroups ⊢
  omega

theorem cleaned {ctx : Context} {n : Node} {form : Form Node}
    (h : TrailingComma.cleanForm? ctx n.form = some form) :
    Conserves n ⟨form, n.span, n.marks.outdated⟩ := by
  obtain ⟨form', span, marks⟩ := n
  have halike := TrailingComma.alike_of_cleanForm? h
  have hcleaned := TrailingComma.Cleaned.of_cleanForm? h
  have hitem := halike.item span marks marks.outdated
  have hstock : (⟨form, span, marks.outdated⟩ : Node).stock = Node.stock ⟨form', span, marks⟩ := by
    rw [Node.stock_eq, Node.stock_eq ⟨form', _, _⟩, hitem, halike.elements, hcleaned.children_eq]
  have hspent : (⟨form, span, marks.outdated⟩ : Node).spent = Node.spent ⟨form', span, marks⟩ := by
    rw [Node.spent_eq, Node.spent_eq ⟨form', _, _⟩, hitem,
      halike.isNullsafe span marks marks.outdated, hcleaned.children_eq, hcleaned.statements]
  refine ⟨halike.groupItem span marks _, ?_⟩
  rw [hstock, hspent]

end Conserves

/-! ### New nodes hold nothing by themselves -/

theorem Node.groupItem_synthesized (form : Form Node) :
    (Node.synthesized form).groupItem = [] :=
  ite_self _

theorem Node.stock_synthesized (form : Form Node) :
    (Node.synthesized form).stock = form.elements ++ form.children.flatMap Node.stock :=
  Node.stock_eq _

theorem Node.spent_synthesized (form : Form Node) :
    (Node.synthesized form).spent =
      form.statements.flatMap Node.groupItem ++ form.children.flatMap Node.spent := by
  have hitem : (Node.synthesized form).item = [] := rfl
  rw [Node.spent_eq, hitem, ite_self]
  rfl

theorem Node.stock_var (x : String) : (Node.var x).stock = [] :=
  Node.stock_synthesized _

theorem Node.spent_var (x : String) : (Node.var x).spent = [] :=
  Node.spent_synthesized _

theorem Nullsafe.stock_guard (strict : Bool) (x : String) (object : Node) :
    (guard strict (Node.var x) object).stock = object.stock ∧
      (guard strict (Node.var x) object).spent = object.spent := by
  have hassign : (Node.synthesized (.assign (Node.var x) object)).stock = object.stock ∧
      (Node.synthesized (.assign (Node.var x) object)).spent = object.spent := by
    rw [Node.stock_synthesized, Node.spent_synthesized]
    simp [Form.elements, Form.args, Form.params, Form.captures, Form.children, Form.statements,
      Node.stock_var, Node.spent_var]
  have hnull : Node.null.stock = [] ∧ Node.null.spent = [] :=
    ⟨Node.stock_synthesized _, Node.spent_synthesized _⟩
  cases strict with
  | false => exact hassign
  | true =>
    rw [guard, if_pos rfl, Node.stock_synthesized, Node.spent_synthesized]
    simp [Form.elements, Form.args, Form.params, Form.captures, Form.children, Form.statements,
      hassign, hnull]

/-- Lowering a nullsafe access takes away the access itself. -/
theorem Conserves.lowered {n object : Node} {plain : Node → Form Node}
    (h : Nullsafe.access? n.form = some (object, plain)) (strict : Bool) (x : String) :
    Conserves n (Nullsafe.lowered strict (Node.var x) object plain) := by
  have hnull : Node.null.stock = [] ∧ Node.null.spent = [] :=
    ⟨Node.stock_synthesized _, Node.spent_synthesized _⟩
  obtain ⟨hguard, hguard'⟩ := Nullsafe.stock_guard strict x object
  have hstock : (Nullsafe.lowered strict (Node.var x) object plain).stock =
      object.stock ++ (Node.synthesized (plain (Node.var x))).stock := by
    rw [Nullsafe.lowered, Node.stock_synthesized]
    simp [Form.elements, Form.args, Form.params, Form.captures, Form.children, hguard, hnull]
  have hspent : (Nullsafe.lowered strict (Node.var x) object plain).spent =
      object.spent ++ (Node.synthesized (plain (Node.var x))).spent := by
    rw [Nullsafe.lowered, Node.spent_synthesized]
    simp [Form.statements, Form.children, hguard', hnull]
  obtain ⟨form, span, marks⟩ := n
  cases form with
  | nullsafeMethodCall | nullsafePropertyFetch =>
    obtain ⟨rfl, rfl⟩ : _ ∧ _ := by simpa [Nullsafe.access?] using h
    refine ⟨rfl, List.perm_iff_count.2 fun i => ?_⟩
    rw [hstock, hspent, Node.stock_synthesized, Node.spent_synthesized, Node.stock_eq ⟨_, _, _⟩,
      Node.spent_eq ⟨_, _, _⟩]
    simp [Node.isNullsafe, Node.kind, Form.kind, Form.elements, Form.args, Form.params,
      Form.captures, Form.children, Form.statements, Node.stock_var, Node.spent_var,
      List.count_append]
    omega
  | _ => simp [Nullsafe.access?] at h

namespace Hoist

/-- Putting another node into a place of a layer exchanges what the two nodes have. -/
theorem Refilled.stock {c y : Node} {form form' : Form Node} (h : Refilled c y form form')
    (halike : Form.Alike form form') (span : Option Span) (marks marks' : Marks) :
    ((⟨form', span, marks'⟩ : Node).stock ++ c.stock).Perm
        ((⟨form, span, marks⟩ : Node).stock ++ y.stock) ∧
      ((⟨form', span, marks'⟩ : Node).spent ++ c.spent).Perm
        ((⟨form, span, marks⟩ : Node).spent ++ y.spent) := by
  obtain ⟨pre, post, hform, hform'⟩ := h.children
  have hitem := halike.item span marks marks'
  constructor <;> refine List.perm_iff_count.2 fun i => ?_
  · rw [Node.stock_eq ⟨form', _, _⟩, Node.stock_eq ⟨form, _, _⟩, hitem]
    simp only [hform, hform', halike.elements, List.flatMap_append, List.flatMap_cons,
      List.count_append]
    omega
  · rw [Node.spent_eq ⟨form', _, _⟩, Node.spent_eq ⟨form, _, _⟩, hitem,
      halike.isNullsafe span marks marks']
    simp only [hform, hform', h.statements, List.flatMap_append, List.flatMap_cons,
      List.count_append]
    omega

/-- Taking an object out of an expression shares what the expression has between the two pieces. -/
theorem Path.stock {n : Node} {hole : Hole Node} (h : Path n hole) (x : String) :
    (hole.content.stock ++ (hole.fill (Node.var x)).stock).Perm n.stock ∧
      (hole.content.spent ++ (hole.fill (Node.var x)).spent).Perm n.spent := by
  induction h with
  | @here form span marks o plug hslot _ =>
    have hslot := hslot.slot
    obtain ⟨hstock, hspent⟩ :=
      (hslot.refilled (Node.var x)).stock (hslot.alike _) span marks marks.outdated
    rw [Node.stock_var, List.append_nil] at hstock
    rw [Node.spent_var, List.append_nil] at hspent
    exact ⟨List.perm_append_comm.trans hstock, List.perm_append_comm.trans hspent⟩
  | @inside form span marks c plug inner hslot _ ih =>
    obtain ⟨hstock, hspent⟩ := (hslot.refilled (inner.fill (Node.var x))).stock (hslot.alike _)
      span marks marks.outdated
    constructor <;> refine List.perm_iff_count.2 fun i => ?_
    · have hcount := hstock.count_eq i
      have ih := ih.1.count_eq i
      change List.count i (inner.content.stock ++
        (⟨plug (inner.fill (Node.var x)), span, marks.outdated⟩ : Node).stock) = _
      simp only [List.count_append] at hcount ih ⊢
      omega
    · have hcount := hspent.count_eq i
      have ih := ih.2.count_eq i
      change List.count i (inner.content.spent ++
        (⟨plug (inner.fill (Node.var x)), span, marks.outdated⟩ : Node).spent) = _
      simp only [List.count_append] at hcount ih ⊢
      omega

theorem stock_hoisted (x : String) (hole : Hole Node)
    (hgroup : (hole.fill (Node.var x)).form.isGroup = false) :
    (hoisted (Node.var x) hole).stock = hole.content.stock ++ (hole.fill (Node.var x)).stock ∧
      (hoisted (Node.var x) hole).spent =
        hole.content.spent ++ (hole.fill (Node.var x)).spent := by
  have hfill : (hole.fill (Node.var x)).groupItem = [] := by
    rw [Node.groupItem, hgroup]
    rfl
  rw [hoisted, Node.stock_synthesized, Node.spent_synthesized]
  simp [Form.elements, Form.args, Form.params, Form.captures, Form.children, Form.statements,
    Node.groupItem_synthesized, Node.stock_synthesized, Node.spent_synthesized, Node.stock_var,
    Node.spent_var, hfill]

end Hoist

/-- Hoisting an object takes nothing away. -/
theorem Conserves.hoisted {n : Node} {hole : Hoist.Hole Node}
    (h : Hoist.receiverInStatement? n = some hole) (x : String) :
    Conserves n (Hoist.hoisted (Node.var x) hole) := by
  obtain ⟨value, plug, inner, hslot, hvalue, rfl⟩ := Hoist.receiverInStatement?_eq_some h
  obtain ⟨form, span, marks⟩ := n
  have hform : form.isGroup = false := by cases hslot <;> rfl
  have halike := hslot.alike (inner.fill (Node.var x))
  have hfill : (plug (inner.fill (Node.var x))).isGroup = false := by
    rw [Form.isGroup_eq, halike.kind, ← Form.isGroup_eq, hform]
  obtain ⟨hstock, hspent⟩ :=
    Hoist.stock_hoisted x (Hoist.Hole.under span marks (inner.map plug)) hfill
  obtain ⟨hpath, hpath'⟩ := (Hoist.Path.of_receiver? hvalue).stock x
  obtain ⟨hrefill, hrefill'⟩ := (hslot.refilled (inner.fill (Node.var x))).stock halike span marks
    marks.outdated
  refine ⟨?_, List.perm_iff_count.2 fun i => ?_⟩
  · have hself : (⟨form, span, marks⟩ : Node).groupItem = [] := by
      rw [Node.groupItem, hform]
      rfl
    rw [hself]
    rfl
  · have hpath := hpath.count_eq i
    have hpath' := hpath'.count_eq i
    have hrefill := hrefill.count_eq i
    have hrefill' := hrefill'.count_eq i
    rw [hstock, hspent]
    simp only [Hoist.Hole.under, Hoist.Hole.map, List.count_append] at *
    omega

theorem Conserves.invariant (cfg : Settings) (ctx : Context) :
    CatalogInvariant cfg ctx Conserves where
  refl := .refl
  trans := .trans
  settle := .settle
  cleaned := .cleaned
  lowered haccess x := .lowered haccess _ x
  hoisted := .hoisted

theorem Conserves.visit {cfg : Settings} {ctx : Context} {rules : List Rule}
    (hrules : rules ⊆ cfg.catalog) (revisits : Nat) (n : Node) (names : NameSupply) :
    Conserves n (Pass.visit rules ctx revisits n names).value :=
  (Conserves.invariant cfg ctx).visit hrules revisits n names

/-! ### Reading the stock back -/

namespace Item

def label? : Item → Option (Option Span × Form Unit)
  | node span form => some (some span, form)
  | _ => none

def arg? : Item → Option (Arg Unit)
  | arg a => some a
  | _ => none

def param? : Item → Option (Param Unit)
  | param p => some p
  | _ => none

def capture? : Item → Option Capture
  | capture c => some c
  | _ => none

end Item

namespace Node

variable (n : Node)

theorem label_item : n.item.filterMap Item.label? = if n.span.isSome then [n.label] else [] := by
  unfold item label
  cases n.span <;> rfl

theorem label_items (ns : List Node) :
    (ns.flatMap item).filterMap Item.label? = (ns.filter (·.span.isSome)).map label := by
  induction ns with
  | nil => rfl
  | cons m ms ih =>
    rw [List.flatMap_cons, List.filterMap_append, ih, label_item, List.filter_cons]
    split <;> rfl

theorem stock_label : n.stock.filterMap Item.label? =
    (n.preorder.filter (·.span.isSome)).map label := by
  rw [← label_items, stock, List.filterMap_flatMap, List.filterMap_flatMap]
  refine List.flatMap_congr fun m _ => ?_
  have helements : m.form.elements.filterMap Item.label? = [] := by
    simp [Form.elements, Item.label?, List.filterMap_map, Function.comp_def]
  rw [List.filterMap_append, helements, List.append_nil]

variable {read : Item → Option β} (hread : ∀ span form, read (.node span form) = none)

include hread in
theorem filterMap_item : n.item.filterMap read = [] := by
  rw [item]
  cases n.span <;> simp [hread]

include hread in
theorem filterMap_stock :
    n.stock.filterMap read = n.preorder.flatMap (·.form.elements.filterMap read) := by
  rw [stock, List.filterMap_flatMap]
  refine List.flatMap_congr fun m _ => ?_
  rw [List.filterMap_append, m.filterMap_item hread]
  rfl

theorem stock_arg : n.stock.filterMap Item.arg? = n.arguments.map Arg.bare := by
  rw [filterMap_stock n fun _ _ => rfl, arguments, List.map_flatMap]
  exact List.flatMap_congr fun m _ => by
    simp [Form.elements, Item.arg?, List.filterMap_map, Function.comp_def]

theorem stock_param : n.stock.filterMap Item.param? = n.parameters.map Param.bare := by
  rw [filterMap_stock n fun _ _ => rfl, parameters, List.map_flatMap]
  exact List.flatMap_congr fun m _ => by
    simp [Form.elements, Item.param?, List.filterMap_map, Function.comp_def]

theorem stock_capture : n.stock.filterMap Item.capture? = n.captures.map (·.erase .marks) := by
  rw [filterMap_stock n fun _ _ => rfl, captures, List.map_flatMap]
  exact List.flatMap_congr fun m _ => by
    simp [Form.elements, Item.capture?, List.filterMap_map, Function.comp_def]

end Node

/-- Nothing is to be taken away from a tree of settled nodes without nullsafe accesses. -/
theorem Node.discarded_eq_nil {n : Node} (hsettled : n.All Node.Settled)
    (hplain : n.All Node.IsPlain) : n.discarded = [] := by
  rw [Node.discarded, List.flatMap_eq_nil_iff]
  intro m hm
  have hnullsafe : m.isNullsafe = false := by
    simpa [Node.isNullsafe, Node.kind] using Node.isPlain_iff.1 (hplain m hm)
  have hgroups : m.form.statements.filter (·.form.isGroup) = [] :=
    List.filter_eq_nil_iff.2 fun k hk => by simp [(hsettled m hm).flat k hk]
  rw [Node.discardedAt, hnullsafe, hgroups]
  rfl

theorem Node.mem_preorder_of_mem_discarded {n m : Node} (h : m ∈ n.discarded) :
    m ∈ n.preorder := by
  obtain ⟨k, hk, hm⟩ := List.mem_flatMap.1 h
  rcases List.mem_append.1 hm with hm | hm
  · split at hm
    · rwa [List.mem_singleton.1 hm]
    · exact absurd hm List.not_mem_nil
  · have hchild : m ∈ k.form.children :=
      Form.mem_children.2 (.inr (.inr (.inr (List.mem_filter.1 hm).1)))
    exact Node.mem_preorder_trans hk (Node.mem_preorder_child hchild)

/-- Nothing of the source is lost or duplicated. A run with all rules of the catalog, on a tree in
which every node has a span, takes away the nullsafe accesses and the groups that stand in statement
lists, each as often as it occurs, and nothing else: all other nodes, and all arguments, parameters
and captured variables, are in the result with the places, names, literals and modifiers they had,
and as often. -/
theorem run_conserves_source (cfg : Settings) (s : Session) (hrules : s.rules ⊆ cfg.catalog)
    (hall : cfg.catalog ⊆ s.rules) (file : FileId) (tree : Node)
    (hspans : ∀ n ∈ tree.preorder, n.span.isSome = true) (tokens : List Token) :
    let out := (s.run file tree tokens).tree
    ((out.preorder.filter (·.span.isSome)).map Node.label ++ tree.discarded.map Node.label).Perm
        (tree.preorder.map Node.label) ∧
      (out.arguments.map Arg.bare).Perm (tree.arguments.map Arg.bare) ∧
      (out.parameters.map Param.bare).Perm (tree.parameters.map Param.bare) ∧
      (out.captures.map (·.erase .marks)).Perm (tree.captures.map (·.erase .marks)) := by
  intro out
  have hconserves : Conserves tree out := .visit hrules s.maxRevisits tree s.names
  have hsettled : out.All Node.Settled := Pass.visit_settled hrules s.maxRevisits tree s.names
  have hnullsafe : Nullsafe.rule cfg.nullsafeStem cfg.strictNullCheck ∈ s.rules :=
    hall (by simp [Settings.catalog])
  have hplain : out.All Node.IsPlain :=
    Pass.visit_isPlain (by exact rfl) hrules hnullsafe s.maxRevisits tree s.names
  have hspent : out.spent = [] := by
    rw [Node.spent, Node.discarded_eq_nil hsettled hplain]
    rfl
  have hbalance : (out.stock ++ tree.spent).Perm tree.stock := by
    simpa [hspent] using hconserves.balance
  have hnodes : tree.preorder.filter (·.span.isSome) = tree.preorder :=
    List.filter_eq_self.2 hspans
  have hdiscarded : tree.discarded.filter (·.span.isSome) = tree.discarded :=
    List.filter_eq_self.2 fun n hn => hspans n (Node.mem_preorder_of_mem_discarded hn)
  -- only nodes are taken away, so the readings of the elements see no difference
  have helements {β : Type} (read : Item → Option β)
      (hread : ∀ span form, read (.node span form) = none) :
      (out.stock.filterMap read).Perm (tree.stock.filterMap read) := by
    have hnone : tree.spent.filterMap read = [] := by
      rw [Node.spent, List.filterMap_flatMap, List.flatMap_eq_nil_iff]
      exact fun n _ => n.filterMap_item hread
    simpa [hnone] using hbalance.filterMap read
  refine ⟨?_, ?_, ?_, ?_⟩
  · simpa only [List.filterMap_append, Node.stock_label, Node.spent, Node.label_items, hnodes,
      hdiscarded] using hbalance.filterMap Item.label?
  · simpa only [Node.stock_arg] using helements Item.arg? fun _ _ => rfl
  · simpa only [Node.stock_param] using helements Item.param? fun _ _ => rfl
  · simpa only [Node.stock_capture] using helements Item.capture? fun _ _ => rfl

/-- In `{ $a?->m(function ($p) use (&$q) {}); } return (new A)->go($p);` the braces are a
group: it and the nullsafe access go, and the other nodes, the two arguments, the parameter and the
captured variable stay, between nodes that are new. -/
theorem run_conserves_source_of_group :
    let node (form : Form Node) (start stop : Nat) : Node := ⟨form, some ⟨start, stop⟩, {}⟩
    let p : Param Node := { name := "p", span := some ⟨19, 21⟩ }
    let q : Capture := { name := "q", byRef := true, span := some ⟨28, 31⟩ }
    let closure := node (.closure [p] [q] [] false) 9 35
    let call := node (.nullsafeMethodCall (node (.var "a") 2 4) "m"
      [{ value := closure, span := some ⟨9, 35⟩ }]) 2 36
    let object := node (.new (node (.name "A") 52 53) []) 48 53
    let access := node (.methodCall object "go"
      [{ value := node (.var "p") 59 61, span := some ⟨59, 61⟩ }]) 47 62
    let tree := node (.program [node (.group [node (.expression call) 2 37]) 0 39,
      node (.ret (some access)) 40 63]) 0 63
    let cfg : Settings := {}
    let out := (({ rules := cfg.catalog } : Session).run "a.php" tree []).tree
    (cfg.catalog ⊆ cfg.catalog ∧ ∀ n ∈ tree.preorder, n.span.isSome = true) ∧
      tree.discarded.map Node.kind = [.group, .nullsafeMethodCall] ∧
      (∃ n ∈ out.preorder, n.span = none) ∧
      ((out.preorder.filter (·.span.isSome)).map Node.label ++ tree.discarded.map Node.label).Perm
        (tree.preorder.map Node.label) ∧
      (out.arguments.map Arg.bare).Perm (tree.arguments.map Arg.bare) ∧
      (out.parameters.map Param.bare).Perm (tree.parameters.map Param.bare) ∧
      (out.captures.map (·.erase .marks)).Perm (tree.captures.map (·.erase .marks)) := by
  intro node p q closure call object access tree cfg out
  have hsub : cfg.catalog ⊆ cfg.catalog := List.Subset.refl _
  have hspans : ∀ n ∈ tree.preorder, n.span.isSome = true := by decide +kernel
  exact ⟨⟨hsub, hspans⟩, by decide +kernel, by decide +kernel,
    run_conserves_source cfg { rules := cfg.catalog } hsub hsub "a.php" tree hspans []⟩

end SyntaxLowering
