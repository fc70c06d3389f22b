import SyntaxLowering.Tree.Basic

/-!
# Traversals of trees

`Form.map` and `Form.mapM` act on the children of one layer, and `Node.fold` computes a value for
a tree from the values of its layers, bottom-up. `Node.fold_mk` is the equation of a fold, and
`Node.inductionOn` proves a statement of a node from the statement of its children.
-/

namespace SyntaxLowering

variable {α β : Type}

/-- Applies a function to the value of an argument. -/
def Arg.map (f : α → β) (a : Arg α) : Arg β :=
  ⟨f a.value, a.name, a.unpack, a.byRef, a.span, a.marks⟩

/-- Runs an action on the value of an argument. -/
def Arg.mapM {m : Type → Type} [Monad m] (f : α → m β) (a : Arg α) : m (Arg β) := do
  return ⟨← f a.value, a.name, a.unpack, a.byRef, a.span, a.marks⟩

/-- Applies a function to the default of a parameter. -/
def Param.map (f : α → β) (p : Param α) : Param β :=
  ⟨p.name, p.typeHint, p.default.map f, p.variadic, p.byRef, p.span, p.marks⟩

/-- Runs an action on the default of a parameter, if there is one. -/
def Param.mapM {m : Type → Type} [Monad m] (f : α → m β) (p : Param α) : m (Param β) := do
  return ⟨p.name, p.typeHint, ← p.default.mapM f, p.variadic, p.byRef, p.span, p.marks⟩

namespace Form

/-- Applies a function to every child of a layer. -/
def map (f : α → β) : Form α → Form β
  | null => null
  | bool value => bool value
  | int value => int value
  | str value => str value
  | var v => var v
  | name n => name n
  | assign target value => assign (f target) (f value)
  | notIdentical left right => notIdentical (f left) (f right)
  | ternary condition ifTrue ifFalse => ternary (f condition) (f ifTrue) (f ifFalse)
  | propertyFetch object property => propertyFetch (f object) property
  | nullsafePropertyFetch object property => nullsafePropertyFetch (f object) property
  | methodCall object method args => methodCall (f object) method (args.map (·.map f))
  | nullsafeMethodCall object method args =>
    nullsafeMethodCall (f object) method (args.map (·.map f))
  | staticCall scope method args => staticCall (f scope) method (args.map (·.map f))
  | functionCall function args => functionCall (f function) (args.map (·.map f))
  | new scope args => new (f scope) (args.map (·.map f))
  | clone object => clone (f object)
  | closure params captures body isStatic =>
    closure (params.map (·.map f)) captures (body.map f) isStatic
  | expression value => expression (f value)
  | ret value => ret (value.map f)
  | functionDecl n params body => functionDecl n (params.map (·.map f)) (body.map f)
  | classDecl n members => classDecl n (members.map f)
  | methodDecl n modifiers params body =>
    methodDecl n modifiers (params.map (·.map f)) (body.map f)
  | group statements => group (statements.map f)
  | program statements => program (statements.map f)

/-- Runs an action on every child of a layer, in the order of `Form.children`. -/
def mapM {m : Type → Type} [Monad m] (f : α → m β) : Form α → m (Form β)
  | null => return null
  | bool value => return bool value
  | int value => return int value
  | str value => return str value
  | var v => return var v
  | name n => return name n
  | assign target value => return assign (← f target) (← f value)
  | notIdentical left right => return notIdentical (← f left) (← f right)
  | ternary condition ifTrue ifFalse =>
    return ternary (← f condition) (← f ifTrue) (← f ifFalse)
  | propertyFetch object property => return propertyFetch (← f object) property
  | nullsafePropertyFetch object property => return nullsafePropertyFetch (← f object) property
  | methodCall object method args =>
    return methodCall (← f object) method (← args.mapM (·.mapM f))
  | nullsafeMethodCall object method args =>
    return nullsafeMethodCall (← f object) method (← args.mapM (·.mapM f))
  | staticCall scope method args => return staticCall (← f scope) method (← args.mapM (·.mapM f))
  | functionCall function args => return functionCall (← f function) (← args.mapM (·.mapM f))
  | new scope args => return new (← f scope) (← args.mapM (·.mapM f))
  | clone object => return clone (← f object)
  | closure params captures body isStatic =>
    return closure (← params.mapM (·.mapM f)) captures (← body.mapM f) isStatic
  | expression value => return expression (← f value)
  | ret value => return ret (← value.mapM f)
  | functionDecl n params body =>
    return functionDecl n (← params.mapM (·.mapM f)) (← body.mapM f)
  | classDecl n members => return classDecl n (← members.mapM f)
  | methodDecl n modifiers params body =>
    return methodDecl n modifiers (← params.mapM (·.mapM f)) (← body.mapM f)
  | group statements => return group (← statements.mapM f)
  | program statements => return program (← statements.mapM f)

/-- A layer without its children. -/
def shape (form : Form α) : Form Unit :=
  form.map fun _ => ()

end Form

mutual

/-- The value of a tree under an algebra, which gives the value of a node from its layer with the
children's values in place, its span and its marks. -/
def Node.fold (alg : Form β → Option Span → Marks → β) : Node → β
  | ⟨form, span, marks⟩ => alg (Node.foldForm alg form) span marks

/-- The layer of values below a node. -/
def Node.foldForm (alg : Form β → Option Span → Marks → β) : Form Node → Form β
  | .null => .null
  | .bool value => .bool value
  | .int value => .int value
  | .str value => .str value
  | .var v => .var v
  | .name n => .name n
  | .assign target value => .assign (target.fold alg) (value.fold alg)
  | .notIdentical left right => .notIdentical (left.fold alg) (right.fold alg)
  | .ternary condition ifTrue ifFalse =>
    .ternary (condition.fold alg) (ifTrue.fold alg) (ifFalse.fold alg)
  | .propertyFetch object property => .propertyFetch (object.fold alg) property
  | .nullsafePropertyFetch object property => .nullsafePropertyFetch (object.fold alg) property
  | .methodCall object method args =>
    .methodCall (object.fold alg) method (Node.foldArgs alg args)
  | .nullsafeMethodCall object method args =>
    .nullsafeMethodCall (object.fold alg) method (Node.foldArgs alg args)
  | .staticCall scope method args => .staticCall (scope.fold alg) method (Node.foldArgs alg args)
  | .functionCall function args => .functionCall (function.fold alg) (Node.foldArgs alg args)
  | .new scope args => .new (scope.fold alg) (Node.foldArgs alg args)
  | .clone object => .clone (object.fold alg)
  | .closure params captures body isStatic =>
    .closure (Node.foldParams alg params) captures (Node.foldList alg body) isStatic
  | .expression value => .expression (value.fold alg)
  | .ret none => .ret none
  | .ret (some value) => .ret (some (value.fold alg))
  | .functionDecl n params body =>
    .functionDecl n (Node.foldParams alg params) (Node.foldList alg body)
  | .classDecl n members => .classDecl n (Node.foldList alg members)
  | .methodDecl n modifiers params body =>
    .methodDecl n modifiers (Node.foldParams alg params) (Node.foldList alg body)
  | .group statements => .group (Node.foldList alg statements)
  | .program statements => .program (Node.foldList alg statements)

/-- The values of the trees in an argument list. -/
def Node.foldArgs (alg : Form β → Option Span → Marks → β) : List (Arg Node) → List (Arg β)
  | [] => []
  | ⟨value, name, unpack, byRef, span, marks⟩ :: rest =>
    ⟨value.fold alg, name, unpack, byRef, span, marks⟩ :: Node.foldArgs alg rest

/-- The values of the trees in a parameter list. -/
def Node.foldParams (alg : Form β → Option Span → Marks → β) :
    List (Param Node) → List (Param β)
  | [] => []
  | ⟨name, typeHint, none, variadic, byRef, span, marks⟩ :: rest =>
    ⟨name, typeHint, none, variadic, byRef, span, marks⟩ :: Node.foldParams alg rest
  | ⟨name, typeHint, some value, variadic, byRef, span, marks⟩ :: rest =>
    ⟨name, typeHint, some (value.fold alg), variadic, byRef, span, marks⟩ ::
      Node.foldParams alg rest

/-- The values of the trees in a statement list. -/
def Node.foldList (alg : Form β → Option Span → Marks → β) : List Node → List β
  | [] => []
  | node :: rest => node.fold alg :: Node.foldList alg rest

end

section Laws

variable (alg : Form β → Option Span → Marks → β)

theorem Node.foldArgs_eq_map (args : List (Arg Node)) :
    Node.foldArgs alg args = args.map (·.map (·.fold alg)) := by
  induction args with
  | nil => simp [Node.foldArgs]
  | cons a rest ih => obtain ⟨_, _, _, _, _, _⟩ := a; simp [Node.foldArgs, Arg.map, ih]

theorem Node.foldParams_eq_map (params : List (Param Node)) :
    Node.foldParams alg params = params.map (·.map (·.fold alg)) := by
  induction params with
  | nil => simp [Node.foldParams]
  | cons p rest ih =>
    obtain ⟨_, _, _ | _, _, _, _, _⟩ := p <;> simp [Node.foldParams, Param.map, ih]

theorem Node.foldList_eq_map (nodes : List Node) :
    Node.foldList alg nodes = nodes.map (·.fold alg) := by
  induction nodes with
  | nil => simp [Node.foldList]
  | cons n rest ih => simp [Node.foldList, ih]

theorem Node.foldForm_eq_map (form : Form Node) :
    Node.foldForm alg form = form.map (·.fold alg) := by
  cases form with
  | ret value => cases value <;> simp [Node.foldForm, Form.map]
  | _ =>
    simp [Node.foldForm, Form.map, Node.foldArgs_eq_map, Node.foldParams_eq_map,
      Node.foldList_eq_map]

/-- The defining equation of `Node.fold`. -/
theorem Node.fold_mk (form : Form Node) (span : Option Span) (marks : Marks) :
    Node.fold alg ⟨form, span, marks⟩ = alg (form.map (·.fold alg)) span marks := by
  rw [Node.fold, Node.foldForm_eq_map]

end Laws

/-! ### Children -/

namespace Form

@[simp]
theorem children_map (f : α → β) (form : Form α) : (form.map f).children = form.children.map f := by
  have args (as : List (Arg α)) : (as.map (·.map f)).map (·.value) = (as.map (·.value)).map f := by
    simp [Function.comp_def, Arg.map]
  have params (ps : List (Param α)) :
      (ps.map (·.map f)).filterMap (·.default) = (ps.filterMap (·.default)).map f := by
    simp only [List.filterMap_map, List.map_filterMap]; rfl
  cases form with
  | ret value => cases value <;> rfl
  | _ => simp only [map, children, args, params, List.map_append, List.map_cons, List.map_nil]

@[simp]
theorem map_map {γ : Type} (g : β → γ) (f : α → β) (form : Form α) :
    (form.map f).map g = form.map fun a => g (f a) := by
  cases form <;>
    simp [map, Function.comp_def, Arg.map, Param.map, Option.map_map]

@[simp]
theorem map_id (form : Form α) : form.map (fun a => a) = form := by
  cases form <;> simp [map, Arg.map, Param.map]

/-- Running an action on mapped children is running both on the children. -/
theorem mapM_map {γ : Type} {m : Type → Type} [Monad m] [LawfulMonad m] (f : α → β) (g : β → m γ)
    (form : Form α) : (form.map f).mapM g = form.mapM fun a => g (f a) := by
  have args (as : List (Arg α)) :
      (as.map (·.map f)).mapM (·.mapM g) = as.mapM (·.mapM fun a => g (f a)) := by
    rw [List.mapM_map]
    rfl
  have params (ps : List (Param α)) :
      (ps.map (·.map f)).mapM (·.mapM g) = ps.mapM (·.mapM fun a => g (f a)) := by
    rw [List.mapM_map]
    congr
    funext p
    obtain ⟨_, _, _ | _, _, _, _, _⟩ := p <;> rfl
  cases form with
  | ret value => cases value <;> rfl
  | _ => simp only [map, mapM, args, params, List.mapM_map, Function.comp_def]

/-- Mapping depends only on what the function does to the children. -/
theorem map_congr {f g : α → β} {form : Form α} (h : ∀ a ∈ form.children, f a = g a) :
    form.map f = form.map g := by
  have args {as : List (Arg α)} (h : ∀ a ∈ as.map (·.value), f a = g a) :
      as.map (·.map f) = as.map (·.map g) :=
    List.map_congr_left fun a ha => by
      simp [Arg.map, h _ (List.mem_map_of_mem ha)]
  have params {ps : List (Param α)} (h : ∀ a ∈ ps.filterMap (·.default), f a = g a) :
      ps.map (·.map f) = ps.map (·.map g) :=
    List.map_congr_left fun p hp => by
      simp only [Param.map, Param.mk.injEq, true_and, and_true]
      exact Option.map_congr fun a ha => h a (List.mem_filterMap.2 ⟨p, hp, ha⟩)
  cases form <;>
    simp only [children, List.mem_cons, List.mem_append, List.not_mem_nil, false_implies,
      implies_true, and_true, or_imp, forall_and, Option.mem_toList] at h <;>
    simp only [map]
  all_goals grind [List.map_congr_left, Option.map_congr]

end Form

theorem Node.sizeOf_lt_of_mem_children {form : Form Node} {span : Option Span} {marks : Marks}
    {child : Node} (h : child ∈ form.children) :
    sizeOf child < sizeOf (⟨form, span, marks⟩ : Node) := by
  have args {as : List (Arg Node)} (h : child ∈ as.map (·.value)) : sizeOf child < sizeOf as := by
    obtain ⟨a, ha, rfl⟩ := List.mem_map.1 h
    have := List.sizeOf_lt_of_mem ha
    cases a; simp only [Arg.mk.sizeOf_spec] at *; omega
  have params {ps : List (Param Node)} (h : child ∈ ps.filterMap (·.default)) :
      sizeOf child < sizeOf ps := by
    obtain ⟨p, hp, hd⟩ := List.mem_filterMap.1 h
    have := List.sizeOf_lt_of_mem hp
    cases p; simp only at hd; subst hd
    simp only [Param.mk.sizeOf_spec, Option.some.sizeOf_spec] at *; omega
  have list {ns : List Node} (h : child ∈ ns) : sizeOf child < sizeOf ns :=
    List.sizeOf_lt_of_mem h
  rw [Node.mk.sizeOf_spec]
  cases form with
  | ret value =>
    cases value <;> simp [Form.children] at h ⊢
    subst h; omega
  | null | bool | int | str | var | name => simp [Form.children] at h
  | _ =>
    simp only [Form.children, List.mem_cons, List.mem_append, List.not_mem_nil, or_false] at h
    simp
    grind

/-- A statement that holds of a node whenever it holds of the children holds of every tree. -/
theorem Node.inductionOn {motive : Node → Prop}
    (step : ∀ form span marks, (∀ c ∈ form.children, motive c) → motive ⟨form, span, marks⟩) :
    ∀ n : Node, motive n
  | ⟨form, span, marks⟩ => step form span marks fun c _ => Node.inductionOn step c
termination_by n => sizeOf n
decreasing_by exact sizeOf_lt_of_mem_children ‹_›

end SyntaxLowering
