import Mathlib.Data.Set.Basic
import SyntaxLowering.Proofs.Settling

/-!
# Evaluation of expressions

Expressions without closures are evaluated from left to right over a store of variables. Reading a
property, calling, instantiating and cloning are events: what they answer is left open, and may
depend on everything that happened before. `Semantics` collects what is left open.

A layer first evaluates some of its children in order, and then concludes from their values
(`Semantics.layer_eq`). All that it does is reading variables, assigning them and making events
happen, so a relation between computations that holds of these and is kept by composition holds of
all evaluations (`Semantics.Parametric.layer`).
-/

namespace SyntaxLowering

/-- The value of an argument and how it is passed. -/
structure Operand (V : Type) where
  value : V
  name : Option String
  unpack : Bool
  byRef : Bool
deriving DecidableEq

/-- Something that an evaluation is seen to do, with the values of its operands. -/
inductive Event (V : Type) where
  | read (object : V) (property : String)
  | callMethod (object : V) (method : String) (operands : List (Operand V))
  | callStatic (scope : V) (method : String) (operands : List (Operand V))
  | callFunction (function : V) (operands : List (Operand V))
  | instantiate (scope : V) (operands : List (Operand V))
  | clone (object : V)
deriving DecidableEq

/-- The values of variables and the events so far, the last one first. -/
structure Machine (V : Type) where
  store : String → V
  trace : List (Event V)

/-- What the evaluation of expressions leaves open. -/
structure Semantics (V : Type) where
  null : V
  bool : Bool → V
  int : Int64 → V
  str : String → V
  name : String → V
  /-- The test of `===`, of which it is only known that it recognizes `null`. -/
  identical : V → V → Bool
  identical_null : ∀ v, identical v null = true ↔ v = null
  /-- The test of a ternary. -/
  truthy : V → Bool
  truthy_true : truthy (bool true) = true
  truthy_false : truthy (bool false) = false
  /-- The result of an event after those of a trace. -/
  answer : List (Event V) → Event V → V

/-- Numbers and null as values, with given answers to events. -/
def Semantics.ofNat (answer : List (Event (Option Nat)) → Event (Option Nat) → Option Nat) :
    Semantics (Option Nat) where
  null := none
  bool b := some b.toNat
  int i := some i.toNatClampNeg
  str s := some s.length
  name n := some n.length
  identical v w := v == w
  identical_null _ := beq_iff_eq
  truthy v := v != none && v != some 0
  truthy_true := rfl
  truthy_false := rfl
  answer := answer

/-- A computation that may change the machine or fail. -/
abbrev Evaluation (V α : Type) : Type :=
  StateT (Machine V) Option α

/-- What a layer has to know about its children: how they are evaluated, and which variable they
are, if an assignment has them as its target. -/
structure Meaning (V : Type) where
  varName? : Option String
  run : Evaluation V V

variable {V : Type}

namespace Evaluation

def lookup (x : String) : Evaluation V V := fun m =>
  some (m.store x, m)

def assign (x : String) (v : V) : Evaluation V Unit := fun m =>
  some ((), { m with store := fun y => if y = x then v else m.store y })

/-- What is assigned to a variable is read back from it. -/
theorem assign_lookup (x : String) (v : V) (rest : V → Evaluation V V) :
    (assign x v >>= fun _ => lookup x >>= rest) = (assign x v >>= fun _ => rest v) := by
  funext m
  show rest (if x = x then v else m.store x) _ = rest v _
  rw [if_pos rfl]

/-- The values of arguments, in order. -/
def operands (args : List (Arg (Meaning V))) : Evaluation V (List (Operand V)) :=
  args.mapM fun a => do return ⟨← a.value.run, a.name, a.unpack, a.byRef⟩

end Evaluation

namespace Semantics

open Evaluation

variable (S : Semantics V)

/-- Makes an event happen and gets its result. -/
def perform (event : Event V) : Evaluation V V := fun m =>
  some (S.answer m.trace event, { m with trace := event :: m.trace })

/-- The rest of a nullsafe access to an object, which is left out if the object is null. An object
that is not accepted makes the evaluation fail. -/
def unlessNull (accepts : V → Bool) (object : V) (rest : Evaluation V V) : Evaluation V V :=
  if accepts object then
    if S.identical object S.null then pure S.null else rest
  else failure

/-- The evaluation of one layer of an expression. -/
def layer (accepts : V → Bool) : Form (Meaning V) → Evaluation V V
  | .null => pure S.null
  | .bool b => pure (S.bool b)
  | .int i => pure (S.int i)
  | .str s => pure (S.str s)
  | .name n => pure (S.name n)
  | .var x => lookup x
  | .assign target value =>
    match target.varName? with
    | none => failure
    | some x => do
      let v ← value.run
      assign x v
      return v
  | .notIdentical left right => do
    let v ← left.run
    let w ← right.run
    return S.bool (!S.identical v w)
  | .ternary condition ifTrue ifFalse => do
    let v ← condition.run
    if S.truthy v then ifTrue.run else ifFalse.run
  | .propertyFetch object property => do
    S.perform (.read (← object.run) property)
  | .nullsafePropertyFetch object property => do
    let v ← object.run
    S.unlessNull accepts v (S.perform (.read v property))
  | .methodCall object method args => do
    let v ← object.run
    S.perform (.callMethod v method (← operands args))
  | .nullsafeMethodCall object method args => do
    let v ← object.run
    S.unlessNull accepts v do S.perform (.callMethod v method (← operands args))
  | .staticCall scope method args => do
    let v ← scope.run
    S.perform (.callStatic v method (← operands args))
  | .functionCall function args => do
    let v ← function.run
    S.perform (.callFunction v (← operands args))
  | .new scope args => do
    let v ← scope.run
    S.perform (.instantiate v (← operands args))
  | .clone object => do
    S.perform (.clone (← object.run))
  | _ => failure

def denote (accepts : V → Bool) (n : Node) : Meaning V :=
  n.fold fun form _ _ => ⟨form.varName?, S.layer accepts form⟩

/-- The evaluation of an expression that fails if the object of a nullsafe access is not
accepted. -/
def evalWhere (accepts : V → Bool) (n : Node) : Evaluation V V :=
  (S.denote accepts n).run

/-- The evaluation of an expression. -/
def eval (n : Node) : Evaluation V V :=
  S.evalWhere (fun _ => true) n

variable {S} {accepts : V → Bool}

theorem denote_eq (n : Node) :
    S.denote accepts n = ⟨n.varName?, S.evalWhere accepts n⟩ := by
  cases n with
  | mk form span marks =>
    rw [evalWhere, denote, Node.fold_mk, Form.varName?_map]
    rfl

theorem evalWhere_mk (form : Form Node) (span : Option Span) (marks : Marks) :
    S.evalWhere accepts ⟨form, span, marks⟩ =
      S.layer accepts (form.map (S.denote accepts)) := by
  rw [evalWhere, denote, Node.fold_mk]
  rfl

/-- Settling a layer does not change what it means: only marks change, and statement lists are
no expressions. -/
theorem layer_settled (form : Form Node) (f : Node → Meaning V) :
    S.layer accepts (form.settled.map f) = S.layer accepts (form.map f) := by
  have hargs (args : List (Arg Node)) :
      operands ((args.map (·.settled)).map (·.map f)) = operands (args.map (·.map f)) := by
    simp only [operands, List.mapM_map]
    congr 1
    funext a
    simp only [Function.comp_apply, Arg.settled]
    split <;> rfl
  cases form <;> simp only [Form.settled, Form.map, layer, hargs]

theorem evalWhere_settle (form : Form Node) (span : Option Span) (marks : Marks) :
    S.evalWhere accepts (Node.settle form span marks) =
      S.evalWhere accepts ⟨form, span, marks⟩ := by
  rw [Node.settle, evalWhere_mk, evalWhere_mk, layer_settled]

theorem evalWhere_var (x : String) :
    S.evalWhere accepts (Node.var x) = lookup x := by
  rw [Node.var, Node.synthesized, evalWhere_mk]
  rfl

theorem evalWhere_null : S.evalWhere accepts Node.null = pure S.null := by
  rw [Node.null, Node.synthesized, evalWhere_mk]
  rfl

theorem evalWhere_assign_var (x : String) (value : Node) :
    S.evalWhere accepts (Node.synthesized (.assign (Node.var x) value)) = (do
      let v ← S.evalWhere accepts value
      assign x v
      return v) := by
  rw [Node.synthesized, evalWhere_mk, Form.map, layer, denote_eq]
  rfl

end Semantics

/-! ### What an evaluation is made of -/

section

variable {α β : Type}

/-- The children that a layer evaluates before anything else, in order. -/
def Form.evaluated : Form α → List α
  | assign _ value => [value]
  | notIdentical left right => [left, right]
  | ternary condition _ _ => [condition]
  | propertyFetch object _ | nullsafePropertyFetch object _ | clone object => [object]
  | nullsafeMethodCall object _ _ => [object]
  | methodCall object _ args => object :: args.map (·.value)
  | staticCall scope _ args | new scope args => scope :: args.map (·.value)
  | functionCall function args => function :: args.map (·.value)
  | _ => []

theorem Form.evaluated_map (f : α → β) (form : Form α) :
    (form.map f).evaluated = form.evaluated.map f := by
  cases form <;> simp [evaluated, map, Arg.map, Function.comp_def]

/-- The children that come first are among the heads of a layer and its arguments. -/
theorem Form.evaluated_eq (form : Form α) :
    form.evaluated = match form.kind with
      | .expression | .ret => []
      | .assign => form.heads.drop 1
      | .ternary => form.heads.take 1
      | .nullsafeMethodCall => form.heads
      | _ => form.heads ++ form.args.map (·.value) := by
  cases form <;> rfl

theorem Form.evaluated_subset (form : Form α) : form.evaluated ⊆ form.children := by
  cases form <;> simp [evaluated, children]

theorem Form.Rel.evaluated {R : α → β → Prop} {f : Form α} {g : Form β} (h : Form.Rel R f g) :
    List.Forall₂ R f.evaluated g.evaluated := by
  obtain ⟨hheads, hargs, -, -⟩ := h.parts
  have hvalues : List.Forall₂ R (f.args.map (·.value)) (g.args.map (·.value)) := by
    rw [List.forall₂_map_left_iff, List.forall₂_map_right_iff]
    exact hargs.imp fun _ _ hab => hab.2
  rw [evaluated_eq, evaluated_eq, h.kind_eq]
  split
  · exact .nil
  · exact .nil
  · exact List.forall₂_drop 1 hheads
  · exact List.forall₂_take 1 hheads
  · exact hheads
  · exact List.rel_append hheads hvalues

namespace Evaluation

/-- How arguments with given values are passed. -/
def passed (args : List (Arg α)) (vs : List V) : List (Operand V) :=
  args.zipWith (fun a v => ⟨v, a.name, a.unpack, a.byRef⟩) vs

theorem passed_map (f : α → β) (args : List (Arg α)) (vs : List V) :
    passed (args.map (·.map f)) vs = passed args vs :=
  List.zipWith_map_left

theorem operands_eq (args : List (Arg (Meaning V))) :
    operands args = (args.map (·.value)).mapM (·.run) >>= fun vs => pure (passed args vs) := by
  induction args with
  | nil => rfl
  | cons a args ih =>
    simp only [operands, List.map_cons, List.mapM_cons, bind_assoc, pure_bind] at ih ⊢
    rw [ih]
    simp only [bind_assoc, pure_bind, passed, List.zipWith_cons_cons]

theorem bind_failure (p : Evaluation V α) :
    (p >>= fun _ => failure) = (failure : Evaluation V β) := by
  funext m
  exact Option.bind_eq_none_iff.2 fun _ _ => rfl

end Evaluation

end

/-- The variables that are assigned in a tree. -/
def Node.assigned (n : Node) : List String :=
  n.preorder.filterMap (·.form.target?.bind Node.varName?)

theorem Node.assigned_mk (form : Form Node) (span : Option Span) (marks : Marks) :
    assigned ⟨form, span, marks⟩ =
      (form.target?.bind Node.varName?).toList ++ form.children.flatMap assigned := by
  rw [assigned, preorder_mk, List.filterMap_cons, List.filterMap_flatMap]
  cases form.target?.bind Node.varName? <;> rfl

theorem Node.assigned_subset (n : Node) : n.assigned ⊆ n.variableNames := by
  induction n using Node.inductionOn with
  | step form span marks ih =>
    rw [assigned_mk, variableNames_mk]
    intro x hx
    rcases List.mem_append.1 hx with hx | hx
    · obtain ⟨target, htarget, hname⟩ := Option.bind_eq_some_iff.1 (Option.mem_toList.1 hx)
      refine List.mem_append_right _ (List.mem_flatMap.2 ⟨target, ?_, ?_⟩)
      · cases form <;> simp_all [Form.target?, Form.children]
      · obtain ⟨form, span, marks⟩ := target
        rw [variableNames_mk]
        cases form <;> simp_all [varName?, Form.varName?, Form.ownVariables]
    · obtain ⟨c, hc, hx⟩ := List.mem_flatMap.1 hx
      exact List.mem_append_right _ (List.mem_flatMap.2 ⟨c, hc, ih c hc hx⟩)

/-- Meanings of one variable or none, whose evaluations are related. -/
def Meaning.Rel (Q : {α : Type} → Evaluation V α → Evaluation V α → Prop) (d e : Meaning V) :
    Prop :=
  d.varName? = e.varName? ∧ Q d.run e.run

namespace Semantics

open Evaluation

variable (S : Semantics V)

/-- The end of the evaluation of a layer, once the children that come first have values. -/
def conclude (accepts : V → Bool) : Form (Meaning V) → List V → Evaluation V V
  | .null, _ => pure S.null
  | .bool b, _ => pure (S.bool b)
  | .int i, _ => pure (S.int i)
  | .str s, _ => pure (S.str s)
  | .name n, _ => pure (S.name n)
  | .var x, _ => lookup x
  | .assign target _, v :: _ =>
    match target.varName? with
    | none => failure
    | some x => do
      assign x v
      return v
  | .notIdentical _ _, v :: w :: _ => pure (S.bool (!S.identical v w))
  | .ternary _ ifTrue ifFalse, v :: _ => if S.truthy v then ifTrue.run else ifFalse.run
  | .propertyFetch _ property, v :: _ => S.perform (.read v property)
  | .nullsafePropertyFetch _ property, v :: _ =>
    S.unlessNull accepts v (S.perform (.read v property))
  | .methodCall _ method args, v :: vs => S.perform (.callMethod v method (passed args vs))
  | .nullsafeMethodCall _ method args, v :: _ =>
    S.unlessNull accepts v do S.perform (.callMethod v method (← operands args))
  | .staticCall _ method args, v :: vs => S.perform (.callStatic v method (passed args vs))
  | .functionCall _ args, v :: vs => S.perform (.callFunction v (passed args vs))
  | .new _ args, v :: vs => S.perform (.instantiate v (passed args vs))
  | .clone _, v :: _ => S.perform (.clone v)
  | _, _ => failure

variable {S} {accepts : V → Bool}

theorem layer_eq (form : Form (Meaning V)) :
    S.layer accepts form = form.evaluated.mapM (·.run) >>= S.conclude accepts form := by
  cases form with
  | assign target value =>
    simp only [layer, Form.evaluated, conclude, List.mapM_cons, List.mapM_nil, bind_assoc,
      pure_bind]
    cases target.varName? with
    | none => exact (bind_failure _).symm
    | some x => rfl
  | _ =>
    simp [layer, Form.evaluated, conclude, operands_eq, List.mapM_cons, List.mapM_nil]

theorem evalWhere_eq (form : Form Node) (span : Option Span) (marks : Marks) :
    S.evalWhere accepts ⟨form, span, marks⟩ = form.evaluated.mapM (S.evalWhere accepts) >>=
      S.conclude accepts (form.map (S.denote accepts)) := by
  rw [evalWhere_mk, layer_eq, Form.evaluated_map, List.mapM_map]
  rfl

/-- A relation of computations that holds of all that evaluations are made of, with variables of
`R` that are read and variables of `W` that are assigned. -/
structure Parametric (S : Semantics V) (R W : Set String)
    (Q : {α : Type} → Evaluation V α → Evaluation V α → Prop) : Prop where
  pure {α : Type} (a : α) : Q (pure a) (pure a)
  bind {α β : Type} {p q : Evaluation V α} {f g : α → Evaluation V β} :
    Q p q → (∀ a, Q (f a) (g a)) → Q (p >>= f) (q >>= g)
  failure {α : Type} (q : Evaluation V α) : Q failure q
  lookup : ∀ x ∈ R, Q (lookup x) (lookup x)
  assign : ∀ x ∈ W, ∀ v, Q (assign x v) (assign x v)
  perform (event : Event V) : Q (S.perform event) (S.perform event)

namespace Parametric

variable {R W : Set String} {Q : {α : Type} → Evaluation V α → Evaluation V α → Prop}
  {accepts' : V → Bool} (hQ : S.Parametric R W Q)

include hQ

theorem mapM {γ δ α : Type} {f : γ → Evaluation V α} {g : δ → Evaluation V α} {as : List γ}
    {bs : List δ} (h : List.Forall₂ (fun a b => Q (f a) (g b)) as bs) :
    Q (as.mapM f) (bs.mapM g) := by
  induction h with
  | nil => exact hQ.pure []
  | cons hab _ ih =>
    simp only [List.mapM_cons]
    exact hQ.bind hab fun v => hQ.bind ih fun vs => hQ.pure _

theorem operands {as bs : List (Arg (Meaning V))}
    (h : List.Forall₂ (Arg.Rel (Meaning.Rel Q)) as bs) :
    Q (Evaluation.operands as) (Evaluation.operands bs) := by
  refine hQ.mapM (h.imp ?_)
  rintro ⟨value, name, unpack, byRef, span, marks⟩ ⟨value', name', unpack', byRef', span', marks'⟩
    ⟨hshape, -, hvalue⟩
  simp only [Arg.map, Arg.mk.injEq] at hshape
  obtain ⟨-, rfl, rfl, rfl, -, -⟩ := hshape
  exact hQ.bind hvalue fun v => hQ.pure _

theorem unlessNull (haccepts : ∀ v, accepts v = true → accepts' v = true) (object : V)
    {p q : Evaluation V V} (h : Q p q) :
    Q (S.unlessNull accepts object p) (S.unlessNull accepts' object q) := by
  unfold Semantics.unlessNull
  by_cases hobject : accepts object = true
  · rw [if_pos hobject, if_pos (haccepts object hobject)]
    split
    · exact hQ.pure _
    · exact h
  · rw [if_neg hobject]
    exact hQ.failure _

theorem conclude (haccepts : ∀ v, accepts v = true → accepts' v = true) {f g : Form (Meaning V)}
    (h : Form.Rel (Meaning.Rel Q) f g) (hread : ∀ x ∈ f.ownVariables, x ∈ R)
    (hassigned : ∀ x ∈ f.target?.bind (·.varName?), x ∈ W) (vs : List V) :
    Q (S.conclude accepts f vs) (S.conclude accepts' g vs) := by
  obtain ⟨hheads, hargs, -, -⟩ := h.parts
  have hoperands := hQ.operands hargs
  have hpassed (vs : List V) : passed f.args vs = passed g.args vs := by
    rw [← passed_map (fun _ => ()), h.args_shape, passed_map]
  have hshape := h.shape
  -- layers of different kinds differ in shape
  cases f <;> cases g <;>
    simp only [Form.shape, Form.map, reduceCtorEq, Form.bool.injEq, Form.int.injEq, Form.str.injEq,
      Form.name.injEq, Form.var.injEq, Form.propertyFetch.injEq, Form.nullsafePropertyFetch.injEq,
      Form.methodCall.injEq, Form.nullsafeMethodCall.injEq, Form.staticCall.injEq] at hshape
  case null.null => exact hQ.pure _
  case bool.bool | int.int | str.str | name.name =>
    obtain rfl := hshape
    exact hQ.pure _
  case var.var x _ =>
    obtain rfl := hshape
    exact hQ.lookup x (hread x List.mem_cons_self)
  all_goals
    rcases vs with _ | ⟨v, vs⟩
    · exact hQ.failure _
  case assign.assign.cons target value target' value' =>
    obtain _ | ⟨⟨hname, -⟩, _⟩ := hheads
    simp only [Semantics.conclude, ← hname]
    cases htarget : target.varName? with
    | none => exact hQ.failure _
    | some x => exact hQ.bind (hQ.assign x (hassigned x htarget) v) fun _ => hQ.pure v
  case notIdentical.notIdentical.cons =>
    cases vs with
    | nil => exact hQ.failure _
    | cons w vs => exact hQ.pure _
  case ternary.ternary.cons =>
    obtain _ | ⟨-, _ | ⟨⟨-, htrue⟩, _ | ⟨⟨-, hfalse⟩, _⟩⟩⟩ := hheads
    simp only [Semantics.conclude]
    split
    · exact htrue
    · exact hfalse
  case propertyFetch.propertyFetch.cons =>
    obtain ⟨-, rfl⟩ := hshape
    exact hQ.perform _
  case nullsafePropertyFetch.nullsafePropertyFetch.cons =>
    obtain ⟨-, rfl⟩ := hshape
    exact hQ.unlessNull haccepts v (hQ.perform _)
  case nullsafeMethodCall.nullsafeMethodCall.cons =>
    obtain ⟨-, rfl, -⟩ := hshape
    exact hQ.unlessNull haccepts v (hQ.bind hoperands fun vs => hQ.perform _)
  case methodCall.methodCall.cons | staticCall.staticCall.cons =>
    obtain ⟨-, rfl, -⟩ := hshape
    simp only [Form.args] at hpassed
    simp only [Semantics.conclude, hpassed]
    exact hQ.perform _
  case functionCall.functionCall.cons | new.new.cons =>
    simp only [Form.args] at hpassed
    simp only [Semantics.conclude, hpassed]
    exact hQ.perform _
  case clone.clone.cons => exact hQ.perform _
  all_goals exact hQ.failure _

/-- A layer keeps the relation of its children, if it reads and assigns only the variables that it
may. -/
theorem layer (haccepts : ∀ v, accepts v = true → accepts' v = true) {f g : Form (Meaning V)}
    (h : Form.Rel (Meaning.Rel Q) f g) (hread : ∀ x ∈ f.ownVariables, x ∈ R)
    (hassigned : ∀ x ∈ f.target?.bind (·.varName?), x ∈ W) :
    Q (S.layer accepts f) (S.layer accepts' g) := by
  rw [layer_eq, layer_eq]
  exact hQ.bind (hQ.mapM (h.evaluated.imp fun _ _ hde => hde.2))
    (hQ.conclude haccepts h hread hassigned)

omit hQ in
theorem denoted {form g : Form Node}
    (h : Form.Rel (fun c d => c.varName? = d.varName? ∧
      Q (S.evalWhere accepts c) (S.evalWhere accepts' d)) form g) :
    Form.Rel (Meaning.Rel Q) (form.map (S.denote accepts)) (g.map (S.denote accepts')) := by
  refine h.map fun c d hcd => ?_
  rw [denote_eq, denote_eq]
  exact hcd

theorem evalWhere (haccepts : ∀ v, accepts v = true → accepts' v = true) {form g : Form Node}
    {span span' : Option Span} {marks marks' : Marks}
    (h : Form.Rel (fun c d => c.varName? = d.varName? ∧
      Q (S.evalWhere accepts c) (S.evalWhere accepts' d)) form g)
    (hread : ∀ x ∈ form.ownVariables, x ∈ R)
    (hassigned : ∀ x ∈ form.target?.bind Node.varName?, x ∈ W) :
    Q (S.evalWhere accepts ⟨form, span, marks⟩) (S.evalWhere accepts' ⟨g, span', marks'⟩) := by
  rw [evalWhere_mk, evalWhere_mk]
  refine hQ.layer haccepts (denoted h) (by rwa [Form.ownVariables_map]) ?_
  simpa [Option.bind_map, Function.comp_def, denote_eq] using hassigned

theorem evalWhere_self (haccepts : ∀ v, accepts v = true → accepts' v = true) {n : Node}
    (hread : ∀ x ∈ n.variableNames, x ∈ R) (hassigned : ∀ x ∈ n.assigned, x ∈ W) :
    Q (S.evalWhere accepts n) (S.evalWhere accepts' n) := by
  induction n using Node.inductionOn with
  | step form span marks ih =>
    rw [Node.variableNames_mk, List.forall_mem_append] at hread
    rw [Node.assigned_mk, List.forall_mem_append] at hassigned
    refine hQ.evalWhere haccepts (Form.rel_self fun c hc => ⟨rfl, ih c hc ?_ ?_⟩) hread.1 ?_
    · exact fun x hx => hread.2 x (List.mem_flatMap.2 ⟨c, hc, hx⟩)
    · exact fun x hx => hassigned.2 x (List.mem_flatMap.2 ⟨c, hc, hx⟩)
    · exact fun x hx => hassigned.1 x (Option.mem_toList.2 hx)

end Parametric

end Semantics

/-! ### Expressions that are always evaluated -/

/-- Whether a layer belongs to an expression without closures in which variables are assigned. -/
def Form.isExpression : Form Node → Bool
  | assign target _ => target.varName?.isSome
  | closure .. | expression _ | ret _ | functionDecl .. | classDecl .. | methodDecl .. => false
  | group _ | program _ => false
  | _ => true

/-- An expression without closures in which only variables are assigned. -/
def Node.IsExpression (n : Node) : Prop :=
  n.All (·.form.isExpression = true)

instance (n : Node) : Decidable n.IsExpression :=
  inferInstanceAs (Decidable (n.All _))

theorem Form.isExpression_settled (form : Form Node) :
    form.settled.isExpression = form.isExpression := by
  cases form <;> rfl

/-- Whether a layer belongs to an expression depends on its shape, and for an assignment on its
target. -/
theorem Form.Rel.isExpression_eq {f g : Form Node}
    (h : Form.Rel (fun c d => c.varName? = d.varName?) f g) : f.isExpression = g.isExpression := by
  obtain ⟨hheads, -, -, -⟩ := h.parts
  have hkind := h.kind_eq
  cases f <;> cases g <;> simp only [Form.kind, reduceCtorEq] at hkind
  case assign.assign =>
    obtain _ | ⟨htarget, _⟩ := hheads
    exact congrArg Option.isSome htarget
  all_goals rfl

def Evaluation.Total {α : Type} (p : Evaluation V α) : Prop :=
  ∀ m, ∃ a k, p m = some (a, k)

namespace Evaluation

theorem Total.pure {α : Type} (a : α) : Total (V := V) (pure a) :=
  fun m => ⟨a, m, rfl⟩

theorem Total.bind {α β : Type} {p : Evaluation V α} {f : α → Evaluation V β} (hp : Total p)
    (hf : ∀ a, Total (f a)) : Total (p >>= f) := by
  intro m
  obtain ⟨a, k, hk⟩ := hp m
  obtain ⟨b, l, hl⟩ := hf a k
  exact ⟨b, l, Option.bind_eq_some_iff.2 ⟨(a, k), hk, hl⟩⟩

theorem Total.perform (S : Semantics V) (event : Event V) : Total (S.perform event) :=
  fun _ => ⟨_, _, rfl⟩

theorem Total.operands {as : List (Arg (Meaning V))} (h : ∀ a ∈ as, Total a.value.run) :
    Total (operands as) := by
  induction as with
  | nil => exact .pure []
  | cons a as ih =>
    rw [List.forall_mem_cons] at h
    simp only [Evaluation.operands, List.mapM_cons, bind_assoc, pure_bind]
    exact h.1.bind fun v => (ih h.2).bind fun vs => .pure _

theorem Total.unlessNull (S : Semantics V) (object : V) {rest : Evaluation V V}
    (h : Total rest) : Total (S.unlessNull (fun _ => true) object rest) := by
  rw [Semantics.unlessNull, if_pos rfl]
  split
  · exact .pure _
  · exact h

end Evaluation

/-- Every expression is evaluated to a value. -/
theorem Semantics.eval_total (S : Semantics V) {n : Node} (hn : n.IsExpression) :
    Evaluation.Total (S.eval n) := by
  induction n using Node.inductionOn with
  | step form span marks ih =>
    have hform : form.isExpression = true := hn.self
    have hchild : ∀ c ∈ form.children, Evaluation.Total (S.denote (fun _ => true) c).run :=
      fun c hc => ih c hc (hn.child hc)
    have hargs : ∀ a ∈ form.args.map (·.map (S.denote fun _ => true)),
        Evaluation.Total a.value.run := by
      intro b hb
      obtain ⟨a, ha, rfl⟩ := List.mem_map.1 hb
      exact hchild a.value (Form.mem_children.2 (.inr (.inl ⟨a, ha, rfl⟩)))
    have hoperands := Evaluation.Total.operands hargs
    rw [eval, evalWhere_mk]
    cases form with
    | null | bool | int | str | name => exact .pure _
    | var x => exact fun m => ⟨m.store x, m, rfl⟩
    | assign target value =>
      obtain ⟨x, hx⟩ := Option.isSome_iff_exists.1 hform
      simp only [Form.map, layer, denote_eq, hx]
      exact (hchild value (by simp [Form.children])).bind fun v => fun m => ⟨v, _, rfl⟩
    | notIdentical left right =>
      exact (hchild left (by simp [Form.children])).bind fun v =>
        (hchild right (by simp [Form.children])).bind fun w => .pure _
    | ternary condition ifTrue ifFalse =>
      refine (hchild condition (by simp [Form.children])).bind fun v => ?_
      split
      · exact hchild ifTrue (by simp [Form.children])
      · exact hchild ifFalse (by simp [Form.children])
    | propertyFetch object property | clone object =>
      exact (hchild object (by simp [Form.children])).bind fun v => .perform S _
    | nullsafePropertyFetch object property =>
      exact (hchild object (by simp [Form.children])).bind fun v => .unlessNull S v (.perform S _)
    | nullsafeMethodCall object method args =>
      exact (hchild object (by simp [Form.children])).bind fun v =>
        .unlessNull S v (hoperands.bind fun vs => .perform S _)
    | methodCall object _ args | staticCall object _ args | functionCall object args
      | new object args =>
      exact (hchild object (by simp [Form.children])).bind fun v =>
        hoperands.bind fun vs => .perform S _
    | _ => cases hform

end SyntaxLowering
