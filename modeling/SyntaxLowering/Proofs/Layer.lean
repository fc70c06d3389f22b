import Mathlib.Data.List.Forall2
import SyntaxLowering.Pass

/-!
# The parts of a layer

The children of a layer fall into four runs: those in a place of their own, the values of
arguments, the defaults of parameters (these three are `Form.inline`), and the statement list.
Mapping, traversing and settling a layer act on each run by itself, so that a fact about all layers
is a fact about four lists and never needs a case for each kind of node.

`Form.Rel` relates two layers of one shape child by child.
-/

namespace SyntaxLowering

variable {α β γ : Type}

/-- Whether the statements of a node of some kind stand in a block of their own. -/
def Kind.opensBlock : Kind → Bool
  | closure | functionDecl | classDecl | methodDecl => true
  | _ => false

namespace Form

/-- The children that are neither values of arguments, defaults of parameters, nor statements. -/
def heads : Form α → List α
  | assign target value => [target, value]
  | notIdentical left right => [left, right]
  | ternary condition ifTrue ifFalse => [condition, ifTrue, ifFalse]
  | propertyFetch object _ | nullsafePropertyFetch object _ | clone object => [object]
  | methodCall object _ _ | nullsafeMethodCall object _ _ => [object]
  | staticCall scope _ _ | new scope _ => [scope]
  | functionCall function _ => [function]
  | expression value => [value]
  | ret value => value.toList
  | _ => []

def captures : Form α → List Capture
  | closure _ cs _ _ => cs
  | _ => []

/-- The children of a layer that are not in its statement list. -/
def inline (form : Form α) : List α :=
  form.heads ++ form.args.map (·.value) ++ form.params.filterMap (·.default)

theorem children_eq (form : Form α) : form.children = form.inline ++ form.statements := by
  cases form <;> simp [children, inline, heads, args, params, statements]

theorem mem_children_of_mem_inline {form : Form α} {c : α} (h : c ∈ form.inline) :
    c ∈ form.children := by
  rw [children_eq]
  exact List.mem_append_left _ h

theorem mem_children_of_mem_statements {form : Form α} {c : α} (h : c ∈ form.statements) :
    c ∈ form.children := by
  rw [children_eq]
  exact List.mem_append_right _ h

theorem mem_children {form : Form α} {c : α} :
    c ∈ form.children ↔ c ∈ form.heads ∨ (∃ a ∈ form.args, a.value = c) ∨
      (∃ p ∈ form.params, p.default = some c) ∨ c ∈ form.statements := by
  simp only [children_eq, inline, List.mem_append, List.mem_map, List.mem_filterMap, or_assoc]

theorem inline_eq_children {form : Form α} (h : form.statements = []) :
    form.inline = form.children := by
  rw [children_eq, h, List.append_nil]

theorem isGroup_eq (form : Form α) : form.isGroup = (form.kind == .group) := by
  cases form <;> rfl

/-! ### Mapping the parts -/

@[simp]
theorem heads_map (f : α → β) (form : Form α) : (form.map f).heads = form.heads.map f := by
  cases form with
  | ret value => cases value <;> rfl
  | _ => rfl

@[simp]
theorem args_map (f : α → β) (form : Form α) :
    (form.map f).args = form.args.map (·.map f) := by
  cases form <;> rfl

@[simp]
theorem params_map (f : α → β) (form : Form α) :
    (form.map f).params = form.params.map (·.map f) := by
  cases form <;> rfl

@[simp]
theorem statements_map (f : α → β) (form : Form α) :
    (form.map f).statements = form.statements.map f := by
  cases form <;> rfl

theorem inline_map (f : α → β) (form : Form α) : (form.map f).inline = form.inline.map f := by
  simp [inline, Arg.map, Param.map, Function.comp_def, List.map_filterMap, List.filterMap_map]

@[simp]
theorem captures_map (f : α → β) (form : Form α) : (form.map f).captures = form.captures := by
  cases form <;> rfl

@[simp]
theorem kind_map (f : α → β) (form : Form α) : (form.map f).kind = form.kind := by
  cases form <;> rfl

@[simp]
theorem ownVariables_map (f : α → β) (form : Form α) :
    (form.map f).ownVariables = form.ownVariables := by
  cases form <;> simp [map, ownVariables, Param.map, Function.comp_def]

def varName? : Form α → Option String
  | var x => some x
  | _ => none

@[simp]
theorem varName?_map (f : α → β) (form : Form α) : (form.map f).varName? = form.varName? := by
  cases form <;> rfl

def target? : Form α → Option α
  | assign target _ => some target
  | _ => none

@[simp]
theorem target?_map (f : α → β) (form : Form α) :
    (form.map f).target? = form.target?.map f := by
  cases form <;> rfl

/-- The object of a plain member access. -/
def object? : Form α → Option α
  | methodCall object _ _ | propertyFetch object _ => some object
  | _ => none

@[simp]
theorem object?_map (f : α → β) (form : Form α) :
    (form.map f).object? = form.object?.map f := by
  cases form <;> rfl

/-- The object is the first of the heads, in the kinds that have one. -/
theorem object?_eq (form : Form α) :
    form.object? = match form.kind with
      | .methodCall | .propertyFetch => form.heads.head?
      | _ => none := by
  cases form <;> rfl

/-! ### Layers of one shape -/

/-- Two layers of one shape whose children are related in their places. -/
structure Rel (R : α → β → Prop) (f : Form α) (g : Form β) : Prop where
  shape : f.shape = g.shape
  children : List.Forall₂ R f.children g.children

end Form

/-- Two arguments that differ in their related values only. -/
def Arg.Rel (R : α → β → Prop) (a : Arg α) (b : Arg β) : Prop :=
  a.map (fun _ => ()) = b.map (fun _ => ()) ∧ R a.value b.value

/-- Two parameters that differ in their related defaults only. -/
def Param.Rel (R : α → β → Prop) (p : Param α) (q : Param β) : Prop :=
  p.map (fun _ => ()) = q.map (fun _ => ()) ∧ Option.Rel R p.default q.default

theorem Param.Rel.exists_default {R : α → β → Prop} {p : Param α} {q : Param β}
    (h : Param.Rel R p q) {d : β} (hd : q.default = some d) : ∃ b, p.default = some b ∧ R b d := by
  obtain ⟨-, hR⟩ := h
  rw [hd] at hR
  generalize p.default = e at hR
  cases hR with
  | some hR => exact ⟨_, rfl, hR⟩

theorem forall₂_append_split {R : α → β → Prop} {as as' : List α} {bs bs' : List β}
    (h : List.Forall₂ R (as ++ as') (bs ++ bs')) (hlen : as.length = bs.length) :
    List.Forall₂ R as bs ∧ List.Forall₂ R as' bs' := by
  induction as generalizing bs with
  | nil =>
    obtain rfl : bs = [] := List.eq_nil_of_length_eq_zero hlen.symm
    exact ⟨.nil, h⟩
  | cons a as ih =>
    cases bs with
    | nil => simp at hlen
    | cons b bs =>
      rw [List.cons_append, List.cons_append, List.forall₂_cons] at h
      obtain ⟨hs, ht⟩ := ih h.2 (Nat.succ.inj hlen)
      exact ⟨.cons h.1 hs, ht⟩

theorem exists_left_of_forall₂ {R : α → β → Prop} {as : List α} {bs : List β}
    (h : List.Forall₂ R as bs) {b : β} (hb : b ∈ bs) : ∃ a ∈ as, R a b := by
  induction h with
  | nil => exact absurd hb List.not_mem_nil
  | @cons a b' as bs hab _ ih =>
    rcases List.mem_cons.1 hb with rfl | hb
    · exact ⟨a, List.mem_cons_self, hab⟩
    · obtain ⟨a', ha', hrel⟩ := ih hb
      exact ⟨a', List.mem_cons_of_mem a ha', hrel⟩

theorem forall₂_imp_of_mem {R S : α → β → Prop} {as : List α} {bs : List β}
    (h : List.Forall₂ R as bs) (hS : ∀ a, ∀ b ∈ bs, R a b → S a b) : List.Forall₂ S as bs := by
  induction h with
  | nil => exact .nil
  | cons hab _ ih =>
    exact .cons (hS _ _ List.mem_cons_self hab)
      (ih fun a b hb => hS a b (List.mem_cons_of_mem _ hb))

theorem Arg.forall₂_rel {R : α → β → Prop} {as : List (Arg α)} {bs : List (Arg β)}
    (shapes : as.map (·.map fun _ => ()) = bs.map (·.map fun _ => ()))
    (values : List.Forall₂ R (as.map (·.value)) (bs.map (·.value))) :
    List.Forall₂ (Arg.Rel R) as bs := by
  induction as generalizing bs with
  | nil =>
    obtain rfl : bs = [] := by simpa using shapes.symm
    exact .nil
  | cons a as ih =>
    cases bs with
    | nil => simp at shapes
    | cons b bs =>
      rw [List.map_cons, List.map_cons, List.cons.injEq] at shapes
      rw [List.map_cons, List.map_cons, List.forall₂_cons] at values
      exact .cons ⟨shapes.1, values.1⟩ (ih shapes.2 values.2)

theorem Param.forall₂_rel {R : α → β → Prop} {ps : List (Param α)} {qs : List (Param β)}
    (shapes : ps.map (·.map fun _ => ()) = qs.map (·.map fun _ => ()))
    (defaults : List.Forall₂ R (ps.filterMap (·.default)) (qs.filterMap (·.default))) :
    List.Forall₂ (Param.Rel R) ps qs := by
  induction ps generalizing qs with
  | nil =>
    obtain rfl : qs = [] := by simpa using shapes.symm
    exact .nil
  | cons p ps ih =>
    cases qs with
    | nil => simp at shapes
    | cons q qs =>
      rw [List.map_cons, List.map_cons, List.cons.injEq] at shapes
      have hdefault : p.default.isSome = q.default.isSome := by
        have := congrArg (fun s => Option.isSome (Param.default s)) shapes.1
        simpa [Param.map] using this
      cases hp : p.default with
      | none =>
        have hq : q.default = none := by simpa [hp] using hdefault
        simp only [List.filterMap_cons, hp, hq] at defaults
        exact .cons ⟨shapes.1, by rw [hp, hq]; exact .none⟩ (ih shapes.2 defaults)
      | some d =>
        obtain ⟨e, hq⟩ : ∃ e, q.default = some e := by
          rw [← Option.isSome_iff_exists, ← hdefault, hp]; rfl
        simp only [List.filterMap_cons, hp, hq, List.forall₂_cons] at defaults
        exact .cons ⟨shapes.1, by rw [hp, hq]; exact .some defaults.1⟩ (ih shapes.2 defaults.2)

namespace Form

namespace Rel

variable {R : α → β → Prop} {f : Form α} {g : Form β}

theorem kind_eq (h : Rel R f g) : f.kind = g.kind := by
  simpa [Form.shape] using congrArg Form.kind h.shape

theorem ownVariables_eq (h : Rel R f g) : f.ownVariables = g.ownVariables := by
  simpa [Form.shape] using congrArg Form.ownVariables h.shape

theorem captures_eq (h : Rel R f g) : f.captures = g.captures := by
  simpa [Form.shape] using congrArg Form.captures h.shape

theorem args_shape (h : Rel R f g) :
    f.args.map (·.map fun _ => ()) = g.args.map (·.map fun _ => ()) := by
  simpa [Form.shape] using congrArg Form.args h.shape

theorem params_shape (h : Rel R f g) :
    f.params.map (·.map fun _ => ()) = g.params.map (·.map fun _ => ()) := by
  simpa [Form.shape] using congrArg Form.params h.shape

/-- The children of related layers are related run by run. -/
theorem parts (h : Rel R f g) :
    List.Forall₂ R f.heads g.heads ∧ List.Forall₂ (Arg.Rel R) f.args g.args ∧
      List.Forall₂ (Param.Rel R) f.params g.params ∧
      List.Forall₂ R f.statements g.statements := by
  have hheads : f.heads.length = g.heads.length := by
    simpa [Form.shape] using congrArg (fun s => s.heads.length) h.shape
  have hargs : f.args.length = g.args.length := by
    simpa [Form.shape] using congrArg (fun s => s.args.length) h.shape
  have hdefaults :
      (f.params.filterMap (·.default)).length = (g.params.filterMap (·.default)).length := by
    have := congrArg (fun ps => (ps.filterMap Param.default).length) h.params_shape
    simpa [List.filterMap_map, Function.comp_def, Param.map, List.length_filterMap_eq_countP]
      using this
  have hchildren := h.children
  rw [children_eq f, children_eq g, inline, inline] at hchildren
  obtain ⟨hchildren, hstatements⟩ :=
    forall₂_append_split hchildren (by simp [hheads, hargs, hdefaults])
  obtain ⟨hchildren, hparams⟩ := forall₂_append_split hchildren (by simp [hheads, hargs])
  obtain ⟨hchildren, hvalues⟩ := forall₂_append_split hchildren hheads
  exact ⟨hchildren, Arg.forall₂_rel h.args_shape hvalues,
    Param.forall₂_rel h.params_shape hparams, hstatements⟩

/-- Related layers have related children outside of their statement lists. -/
theorem inline (h : Rel R f g) : List.Forall₂ R f.inline g.inline := by
  have hlength : f.inline.length = g.inline.length := by
    simpa [Form.shape, inline_map] using congrArg (List.length ∘ Form.inline) h.shape
  have hchildren := h.children
  rw [children_eq, children_eq] at hchildren
  have htake := List.forall₂_take_append _ _ _ hchildren
  rwa [← hlength, List.take_left] at htake

/-- Functions that take related children to related values take related layers to related ones. -/
theorem map {α' β' : Type} {R' : α' → β' → Prop} {φ : α → α'} {ψ : β → β'} (h : Rel R f g)
    (hR : ∀ a b, R a b → R' (φ a) (ψ b)) : Rel R' (f.map φ) (g.map ψ) := by
  constructor
  · have := h.shape
    simp only [Form.shape, Form.map_map] at this ⊢
    exact this
  · rw [Form.children_map, Form.children_map, List.forall₂_map_left_iff, List.forall₂_map_right_iff]
    exact h.children.imp hR

end Rel

/-- Functions whose values are related on the children of a layer map it to related layers. -/
theorem rel_map {R : β → γ → Prop} {f : α → β} {g : α → γ} {form : Form α}
    (h : ∀ c ∈ form.children, R (f c) (g c)) : Rel R (form.map f) (form.map g) := by
  constructor
  · simp only [Form.shape, Form.map_map]
  · rw [Form.children_map, Form.children_map, List.forall₂_map_left_iff,
      List.forall₂_map_right_iff]
    exact List.forall₂_same.2 h

/-- A layer is related to itself if its children are. -/
theorem rel_self {R : α → α → Prop} {f : Form α} (h : ∀ c ∈ f.children, R c c) : Rel R f f :=
  ⟨rfl, List.forall₂_same.2 h⟩

/-- Layers whose children are equal in their places are equal. -/
theorem eq_of_rel_eq {f g : Form α} (h : Rel Eq f g) : f = g :=
  eq_of_shape_eq h.shape (List.forall₂_eq_eq_eq ▸ h.children)

end Form

/-- The variable that a node is. -/
def Node.varName? (n : Node) : Option String :=
  n.form.varName?

end SyntaxLowering
