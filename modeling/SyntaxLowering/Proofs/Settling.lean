import SyntaxLowering.Proofs.Layer

/-!
# Settling a layer

What `Node.settle` does to each part of a layer, and to a property of all nodes of a tree.
Settling splices groups, so a node below the settled layer is a node below the layer before; only
the group itself disappears.
-/

namespace SyntaxLowering

namespace Node

/-- Every node of a tree has a property. -/
def All (p : Node → Prop) (n : Node) : Prop :=
  ∀ m ∈ n.preorder, p m

variable {p q : Node → Prop} {n m : Node}

instance [DecidablePred p] : Decidable (All p n) :=
  inferInstanceAs (Decidable (∀ m ∈ n.preorder, p m))

theorem mem_preorder :
    m ∈ n.preorder ↔ m = n ∨ ∃ c ∈ n.form.children, m ∈ c.preorder := by
  cases n with
  | mk form span marks => rw [preorder_mk, List.mem_cons, List.mem_flatMap]

theorem self_mem_preorder (n : Node) : n ∈ n.preorder :=
  mem_preorder.2 (.inl rfl)

theorem mem_preorder_trans {k : Node} (hm : m ∈ n.preorder) (hk : k ∈ m.preorder) :
    k ∈ n.preorder := by
  induction n using Node.inductionOn with
  | step form span marks ih =>
    rcases mem_preorder.1 hm with rfl | ⟨c, hc, hm⟩
    · exact hk
    · exact mem_preorder.2 (.inr ⟨c, hc, ih c hc hm⟩)

theorem mem_preorder_child {c : Node} (hc : c ∈ n.form.children) : c ∈ n.preorder :=
  mem_preorder.2 (.inr ⟨c, hc, self_mem_preorder c⟩)

theorem all_iff : All p n ↔ p n ∧ ∀ c ∈ n.form.children, All p c := by
  constructor
  · intro h
    exact ⟨h n (self_mem_preorder n), fun c hc m hm => h m (mem_preorder.2 (.inr ⟨c, hc, hm⟩))⟩
  · rintro ⟨hself, hchildren⟩ m hm
    rcases mem_preorder.1 hm with rfl | ⟨c, hc, hm⟩
    · exact hself
    · exact hchildren c hc m hm

theorem All.self (h : All p n) : p n :=
  h n (self_mem_preorder n)

theorem All.child (h : All p n) {c : Node} (hc : c ∈ n.form.children) : All p c :=
  (all_iff.1 h).2 c hc

theorem All.mono (h : All p n) (hpq : ∀ m, p m → q m) : All q n :=
  fun m hm => hpq m (h m hm)

end Node

/-- `H` goes layer by layer outside of blocks: at a node that opens none, it is `q` of the node and
`H` of its children. It may ask for something else below a node that opens a block. -/
def Layered (q H : Node → Prop) : Prop :=
  ∀ n : Node, n.kind.opensBlock = false → (H n ↔ q n ∧ ∀ c ∈ n.form.children, H c)

theorem Node.layered_all (p : Node → Prop) : Layered p (All p) :=
  fun _ _ => all_iff

/-! ### Splicing -/

theorem splice_cons (n : Node) (rest : List Node) :
    splice (n :: rest) = (if n.form.isGroup then n.form.statements else [n]) ++ splice rest := by
  rw [splice, List.flatMap_cons]
  cases n with
  | mk form span marks => cases form <;> rfl

theorem splice_eq_self {statements : List Node}
    (h : ∀ n ∈ statements, n.form.isGroup = false) : splice statements = statements := by
  induction statements with
  | nil => rfl
  | cons n rest ih =>
    rw [splice_cons, h n List.mem_cons_self, ih fun m hm => h m (List.mem_cons_of_mem n hm)]
    rfl

theorem mem_splice {statements : List Node} {n : Node} :
    n ∈ splice statements ↔ ∃ m ∈ statements,
      if m.form.isGroup then n ∈ m.form.statements else n = m := by
  induction statements with
  | nil => simp [splice]
  | cons m rest ih =>
    rw [splice_cons, List.mem_append, ih, List.exists_mem_cons_iff]
    by_cases hm : m.form.isGroup <;> simp [hm]

/-- The children of a group are its statements. -/
theorem Form.children_of_isGroup {α : Type} {form : Form α} (h : form.isGroup = true) :
    form.children = form.statements := by
  cases form <;> first | rfl | simp [Form.isGroup] at h

/-! ### The parts of a settled layer -/

@[simp]
theorem Arg.value_settled (a : Arg Node) : a.settled.value = a.value := by
  unfold Arg.settled; split <;> rfl

@[simp]
theorem Arg.span_settled (a : Arg Node) : a.settled.span = a.span := by
  unfold Arg.settled; split <;> rfl

@[simp]
theorem Param.default_settled (p : Param Node) : p.settled.default = p.default := by
  unfold Param.settled; split <;> rfl

@[simp]
theorem Param.name_settled (p : Param Node) : p.settled.name = p.name := by
  unfold Param.settled; split <;> rfl

@[simp]
theorem Param.span_settled (p : Param Node) : p.settled.span = p.span := by
  unfold Param.settled; split <;> rfl

namespace Form

variable (form : Form Node)

@[simp]
theorem heads_settled : form.settled.heads = form.heads := by cases form <;> rfl

@[simp]
theorem args_settled : form.settled.args = form.args.map (·.settled) := by cases form <;> rfl

@[simp]
theorem params_settled : form.settled.params = form.params.map (·.settled) := by
  cases form <;> rfl

@[simp]
theorem statements_settled : form.settled.statements = splice form.statements := by
  cases form <;> rfl

@[simp]
theorem captures_settled : form.settled.captures = form.captures := by cases form <;> rfl

@[simp]
theorem kind_settled : form.settled.kind = form.kind := by cases form <;> rfl

@[simp]
theorem ownVariables_settled : form.settled.ownVariables = form.ownVariables := by
  cases form <;> simp [settled, ownVariables, Function.comp_def]

@[simp]
theorem inline_settled : form.settled.inline = form.inline := by
  simp [inline, Function.comp_def, List.filterMap_map]

theorem children_settled : form.settled.children = form.inline ++ splice form.statements := by
  rw [children_eq, inline_settled, statements_settled]

variable {form}

/-- A child of a settled layer is a child of the layer, or a statement of a group that is one. -/
theorem mem_children_settled {c : Node} (h : c ∈ form.settled.children) :
    c ∈ form.children ∨ ∃ g ∈ form.children, c ∈ g.form.children := by
  rw [children_settled, List.mem_append] at h
  rcases h with h | h
  · exact .inl (mem_children_of_mem_inline h)
  · obtain ⟨m, hm, hc⟩ := mem_splice.1 h
    have hm' : m ∈ form.children := mem_children.2 (.inr (.inr (.inr hm)))
    by_cases hg : m.form.isGroup
    · rw [if_pos hg] at hc
      exact .inr ⟨m, hm', by rw [children_of_isGroup hg]; exact hc⟩
    · rw [if_neg hg] at hc
      exact .inl (hc ▸ hm')

theorem settled_eq_self (hargs : ∀ a ∈ form.args, a.settled = a)
    (hparams : ∀ p ∈ form.params, p.settled = p)
    (hstatements : ∀ n ∈ form.statements, n.form.isGroup = false) : form.settled = form := by
  have hargs' : form.args.map (·.settled) = form.args :=
    (List.map_congr_left hargs).trans (List.map_id _)
  have hparams' : form.params.map (·.settled) = form.params :=
    (List.map_congr_left hparams).trans (List.map_id _)
  have hsplice := splice_eq_self hstatements
  cases form <;> simp_all [settled, args, params, statements]

/-- A layer that does not lose its text has nothing below that lost its own. -/
theorem outdatesText_eq_false :
    form.outdatesText = false ↔ (∀ c ∈ form.children, c.isStale = false) ∧
      (∀ a ∈ form.args, isStale a.span a.marks = false) ∧
      (∀ p ∈ form.params, isStale p.span p.marks = false) ∧
      ∀ n ∈ form.statements, n.form.isGroup = false := by
  simp [outdatesText, and_assoc]

end Form

theorem isStale_eq_false {span : Option Span} {marks : Marks} :
    isStale span marks = false ↔ span.isSome = true ∧ marks.textValid = true := by
  cases span <;> simp [isStale]

@[simp]
theorem isStale_outdated (span : Option Span) (marks : Marks) :
    isStale span marks.outdated = true := by
  simp [isStale, Marks.outdated]

/-- An argument of a fresh value is settled. -/
theorem Arg.settled_eq_self {a : Arg Node} (h : a.value.isStale = false) : a.settled = a := by
  rw [Arg.settled, h]; rfl

/-- A parameter of a fresh default is settled. -/
theorem Param.settled_eq_self {p : Param Node} (h : ∀ d ∈ p.default, d.isStale = false) :
    p.settled = p := by
  have : p.default.any (·.isStale) = false := by
    cases hp : p.default with
    | none => rfl
    | some d => exact h d (by rw [hp]; rfl)
  rw [Param.settled, this]; rfl

/-- A layer that does not lose its text is settled. -/
theorem Form.settled_of_fresh {form : Form Node} (h : form.outdatesText = false) :
    form.settled = form := by
  obtain ⟨hchildren, -, -, hgroups⟩ := Form.outdatesText_eq_false.1 h
  refine Form.settled_eq_self (fun a ha => ?_) (fun q hq => ?_) hgroups
  · exact Arg.settled_eq_self (hchildren _ (Form.mem_children.2 (.inr (.inl ⟨a, ha, rfl⟩))))
  · exact Param.settled_eq_self fun d hd =>
      hchildren d (Form.mem_children.2 (.inr (.inr (.inl ⟨q, hq, hd⟩))))

namespace Node

variable {p : Node → Prop} {form : Form Node} {span : Option Span} {marks : Marks}

/-- A property of all nodes below a layer holds below the settled layer. -/
theorem all_settle (h : ∀ c ∈ form.children, All p c) (hself : p (settle form span marks)) :
    All p (settle form span marks) := by
  refine all_iff.2 ⟨hself, fun c hc => ?_⟩
  rcases Form.mem_children_settled hc with hc | ⟨g, hg, hc⟩
  · exact h c hc
  · exact (h g hg).child hc

/-- A settled node that kept its source text is the node itself. -/
theorem settle_eq_self (h : (settle form span marks).isStale = false) :
    settle form span marks = ⟨form, span, marks⟩ ∧ form.outdatesText = false := by
  obtain ⟨hspan, htext⟩ := isStale_eq_false.1 h
  have hspan : span.isSome = true := hspan
  have hout : form.outdatesText = false := by
    by_contra hne
    rw [Bool.not_eq_false] at hne
    simp [settle, hne, hspan, Marks.outdated] at htext
  exact ⟨by rw [settle, Form.settled_of_fresh hout, hout]; rfl, hout⟩

end Node

end SyntaxLowering
