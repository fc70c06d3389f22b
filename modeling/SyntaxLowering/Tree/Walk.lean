import SyntaxLowering.Tree.Fold

/-!
# Views of a tree

`Node.preorder` lists the nodes of a tree and `Node.variableNames` the variables it mentions.
`Node.labels` lists the nodes without what is below them; a tree is determined by its labels
(`Node.eq_of_labels_append_eq`), so comparing them decides equality of trees.
-/

namespace SyntaxLowering

variable {α : Type}

namespace Node

/-- The nodes of a tree, each before its descendants, siblings in evaluation order. -/
def preorder (n : Node) : List Node :=
  (n.fold fun layer span marks =>
    let node : Node := ⟨layer.map (·.1), span, marks⟩
    (node, node :: layer.children.flatMap (·.2)) : Node × List Node).2

/-- Every variable name that a tree binds or refers to, parameters and captures included. -/
def variableNames (n : Node) : List String :=
  n.fold fun layer _ _ => layer.ownVariables ++ layer.children.flatten

/-- A node apart from its children. -/
structure Label where
  shape : Form Unit
  span : Option Span
  marks : Marks
deriving DecidableEq

/-- The labels of the nodes of a tree in preorder. -/
def labels (n : Node) : List Label :=
  n.fold fun layer span marks => ⟨layer.shape, span, marks⟩ :: layer.children.flatten

/-- A fold that rebuilds the tree next to what it computes gives the tree back. -/
theorem fold_rebuilt {β : Type} (alg : Form (Node × β) → Option Span → Marks → β) (n : Node) :
    (n.fold fun layer span marks =>
      ((⟨layer.map (·.1), span, marks⟩ : Node), alg layer span marks)).1 = n := by
  induction n using Node.inductionOn with
  | step form span marks ih =>
    rw [fold_mk]
    simp only [Form.map_map, Node.mk.injEq, and_true]
    exact (Form.map_congr ih).trans form.map_id

theorem preorder_mk (form : Form Node) (span : Option Span) (marks : Marks) :
    preorder ⟨form, span, marks⟩ = ⟨form, span, marks⟩ :: form.children.flatMap preorder := by
  simp only [preorder, fold_mk, Form.map_map, Form.children_map, List.flatMap_map]
  rw [Form.map_congr fun c _ => fold_rebuilt _ c, Form.map_id]
  rfl

theorem variableNames_mk (form : Form Node) (span : Option Span) (marks : Marks) :
    variableNames ⟨form, span, marks⟩ =
      form.ownVariables ++ form.children.flatMap variableNames := by
  have own (f : Node → List String) : (form.map f).ownVariables = form.ownVariables := by
    cases form <;> simp [Form.map, Form.ownVariables, Param.map, Function.comp_def]
  simp only [variableNames, fold_mk, Form.children_map, own, List.flatMap_def]
  rfl

theorem labels_mk (form : Form Node) (span : Option Span) (marks : Marks) :
    labels ⟨form, span, marks⟩ = ⟨form.shape, span, marks⟩ :: form.children.flatMap labels := by
  simp only [labels, fold_mk, Form.children_map, Form.shape, Form.map_map, List.flatMap_def]
  rfl

end Node

/-! ### Equality of trees -/

theorem Arg.eq_of_shapes_eq {as bs : List (Arg α)} {r t : List α}
    (shapes : as.map (·.map fun _ => ()) = bs.map (·.map fun _ => ()))
    (values : as.map (·.value) ++ r = bs.map (·.value) ++ t) : as = bs ∧ r = t := by
  induction as generalizing bs with
  | nil => cases bs <;> simp_all
  | cons a as ih =>
    cases bs with
    | nil => simp at shapes
    | cons b bs =>
      simp only [List.map_cons, List.cons_append, List.cons.injEq] at shapes values
      obtain ⟨rfl, rfl⟩ := ih shapes.2 values.2
      cases a; cases b
      simp_all [Arg.map]

theorem Param.eq_of_shapes_eq {ps qs : List (Param α)} {r t : List α}
    (shapes : ps.map (·.map fun _ => ()) = qs.map (·.map fun _ => ()))
    (defaults : ps.filterMap (·.default) ++ r = qs.filterMap (·.default) ++ t) :
    ps = qs ∧ r = t := by
  induction ps generalizing qs with
  | nil => cases qs <;> simp_all
  | cons p ps ih =>
    cases qs with
    | nil => simp at shapes
    | cons q qs =>
      obtain ⟨_, _, _ | d, _, _, _, _⟩ := p <;> obtain ⟨_, _, _ | e, _, _, _, _⟩ := q <;>
        simp only [List.map_cons, List.cons.injEq, Param.map, Param.mk.injEq, Option.map_none,
          Option.map_some, reduceCtorEq, false_and, and_false] at shapes
      all_goals
        obtain ⟨⟨rfl, rfl, -, rfl, rfl, rfl, rfl⟩, rest⟩ := shapes
        simp only [List.filterMap_cons, List.cons_append, List.cons.injEq] at defaults
      · obtain ⟨rfl, rfl⟩ := ih rest defaults
        simp
      · obtain ⟨rfl, rfl⟩ := ih rest defaults.2
        simp [defaults.1]

/-- A layer is determined by its shape and its children. -/
theorem Form.eq_of_shape_eq {f g : Form α} (shape : f.shape = g.shape)
    (children : f.children = g.children) : f = g := by
  have args {as bs : List (Arg α)}
      (shapes : as.map (·.map fun _ => ()) = bs.map (·.map fun _ => ()))
      (values : as.map (·.value) = bs.map (·.value)) : as = bs := by
    rw [← List.append_nil (as.map _), ← List.append_nil (bs.map _)] at values
    exact (Arg.eq_of_shapes_eq shapes values).1
  cases f <;> cases g <;> simp only [Form.shape, Form.map, reduceCtorEq] at shape
  case ret.ret v w => cases v <;> cases w <;> simp_all [Form.children]
  all_goals
    simp only [Form.children] at children
    injections
    subst_vars
  case methodCall.methodCall | nullsafeMethodCall.nullsafeMethodCall | staticCall.staticCall
    | functionCall.functionCall | new.new => exact congrArg _ (args ‹_› ‹_›)
  all_goals grind [Param.eq_of_shapes_eq]

namespace Node

/-- The labels of trees are self-delimiting: where the labels of one tree end is determined by the
labels, whatever follows. -/
theorem eq_of_labels_append_eq : ∀ {a b : Node} {r t : List Label},
    a.labels ++ r = b.labels ++ t → a = b ∧ r = t := by
  intro a
  induction a using Node.inductionOn with
  | step form span marks ih =>
    intro ⟨form', span', marks'⟩ r t h
    simp only [labels_mk, List.cons_append, List.cons.injEq, Label.mk.injEq] at h
    obtain ⟨⟨hshape, rfl, rfl⟩, hrest⟩ := h
    have lists : ∀ (as bs : List Node), (∀ c ∈ as, ∀ {b : Node} {r t : List Label},
        c.labels ++ r = b.labels ++ t → c = b ∧ r = t) → as.length = bs.length →
        as.flatMap labels ++ r = bs.flatMap labels ++ t → as = bs ∧ r = t := by
      intro as
      induction as with
      | nil => intro bs _ hlen h; cases bs <;> simp_all
      | cons a as ihas =>
        intro bs hc hlen h
        cases bs with
        | nil => simp at hlen
        | cons b bs =>
          simp only [List.flatMap_cons, List.append_assoc] at h
          obtain ⟨rfl, h'⟩ := hc a List.mem_cons_self h
          obtain ⟨rfl, rfl⟩ := ihas bs (fun c hcm => hc c (List.mem_cons_of_mem _ hcm))
            (by simpa using hlen) h'
          exact ⟨rfl, rfl⟩
    have hlen : form.children.length = form'.children.length := by
      have := congrArg (fun f : Form Unit => f.children.length) hshape
      simpa [Form.shape] using this
    obtain ⟨hchildren, rfl⟩ := lists _ _ (fun c hc => ih c hc) hlen hrest
    rw [Form.eq_of_shape_eq hshape hchildren]
    exact ⟨rfl, rfl⟩

theorem labels_inj {a b : Node} : a.labels = b.labels ↔ a = b :=
  ⟨fun h => (eq_of_labels_append_eq (congrArg (· ++ []) h)).1, fun h => h ▸ rfl⟩

instance : DecidableEq Node := fun _ _ => decidable_of_iff _ labels_inj

end Node

end SyntaxLowering
