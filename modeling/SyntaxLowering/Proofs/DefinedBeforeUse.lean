import Mathlib.Data.List.Flatten
import SyntaxLowering.Proofs.Workload

/-!
# Temporaries are defined before they are used

Hoisting puts the assignment of an object in front of the statement that uses it, in a group of two
statements. Both are visited again and may be divided further, and the group is spliced into the
list that it stands in. `Keeps` says what of this order survives all these steps: a statement that
assigns a variable or uses one as an object still does so, or becomes a group with a statement that
does, and what was defined first stays so.
-/

namespace SyntaxLowering

/-! ### Statements that assign or use a variable -/

theorem Form.target?_eq {α : Type} (form : Form α) :
    form.target? = match form.kind with
      | .assign => form.heads.head?
      | _ => none := by
  cases form <;> rfl

/-- The variable that a node assigns. -/
def Node.targetName? (n : Node) : Option String :=
  n.form.target?.bind Node.varName?

/-- The variable that is assigned in a statement of its own. -/
def Form.assigned? : Form Node → Option String
  | expression value => value.targetName?
  | _ => none

theorem Form.assigned?_eq (form : Form Node) :
    form.assigned? = match form.kind with
      | .expression => form.heads.head?.bind Node.targetName?
      | _ => none := by
  cases form <;> rfl

/-- The statements that groups are made of, and groups. -/
def Kind.isDivisible : Kind → Bool
  | expression | ret | group => true
  | _ => false

theorem Node.isGroup_eq_false {n : Node} (h : n.kind.isDivisible = false) :
    n.form.isGroup = false := by
  rw [Form.isGroup_eq]
  refine beq_eq_false_iff_ne.2 fun hgroup => ?_
  rw [Node.kind, hgroup] at h
  cases h

namespace Node

/-- An expression statement that assigns a variable. -/
def Assigns (n : Node) (x : String) : Prop :=
  n.form.assigned? = some x

/-- A statement uses a variable as an object in an expression of its own: on the way down to the
member access there is neither a statement list nor another statement. -/
inductive UsesObject : Node → String → Prop
  | here {n : Node} {x : String} (hlocal : .object x ∈ n.form.uses) : UsesObject n x
  | inside {n c : Node} {x : String} (hc : c ∈ n.form.inline) (hkind : c.kind.isDivisible = false)
      (h : UsesObject c x) : UsesObject n x

/-- A statement with a property, or a group with such a statement. -/
def Includes (n : Node) (P : Node → Prop) : Prop :=
  ∃ a ∈ splice [n], P a

/-- A statement of a list assigns a variable that a later statement of the list uses as an object,
in an expression of its own. -/
def DefinesBeforeUse (statements : List Node) (x : String) : Prop :=
  ∃ definition use : Node,
    [definition, use].Sublist statements ∧ definition.Assigns x ∧ use.UsesObject x

/-- Somewhere in a tree, a statement list defines a variable before its use. -/
def DefinesFirst (tree : Node) (x : String) : Prop :=
  ∃ m ∈ tree.preorder, DefinesBeforeUse m.form.statements x

variable {n m : Node} {x : String} {P : Node → Prop}

theorem splice_singleton (n : Node) :
    splice [n] = if n.form.isGroup then n.form.statements else [n] := by
  rw [splice_cons]
  exact List.append_nil _

theorem splice_sublist {statements statements' : List Node}
    (h : statements.Sublist statements') : (splice statements).Sublist (splice statements') :=
  h.flatMap _

theorem includes_iff (hgroup : n.form.isGroup = false) : n.Includes P ↔ P n := by
  simp [Includes, splice_singleton, hgroup]

theorem includes_iff_of_isGroup (hgroup : n.form.isGroup = true) :
    n.Includes P ↔ ∃ a ∈ n.form.statements, P a := by
  simp [Includes, splice_singleton, hgroup]

/-- Layers of one kind include the same, if they themselves and their statements do. -/
theorem Includes.of_layer (hkind : m.form.kind = n.form.kind) (hself : P n → P m)
    (hstatements : ∀ a ∈ n.form.statements, P a → ∃ b ∈ m.form.statements, P b)
    (h : n.Includes P) : m.Includes P := by
  have hgroup : m.form.isGroup = n.form.isGroup := by
    rw [Form.isGroup_eq, Form.isGroup_eq, hkind]
  by_cases hn : n.form.isGroup = true
  · obtain ⟨a, ha, hP⟩ := (includes_iff_of_isGroup hn).1 h
    exact (includes_iff_of_isGroup (hgroup.trans hn)).2 (hstatements a ha hP)
  · rw [Bool.not_eq_true] at hn
    exact (includes_iff (hgroup.trans hn)).2 (hself ((includes_iff hn).1 h))

theorem Assigns.isGroup_eq (h : n.Assigns x) : n.form.isGroup = false := by
  unfold Assigns at h
  cases hform : n.form <;> simp_all [Form.assigned?, Form.isGroup]

/-- A group has no expressions of its own. -/
theorem UsesObject.isGroup_eq (h : n.UsesObject x) : n.form.isGroup = false := by
  refine Bool.eq_false_iff.2 fun hgroup => ?_
  cases h with
  | here hlocal => cases hform : n.form <;> simp_all [Form.isGroup, Form.uses, Form.kind,
      Form.ownVariables]
  | inside hc => cases hform : n.form <;> simp_all [Form.isGroup, Form.inline, Form.heads,
      Form.args, Form.params]

theorem UsesObject.mem_uses (h : n.UsesObject x) : .object x ∈ n.uses := by
  induction h with
  | @here n x hlocal =>
    rw [n.uses_eq]
    exact List.mem_append_left _ hlocal
  | @inside n c x hc _ _ ih =>
    rw [n.uses_eq]
    exact List.mem_append_right _
      (List.mem_flatMap.2 ⟨c, Form.mem_children_of_mem_inline hc, ih⟩)

theorem DefinesBeforeUse.of_sublist {statements statements' : List Node}
    (h : DefinesBeforeUse statements x) (hsub : statements.Sublist statements') :
    DefinesBeforeUse statements' x := by
  obtain ⟨definition, use, hlist, hrest⟩ := h
  exact ⟨definition, use, hlist.trans hsub, hrest⟩

theorem DefinesFirst.of_mem (hm : m ∈ n.preorder) (h : m.DefinesFirst x) : n.DefinesFirst x := by
  obtain ⟨k, hk, hlist⟩ := h
  exact ⟨k, mem_preorder_trans hm hk, hlist⟩

/-- The list is one of the node itself, or of a node below a child. -/
theorem DefinesFirst.self_or_child (h : n.DefinesFirst x) :
    DefinesBeforeUse n.form.statements x ∨ ∃ c ∈ n.form.children, c.DefinesFirst x := by
  obtain ⟨k, hk, hlist⟩ := h
  rcases mem_preorder.1 hk with rfl | ⟨c, hc, hk⟩
  · exact .inl hlist
  · exact .inr ⟨c, hc, k, hk, hlist⟩

/-- A list of the node itself has statements. -/
theorem DefinesFirst.child (h : n.DefinesFirst x) (hn : n.form.statements = []) :
    ∃ c ∈ n.form.children, c.DefinesFirst x := by
  refine h.self_or_child.resolve_left ?_
  rintro ⟨definition, use, hlist, -⟩
  rw [hn] at hlist
  simp at hlist

end Node

/-! ### What is kept -/

/-- What a rewrite keeps of assignments, uses, and their order. -/
structure Keeps (n m : Node) : Prop where
  varName : m.varName? = n.varName?
  target : m.targetName? = n.targetName?
  kind : n.kind.isDivisible = false → m.kind.isDivisible = false
  assigns : ∀ x, n.Includes (·.Assigns x) → m.Includes (·.Assigns x)
  uses : ∀ x, n.Includes (·.UsesObject x) → m.Includes (·.UsesObject x)
  defined : ∀ x, n.DefinesFirst x → m.DefinesFirst x

theorem exists_sublist_of_forall₂ {α β : Type} {R : α → β → Prop} {as sub : List α} {bs : List β}
    (h : List.Forall₂ R as bs) (hsub : sub.Sublist as) :
    ∃ sub', sub'.Sublist bs ∧ List.Forall₂ R sub sub' := by
  induction hsub generalizing bs with
  | slnil => exact ⟨[], List.nil_sublist _, .nil⟩
  | cons a _ ih =>
    cases h with
    | cons _ h =>
      obtain ⟨sub', hsub', hR⟩ := ih h
      exact ⟨sub', hsub'.cons _, hR⟩
  | cons_cons a _ ih =>
    cases h with
    | cons hab h =>
      obtain ⟨sub', hsub', hR⟩ := ih h
      exact ⟨_ :: sub', hsub'.cons_cons _, .cons hab hR⟩

namespace Keeps

theorem refl (n : Node) : Keeps n n :=
  ⟨rfl, rfl, id, fun _ h => h, fun _ h => h, fun _ h => h⟩

theorem trans {n m k : Node} (h : Keeps n m) (h' : Keeps m k) : Keeps n k :=
  ⟨h'.varName.trans h.varName, h'.target.trans h.target, h'.kind ∘ h.kind,
    fun x hx => h'.assigns x (h.assigns x hx), fun x hx => h'.uses x (h.uses x hx),
    fun x hx => h'.defined x (h.defined x hx)⟩

/-- What is defined first below a layer is so in the settled layer: the statements of a group that
was spliced stand in the list of the layer now. -/
theorem definesFirst_settle {g : Form Node} {d : Node} {x : String} (hd : d ∈ g.children)
    (h : d.DefinesFirst x) (span : Option Span) (marks : Marks) :
    (Node.settle g span marks).DefinesFirst x := by
  have hchild {c : Node} (hc : c ∈ g.settled.children) (h : c.DefinesFirst x) :
      (Node.settle g span marks).DefinesFirst x := h.of_mem (Node.mem_preorder_child hc)
  rw [Form.children_eq, List.mem_append] at hd
  rcases hd with hd | hd
  · exact hchild (by rw [Form.children_settled]; exact List.mem_append_left _ hd) h
  · have hsplice {c : Node} (hc : c ∈ splice g.statements) : c ∈ g.settled.children := by
      rw [Form.children_settled]
      exact List.mem_append_right _ hc
    by_cases hgroup : d.form.isGroup = true
    · have hsub : d.form.statements.Sublist (splice g.statements) := by
        have hspliced := Node.splice_sublist (List.singleton_sublist.2 hd)
        rwa [Node.splice_singleton, if_pos hgroup] at hspliced
      rcases h.self_or_child with hlist | ⟨c, hc, h⟩
      · refine ⟨_, Node.self_mem_preorder _, ?_⟩
        show Node.DefinesBeforeUse g.settled.statements x
        rw [Form.statements_settled]
        exact hlist.of_sublist hsub
      · rw [Form.children_of_isGroup hgroup] at hc
        exact hchild (hsplice (hsub.subset hc)) h
    · exact hchild (hsplice (mem_splice.2 ⟨d, hd, by rw [if_neg hgroup]⟩)) h

/-- Statements in order are still in order when their places have been rewritten and spliced. -/
theorem definesBeforeUse_splice {ss ts : List Node} (h : List.Forall₂ Keeps ss ts) {x : String}
    (hx : Node.DefinesBeforeUse ss x) : Node.DefinesBeforeUse (splice ts) x := by
  obtain ⟨definition, use, hlist, hassigns, huse⟩ := hx
  obtain ⟨sub, hsub, hkeeps⟩ := exists_sublist_of_forall₂ h hlist
  rcases hkeeps with _ | ⟨hdefinition, _ | ⟨hstatement, _ | _⟩⟩
  rename_i d u
  obtain ⟨a, ha, hassigns⟩ :=
    hdefinition.assigns x ((Node.includes_iff hassigns.isGroup_eq).2 hassigns)
  obtain ⟨s, hs, huse⟩ := hstatement.uses x ((Node.includes_iff huse.isGroup_eq).2 huse)
  refine ⟨a, s, ?_, hassigns, huse⟩
  have hpair : [a, s].Sublist (splice [d] ++ splice [u]) :=
    (List.singleton_sublist.2 ha).append (List.singleton_sublist.2 hs)
  have hspliced : splice [d] ++ splice [u] = splice [d, u] := by
    rw [splice, splice, splice, ← List.flatMap_append]
    rfl
  exact hpair.trans (hspliced ▸ Node.splice_sublist hsub)

theorem head_eq {f g : Form Node} (h : Form.Rel Keeps f g) {k : Node → Option String}
    (hk : ∀ c d, Keeps c d → k d = k c) : g.heads.head?.bind k = f.heads.head?.bind k := by
  obtain ⟨hheads, -⟩ := h.parts
  revert hheads
  generalize f.heads = cs
  generalize g.heads = ds
  rintro (_ | ⟨hcd, _⟩)
  · rfl
  · exact hk _ _ hcd

theorem assigned?_settled {f g : Form Node} (h : Form.Rel Keeps f g) :
    g.settled.assigned? = f.assigned? := by
  rw [Form.assigned?_eq, Form.assigned?_eq, Form.kind_settled, Form.heads_settled, h.kind_eq,
    head_eq h fun _ _ hcd => hcd.target]

/-- A part that is no statement is not divided, so what it used itself it still uses itself. -/
theorem usesObject_settle {n : Node} {g : Form Node} {x : String} (h : Form.Rel Keeps n.form g)
    (hx : n.UsesObject x) : (Node.settle g n.span n.marks).UsesObject x := by
  cases hx with
  | here hlocal =>
    refine .here ?_
    show .object x ∈ g.settled.uses
    rwa [Form.uses_settled, h.uses_eq fun _ _ hcd => hcd.varName]
  | @inside _ c _ hc hkind hx =>
    obtain ⟨d, hd, hkeeps⟩ := exists_left_of_forall₂ h.inline.flip hc
    have hd' : d ∈ g.settled.inline := by rwa [Form.inline_settled]
    have hincludes := hkeeps.uses x ((Node.includes_iff (Node.isGroup_eq_false hkind)).2 hx)
    exact .inside hd' (hkeeps.kind hkind)
      ((Node.includes_iff (Node.isGroup_eq_false (hkeeps.kind hkind))).1 hincludes)

/-- What the statements of a layer include is included when they have been rewritten and
spliced. -/
theorem includes_settle {n : Node} {g : Form Node} {P : Node → Prop}
    (h : Form.Rel Keeps n.form g) (hgroup : ∀ a, P a → a.form.isGroup = false)
    (hP : ∀ c d, Keeps c d → c.Includes P → d.Includes P)
    (hself : P n → P (Node.settle g n.span n.marks)) (hn : n.Includes P) :
    (Node.settle g n.span n.marks).Includes P := by
  obtain ⟨-, -, -, hstatements⟩ := h.parts
  refine Node.Includes.of_layer ((Form.kind_settled g).trans h.kind_eq.symm) hself ?_ hn
  intro a ha hPa
  obtain ⟨b, hb, hkeeps⟩ := exists_left_of_forall₂ hstatements.flip ha
  obtain ⟨c, hc, hPc⟩ := hP a b hkeeps ((Node.includes_iff (hgroup a hPa)).2 hPa)
  refine ⟨c, ?_, hPc⟩
  show c ∈ g.settled.statements
  rw [Form.statements_settled]
  exact (Node.splice_sublist (List.singleton_sublist.2 hb)).subset hc

theorem settle {n : Node} {g : Form Node} (h : Form.Rel Keeps n.form g) :
    Keeps n (Node.settle g n.span n.marks) := by
  obtain ⟨-, -, -, hstatements⟩ := h.parts
  have hkind : g.settled.kind = n.form.kind := (Form.kind_settled g).trans h.kind_eq.symm
  constructor
  · exact Node.varName?_congr hkind ((Form.ownVariables_settled g).trans h.ownVariables_eq.symm)
  · show g.settled.target?.bind Node.varName? = n.form.target?.bind Node.varName?
    have hvar := head_eq h fun _ _ hcd => hcd.varName
    rw [Form.target?_eq, Form.target?_eq, hkind, Form.heads_settled]
    split
    · exact hvar
    · rfl
  · show n.form.kind.isDivisible = false → g.settled.kind.isDivisible = false
    rw [hkind]
    exact id
  · exact fun x => includes_settle h (fun _ => Node.Assigns.isGroup_eq)
      (fun _ _ hkeeps => hkeeps.assigns x) (assigned?_settled h).trans
  · exact fun x => includes_settle h (fun _ => Node.UsesObject.isGroup_eq)
      (fun _ _ hkeeps => hkeeps.uses x) (usesObject_settle h)
  · intro x hx
    rcases hx.self_or_child with hlist | ⟨c, hc, hx⟩
    · refine ⟨_, Node.self_mem_preorder _, ?_⟩
      show Node.DefinesBeforeUse g.settled.statements x
      rw [Form.statements_settled]
      exact definesBeforeUse_splice hstatements hlist
    · obtain ⟨d, hd, hkeeps⟩ := exists_left_of_forall₂ h.children.flip hc
      exact definesFirst_settle hd (hkeeps.defined x hx) _ _

theorem cleaned {n : Node} {form : Form Node} (h : TrailingComma.Cleaned n.form form)
    (span : Option Span) (marks : Marks) : Keeps n ⟨form, span, marks⟩ := by
  have hassigned : form.assigned? = n.form.assigned? := by
    rw [Form.assigned?_eq, Form.assigned?_eq, h.kind, h.heads]
  have hincludes {P : Node → Prop} (hself : P n → P ⟨form, span, marks⟩) (hn : n.Includes P) :
      Node.Includes ⟨form, span, marks⟩ P := by
    refine .of_layer h.kind hself (fun a ha hP => ⟨a, ?_, hP⟩) hn
    show a ∈ form.statements
    rw [h.statements]
    exact ha
  constructor
  · exact Node.varName?_congr h.kind h.ownVariables
  · show form.target?.bind Node.varName? = n.form.target?.bind Node.varName?
    rw [Form.target?_eq, Form.target?_eq, h.kind, h.heads]
  · show n.form.kind.isDivisible = false → form.kind.isDivisible = false
    rw [h.kind]
    exact id
  · exact fun x => hincludes hassigned.trans
  · refine fun x => hincludes fun hx => ?_
    cases hx with
    | here hlocal => exact .here (h.uses_eq ▸ hlocal)
    | inside hc hkind hx => exact .inside (h.inline_eq ▸ hc) hkind hx
  · intro x hx
    rcases hx.self_or_child with hlist | ⟨c, hc, hx⟩
    · exact ⟨_, Node.self_mem_preorder _, h.statements ▸ hlist⟩
    · refine hx.of_mem (Node.mem_preorder_child ?_)
      rw [h.children_eq]
      exact hc

/-- What a nullsafe access uses as an object, it uses in its object or in an argument; both are
parts of the lowered access. -/
theorem usesObject_lowered {n object : Node} {plain : Node → Form Node}
    (h : Nullsafe.access? n.form = some (object, plain)) (strict : Bool) (temp : Node) {y : String}
    (hy : n.UsesObject y) : (Nullsafe.lowered strict temp object plain).UsesObject y := by
  have hparts : n.form.uses = [] ∧ (plain temp).kind.isDivisible = false ∧
      ∃ rest, n.form.inline = object :: rest ∧ (plain temp).inline = temp :: rest := by
    have haccess := Nullsafe.Access.of_access? h
    revert haccess
    generalize n.form = form
    rintro (_ | _) <;> exact ⟨rfl, rfl, _, rfl, rfl⟩
  obtain ⟨hlocal, hkind, rest, hinline, hplain⟩ := hparts
  cases hy with
  | here hy => exact absurd (hlocal ▸ hy) List.not_mem_nil
  | @inside _ c _ hc hc' hy =>
    rw [hinline, List.mem_cons] at hc
    rcases hc with rfl | hc
    · have hassign : (Node.synthesized (.assign temp c)).UsesObject y :=
        .inside (List.mem_cons_of_mem _ List.mem_cons_self) hc' hy
      have hguard : (Nullsafe.guard strict temp c).UsesObject y := by
        cases strict with
        | false => exact hassign
        | true => exact .inside List.mem_cons_self rfl hassign
      refine .inside List.mem_cons_self ?_ hguard
      cases strict <;> rfl
    · have hrest : (Node.synthesized (plain temp)).UsesObject y :=
        .inside (hplain ▸ List.mem_cons_of_mem _ hc) hc' hy
      exact .inside (List.mem_cons_of_mem _ List.mem_cons_self) hkind hrest

/-- All that is defined first in a nullsafe access is so in one of its parts. -/
theorem lowered {n object : Node} {plain : Node → Form Node}
    (h : Nullsafe.access? n.form = some (object, plain)) (strict : Bool) (x : String) :
    Keeps n (Nullsafe.lowered strict (Node.var x) object plain) := by
  have hform : n.varName? = none ∧ n.targetName? = none ∧ n.form.assigned? = none ∧
      n.form.isGroup = false ∧ n.form.statements = [] := by
    have haccess := Nullsafe.Access.of_access? h
    unfold Node.varName? Node.targetName?
    revert haccess
    generalize n.form = form
    rintro (_ | _) <;> exact ⟨rfl, rfl, rfl, rfl, rfl⟩
  obtain ⟨hvar, htarget, hassigned, hgroup, hstatements⟩ := hform
  refine ⟨hvar.symm, htarget.symm, fun _ => rfl, fun y hy => ?_, fun y hy => ?_, fun y hy => ?_⟩
  · have hassigns : n.Assigns y := (Node.includes_iff hgroup).1 hy
    rw [Node.Assigns, hassigned] at hassigns
    cases hassigns
  · exact (Node.includes_iff rfl).2
      (usesObject_lowered h strict (Node.var x) ((Node.includes_iff hgroup).1 hy))
  · obtain ⟨c, hc, hy⟩ := hy.child hstatements
    have hmem : c.All (· ∈ (Nullsafe.lowered strict (Node.var x) object plain).preorder) :=
      Hoist.all_of_lowered h (fun _ hk => hk) c hc
    exact hy.of_mem hmem.self

end Keeps

namespace Hoist

/-! ### Hoisting an object -/

theorem Slot.mem_inline {form : Form Node} {c d x : Node} {plug : Node → Form Node}
    (h : Slot form c plug) (hd : d ∈ (plug x).children) : d ∈ (plug x).inline := by
  rwa [Form.inline_eq_children ((h.refilled x).statements.trans h.statements_eq_nil)]

/-- The search goes into expressions, which are not divided. -/
theorem Path.isDivisible_eq {n : Node} {hole : Hole Node} (h : Path n hole) :
    n.kind.isDivisible = false := by
  have hkind {form : Form Node} {c : Node} {plug : Node → Form Node} (hslot : Slot form c plug) :
      form.kind.isDivisible = false := by
    cases hslot <;> rfl
  cases h with
  | here hslot _ => exact hkind hslot.slot
  | inside hslot _ => exact hkind hslot

theorem Path.isDivisible_content {n : Node} {hole : Hole Node} (h : Path n hole) :
    hole.content.kind.isDivisible = false := by
  induction h with
  | @here form span marks o plug _ hinst =>
    show o.form.kind.isDivisible = false
    unfold isInstantiation at hinst
    cases hform : o.form <;> simp_all [Form.kind, Kind.isDivisible]
  | inside _ _ ih => exact ih

theorem Path.isDivisible_fill {n : Node} {hole : Hole Node} (h : Path n hole) (x : Node) :
    (hole.fill x).kind.isDivisible = false := by
  rw [Node.kind, h.kind_fill]
  exact h.isDivisible_eq

/-- What an expression uses as an object is used so in the object taken out or in what is left. -/
theorem Path.usesObject {n : Node} {hole : Hole Node} (h : Path n hole) {y : String}
    (hy : n.UsesObject y) (x : Node) :
    hole.content.UsesObject y ∨ (hole.fill x).UsesObject y := by
  induction h with
  | @here form span marks o plug hslot hinst =>
    cases hy with
    | here hlocal =>
      -- an instantiation is no variable
      have hobject := isInstantiation_varName? hinst
      cases hslot <;> simp [Form.uses, Form.kind, Form.children, hobject] at hlocal
    | @inside _ c _ hc hkind hy =>
      have hc := Form.mem_children_of_mem_inline hc
      rcases (hslot.slot.refilled x).eq_or_mem_refilled hc with rfl | hc
      · exact .inl hy
      · exact .inr (.inside (hslot.slot.mem_inline hc) hkind hy)
  | @inside form span marks c plug inner hslot hpath ih =>
    have hrefilled := hslot.refilled (inner.fill x)
    cases hy with
    | here hlocal =>
      have huses := hrefilled.uses_eq ((hpath.varName?_fill x).trans hpath.varName?_eq_none.symm)
      exact .inr (.here (huses ▸ hlocal))
    | @inside _ d _ hd hkind hy =>
      rcases hrefilled.eq_or_mem_refilled (Form.mem_children_of_mem_inline hd) with rfl | hd
      · exact (ih hy).imp_right
          (.inside (hslot.mem_inline hrefilled.mem_refilled) (hpath.isDivisible_fill x))
      · exact .inr (.inside (hslot.mem_inline hd) hkind hy)

/-- The variable put in is used as an object. -/
theorem Path.usesObject_fill {n : Node} {hole : Hole Node} (h : Path n hole) (x : String) :
    (hole.fill (Node.var x)).UsesObject x := by
  induction h with
  | @here form span marks o plug hslot _ =>
    refine .here ?_
    cases hslot <;> exact List.mem_singleton.2 rfl
  | @inside form span marks c plug inner hslot hpath ih =>
    exact .inside (hslot.mem_inline (hslot.refilled _).mem_refilled)
      (hpath.isDivisible_fill (Node.var x)) ih

/-- What is defined first in an expression is so in the object taken out or in what is left. -/
theorem Path.definesFirst {n : Node} {hole : Hole Node} (h : Path n hole) {y : String}
    (hy : n.DefinesFirst y) (x : Node) :
    hole.content.DefinesFirst y ∨ (hole.fill x).DefinesFirst y := by
  induction h with
  | @here form span marks o plug hslot _ =>
    obtain ⟨c, hc, hy⟩ := hy.child hslot.slot.statements_eq_nil
    rcases (hslot.slot.refilled x).eq_or_mem_refilled hc with rfl | hc
    · exact .inl hy
    · exact .inr (hy.of_mem (Node.mem_preorder_child hc))
  | @inside form span marks c plug inner hslot _ ih =>
    have hrefilled := hslot.refilled (inner.fill x)
    obtain ⟨d, hd, hy⟩ := hy.child hslot.statements_eq_nil
    rcases hrefilled.eq_or_mem_refilled hd with rfl | hd
    · exact (ih hy).imp_right (·.of_mem (Node.mem_preorder_child hrefilled.mem_refilled))
    · exact .inr (hy.of_mem (Node.mem_preorder_child hd))

/-- An assignment keeps its target when an object is taken out of its value. -/
theorem Path.targetName?_fill {n : Node} {hole : Hole Node} (h : Path n hole) (x : Node) :
    (hole.fill x).targetName? = n.targetName? := by
  cases h with
  | here hslot _ => cases hslot <;> rfl
  | @inside form span marks c plug inner hslot hpath =>
    cases hslot with
    -- the search does not go into variables
    | assignTarget => exact (hpath.varName?_fill x).trans hpath.varName?_eq_none.symm
    | _ => rfl

theorem StatementSlot.mem_inline {form : Form Node} {c : Node} {plug : Node → Form Node}
    (h : StatementSlot form c plug) (x : Node) : x ∈ (plug x).inline := by
  cases h <;> exact List.mem_singleton.2 rfl

/-- Hoisting an object defines its temporary first. -/
theorem definesFirst_hoisted {n : Node} {hole : Hole Node} (h : receiverInStatement? n = some hole)
    (x : String) : (hoisted (Node.var x) hole).DefinesFirst x := by
  obtain ⟨value, plug, inner, hslot, hvalue, rfl⟩ := receiverInStatement?_eq_some h
  have hpath := Path.of_receiver? hvalue
  exact ⟨_, Node.self_mem_preorder _, _, _, List.Sublist.refl _, rfl,
    .inside (hslot.mem_inline _) (hpath.isDivisible_fill _) (hpath.usesObject_fill x)⟩

end Hoist

namespace Keeps

/-- A statement that is divided keeps what it assigned in its second part. -/
theorem hoisted {n : Node} {hole : Hoist.Hole Node} (h : Hoist.receiverInStatement? n = some hole)
    (x : String) : Keeps n (Hoist.hoisted (Node.var x) hole) := by
  obtain ⟨value, plug, inner, hslot, hvalue, rfl⟩ := Hoist.receiverInStatement?_eq_some h
  have hpath := Hoist.Path.of_receiver? hvalue
  have hchild := hslot.children_eq.1
  have hform : n.varName? = none ∧ n.targetName? = none ∧ n.kind.isDivisible = true ∧
      n.form.isGroup = false ∧ n.form.statements = [] ∧ n.form.uses = [] ∧
      (plug (inner.fill (Node.var x))).assigned? = n.form.assigned? := by
    have htarget := hpath.targetName?_fill (Node.var x)
    unfold Node.varName? Node.kind
    rw [Node.targetName?]
    revert hslot
    generalize n.form = form
    rintro (_ | _)
    · exact ⟨rfl, rfl, rfl, rfl, rfl, rfl, htarget⟩
    · exact ⟨rfl, rfl, rfl, rfl, rfl, rfl, rfl⟩
  obtain ⟨hvar, htarget, hdivisible, hgroup, hstatements, hlocal, hassigned⟩ := hform
  have hsecond : (⟨plug (inner.fill (Node.var x)), n.span, n.marks.outdated⟩ : Node) ∈
      splice [Hoist.hoisted (Node.var x) (Hoist.Hole.under n.span n.marks (inner.map plug))] :=
    List.mem_cons_of_mem _ List.mem_cons_self
  refine ⟨hvar.symm, htarget.symm, fun hkind => ?_, fun y hy => ?_, fun y hy => ?_, fun y hy => ?_⟩
  · exact absurd (hdivisible.symm.trans hkind) Bool.noConfusion
  · exact ⟨_, hsecond, hassigned.trans ((Node.includes_iff hgroup).1 hy)⟩
  · cases (Node.includes_iff hgroup).1 hy with
    | here hy => exact absurd (hlocal ▸ hy) List.not_mem_nil
    | @inside _ c _ hc _ hy =>
      obtain rfl := List.mem_singleton.1 (hchild ▸ Form.mem_children_of_mem_inline hc)
      rcases hpath.usesObject hy (Node.var x) with hcontent | hfill
      · have hassign :
            (Node.synthesized (.assign (Node.var x) inner.content)).UsesObject y :=
          .inside (List.mem_cons_of_mem _ List.mem_cons_self) hpath.isDivisible_content hcontent
        exact ⟨_, List.mem_cons_self, .inside List.mem_cons_self rfl hassign⟩
      · exact ⟨_, hsecond, .inside (hslot.mem_inline _) (hpath.isDivisible_fill _) hfill⟩
  · obtain ⟨c, hc, hy⟩ := hy.child hstatements
    obtain rfl := List.mem_singleton.1 (hchild ▸ hc)
    rcases hpath.definesFirst hy (Node.var x) with hcontent | hfill
    · refine hcontent.of_mem (Node.mem_preorder_trans (Node.mem_preorder_child List.mem_cons_self)
        (Node.mem_preorder_trans (Node.mem_preorder_child List.mem_cons_self)
          (Node.mem_preorder_child ?_)))
      exact List.mem_cons_of_mem _ List.mem_cons_self
    · refine hfill.of_mem (Node.mem_preorder_trans (Node.mem_preorder_child
        (List.mem_cons_of_mem _ List.mem_cons_self)) (Node.mem_preorder_child ?_))
      exact (hslot.refilled _).mem_refilled

theorem invariant (cfg : Settings) (ctx : Context) : CatalogInvariant cfg ctx Keeps where
  refl := .refl
  trans := .trans
  settle := .settle
  cleaned hclean := .cleaned (.of_cleanForm? hclean) _ _
  lowered haccess x := .lowered haccess _ x
  hoisted := .hoisted

end Keeps

/-! ### Whole runs -/

/-- Draws the names that some calls have drawn once more: the names of the hoisted objects in order,
and the supply that is left. -/
def replay (cfg : Settings) (file : FileId) (reserved : List String) :
    NameSupply → List Call → List String × NameSupply
  | names, [] => ([], names)
  | names, c :: calls =>
    if c.outcome = .replaced ∧ c.rule.name = "InstanceMethodCall" then
      let (x, names) := names.allocate file cfg.hoistStem reserved
      let (xs, names) := replay cfg file reserved names calls
      (x :: xs, names)
    else if c.outcome = .replaced ∧ c.rule.name = "NullsafeToTernary" then
      replay cfg file reserved (names.allocate file cfg.nullsafeStem reserved).2 calls
    else replay cfg file reserved names calls

section Replay

variable (cfg : Settings) (file : FileId) (reserved : List String)

theorem replay_cons (names : NameSupply) (c : Call) (calls : List Call) :
    replay cfg file reserved names (c :: calls) =
      ((replay cfg file reserved names [c]).1 ++
          (replay cfg file reserved (replay cfg file reserved names [c]).2 calls).1,
        (replay cfg file reserved (replay cfg file reserved names [c]).2 calls).2) := by
  simp only [replay]
  by_cases hhoisted : c.outcome = .replaced ∧ c.rule.name = "InstanceMethodCall"
  · simp only [if_pos hhoisted]
    rfl
  · simp only [if_neg hhoisted]
    split <;> rfl

theorem replay_append (names : NameSupply) (calls calls' : List Call) :
    replay cfg file reserved names (calls ++ calls') =
      ((replay cfg file reserved names calls).1 ++
          (replay cfg file reserved (replay cfg file reserved names calls).2 calls').1,
        (replay cfg file reserved (replay cfg file reserved names calls).2 calls').2) := by
  induction calls generalizing names with
  | nil => rfl
  | cons c calls ih =>
    rw [List.cons_append, replay_cons, ih, replay_cons cfg file reserved names c calls]
    simp only [List.append_assoc]

/-- One name is drawn for each hoisted object. -/
theorem length_replay (names : NameSupply) (calls : List Call) :
    (replay cfg file reserved names calls).1.length =
      replacementsBy "InstanceMethodCall" calls := by
  induction calls generalizing names with
  | nil => rfl
  | cons c calls ih =>
    have hone : (replay cfg file reserved names [c]).1.length =
        replacementsBy "InstanceMethodCall" [c] := by
      rw [replacementsBy_singleton]
      by_cases hhoisted : c.outcome = .replaced ∧ c.rule.name = "InstanceMethodCall"
      · rw [if_pos ⟨hhoisted.2.symm, hhoisted.1⟩, replay, if_pos hhoisted]
        rfl
      · rw [if_neg fun h => hhoisted ⟨h.2, h.1.symm⟩, replay, if_neg hhoisted]
        split <;> rfl
    rw [replay_cons, List.length_append, ih, hone, ← replacementsBy_append, List.singleton_append]

/-- The names drawn are not reserved. -/
theorem not_mem_reserved_of_mem_replay {names : NameSupply} {calls : List Call} {x : String}
    (h : x ∈ (replay cfg file reserved names calls).1) : x ∉ reserved := by
  induction calls generalizing names with
  | nil => exact absurd h List.not_mem_nil
  | cons c calls ih =>
    rw [replay] at h
    split at h
    · rcases List.mem_cons.1 h with rfl | h
      · exact NameSupply.allocate_not_mem_reserved _ _ _ _
      · exact ih h
    · split at h
      · exact ih h
      · exact ih h

end Replay

/-- A step that draws names as the replay of its calls does, keeps what was defined first, and
defines the temporaries of hoisted objects first. -/
structure Hoists (cfg : Settings) (file : FileId) (reserved : List String) (n : Node)
    (names : NameSupply) (p : Progress Node) : Prop where
  keeps : Keeps n p.value
  supply : p.names = (replay cfg file reserved names p.calls).2
  defines : ∀ x ∈ (replay cfg file reserved names p.calls).1, p.value.DefinesFirst x

namespace Hoists

variable {cfg : Settings} {file : FileId} {reserved : List String}

theorem compositional : Pass.Compositional (Hoists cfg file reserved) where
  refl n names := ⟨.refl n, rfl, fun _ hx => absurd hx List.not_mem_nil⟩
  trans := by
    intro n names p q hp hq
    obtain ⟨hkeeps, hsupply, hdefines⟩ := hq
    rw [hp.supply] at hsupply hdefines
    refine ⟨hp.keeps.trans hkeeps, ?_, fun x hx => ?_⟩
    · rw [replay_append]
      exact hsupply
    · rw [replay_append] at hx
      rcases List.mem_append.1 hx with hx | hx
      · exact hkeeps.defined x (hp.defines x hx)
      · exact hdefines x hx

/-- Each name that a sweep draws for a hoisted object is defined first in one of the results. -/
theorem sweep {cs : List Node} {names : NameSupply} {p : Progress (List Node)}
    (h : Sweep (Hoists cfg file reserved) cs names p) :
    p.names = (replay cfg file reserved names p.calls).2 ∧
      ∀ x ∈ (replay cfg file reserved names p.calls).1, ∃ d ∈ p.value, d.DefinesFirst x := by
  induction h with
  | nil names => exact ⟨rfl, fun _ hx => absurd hx List.not_mem_nil⟩
  | @cons c cs names p q head _ ih =>
    obtain ⟨hsupply, hdefines⟩ := ih
    rw [head.supply] at hsupply hdefines
    rw [replay_append]
    refine ⟨hsupply, fun x hx => ?_⟩
    rcases List.mem_append.1 hx with hx | hx
    · exact ⟨p.value, List.mem_cons_self, head.defines x hx⟩
    · obtain ⟨d, hd, hx⟩ := hdefines x hx
      exact ⟨d, List.mem_cons_of_mem _ hd, hx⟩

theorem settle {n : Node} {names names' : NameSupply} {g : Form Node} {calls : List Call}
    (hshape : n.form.shape = g.shape)
    (h : Sweep (Hoists cfg file reserved) n.form.children names ⟨g.children, names', calls⟩) :
    Hoists cfg file reserved n names ⟨Node.settle g n.span n.marks, names', calls⟩ := by
  obtain ⟨hsupply, hdefines⟩ := sweep h
  refine ⟨.settle ⟨hshape, h.forall₂ fun _ _ _ hstep => hstep.keeps⟩, hsupply, fun x hx => ?_⟩
  obtain ⟨d, hd, hx⟩ := hdefines x hx
  exact Keeps.definesFirst_settle hd hx _ _

theorem called {rule : Rule} {ctx : Context} (hfile : ctx.file = some file)
    (hrule : rule ∈ cfg.catalog) (kind : Kind) (n : Node) (names : NameSupply) :
    Hoists cfg file ctx.reserved n names (Pass.called rule kind (rule.call ctx n names)) := by
  have hcall := CatalogCall.of_mem hrule ctx n names
  revert hcall
  generalize rule.call ctx n names = e
  intro hcall
  have hkeeps := (Keeps.invariant cfg ctx).called hcall kind
  -- a call that replaces nothing draws no name
  have hquiet {r : Rule} {e : Effect} (hkeeps : Keeps n (Pass.called r kind e).value)
      (hverdict : e.verdict.outcome ≠ .replaced) (hnames : e.names = names) :
      Hoists cfg file ctx.reserved n names (Pass.called r kind e) := by
    have hreplay : replay cfg file ctx.reserved names (Pass.called r kind e).calls =
        ([], names) := by
      simp [Pass.called, replay, hverdict]
    refine ⟨hkeeps, ?_, ?_⟩
    · rw [hreplay]
      exact hnames
    · rw [hreplay]
      exact fun _ hx => absurd hx List.not_mem_nil
  cases hcall with
  | unchanged => exact hquiet hkeeps (by simp [Effect.none, Verdict.outcome]) rfl
  | cleaned _ => exact hquiet hkeeps (by simp [Verdict.outcome]) rfl
  | lowered hfile' haccess =>
    obtain rfl := Option.some.inj (hfile'.symm.trans hfile)
    exact ⟨hkeeps, rfl, fun _ hx => absurd hx List.not_mem_nil⟩
  | @hoisted file' hole hfile' hreceiver =>
    obtain rfl := Option.some.inj (hfile'.symm.trans hfile)
    refine ⟨hkeeps, rfl, fun x hx => ?_⟩
    obtain rfl := List.mem_singleton.1 hx
    exact Hoist.definesFirst_hoisted hreceiver _

theorem visit {rules : List Rule} {ctx : Context} (hfile : ctx.file = some file)
    (hrules : rules ⊆ cfg.catalog) (revisits : Nat) (n : Node) (names : NameSupply) :
    Hoists cfg file ctx.reserved n names (Pass.visit rules ctx revisits n names) :=
  Pass.visit_of_steps compositional (fun _ _ _ _ _ hshape h => settle hshape h)
    (fun _ hrule kind n names => called hfile (hrules hrule) kind n names) revisits n names

end Hoists

end SyntaxLowering
