import SyntaxLowering.Proofs.FreshNames
import SyntaxLowering.Proofs.HoistPath

/-!
# Hygiene of a run

Every rewrite that needs a temporary draws a new name and mentions it twice: once where it is
assigned, once as the object of a plain access. `Node.uses` lists how a tree uses variables, so
that this is one equation about lists up to order, kept by every step of a pass: the uses after a
step are those before it and, for each name drawn, the four of `Use.ofTemporary`.
-/

namespace SyntaxLowering

/-- A way in which a tree uses a variable. -/
inductive Use where
  /-- A variable node. -/
  | mention (x : String)
  /-- An assignment with the variable as its target. -/
  | target (x : String)
  /-- A plain member access with the variable as its object. -/
  | object (x : String)
  /-- A parameter or capture. -/
  | binder (x : String)
deriving DecidableEq

/-- The variable that is used. -/
def Use.name : Use → String
  | mention x | target x | object x | binder x => x

/-- How a temporary is used. -/
def Use.ofTemporary (x : String) : List Use :=
  [.mention x, .target x, .mention x, .object x]

/-- How a layer itself uses variables. -/
def Form.uses (form : Form Node) : List Use :=
  match form.kind with
  | .var => form.ownVariables.map .mention
  | .assign => (form.children.head?.bind Node.varName?).toList.map .target
  | .methodCall | .propertyFetch => (form.children.head?.bind Node.varName?).toList.map .object
  | _ => form.ownVariables.map .binder

/-- How a tree uses variables. -/
def Node.uses (n : Node) : List Use :=
  n.preorder.flatMap (·.form.uses)

theorem Node.uses_eq (n : Node) : n.uses = n.form.uses ++ n.form.children.flatMap Node.uses := by
  cases n with
  | mk form span marks =>
    rw [Node.uses, Node.preorder_mk, List.flatMap_cons, List.flatMap_assoc]
    rfl

theorem Node.uses_synthesized (form : Form Node) :
    (Node.synthesized form).uses = form.uses ++ form.children.flatMap Node.uses :=
  Node.uses_eq _

theorem Node.varName?_congr {n m : Node} (hkind : m.form.kind = n.form.kind)
    (hown : m.form.ownVariables = n.form.ownVariables) : m.varName? = n.varName? := by
  have (k : Node) : k.varName? =
      if k.form.kind = .var then k.form.ownVariables.head? else none := by
    unfold Node.varName? Form.varName?
    cases k.form <;> rfl
  rw [this, this, hkind, hown]

theorem Node.varName?_eq_none_iff (n : Node) : n.varName? = none ↔ n.form.kind ≠ .var := by
  unfold Node.varName? Form.varName?
  cases h : n.form <;> simp [Form.kind]

/-! ### Uses and layers -/

/-- How a layer uses variables depends on its kind, its own names, and whether its first child is a
variable. -/
theorem Form.uses_congr {form form' : Form Node} (hkind : form'.kind = form.kind)
    (hown : form'.ownVariables = form.ownVariables)
    (hhead : form'.children.head?.bind Node.varName? = form.children.head?.bind Node.varName?) :
    form'.uses = form.uses := by
  rw [Form.uses, Form.uses, hkind, hown, hhead]

theorem Form.uses_settled (form : Form Node) : form.settled.uses = form.uses := by
  cases form <;> simp [Form.uses, Form.kind, Form.settled, Form.children, Form.ownVariables,
    Function.comp_def]

theorem flatMap_uses_splice (statements : List Node) :
    (splice statements).flatMap Node.uses = statements.flatMap Node.uses := by
  induction statements with
  | nil => rfl
  | cons n rest ih =>
    rw [splice_cons, List.flatMap_append, List.flatMap_cons, ih]
    by_cases hgroup : n.form.isGroup
    · rw [if_pos hgroup, n.uses_eq, Form.children_of_isGroup hgroup]
      have : n.form.uses = [] := by
        cases h : n.form <;> simp [h, Form.isGroup] at hgroup
        rfl
      rw [this]
      rfl
    · rw [if_neg hgroup]
      simp

/-- Settling a layer does not change how the tree uses variables. -/
theorem Node.uses_settle (form : Form Node) (span : Option Span) (marks : Marks) :
    (Node.settle form span marks).uses = form.uses ++ form.children.flatMap Node.uses := by
  rw [Node.uses_eq]
  change form.settled.uses ++ form.settled.children.flatMap Node.uses = _
  rw [Form.uses_settled, Form.children_settled, Form.children_eq, List.flatMap_append,
    flatMap_uses_splice, ← List.flatMap_append]

theorem Form.Rel.uses_eq {form g : Form Node} {R : Node → Node → Prop} (h : Form.Rel R form g)
    (hR : ∀ c d, R c d → d.varName? = c.varName?) : g.uses = form.uses := by
  refine Form.uses_congr h.kind_eq.symm h.ownVariables_eq.symm ?_
  have hchildren := h.children
  revert hchildren
  generalize form.children = cs
  generalize g.children = ds
  rintro (_ | ⟨hcd, _⟩)
  · rfl
  · exact hR _ _ hcd

theorem TrailingComma.Cleaned.uses_eq {form form' : Form Node}
    (h : TrailingComma.Cleaned form form') : form'.uses = form.uses :=
  Form.uses_congr h.kind h.ownVariables (by rw [h.children_eq])

theorem Hoist.Refilled.uses_eq {c x : Node} {form form' : Form Node}
    (h : Hoist.Refilled c x form form') (hx : x.varName? = c.varName?) :
    form'.uses = form.uses := by
  refine Form.uses_congr h.kind h.ownVariables ?_
  obtain ⟨pre, post, hform, hform'⟩ := h.children
  rw [hform, hform']
  cases pre with
  | nil => exact hx
  | cons _ _ => rfl

/-! ### Temporaries of single rewrites -/

theorem Node.uses_var (x : String) : (Node.var x).uses = [.mention x] := by
  rw [Node.var, Node.uses_synthesized]; rfl

theorem Node.uses_null : Node.null.uses = [] := by
  rw [Node.null, Node.uses_synthesized]; rfl

/-- An assignment to a temporary. -/
theorem Node.uses_assign_var (x : String) (value : Node) :
    (Node.synthesized (.assign (Node.var x) value)).uses =
      .target x :: .mention x :: value.uses := by
  rw [Node.uses_synthesized]
  change Use.target x :: ((Node.var x).uses ++ (value.uses ++ [])) = _
  rw [Node.uses_var, List.append_nil]
  rfl

namespace Nullsafe

/-- A nullsafe access uses what its object and the rest of it use; the plain access has the
temporary in the place of the object. -/
theorem uses_access {n object : Node} {plain : Node → Form Node}
    (h : access? n.form = some (object, plain)) :
    ∃ rest, n.uses = object.uses ++ rest ∧ ∀ x,
      (Node.synthesized (plain (Node.var x))).uses = .object x :: .mention x :: rest := by
  obtain ⟨form, span, marks⟩ := n
  cases form with
  | nullsafeMethodCall object' method args =>
    obtain ⟨rfl, rfl⟩ : _ ∧ _ := by simpa [access?] using h
    refine ⟨(args.map (·.value)).flatMap Node.uses, Node.uses_eq _, fun x => ?_⟩
    rw [Node.uses_synthesized]
    change Use.object x :: ((Node.var x).uses ++ _) = _
    rw [Node.uses_var]
    rfl
  | nullsafePropertyFetch object' property =>
    obtain ⟨rfl, rfl⟩ : _ ∧ _ := by simpa [access?] using h
    refine ⟨[], Node.uses_eq _, fun x => ?_⟩
    rw [Node.uses_synthesized]
    change Use.object x :: ((Node.var x).uses ++ _) = _
    rw [Node.uses_var]
    rfl
  | _ => simp [access?] at h

theorem uses_guard (strict : Bool) (x : String) (object : Node) :
    (guard strict (Node.var x) object).uses = .target x :: .mention x :: object.uses := by
  cases strict with
  | false => exact Node.uses_assign_var x object
  | true =>
    rw [guard, if_pos rfl, Node.uses_synthesized]
    change [] ++ (_ ++ (Node.null.uses ++ [])) = _
    rw [Node.uses_assign_var, Node.uses_null]
    simp

/-- Lowering a nullsafe access adds the uses of its temporary. -/
theorem uses_lowered {n object : Node} {plain : Node → Form Node}
    (h : access? n.form = some (object, plain)) (strict : Bool) (x : String) :
    (lowered strict (Node.var x) object plain).uses.Perm (n.uses ++ Use.ofTemporary x) := by
  obtain ⟨rest, hn, hplain⟩ := uses_access h
  have hlowered : (lowered strict (Node.var x) object plain).uses =
      .target x :: .mention x :: object.uses ++ .object x :: .mention x :: rest := by
    rw [lowered, Node.uses_synthesized]
    change [] ++ (_ ++ (_ ++ (Node.null.uses ++ []))) = _
    rw [uses_guard, hplain, Node.uses_null]
    simp
  rw [hlowered, hn, List.perm_iff_count]
  intro u
  simp only [Use.ofTemporary, List.count_append, List.count_cons, List.count_nil]
  omega

end Nullsafe

namespace Hoist

theorem Path.varName?_eq_none {n : Node} {hole : Hole Node} (h : Path n hole) :
    n.varName? = none := by
  rw [Node.varName?_eq_none_iff]
  cases h with
  | here hslot _ => exact fun hkind => hslot.slot.kind_not_mem (by simp [hkind])
  | inside hslot _ => exact fun hkind => hslot.kind_not_mem (by simp [hkind])

theorem Path.varName?_fill {n : Node} {hole : Hole Node} (h : Path n hole) (x : Node) :
    (hole.fill x).varName? = none := by
  rw [Node.varName?_eq_none_iff, h.kind_fill, ← Node.varName?_eq_none_iff]
  exact h.varName?_eq_none

theorem isInstantiation_varName? {o : Node} (h : isInstantiation o = true) :
    o.varName? = none := by
  rw [Node.varName?_eq_none_iff]
  unfold isInstantiation at h
  cases hform : o.form <;> simp_all [Form.kind]

/-- A member access uses its object as such. -/
theorem AccessSlot.uses_eq {form : Form Node} {o : Node} {plug : Node → Form Node}
    (h : AccessSlot form o plug) : ∃ rest, ∀ y span marks, (⟨plug y, span, marks⟩ : Node).uses =
      y.varName?.toList.map .object ++ (y.uses ++ rest) := by
  cases h with
  | @call o m as => exact ⟨(as.map (·.value)).flatMap Node.uses, fun y span marks => Node.uses_eq _⟩
  | fetch => exact ⟨[], fun y span marks => Node.uses_eq _⟩

theorem AccessSlot.plug_eq {form : Form Node} {o : Node} {plug : Node → Form Node}
    (h : AccessSlot form o plug) : plug o = form := by
  cases h <;> rfl

/-- Taking an object out of an expression leaves the temporary as the object of the access. -/
theorem Path.uses {n : Node} {hole : Hole Node} (h : Path n hole) (x : String) :
    (hole.content.uses ++ (hole.fill (Node.var x)).uses).Perm
      (n.uses ++ [.object x, .mention x]) := by
  induction h with
  | @here form span marks o plug hslot hinst =>
    obtain ⟨rest, huses⟩ := hslot.uses_eq
    have hform := huses o span marks
    -- an instantiation is no variable, so the access used none as its object before
    rw [hslot.plug_eq, isInstantiation_varName? hinst] at hform
    change (o.uses ++ (⟨plug (Node.var x), span, marks.outdated⟩ : Node).uses).Perm _
    rw [huses, hform, Node.uses_var, List.perm_iff_count]
    intro u
    simp only [Node.varName?, Form.varName?, Node.var, Node.synthesized, Option.toList_none,
      Option.toList_some, List.map_cons, List.map_nil, List.count_append, List.count_cons,
      List.count_nil]
    omega
  | @inside form span marks c plug inner hslot hpath ih =>
    have hrefilled := hslot.refilled (inner.fill (Node.var x))
    obtain ⟨pre, post, hform, hplug⟩ := hrefilled.children
    -- neither the child nor what it becomes is a variable that the layer could use itself
    have hlocal :=
      hrefilled.uses_eq ((hpath.varName?_fill (Node.var x)).trans hpath.varName?_eq_none.symm)
    rw [Node.uses_eq ⟨form, span, marks⟩, List.perm_iff_count]
    intro u
    have ih := ih.count_eq u
    change List.count u (inner.content.uses ++
      (⟨plug (inner.fill (Node.var x)), span, marks.outdated⟩ : Node).uses) = _
    rw [Node.uses_eq ⟨plug _, _, _⟩]
    simp only [hform, hplug, hlocal, List.flatMap_append, List.flatMap_cons,
      List.count_append] at ih ⊢
    omega

/-- Hoisting an object adds the uses of its temporary. -/
theorem uses_hoisted {n : Node} {hole : Hole Node} (h : receiverInStatement? n = some hole)
    (x : String) : (hoisted (Node.var x) hole).uses.Perm (n.uses ++ Use.ofTemporary x) := by
  obtain ⟨value, plug, inner, hslot, hreceiver, rfl⟩ := receiverInStatement?_eq_some h
  have hstatement (v : Node) (span : Option Span) (marks : Marks) :
      (⟨plug v, span, marks⟩ : Node).uses = v.uses ∧ n.uses = value.uses := by
    rw [Node.uses_eq, Node.uses_eq n]
    revert hslot
    generalize n.form = form
    rintro (_ | _) <;> exact ⟨List.append_nil _, List.append_nil _⟩
  have hfill : ((Hole.under n.span n.marks (inner.map plug)).fill (Node.var x)).uses =
      (inner.fill (Node.var x)).uses := (hstatement _ _ _).1
  have hhoisted : (hoisted (Node.var x) (Hole.under n.span n.marks (inner.map plug))).uses =
      .target x :: .mention x :: inner.content.uses ++ (inner.fill (Node.var x)).uses := by
    rw [hoisted, Node.uses_synthesized]
    change (Node.synthesized (.expression _)).uses ++ (_ ++ []) = _
    rw [Node.uses_synthesized, hfill]
    change (Node.uses _ ++ []) ++ _ = _
    rw [Node.uses_assign_var]
    simp [Hole.under, Hole.map]
  rw [hhoisted, (hstatement value none {}).2, List.perm_iff_count]
  intro u
  have hpath := ((Path.of_receiver? hreceiver).uses x).count_eq u
  simp only [Use.ofTemporary, List.count_append, List.count_cons, List.count_nil] at hpath ⊢
  omega

theorem receiverInStatement?_varName? {n : Node} {hole : Hole Node}
    (h : receiverInStatement? n = some hole) : n.varName? = none := by
  obtain ⟨_, _, _, hslot, _⟩ := receiverInStatement?_eq_some h
  rw [Node.varName?_eq_none_iff]
  revert hslot
  generalize n.form = form
  rintro (_ | _) <;> simp [Form.kind]

end Hoist

/-! ### Temporaries of whole runs -/

/-- How many replacements some calls count for a rule name. -/
def replacementsBy (rule : String) (calls : List Call) : Nat :=
  (Tally.count { rule } calls).replacements

theorem replacementsBy_append (rule : String) (calls calls' : List Call) :
    replacementsBy rule (calls ++ calls') =
      replacementsBy rule calls + replacementsBy rule calls' := by
  simp [replacementsBy, Tally.count]

/-- Calls that draw names and add their temporaries to the uses of variables, one temporary for
each replacement that needs one. -/
structure Introduces (cfg : Settings) (file : FileId) (reserved : List String) (drawn : List String)
    (before : List Use) (names : NameSupply) (after : List Use) (names' : NameSupply)
    (calls : List Call) : Prop where
  draws : Draws [cfg.nullsafeStem, cfg.hoistStem] file reserved names drawn names'
  uses : after.Perm (before ++ drawn.flatMap Use.ofTemporary)
  count : replacementsBy "NullsafeToTernary" calls + replacementsBy "InstanceMethodCall" calls =
    drawn.length

namespace Introduces

variable {cfg : Settings} {file : FileId} {reserved drawn drawn' : List String}
  {before between after : List Use} {names names' names'' : NameSupply} {calls calls' : List Call}

theorem none (uses : List Use) (names : NameSupply) :
    Introduces cfg file reserved [] uses names uses names [] :=
  ⟨.nil names, by simp, rfl⟩

theorem trans (h : Introduces cfg file reserved drawn before names between names' calls)
    (h' : Introduces cfg file reserved drawn' between names' after names'' calls') :
    Introduces cfg file reserved (drawn ++ drawn') before names after names''
      (calls ++ calls') := by
  refine ⟨h.draws.append h'.draws, ?_, ?_⟩
  · rw [List.flatMap_append, ← List.append_assoc]
    exact h'.uses.trans (h.uses.append_right _)
  · rw [replacementsBy_append, replacementsBy_append, List.length_append, ← h.count, ← h'.count]
    omega

/-- What other parts of the tree use does not matter. -/
theorem frame (h : Introduces cfg file reserved drawn before names after names' calls)
    (pre post : List Use) :
    Introduces cfg file reserved drawn (pre ++ before ++ post) names (pre ++ after ++ post) names'
      calls := by
  refine ⟨h.draws, ?_, h.count⟩
  rw [List.perm_iff_count]
  intro u
  have := h.uses.count_eq u
  simp only [List.count_append] at this ⊢
  omega

end Introduces

/-- A step that introduces temporaries and makes no variable of another node, nor the reverse. -/
def Hygienic (cfg : Settings) (file : FileId) (reserved : List String) (n : Node)
    (names : NameSupply) (p : Progress Node) : Prop :=
  p.value.varName? = n.varName? ∧
    ∃ drawn, Introduces cfg file reserved drawn n.uses names p.value.uses p.names p.calls

namespace Hygienic

variable {cfg : Settings} {file : FileId} {reserved : List String}

theorem compositional : Pass.Compositional (Hygienic cfg file reserved) where
  refl n names := ⟨rfl, [], .none n.uses names⟩
  trans := by
    rintro n names p q ⟨hvar, drawn, h⟩ ⟨hvar', drawn', h'⟩
    exact ⟨hvar'.trans hvar, drawn ++ drawn', h.trans h'⟩

theorem sweep {cs : List Node} {names : NameSupply} {p : Progress (List Node)}
    (h : Sweep (Hygienic cfg file reserved) cs names p) :
    ∃ drawn, Introduces cfg file reserved drawn (cs.flatMap Node.uses) names
      (p.value.flatMap Node.uses) p.names p.calls := by
  induction h with
  | nil names => exact ⟨[], .none _ names⟩
  | @cons c cs names p q head _ ih =>
    obtain ⟨-, drawn, hhead⟩ := head
    obtain ⟨drawn', htail⟩ := ih
    refine ⟨drawn ++ drawn', ?_⟩
    -- the head changes beside the old tail, then the tail beside the new head
    have hfirst := hhead.frame [] (cs.flatMap Node.uses)
    have hrest := htail.frame p.value.uses []
    rw [List.append_nil, List.append_nil] at hrest
    exact hfirst.trans hrest

theorem settle {n : Node} {names names' : NameSupply} {g : Form Node} {calls : List Call}
    (hshape : n.form.shape = g.shape)
    (h : Sweep (Hygienic cfg file reserved) n.form.children names ⟨g.children, names', calls⟩) :
    Hygienic cfg file reserved n names ⟨Node.settle g n.span n.marks, names', calls⟩ := by
  have hrel : Form.Rel (fun c d => d.varName? = c.varName?) n.form g :=
    ⟨hshape, h.forall₂ fun _ _ _ hstep => hstep.1⟩
  obtain ⟨drawn, hdrawn⟩ := sweep h
  constructor
  · refine Node.varName?_congr ?_ ?_
    · exact (Form.kind_settled g).trans hrel.kind_eq.symm
    · exact (Form.ownVariables_settled g).trans hrel.ownVariables_eq.symm
  · refine ⟨drawn, ?_⟩
    have hframe := hdrawn.frame n.form.uses []
    rw [List.append_nil, List.append_nil, ← n.uses_eq] at hframe
    change Introduces cfg file reserved drawn n.uses names
      (Node.settle g n.span n.marks).uses names' calls
    rw [Node.uses_settle, hrel.uses_eq fun _ _ hvar => hvar]
    exact hframe

/-- A call in the file, or in none. -/
theorem called_within {rule : Rule} {ctx : Context} (hfile : ∀ f, ctx.file = some f → f = file)
    (hrule : rule ∈ cfg.catalog) (kind : Kind) (n : Node) (names : NameSupply) :
    Hygienic cfg file ctx.reserved n names (Pass.called rule kind (rule.call ctx n names)) := by
  have hcall := CatalogCall.of_mem hrule ctx n names
  revert hcall
  generalize rule.call ctx n names = e
  intro hcall
  cases hcall with
  | unchanged =>
    exact ⟨rfl, [], .nil names, by simp [Pass.called, Effect.none], by
      simp [Pass.called, Effect.none, replacementsBy, Tally.count, Verdict.outcome]⟩
  | @cleaned form hclean =>
    have hcleaned := TrailingComma.Cleaned.of_cleanForm? hclean
    refine ⟨Node.varName?_congr hcleaned.kind hcleaned.ownVariables, [], .nil names, ?_, ?_⟩
    · change (⟨form, n.span, n.marks.outdated⟩ : Node).uses.Perm _
      rw [Node.uses_eq, Node.uses_eq n, hcleaned.uses_eq, hcleaned.children_eq]
      simp
    · simp [Pass.called, replacementsBy, Tally.count, Verdict.outcome]
  | @lowered file' object plain hfile' haccess =>
    obtain rfl : file' = file := hfile file' hfile'
    refine ⟨?_, [_], .single (by simp) names, ?_, ?_⟩
    · refine Eq.symm ((Node.varName?_eq_none_iff n).2 ?_)
      intro hkind
      revert haccess hkind
      cases n.form <;> simp [Nullsafe.access?, Form.kind]
    · simpa [Pass.called, Effect.replace] using Nullsafe.uses_lowered haccess _ _
    · rfl
  | @hoisted file' hole hfile' hreceiver =>
    obtain rfl : file' = file := hfile file' hfile'
    refine ⟨(Hoist.receiverInStatement?_varName? hreceiver).symm, [_], .single (by simp) names,
      ?_, rfl⟩
    simpa [Pass.called, Effect.replace] using Hoist.uses_hoisted hreceiver _

theorem called {rule : Rule} {ctx : Context} (hfile : ctx.file = some file)
    (hrule : rule ∈ cfg.catalog) (kind : Kind) (n : Node) (names : NameSupply) :
    Hygienic cfg file ctx.reserved n names (Pass.called rule kind (rule.call ctx n names)) :=
  called_within (fun _ hf => Option.some.inj (hf.symm.trans hfile)) hrule kind n names

/-- A visit in the file, or in none. -/
theorem visit_within {rules : List Rule} {ctx : Context} (hfile : ∀ f, ctx.file = some f → f = file)
    (hrules : rules ⊆ cfg.catalog) (revisits : Nat) (n : Node) (names : NameSupply) :
    Hygienic cfg file ctx.reserved n names (Pass.visit rules ctx revisits n names) :=
  Pass.visit_of_steps compositional (fun _ _ _ _ _ hshape h => settle hshape h)
    (fun _ hrule kind n names => called_within hfile (hrules hrule) kind n names) revisits n names

theorem visit {rules : List Rule} {ctx : Context} (hfile : ctx.file = some file)
    (hrules : rules ⊆ cfg.catalog) (revisits : Nat) (n : Node) (names : NameSupply) :
    Hygienic cfg file ctx.reserved n names (Pass.visit rules ctx revisits n names) :=
  visit_within (fun _ hf => Option.some.inj (hf.symm.trans hfile)) hrules revisits n names

end Hygienic

/-! ### Reading the uses back -/

/-- A variable of a tree that is assigned once, is the object of one plain access, and occurs
nowhere else. -/
structure IsTemporary (tree : Node) (x : String) : Prop where
  mentions : tree.preorder.countP (·.varName? == some x) = 2
  targets : tree.preorder.countP (·.form.target?.bind Node.varName? == some x) = 1
  objects : tree.preorder.countP (·.form.object?.bind Node.varName? == some x) = 1
  params : ∀ n ∈ tree.preorder, ∀ p ∈ n.form.params, p.name ≠ x
  captures : ∀ n ∈ tree.preorder, ∀ c ∈ n.form.captures, c.name ≠ x

theorem count_flatMap_eq_countP {α β : Type} [DecidableEq β] {f : α → List β} {b : β}
    {p : α → Bool} (h : ∀ a, (f a).count b = if p a then 1 else 0) (l : List α) :
    (l.flatMap f).count b = l.countP p := by
  induction l with
  | nil => rfl
  | cons a l ih => rw [List.flatMap_cons, List.count_append, ih, h, List.countP_cons, Nat.add_comm]

theorem Form.uses_eq (form : Form Node) : form.uses =
    match form with
    | .var x => [.mention x]
    | .assign target _ => target.varName?.toList.map .target
    | .methodCall object _ _ | .propertyFetch object _ => object.varName?.toList.map .object
    | .closure ps cs _ _ => (ps.map (·.name) ++ cs.map (·.name)).map .binder
    | .functionDecl _ ps _ | .methodDecl _ _ ps _ => (ps.map (·.name)).map .binder
    | _ => [] := by
  cases form <;> rfl

namespace Node

variable (tree : Node) (x : String)

theorem count_mention :
    tree.uses.count (.mention x) = tree.preorder.countP (·.varName? == some x) := by
  refine count_flatMap_eq_countP (fun n => ?_) _
  rw [Form.uses_eq, Node.varName?, Form.varName?.eq_def]
  cases n.form <;> simp [List.count_cons, List.count_eq_zero]

theorem count_target : tree.uses.count (.target x) =
    tree.preorder.countP (·.form.target?.bind Node.varName? == some x) := by
  refine count_flatMap_eq_countP (fun n => ?_) _
  rw [Form.uses_eq, Form.target?.eq_def]
  cases n.form with
  | assign target value => cases h : target.varName? <;> simp [h, List.count_cons]
  | _ => simp [List.count_eq_zero]

theorem count_object : tree.uses.count (.object x) =
    tree.preorder.countP (·.form.object?.bind Node.varName? == some x) := by
  refine count_flatMap_eq_countP (fun n => ?_) _
  rw [Form.uses_eq, Form.object?.eq_def]
  cases n.form with
  | methodCall object _ _ | propertyFetch object _ =>
    cases h : object.varName? <;> simp [h, List.count_cons]
  | _ => simp [List.count_eq_zero]

theorem binder_mem_uses {tree n : Node} {x : String} (hn : n ∈ tree.preorder)
    (hx : (∃ p ∈ n.form.params, p.name = x) ∨ ∃ c ∈ n.form.captures, c.name = x) :
    .binder x ∈ tree.uses := by
  refine List.mem_flatMap.2 ⟨n, hn, ?_⟩
  rw [Form.uses_eq]
  revert hx
  cases n.form <;> simp [Form.params, Form.captures]

theorem mem_variableNames :
    x ∈ tree.variableNames ↔ .mention x ∈ tree.uses ∨ .binder x ∈ tree.uses := by
  induction tree using Node.inductionOn with
  | step form span marks ih =>
    have hlocal : x ∈ form.ownVariables ↔ .mention x ∈ form.uses ∨ .binder x ∈ form.uses := by
      rw [Form.uses_eq]
      cases form <;> simp [Form.ownVariables]
    rw [Node.variableNames_mk, Node.uses_eq]
    simp only [List.mem_append, List.mem_flatMap, hlocal]
    grind

/-- Whatever a tree uses it mentions or binds: a target or an object is a variable node itself. -/
theorem name_mem_variableNames {tree : Node} {u : Use} (hu : u ∈ tree.uses) :
    u.name ∈ tree.variableNames := by
  rw [mem_variableNames]
  obtain ⟨n, hn, hlocal⟩ := List.mem_flatMap.1 hu
  have hchild {c : Node} {x : String} (hc : c ∈ n.form.children) (hvar : c.varName? = some x) :
      .mention x ∈ tree.uses := by
    refine List.mem_flatMap.2 ⟨c, mem_preorder_trans hn (mem_preorder_child hc), ?_⟩
    rw [Node.varName?, Form.varName?.eq_def] at hvar
    rw [Form.uses_eq]
    cases hform : c.form <;> simp_all
  cases u with
  | mention x => exact .inl hu
  | binder x => exact .inr hu
  | target x =>
    rw [Form.uses_eq] at hlocal
    refine .inl ?_
    cases hform : n.form <;> simp only [hform] at hlocal <;> simp at hlocal
    exact hchild (by simp [hform, Form.children]) hlocal
  | object x =>
    rw [Form.uses_eq] at hlocal
    refine .inl ?_
    cases hform : n.form <;> simp only [hform] at hlocal <;> simp at hlocal
    all_goals exact hchild (by simp [hform, Form.children]) hlocal

end Node

theorem count_ofTemporary (drawn : List String) (x : String) :
    (drawn.flatMap Use.ofTemporary).count (.mention x) = 2 * drawn.count x ∧
    (drawn.flatMap Use.ofTemporary).count (.target x) = drawn.count x ∧
    (drawn.flatMap Use.ofTemporary).count (.object x) = drawn.count x ∧
    (drawn.flatMap Use.ofTemporary).count (.binder x) = 0 := by
  induction drawn with
  | nil => simp
  | cons y drawn ih =>
    obtain ⟨hmention, htarget, hobject, hbinder⟩ := ih
    simp only [List.flatMap_cons, List.count_append, hmention, htarget, hobject, hbinder,
      Use.ofTemporary, List.count_cons, List.count_nil, beq_iff_eq, Use.mention.injEq,
      Use.target.injEq, Use.object.injEq, reduceCtorEq, if_false]
    refine ⟨?_, ?_, ?_, trivial⟩ <;> split <;> omega

/-- Afterwards a tree has the variables it had and the names drawn. -/
theorem Introduces.mem_variableNames {cfg : Settings} {file : FileId}
    {reserved drawn : List String} {n n' : Node} {names names' : NameSupply} {calls : List Call}
    (h : Introduces cfg file reserved drawn n.uses names n'.uses names' calls) {x : String} :
    x ∈ n'.variableNames ↔ x ∈ n.variableNames ∨ x ∈ drawn := by
  obtain ⟨hmention, -, -, hbinder⟩ := count_ofTemporary drawn x
  rw [Node.mem_variableNames, Node.mem_variableNames]
  simp only [← List.count_pos_iff, h.uses.count_eq, List.count_append, hmention, hbinder]
  omega

/-! ### Names that can be written -/

theorem isVariableName_numbered {stem : String} (h : isVariableName stem = true) (n : Nat) :
    isVariableName (numbered stem n) = true := by
  have hdigits : n.repr.toList.all (fun d => d.isAlphanum || d == '_') = true := by
    rw [List.all_eq_true]
    intro d hd
    rw [Nat.toList_repr] at hd
    have := Nat.isDigit_of_mem_toDigits (by decide) (by decide) hd
    simp [Char.isAlphanum, this]
  unfold isVariableName at h ⊢
  rw [numbered, String.toList_append]
  cases hstem : stem.toList with
  | nil => simp [hstem] at h
  | cons c cs =>
    rw [hstem] at h
    simp_all

theorem Settings.isVariableName_of_validate {cfg : Settings} (h : cfg.validate = .ok ()) :
    ∀ stem ∈ [cfg.nullsafeStem, cfg.hoistStem], isVariableName stem = true := by
  have hnullsafe : isVariableName cfg.nullsafeStem = true := by
    by_contra hne
    simp [Settings.validate, hne, throw, throwThe, MonadExceptOf.throw, bind, Except.bind] at h
  have hhoist : isVariableName cfg.hoistStem = true := by
    by_contra hne
    simp [Settings.validate, hnullsafe, hne, throw, throwThe, MonadExceptOf.throw, bind,
      Except.bind] at h
  simp [hnullsafe, hhoist]

/-! ### The theorem -/

/-- A run adds new variables to a tree and changes none of the old ones. There is one for each
replacement by the two rules that need one, whatever the stems and whatever the supply of names
held before; each is assigned once and accessed once, and has a valid name if the stems are. -/
theorem run_introduces_only_temporaries (cfg : Settings) (s : Session)
    (hrules : s.rules ⊆ cfg.catalog) (file : FileId) (tree : Node) (tokens : List Token) :
    let run := s.run file tree tokens
    ∃ introduced : List String,
      introduced.Nodup ∧
      introduced.length =
        replacementsBy "NullsafeToTernary" run.calls +
          replacementsBy "InstanceMethodCall" run.calls ∧
      (∀ x, x ∈ run.tree.variableNames ↔ x ∈ tree.variableNames ∨ x ∈ introduced) ∧
      ∀ x ∈ introduced, x ∉ tree.variableNames ∧ IsTemporary run.tree x ∧
        (cfg.validate = .ok () → isVariableName x = true) := by
  intro run
  let ctx : Context := ⟨some file, some tokens, tree.variableNames⟩
  obtain ⟨-, drawn, hdrawn⟩ : Hygienic cfg file tree.variableNames tree s.names
      (Pass.visit s.rules ctx s.maxRevisits tree s.names) := Hygienic.visit rfl hrules _ _ _
  have hfresh := hdrawn.draws.not_mem_reserved
  have hnodup := hdrawn.draws.nodup
  have hcount (u : Use) :
      run.tree.uses.count u = tree.uses.count u + (drawn.flatMap Use.ofTemporary).count u := by
    rw [← List.count_append]
    exact hdrawn.uses.count_eq u
  refine ⟨drawn, hnodup, hdrawn.count.symm, fun x => hdrawn.mem_variableNames,
    fun x hx => ⟨hfresh x hx, ?_, ?_⟩⟩
  · obtain ⟨hmention, htarget, hobject, hbinder⟩ := count_ofTemporary drawn x
    have hone : drawn.count x = 1 := List.count_eq_one_of_mem hnodup hx
    -- the name is new, so all its uses are those of a temporary
    have hold (u : Use) (hu : u.name = x) : tree.uses.count u = 0 :=
      List.count_eq_zero.2 fun hmem => hfresh x hx (hu ▸ Node.name_mem_variableNames hmem)
    have hnone : .binder x ∉ run.tree.uses := by
      rw [← List.count_eq_zero, hcount, hold _ rfl, hbinder]
    refine ⟨?_, ?_, ?_, ?_, ?_⟩
    · rw [← Node.count_mention, hcount, hold _ rfl, hmention, hone]
    · rw [← Node.count_target, hcount, hold _ rfl, htarget, hone]
    · rw [← Node.count_object, hcount, hold _ rfl, hobject, hone]
    · exact fun n hn p hp hname => hnone (Node.binder_mem_uses hn (.inl ⟨p, hp, hname⟩))
    · exact fun n hn c hc hname => hnone (Node.binder_mem_uses hn (.inr ⟨c, hc, hname⟩))
  · intro hvalid
    obtain ⟨stem, hstem, n, rfl⟩ := hdrawn.draws.exists_stem x hx
    exact isVariableName_numbered (Settings.isVariableName_of_validate hvalid stem hstem) n

/-- With the stems `t` and `t1`, two temporaries of `(new A)->m($t1?->p);` are kept apart from each
other and from `$t1`. -/
theorem run_introduces_only_temporaries_of_overlapping_stems :
    let cfg : Settings := { nullsafeStem := "t", hoistStem := "t1" }
    let tree := Node.synthesized (.expression (Node.synthesized (.methodCall
      (Node.synthesized (.new (Node.synthesized (.name "A")) [])) "m"
      [{ value := Node.synthesized (.nullsafePropertyFetch (Node.var "t1") "p") }])))
    let run := ({ rules := cfg.catalog } : Session).run "a.php" tree []
    cfg.catalog ⊆ cfg.catalog ∧ cfg.validate = .ok () ∧ ∃ introduced : List String,
      introduced.Nodup ∧ introduced.length = 2 ∧
      (∀ x, x ∈ run.tree.variableNames ↔ x ∈ tree.variableNames ∨ x ∈ introduced) ∧
      ∀ x ∈ introduced, x ≠ "t1" ∧ IsTemporary run.tree x ∧ isVariableName x = true := by
  intro cfg tree run
  have hvalid : cfg.validate = .ok () := by decide
  have hsub : cfg.catalog ⊆ cfg.catalog := List.Subset.refl _
  obtain ⟨introduced, hnodup, hlength, hnames, htemporary⟩ :=
    run_introduces_only_temporaries cfg { rules := cfg.catalog } hsub "a.php" tree []
  refine ⟨hsub, hvalid, introduced, hnodup, hlength.trans (by decide +kernel), hnames,
    fun x hx => ?_⟩
  obtain ⟨hnew, htemp, hname⟩ := htemporary x hx
  refine ⟨?_, htemp, hname hvalid⟩
  rintro rfl
  exact hnew (by decide)

end SyntaxLowering
