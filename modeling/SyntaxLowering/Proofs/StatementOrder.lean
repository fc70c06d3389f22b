import SyntaxLowering.Proofs.HoistCompleteness
import SyntaxLowering.Proofs.Restoring

/-!
# The order of statements

Reading a lowered tree back gives the tree that was lowered, without the brackets of its groups
(`Session.transform_keeps_order`). So the statements of each list stand in the order in which they
were given, and whatever was taken out of a statement stands directly in front of it.

Each step of a pass keeps the reading (`Restores`). A step may draw new names, so this is said for
readings in which nothing stands in for a name that was not used before.
-/

namespace SyntaxLowering

variable {known : String → Bool}

/-! ### Single rewrites -/

theorem Node.restored_of_line {form : Form Node} (hgroup : form.isGroup = false)
    (htemporary : form.temporary? known = none) (span : Option Span) (marks : Marks)
    (σ : Standins) :
    restored known ⟨form, span, marks⟩ σ = ([form.line known span σ], Node.var) := by
  rw [restored_mk, hgroup, htemporary]
  rfl

theorem Node.node_restored {form : Form Node} (hgroup : form.isGroup = false)
    (htemporary : form.temporary? known = none) (span : Option Span) (marks : Marks)
    (σ : Standins) :
    Reading.node (restored known ⟨form, span, marks⟩) σ = form.line known span σ := by
  rw [Reading.node, restored_of_line hgroup htemporary]
  rfl

/-- A layer without a statement list is read through its children. -/
theorem Form.line_of_kind {form : Form Node} (h : form.kind.hasStatements = false)
    (span : Option Span) (σ : Standins) :
    form.line known span σ =
      ((form.map fun c => Reading.node (c.restored known) σ).erase .marks).finished known σ
        span := by
  rw [line, relisted_of_kind (by rwa [kind_map])]

/-- Cleaning changes marks only. -/
theorem TrailingComma.erase_shape {ctx : Context} {form form' : Form Node}
    (h : cleanForm? ctx form = some form') :
    form'.shape.erase .marks = form.shape.erase .marks := by
  have hshape (f : Form Node) :
      ((f.map (·.erase .marks)).erase .marks).shape = f.shape.erase .marks := by
    rw [Form.shape_erase, Form.shape, Form.map_map]
    rfl
  have hclean := erase_cleanForm? ctx form
  rw [h, Option.getD_some] at hclean
  rw [← hshape, ← hshape, hclean]

/-- A cleaned node is read as before. -/
theorem TrailingComma.restored_cleaned {ctx : Context} {n : Node} {form : Form Node}
    (h : cleanForm? ctx n.form = some form) (marks : Marks) :
    Node.restored known ⟨form, n.span, marks⟩ = n.restored known := by
  obtain ⟨f, span, marks'⟩ := n
  have hcleaned := Cleaned.of_cleanForm? h
  have hkind := cleanForm?_kind h
  have hplain (g : Form Node) (hg : g.kind ∈ rule.kinds) :
      g.isGroup = false ∧ g.temporary? known = none ∧ g.varName? = none := by
    revert hg
    cases g <;>
      simp [rule, Form.kind, Form.isGroup, Form.temporary?, Form.assigned?, Form.varName?]
  obtain ⟨hgroup, htemporary, hvar⟩ := hplain f hkind
  obtain ⟨hgroup', htemporary', -⟩ := hplain form (hcleaned.kind ▸ hkind)
  funext σ
  rw [Node.restored_of_line hgroup htemporary, Node.restored_of_line hgroup' htemporary']
  congr 2
  refine Form.line_congr (erase_shape h) (by simp [hvar]) ?_ ?_ span
  · rw [hcleaned.inline_eq]
  · rw [hcleaned.statements]

namespace Nullsafe

variable {n object : Node} {plain : Node → Form Node} {σ : Standins} {x : String}

/-- A lowered access is read as the access. -/
theorem restored_lowered (haccess : access? n.form = some (object, plain))
    (hx : known x = false) (hσ : σ x = Node.var x) (strict : Bool) :
    (lowered strict (Node.var x) object plain).restored known σ = n.restored known σ := by
  obtain ⟨form, span, marks⟩ := n
  have hbuilt {form : Form Node} (hgroup : form.isGroup = false)
      (htemporary : form.temporary? known = none) (hkind : form.kind.hasStatements = false) :
      Reading.node ((Node.synthesized form).restored known) σ =
        ((form.map fun c => Reading.node (c.restored known) σ).erase .marks).finished known σ
          none :=
    (Node.node_restored hgroup htemporary none {} σ).trans (Form.line_of_kind hkind none σ)
  have hvar : Reading.node ((Node.var x).restored known) σ = Node.var x := by
    refine (hbuilt rfl rfl rfl).trans ?_
    show (if known x then _ else σ x) = _
    rw [hx, hσ]
    rfl
  have hnull : Reading.node (Node.null.restored known) σ = Node.null := hbuilt rfl rfl rfl
  have hassign : Reading.node ((Node.synthesized (.assign (Node.var x) object)).restored known) σ =
      Node.synthesized (.assign (Node.var x) (Reading.node (object.restored known) σ)) := by
    refine (hbuilt rfl rfl rfl).trans ?_
    show Node.synthesized (.assign (Reading.node ((Node.var x).restored known) σ) _) = _
    rw [hvar]
  have hguard : guarded? known
      (Reading.node ((guard strict (Node.var x) object).restored known) σ) =
        some (x, Reading.node (object.restored known) σ) := by
    have hassignment : assignment? known (Node.synthesized (.assign (Node.var x)
        (Reading.node (object.restored known) σ))) =
          some (x, Reading.node (object.restored known) σ) := by
      simp [assignment?, Node.synthesized, Node.var, Node.varName?, Form.varName?, hx]
    cases strict with
    | false => exact (congrArg (guarded? known) hassign).trans hassignment
    | true =>
      rw [guard, if_pos rfl, hbuilt rfl rfl rfl]
      show guarded? known (Node.synthesized (.notIdentical
        (Reading.node ((Node.synthesized (.assign (Node.var x) object)).restored known) σ)
        (Reading.node (Node.null.restored known) σ))) = _
      rw [hassign, hnull]
      exact hassignment
  -- the plain access is read with the temporary as its object, and raised with the condition
  have hlowered : (lowered strict (Node.var x) object plain).restored known σ =
      ([Form.finished known σ none (.ternary
        (Reading.node ((guard strict (Node.var x) object).restored known) σ)
        (Reading.node ((Node.synthesized (plain (Node.var x))).restored known) σ) Node.null)],
        Node.var) := by
    rw [lowered, Node.synthesized, Node.restored_of_line rfl rfl, Form.line_of_kind rfl, ← hnull]
    rfl
  have hraised {accessed access : Form Node}
      (h : accessTo? x (Reading.node (object.restored known) σ) accessed = some access) :
      Form.finished known σ none (.ternary
        (Reading.node ((guard strict (Node.var x) object).restored known) σ)
        (Node.synthesized accessed) Node.null) = Node.synthesized access := by
    have hraise : raised? known (.ternary
        (Reading.node ((guard strict (Node.var x) object).restored known) σ)
        (Node.synthesized accessed) Node.null) = some access := by
      show (guarded? known _).bind _ = _
      rw [hguard]
      exact h
    rw [Form.finished, hraise]
    rfl
  have hreceiver : (Node.var x).varName? = some x := rfl
  rw [hlowered]
  cases Access.of_access? haccess with
  | @call o m as =>
    rw [Node.restored_of_line rfl rfl, hbuilt rfl rfl rfl, Form.line_of_kind rfl]
    show ([Form.finished known σ none (.ternary _ (Node.synthesized (.methodCall
      (Reading.node ((Node.var x).restored known) σ) m _)) Node.null)], Node.var) = _
    rw [hvar, hraised (by rw [accessTo?, if_pos hreceiver])]
    rfl
  | @fetch o p =>
    rw [Node.restored_of_line rfl rfl, hbuilt rfl rfl rfl, Form.line_of_kind rfl]
    show ([Form.finished known σ none (.ternary _ (Node.synthesized (.propertyFetch
      (Reading.node ((Node.var x).restored known) σ) p)) Node.null)], Node.var) = _
    rw [hvar, hraised (by rw [accessTo?, if_pos hreceiver])]
    rfl

end Nullsafe

namespace Hoist

variable {form : Form Node} {c n : Node} {plug : Node → Form Node} {hole : Hole Node}
variable {σ τ : Standins} {x : String}

theorem Slot.erase_shape (h : Slot form c plug) (y : Node) :
    (plug y).shape.erase .marks = form.shape.erase .marks := by
  cases h <;> simp [Form.shape, Form.map, Form.erase, Form.rebuild, Arg.refill, Arg.map,
    Arg.erase, Erasure.forgetsValidity_marks _]

/-- The layers on a path are read as single nodes. -/
theorem Slot.isLine (h : Slot form c plug) (known : String → Bool) :
    (form.isGroup = false ∧ form.temporary? known = none) ∧
      ∀ y, (plug y).isGroup = false ∧ (plug y).temporary? known = none := by
  cases h <;> exact ⟨⟨rfl, rfl⟩, fun _ => ⟨rfl, rfl⟩⟩

/-- A layer is read as before if what is put into one of its places is read as what was there. -/
theorem Slot.line_eq (h : Slot form c plug) {y : Node}
    (hy : Reading.node (y.restored known) τ = Reading.node (c.restored known) σ)
    (hrest : ∀ d ∈ form.children,
      Reading.node (d.restored known) τ = Reading.node (d.restored known) σ) (span : Option Span) :
    (plug y).line known span τ = form.line known span σ := by
  obtain ⟨pre, post, hform, hplug⟩ := (h.refilled y).children
  have hstatements := h.statements_eq_nil
  have hstatements' : (plug y).statements = [] := (h.refilled y).statements.trans hstatements
  refine Form.line_congr (h.erase_shape y) (fun z hz => ?_) ?_ ?_ span
  · revert hz
    cases h <;> simp [Form.varName?]
  · rw [Form.inline_eq_children hstatements, Form.inline_eq_children hstatements', hform, hplug]
    rw [hform, List.forall_mem_append, List.forall_mem_cons] at hrest
    simp only [List.map_append, List.map_cons, hy]
    rw [List.map_congr_left hrest.1, List.map_congr_left hrest.2.2]
  · rw [hstatements, hstatements']

theorem node_restored_update {d : Node} (hd : x ∉ d.variableNames) (value : Node) :
    Reading.node (d.restored known) (Function.update σ x value) =
      Reading.node (d.restored known) σ :=
  d.restored_local.node_eq fun _ hy => Function.update_of_ne (ne_of_mem_of_not_mem hy hd) _ _

/-- An expression is read as before if the object stands in for the temporary. -/
theorem Path.node_restored (h : Path n hole) (hx : known x = false) (hfresh : x ∉ n.variableNames) :
    Reading.node ((hole.fill (Node.var x)).restored known)
        (Function.update σ x (Reading.node (hole.content.restored known) σ)) =
      Reading.node (n.restored known) σ := by
  -- a layer with the hole filled, given that the filled place is read as what was there
  have hlayer {form : Form Node} {span : Option Span} {marks : Marks} {c y : Node}
      {plug : Node → Form Node} {value : Node} (hslot : Slot form c plug)
      (hfresh : x ∉ Node.variableNames ⟨form, span, marks⟩)
      (hy : Reading.node (y.restored known) (Function.update σ x value) =
        Reading.node (c.restored known) σ) :
      Reading.node (Node.restored known ⟨plug y, span, marks.outdated⟩)
          (Function.update σ x value) =
        Reading.node (Node.restored known ⟨form, span, marks⟩) σ := by
    obtain ⟨⟨hgroup, htemporary⟩, hplug⟩ := hslot.isLine known
    rw [Node.node_restored hgroup htemporary, Node.node_restored (hplug y).1 (hplug y).2]
    refine hslot.line_eq hy (fun d hd => node_restored_update (fun hmem => hfresh ?_) value) span
    exact Node.variableNames_subset (n := ⟨form, span, marks⟩) hd hmem
  induction h with
  | @here form span marks o plug hslot _ =>
    refine hlayer hslot.slot hfresh ?_
    rw [Node.var, Node.synthesized, Node.node_restored rfl rfl, Form.line_of_kind rfl]
    show (if known x then _ else Function.update σ x _ x) = _
    rw [hx, Function.update_self]
    rfl
  | @inside form span marks c plug inner hslot _ ih =>
    have hc : x ∉ c.variableNames := fun hmem => hfresh (Node.variableNames_subset
      (n := ⟨form, span, marks⟩) (hslot.refilled Node.null).mem_children hmem)
    exact hlayer (y := inner.fill (Node.var x)) hslot hfresh (ih hc)

theorem StatementSlot.line_eq (h : StatementSlot form c plug) {y : Node}
    (hy : Reading.node (y.restored known) τ = Reading.node (c.restored known) σ)
    (span : Option Span) : (plug y).line known span τ = form.line known span σ := by
  cases h <;> rw [Form.line_of_kind rfl, Form.line_of_kind rfl] <;>
    simp only [Form.map, Option.map_some, hy] <;> rfl

/-- Two statements made of one are read as the one. -/
theorem restored_hoisted (h : receiverInStatement? n = some hole) (hx : known x = false)
    (hfresh : x ∉ n.variableNames) (σ : Standins) :
    ((hoisted (Node.var x) hole).restored known σ).1 = (n.restored known σ).1 ∧
      ∀ y, y ≠ x → ((hoisted (Node.var x) hole).restored known σ).2 y =
        (n.restored known σ).2 y := by
  obtain ⟨value, plug, inner, hslot, hreceiver, rfl⟩ := receiverInStatement?_eq_some h
  have hpath := Path.of_receiver? hreceiver
  obtain ⟨form, span, marks⟩ := n
  have hvalue : x ∉ value.variableNames := fun hmem => hfresh (Node.variableNames_subset
    (n := ⟨form, span, marks⟩) (by rw [hslot.children_eq.1]; exact List.mem_cons_self) hmem)
  let τ := Function.update σ x (Reading.node (inner.content.restored known) σ)
  let rest : Node := ⟨plug (inner.fill (Node.var x)), span, marks.outdated⟩
  have hassignment : (Node.synthesized (.expression (Node.synthesized
      (.assign (Node.var x) inner.content)))).restored known σ = ([], τ) := by
    have htemporary : Form.temporary? known (.expression (Node.synthesized
        (.assign (Node.var x) inner.content))) = some x := by
      simp [Form.temporary?, Form.assigned?, Node.targetName?, Node.synthesized, Form.target?,
        Node.var, Node.varName?, Form.varName?, hx]
    rw [Node.synthesized, Node.restored_mk, htemporary]
    show ([], Function.update σ x (Form.line known _ none σ).assignedValue) = _
    rw [Form.line_of_kind rfl]
    show ([], Function.update σ x (Node.assignedValue ⟨.expression (Reading.node
      (Node.restored known (Node.synthesized (.assign (Node.var x) inner.content))) σ), none,
      {}⟩)) = _
    rw [Node.synthesized, Node.node_restored rfl rfl, Form.line_of_kind rfl]
    rfl
  have hhoisted : (hoisted (Node.var x) (Hole.under span marks (inner.map plug))).restored known σ =
      rest.restored known τ := by
    rw [hoisted, Node.synthesized, Node.restored_mk]
    show Reading.sequence [Node.restored known (Node.synthesized (.expression (Node.synthesized
      (.assign (Node.var x) inner.content)))), rest.restored known] σ = _
    simp [Reading.sequence, hassignment]
  have hline : (plug (inner.fill (Node.var x))).line known span τ = form.line known span σ :=
    hslot.line_eq (hpath.node_restored hx hvalue) span
  have hgroup : form.isGroup = false ∧ (plug (inner.fill (Node.var x))).isGroup = false := by
    cases hslot <;> exact ⟨rfl, rfl⟩
  have htemporary : (plug (inner.fill (Node.var x))).temporary? known = form.temporary? known := by
    cases hslot with
    | expression => exact congrArg (Option.filter _) (hpath.targetName?_fill (Node.var x))
    | ret => rfl
  rw [hhoisted, Node.restored_mk, Node.restored_mk, hgroup.1, hgroup.2, htemporary, hline]
  cases form.temporary? known with
  | none => exact ⟨rfl, fun _ _ => rfl⟩
  | some y =>
    refine ⟨rfl, fun z hz => ?_⟩
    show Function.update τ y _ z = Function.update σ y _ z
    by_cases hzy : z = y
    · rw [hzy, Function.update_self, Function.update_self]
    · rw [Function.update_of_ne hzy, Function.update_of_ne hzy]
      exact Function.update_of_ne hz _ _

end Hoist

/-! ### Steps of a pass -/

/-- A settled layer is read as before. -/
theorem Form.line_settled (form : Form Node) (span : Option Span) (σ : Standins) :
    form.settled.line known span σ = form.line known span σ := by
  rw [line, line, statements_settled, Reading.sequence_splice, relisted_map_settled]

/-- A name that a tree had before it was lowered, or that was issued for its file. -/
def Used (file : FileId) (reserved : List String) (names : NameSupply) (x : String) : Prop :=
  x ∈ reserved ∨ x ∈ (names.enter file).issued

namespace Used

variable {cfg : Settings} {file : FileId} {reserved drawn : List String}
variable {before after : List Use} {names names' : NameSupply} {calls : List Call} {x : String}

theorem mono (h : Introduces cfg file reserved drawn before names after names' calls)
    (hx : Used file reserved names x) : Used file reserved names' x :=
  hx.imp_right fun hissued => h.draws.mem_issued.2 (.inr hissued)

theorem not_allocated (stem : String) :
    ¬Used file reserved names (names.allocate file stem reserved).1 := by
  rintro (hmem | hmem)
  · exact names.allocate_not_mem_reserved file stem reserved hmem
  · exact names.allocate_not_mem_issued file stem reserved hmem

/-- The variables after a step were used by then. -/
theorem of_step {n : Node} {p : Progress Node} (h : Hygienic cfg file reserved n names p)
    (hn : ∀ x ∈ n.variableNames, Used file reserved names x) :
    ∀ x ∈ p.value.variableNames, Used file reserved p.names x := by
  obtain ⟨-, drawn, h⟩ := h
  intro x hx
  rcases h.mem_variableNames.1 hx with hx | hx
  · exact mono h (hn x hx)
  · exact .inr (h.draws.mem_issued.2 (.inl hx))

end Used

/-- A step after which a tree is read as before, if nothing stands in for names that are not used
yet. -/
structure Restores (cfg : Settings) (file : FileId) (reserved : List String) (n : Node)
    (names : NameSupply) (p : Progress Node) : Prop where
  hygienic : Hygienic cfg file reserved n names p
  keeps : Keeps n p.value
  reads : (∀ x ∈ n.variableNames, Used file reserved names x) →
    ∀ σ : Standins, (∀ x, ¬Used file reserved names x → σ x = Node.var x) →
      (p.value.restored reserved.contains σ).1 = (n.restored reserved.contains σ).1 ∧
        ∀ x, Used file reserved names x → (p.value.restored reserved.contains σ).2 x =
          (n.restored reserved.contains σ).2 x

namespace Restores

variable {cfg : Settings} {file : FileId} {reserved : List String}

theorem compositional : Pass.Compositional (Restores cfg file reserved) where
  refl n names := ⟨Hygienic.compositional.refl n names, .refl n, fun _ _ _ => ⟨rfl, fun _ _ => rfl⟩⟩
  trans := by
    intro n names p q h h'
    obtain ⟨-, drawn, hdrawn⟩ := h.hygienic
    refine ⟨Hygienic.compositional.trans h.hygienic h'.hygienic, h.keeps.trans h'.keeps, ?_⟩
    intro hn σ hσ
    obtain ⟨hlines, hafter⟩ := h.reads hn σ hσ
    obtain ⟨hlines', hafter'⟩ := h'.reads (Used.of_step h.hygienic hn) σ
      fun x hx => hσ x fun hused => hx (hused.mono hdrawn)
    exact ⟨hlines'.trans hlines, fun x hx => (hafter' x (hx.mono hdrawn)).trans (hafter x hx)⟩

/-- The results of a sweep are read, each for itself, as what they came from. -/
theorem sweep_nodes {cs : List Node} {names : NameSupply} {p : Progress (List Node)}
    (h : Sweep (Restores cfg file reserved) cs names p)
    (hcs : ∀ c ∈ cs, ∀ x ∈ c.variableNames, Used file reserved names x) {σ : Standins}
    (hσ : ∀ x, ¬Used file reserved names x → σ x = Node.var x) :
    p.value.map (fun c => Reading.node (c.restored reserved.contains) σ) =
      cs.map fun c => Reading.node (c.restored reserved.contains) σ := by
  induction h with
  | nil => rfl
  | cons head _ ih =>
    obtain ⟨-, drawn, hdrawn⟩ := head.hygienic
    rw [List.forall_mem_cons] at hcs
    rw [List.map_cons, List.map_cons]
    refine congrArg₂ _ (congrArg Node.joined (head.reads hcs.1 σ hσ).1) (ih ?_ ?_)
    · exact fun c hc x hx => (hcs.2 c hc x hx).mono hdrawn
    · exact fun x hx => hσ x fun hused => hx (hused.mono hdrawn)

/-- The results of a sweep are read, one after another, as what they came from. -/
theorem sweep_sequence {cs : List Node} {names : NameSupply} {p : Progress (List Node)}
    (h : Sweep (Restores cfg file reserved) cs names p) {seen : String → Prop}
    (hseen : ∀ x, seen x → Used file reserved names x)
    (hcs : ∀ c ∈ cs, ∀ x ∈ c.variableNames, seen x) {σ τ : Standins}
    (hστ : ∀ x, seen x → τ x = σ x) (hτ : ∀ x, ¬Used file reserved names x → τ x = Node.var x) :
    (Reading.sequence (p.value.map (Node.restored reserved.contains)) τ).1 =
        (Reading.sequence (cs.map (Node.restored reserved.contains)) σ).1 ∧
      ∀ x, seen x → (Reading.sequence (p.value.map (Node.restored reserved.contains)) τ).2 x =
        (Reading.sequence (cs.map (Node.restored reserved.contains)) σ).2 x := by
  induction h generalizing σ τ with
  | nil => exact ⟨rfl, hστ⟩
  | @cons c cs names p q head _ ih =>
    obtain ⟨-, drawn, hdrawn⟩ := head.hygienic
    rw [List.forall_mem_cons] at hcs
    have hused : ∀ x ∈ c.variableNames, Used file reserved names x :=
      fun x hx => hseen x (hcs.1 x hx)
    -- the new head is read as the old one, and the old one does not see the new names
    obtain ⟨hstep, hafter⟩ := head.reads hused τ hτ
    obtain ⟨hlocal, hafter'⟩ := c.restored_local τ σ fun x hx => hστ x (hcs.1 x hx)
    have hagree (x : String) (hx : seen x) : (p.value.restored reserved.contains τ).2 x =
        (c.restored reserved.contains σ).2 x :=
      (hafter x (hseen x hx)).trans (hafter' x (hστ x hx))
    have hspared (x : String) (hx : ¬Used file reserved p.names x) :
        (p.value.restored reserved.contains τ).2 x = Node.var x := by
      have hnew : x ∉ p.value.variableNames :=
        fun hmem => hx (Used.of_step head.hygienic hused x hmem)
      rcases p.value.restored_spares hnew τ with hold | hvar
      · exact hold.trans (hτ x fun hmem => hx (hmem.mono hdrawn))
      · exact hvar
    obtain ⟨hlines, hrest⟩ := ih (fun x hx => (hseen x hx).mono hdrawn) hcs.2 hagree hspared
    exact ⟨congrArg₂ (· ++ ·) (hstep.trans hlocal) hlines, hrest⟩

theorem settle {n : Node} {names names' : NameSupply} {g : Form Node} {calls : List Call}
    (hshape : n.form.shape = g.shape)
    (h : Sweep (Restores cfg file reserved) n.form.children names ⟨g.children, names', calls⟩) :
    Restores cfg file reserved n names ⟨Node.settle g n.span n.marks, names', calls⟩ := by
  have hkeeps : Form.Rel Keeps n.form g := ⟨hshape, h.forall₂ fun _ _ _ hstep => hstep.keeps⟩
  refine ⟨Hygienic.settle hshape (h.mono fun _ _ _ hstep => hstep.hygienic), .settle hkeeps, ?_⟩
  intro hn σ hσ
  obtain ⟨form, span, marks⟩ := n
  have hchild (c : Node) (hc : c ∈ form.children) (x : String) (hx : x ∈ c.variableNames) :
      Used file reserved names x :=
    hn x (Node.variableNames_subset (n := ⟨form, span, marks⟩) hc hx)
  -- first come the children outside of the list, then the list
  rw [Form.children_eq] at hchild
  rw [Form.children_eq, Form.children_eq] at h
  have hlength : form.inline.length = g.inline.length := by
    simpa [Form.shape, Form.inline_map] using congrArg (List.length ∘ Form.inline) hshape
  obtain ⟨p, q, hinline, hstatements, hvalue⟩ := h.of_append
  obtain ⟨hp, hq⟩ : g.inline = p.value ∧ g.statements = q.value :=
    List.append_inj hvalue <| hlength.symm.trans
      (hinline.forall₂ (R := fun _ _ => True) fun _ _ _ _ => trivial).length_eq
  obtain ⟨drawn, hdrawn⟩ := Hygienic.sweep (hinline.mono fun _ _ _ hstep => hstep.hygienic)
  rw [List.forall_mem_append] at hchild
  have hsequence (τ : Standins) (hτ : ∀ x, ¬Used file reserved names x → τ x = Node.var x) :=
    sweep_sequence hstatements (fun x hx => hx.mono hdrawn) hchild.2 (fun _ _ => rfl)
      fun x hx => hτ x fun hused => hx (hused.mono hdrawn)
  rw [← hq] at hsequence
  have hline : g.settled.line reserved.contains span σ = form.line reserved.contains span σ := by
    rw [Form.line_settled]
    refine Form.line_congr (congrArg (·.erase .marks) hshape.symm) (fun _ _ => rfl) ?_
      (hsequence Node.var fun _ _ => rfl).1 span
    rw [hp]
    exact sweep_nodes hinline hchild.1 hσ
  have hgroup : g.settled.isGroup = form.isGroup := by
    rw [Form.isGroup_eq, Form.isGroup_eq, Form.kind_settled, ← hkeeps.kind_eq]
  have htemporary : g.settled.temporary? reserved.contains = form.temporary? reserved.contains :=
    congrArg (Option.filter _) (Keeps.assigned?_settled hkeeps)
  rw [Node.settle, Node.restored_mk, Node.restored_mk, hgroup, htemporary, hline,
    Form.statements_settled, Reading.sequence_splice]
  by_cases hform : form.isGroup = true
  · rw [if_pos hform, if_pos hform]
    exact hsequence σ hσ
  · rw [if_neg hform, if_neg hform]
    exact ⟨rfl, fun _ _ => rfl⟩

theorem called {rule : Rule} {ctx : Context} (hfile : ∀ f, ctx.file = some f → f = file)
    (hrule : rule ∈ cfg.catalog) (kind : Kind) (n : Node) (names : NameSupply) :
    Restores cfg file ctx.reserved n names (Pass.called rule kind (rule.call ctx n names)) := by
  have hcall := CatalogCall.of_mem hrule ctx n names
  refine ⟨Hygienic.called_within hfile hrule kind n names,
    (Keeps.invariant cfg ctx).called hcall kind, fun hn σ hσ => ?_⟩
  revert hcall
  generalize rule.call ctx n names = e
  intro hcall
  have hknown (f : FileId) (stem : String) :
      ctx.reserved.contains (names.allocate f stem ctx.reserved).1 = false := by
    simpa using names.allocate_not_mem_reserved f stem ctx.reserved
  have hequal {m : Node}
      (h : m.restored ctx.reserved.contains σ = n.restored ctx.reserved.contains σ) :
      (m.restored ctx.reserved.contains σ).1 = (n.restored ctx.reserved.contains σ).1 ∧
        ∀ x, Used file ctx.reserved names x → (m.restored ctx.reserved.contains σ).2 x =
          (n.restored ctx.reserved.contains σ).2 x := by
    rw [h]
    exact ⟨rfl, fun _ _ => rfl⟩
  cases hcall with
  | unchanged => exact hequal rfl
  | cleaned hclean => exact hequal (congrFun (TrailingComma.restored_cleaned hclean _) σ)
  | @lowered file' _ _ hfile' haccess =>
    obtain rfl : file' = file := hfile file' hfile'
    exact hequal (Nullsafe.restored_lowered haccess (hknown _ _) (hσ _ (Used.not_allocated _)) _)
  | @hoisted file' hole hfile' hreceiver =>
    obtain rfl : file' = file := hfile file' hfile'
    obtain ⟨hlines, hafter⟩ := Hoist.restored_hoisted hreceiver (hknown file' cfg.hoistStem)
      (fun hmem => Used.not_allocated _ (hn _ hmem)) σ
    exact ⟨hlines, fun x hx => hafter x fun heq => Used.not_allocated _ (heq ▸ hx)⟩

theorem visit {rules : List Rule} {ctx : Context} (hfile : ∀ f, ctx.file = some f → f = file)
    (hrules : rules ⊆ cfg.catalog) (revisits : Nat) (n : Node) (names : NameSupply) :
    Restores cfg file ctx.reserved n names (Pass.visit rules ctx revisits n names) :=
  Pass.visit_of_steps compositional (fun _ _ _ _ _ hshape h => settle hshape h)
    (fun _ hrule kind n names => called hfile (hrules hrule) kind n names) revisits n names

end Restores

/-! ### Whole runs -/

/-- A run leaves no group in a statement list, and keeps the order of statements: with its
temporaries put back, the tree is the one that was given, without the brackets of its groups. So in
every list the statements stand in their order, and each object that was taken out of a statement is
assigned between this statement and the one before it. What is put back are the variables that the
tree did not have, each assigned and used once. -/
theorem Session.transform_keeps_order (cfg : Settings) (s : Session)
    (hrules : s.rules ⊆ cfg.catalog) (file : Option FileId) (tree : Node)
    (tokens : Option (List Token)) :
    let after := (s.transform file tree tokens).tree
    (∀ n ∈ after.preorder, ∀ m ∈ n.form.statements, m.form.isGroup = false) ∧
    (after.restored tree.variableNames.contains Node.var).1 = tree.ungrouped ∧
    ∀ x ∈ after.variableNames, x ∉ tree.variableNames → IsTemporary after x := by
  intro after
  let ctx : Context := ⟨file, tokens, tree.variableNames⟩
  have hfile : ∀ f, ctx.file = some f → f = file.getD "" := by
    rintro f hf
    rw [show file = some f from hf]
    rfl
  have hrestores : Restores cfg (file.getD "") tree.variableNames tree s.names
      (Pass.visit s.rules ctx s.maxRevisits tree s.names) :=
    Restores.visit hfile hrules s.maxRevisits tree s.names
  refine ⟨?_, ?_, fun x hx hnew => ?_⟩
  · have hsettled : after.All Node.Settled := Pass.visit_settled hrules s.maxRevisits tree s.names
    exact fun n hn => (hsettled n hn).flat
  · obtain ⟨hlines, -⟩ := hrestores.reads (fun x hx => .inl hx) Node.var fun _ _ => rfl
    exact hlines.trans (Node.restored_of_known (fun x hx => by simpa using hx) _)
  · obtain ⟨-, drawn, hdrawn⟩ := hrestores.hygienic
    exact hdrawn.isTemporary ((hdrawn.mem_variableNames.1 hx).resolve_left hnew)

/-- Groups within groups, and an object in the constructor of another with one revisit to do. -/
theorem Session.transform_keeps_order_of_nested_groups :
    let cfg : Settings := {}
    let s : Session := { rules := cfg.catalog, maxRevisits := 1 }
    let statement (n : Node) := Node.synthesized (.expression n)
    let group (ns : List Node) := Node.synthesized (.group ns)
    let g := Node.synthesized (.methodCall (Node.synthesized (.new (Node.synthesized (.name "B"))
      [])) "g" [])
    let a := Node.synthesized (.new (Node.synthesized (.name "A")) [{ value := g }])
    let tree := Node.synthesized (.program
      [group [group [statement (Node.var "x")],
          statement (Node.synthesized (.methodCall a "f" []))],
        group [], statement (Node.synthesized (.nullsafePropertyFetch (Node.var "y") "p"))])
    let after := (s.transform (some "a.php") tree none).tree
    s.rules ⊆ cfg.catalog ∧
      tree.toSource = "$x;\n(new A((new B())->g()))->f();\n\n$y?->p;" ∧
      after.toSource = "$x;\n$object2 = new B();\n$object1 = new A($object2->g());\n" ++
        "$object1->f();\n($nullsafeVariable1 = $y) ? $nullsafeVariable1->p : null;" ∧
      (∀ n ∈ after.preorder, ∀ m ∈ n.form.statements, m.form.isGroup = false) ∧
      (after.restored tree.variableNames.contains Node.var).1 = tree.ungrouped ∧
      ∀ x ∈ ["object1", "object2", "nullsafeVariable1"], IsTemporary after x := by
  intro cfg s statement group g a tree after
  have hrules : s.rules ⊆ cfg.catalog := List.Subset.refl _
  have hnew : ∀ x ∈ ["object1", "object2", "nullsafeVariable1"],
      x ∈ after.variableNames ∧ x ∉ tree.variableNames := by decide +kernel
  obtain ⟨hflat, horder, htemporary⟩ :=
    transform_keeps_order cfg s hrules (some "a.php") tree none
  exact ⟨hrules, by decide +kernel, by decide +kernel, hflat, horder,
    fun x hx => htemporary x (hnew x hx).1 (hnew x hx).2⟩

end SyntaxLowering
