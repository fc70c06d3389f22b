import SyntaxLowering.Proofs.DefinedBeforeUse

/-!
# No group is left in the place of a listed statement

A group takes the place of the statement that it was made of. If that is a place in a statement
list, its statements are spliced into the list, and the group is gone. So a tree whose statements
all stand in lists has no group left in it after a visit (`Pass.visit_ungrouped`).
-/

namespace SyntaxLowering

/-- A node whose divisible children stand in its statement list. -/
def Node.Orderly (n : Node) : Prop :=
  ∀ c ∈ n.form.inline, c.kind.isDivisible = false

instance : DecidablePred Node.Orderly :=
  fun n => inferInstanceAs (Decidable (∀ c ∈ n.form.inline, c.kind.isDivisible = false))

/-- An orderly tree that may stand outside of a list. -/
structure Node.Single (n : Node) : Prop where
  kind : n.kind.isDivisible = false
  orderly : n.All Node.Orderly

/-- A rewrite that keeps trees orderly too. It makes no group of a tree outside of a list. -/
structure KeepsOrder (n m : Node) : Prop extends Keeps n m where
  orderly : n.All Node.Orderly → m.All Node.Orderly

/-! ### Single rewrites -/

/-- A layer without statements over orderly trees. -/
theorem Node.orderly_of_children {n : Node} (hn : ∀ c ∈ n.form.children, c.Single) :
    n.All Node.Orderly := by
  exact Node.all_iff.2 ⟨fun c hc => (hn c (Form.mem_children_of_mem_inline hc)).kind,
    fun c hc => (hn c hc).orderly⟩

theorem Node.All.single {n : Node} (h : n.All Node.Orderly) (hn : n.form.statements = []) {c : Node}
    (hc : c ∈ n.form.children) : c.Single := by
  refine ⟨h.self c ?_, h.child hc⟩
  rw [Form.children_eq, hn, List.append_nil] at hc
  exact hc

theorem Node.single_var (x : String) : (Node.var x).Single :=
  ⟨rfl, Node.orderly_of_children fun _ hc => absurd hc List.not_mem_nil⟩

namespace KeepsOrder

theorem settle {n : Node} {g : Form Node} (h : Form.Rel KeepsOrder n.form g) :
    KeepsOrder n (Node.settle g n.span n.marks) := by
  refine ⟨.settle ⟨h.shape, h.children.imp fun _ _ => KeepsOrder.toKeeps⟩,
    fun hn => Node.all_settle (fun d hd => ?_) fun d hd => ?_⟩
  · obtain ⟨c, hc, hcd⟩ := exists_left_of_forall₂ h.children hd
    exact hcd.orderly (hn.child hc)
  · have hd : d ∈ g.settled.inline := hd
    rw [Form.inline_settled] at hd
    obtain ⟨c, hc, hcd⟩ := exists_left_of_forall₂ h.inline hd
    exact hcd.kind (hn.self c hc)

theorem cleaned {n : Node} {form : Form Node} (h : TrailingComma.Cleaned n.form form)
    (span : Option Span) (marks : Marks) : KeepsOrder n ⟨form, span, marks⟩ := by
  refine ⟨.cleaned h span marks,
    fun hn => Node.all_iff.2 ⟨fun c hc => hn.self c ?_, fun c hc => ?_⟩⟩
  · have hc : c ∈ form.inline := hc
    rw [h.inline_eq] at hc
    exact hc
  · have hc : c ∈ form.children := hc
    rw [h.children_eq] at hc
    exact hn.child hc

theorem lowered {n object : Node} {plain : Node → Form Node}
    (h : Nullsafe.access? n.form = some (object, plain)) (strict : Bool) (x : String) :
    KeepsOrder n (Nullsafe.lowered strict (Node.var x) object plain) := by
  refine ⟨.lowered h strict x, fun hn => ?_⟩
  obtain ⟨hobject, -, -, hchildren⟩ := Nullsafe.access?_eq_some h (Node.var x)
  have haccess := Nullsafe.Access.of_access? h
  have hform : n.form.statements = [] ∧ (plain (Node.var x)).kind.isDivisible = false := by
    revert haccess
    generalize n.form = form
    rintro (_ | _) <;> exact ⟨rfl, rfl⟩
  obtain ⟨hstatements, hkind⟩ := hform
  have hnull : Node.null.Single :=
    ⟨rfl, Node.orderly_of_children fun _ hc => absurd hc List.not_mem_nil⟩
  have hassign : (Node.synthesized (.assign (Node.var x) object)).Single :=
    ⟨rfl, Node.orderly_of_children (List.forall_mem_cons.2
      ⟨Node.single_var x, List.forall_mem_singleton.2 (hn.single hstatements hobject)⟩)⟩
  have hguard : (Nullsafe.guard strict (Node.var x) object).Single := by
    cases strict with
    | false => exact hassign
    | true =>
      exact ⟨rfl, Node.orderly_of_children (List.forall_mem_cons.2
        ⟨hassign, List.forall_mem_singleton.2 hnull⟩)⟩
  have hplain : (Node.synthesized (plain (Node.var x))).Single := by
    refine ⟨hkind, Node.orderly_of_children fun c hc => ?_⟩
    rcases hchildren c hc with rfl | hc
    · exact Node.single_var x
    · exact hn.single hstatements hc
  exact Node.orderly_of_children (List.forall_mem_cons.2
    ⟨hguard, List.forall_mem_cons.2 ⟨hplain, List.forall_mem_singleton.2 hnull⟩⟩)

end KeepsOrder

namespace Hoist

theorem Path.single {n : Node} {hole : Hole Node} (h : Path n hole) (hn : n.All Node.Orderly)
    {x : Node} (hx : x.Single) : hole.content.Single ∧ (hole.fill x).All Node.Orderly := by
  -- an orderly layer stays so if what is put in may stand outside of a list
  have hrefill {form : Form Node} {c d : Node} {plug : Node → Form Node} {span : Option Span}
      {marks : Marks} (hslot : Slot form c plug)
      (hn : (⟨form, span, marks⟩ : Node).All Node.Orderly) (hd : d.Single) :
      (⟨plug d, span, marks.outdated⟩ : Node).All Node.Orderly := by
    refine Node.orderly_of_children fun e he => ?_
    rcases (hslot.refilled d).eq_or_mem_of_mem he with rfl | he
    · exact hd
    · exact hn.single hslot.statements_eq_nil he
  induction h with
  | @here form span marks o plug hslot _ =>
    refine ⟨hn.single hslot.slot.statements_eq_nil ?_, hrefill hslot.slot hn hx⟩
    exact (hslot.slot.refilled Node.null).mem_children
  | @inside form span marks c plug inner hslot hpath ih =>
    have hc : c.Single :=
      hn.single hslot.statements_eq_nil (hslot.refilled Node.null).mem_children
    obtain ⟨hcontent, hfill⟩ := ih hc.orderly
    have hlayer := hrefill hslot hn ⟨hpath.isDivisible_fill x, hfill⟩
    exact ⟨hcontent, hlayer⟩

/-- The two statements stand in the list of a group. -/
theorem keepsOrder_hoisted {n : Node} {hole : Hole Node} (h : receiverInStatement? n = some hole)
    (x : String) : KeepsOrder n (hoisted (Node.var x) hole) := by
  refine ⟨.hoisted h x, fun hn => ?_⟩
  obtain ⟨value, plug, inner, hslot, hvalue, rfl⟩ := receiverInStatement?_eq_some h
  obtain ⟨hchild, hrefilled⟩ := hslot.children_eq
  have hpath := Path.of_receiver? hvalue
  have hstatements : n.form.statements = [] := by
    revert hslot
    generalize n.form = form
    rintro (_ | _) <;> rfl
  have hvalue : value.Single := hn.single hstatements (hchild ▸ List.mem_cons_self)
  obtain ⟨hcontent, hfill⟩ := hpath.single hvalue.orderly (Node.single_var x)
  have hassign : (Node.synthesized (.assign (Node.var x) inner.content)).Single :=
    ⟨rfl, Node.orderly_of_children (List.forall_mem_cons.2
      ⟨Node.single_var x, List.forall_mem_singleton.2 hcontent⟩)⟩
  refine Node.all_iff.2 ⟨fun c hc => absurd hc List.not_mem_nil, List.forall_mem_cons.2
    ⟨Node.orderly_of_children (List.forall_mem_singleton.2 hassign),
      List.forall_mem_singleton.2 (Node.orderly_of_children fun c hc => ?_)⟩⟩
  have hc : c ∈ (plug (inner.fill (Node.var x))).children := hc
  rw [hrefilled] at hc
  obtain rfl := List.mem_singleton.1 hc
  exact ⟨hpath.isDivisible_fill _, hfill⟩

end Hoist

/-! ### Whole visits -/

theorem KeepsOrder.invariant (cfg : Settings) (ctx : Context) :
    CatalogInvariant cfg ctx KeepsOrder where
  refl n := ⟨.refl n, id⟩
  trans h h' := ⟨h.toKeeps.trans h'.toKeeps, h'.orderly ∘ h.orderly⟩
  settle := .settle
  cleaned hclean := .cleaned (.of_cleanForm? hclean) _ _
  lowered haccess x := .lowered haccess _ x
  hoisted := Hoist.keepsOrder_hoisted

theorem KeepsOrder.visit {cfg : Settings} {ctx : Context} {rules : List Rule}
    (hrules : rules ⊆ cfg.catalog) (revisits : Nat) (n : Node) (names : NameSupply) :
    KeepsOrder n (Pass.visit rules ctx revisits n names).value :=
  (KeepsOrder.invariant cfg ctx).visit hrules revisits n names

/-- In an orderly tree a group stands in a list, but settled lists hold none. -/
theorem Node.All.ungrouped {n : Node} (horderly : n.All Node.Orderly)
    (hsettled : n.All Node.Settled) (hn : n.form.isGroup = false) :
    n.All fun m => m.form.isGroup = false := by
  induction n using Node.inductionOn with
  | step form span marks ih =>
    refine Node.all_iff.2 ⟨hn, fun c hc => ih c hc (horderly.child hc) (hsettled.child hc) ?_⟩
    rw [Form.children_eq, List.mem_append] at hc
    rcases hc with hc | hc
    · exact Node.isGroup_eq_false (horderly.self c hc)
    · exact hsettled.self.flat c hc

/-- A visit leaves no group in a tree whose statements stand in lists. -/
theorem Pass.visit_ungrouped {cfg : Settings} {ctx : Context} {rules : List Rule}
    (hrules : rules ⊆ cfg.catalog) {n : Node} (hkind : n.kind.isDivisible = false)
    (hn : n.All Node.Orderly) (revisits : Nat) (names : NameSupply) :
    (visit rules ctx revisits n names).value.All fun m => m.form.isGroup = false := by
  have hkeeps : KeepsOrder n (visit rules ctx revisits n names).value := .visit hrules _ _ _
  exact (hkeeps.orderly hn).ungrouped (visit_settled hrules _ _ _)
    (Node.isGroup_eq_false (hkeeps.kind hkind))

end SyntaxLowering
