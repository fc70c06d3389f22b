import SyntaxLowering.Proofs.Fixpoint

/-!
# What holds of every visited tree

A property of all nodes that settling a layer establishes and each call of a rule keeps holds of
the result of a visit, whatever the limit on revisits (`Pass.visitWith_all`). Two such properties
are that every node is settled, and that no node is a nullsafe access.
-/

namespace SyntaxLowering

namespace Pass

variable {rules : List Rule} {ctx : Context} {revisit : Node → Pass Node} {p : Node → Prop}

/-- The children of a layer after their visits. -/
theorem all_of_visited {f : Node → Pass Node} {form : Form Node}
    (h : ∀ c ∈ form.children, ∀ names, (f c names).value.All p) (names : NameSupply) :
    ∀ d ∈ (form.mapM f names).value.children, d.All p := by
  have hsweep : Sweep (fun _ _ q => q.value.All p) form.children names _ := Sweep.of_mapM h names
  rw [(mapM_form f form names).2] at hsweep
  have hforall : List.Forall₂ (fun _ d => d.All p) form.children
      (form.mapM f names).value.children := hsweep.forall₂ fun _ _ _ hd => hd
  intro d hd
  obtain ⟨_, -, hall⟩ := exists_left_of_forall₂ hforall hd
  exact hall

/-- What settling a layer establishes and each call of a rule keeps holds of every visited tree. -/
theorem visitWith_all
    (hsettle : ∀ {g : Form Node} {span : Option Span} {marks : Marks},
      (∀ c ∈ g.children, c.All p) → (Node.settle g span marks).All p)
    (hcall : ∀ rule ∈ rules, ∀ kind n names, n.All p →
      (called rule kind (rule.call ctx n names)).value.All p)
    (hrevisit : ∀ n names, n.All p → (revisit n names).value.All p) (n : Node)
    (names : NameSupply) : (visitWith revisit rules ctx n names).value.All p := by
  let P (n : Node) (_ : NameSupply) (q : Progress Node) : Prop := n.All p → q.value.All p
  have hP : Compositional P := ⟨fun _ _ hn => hn, fun hp hq hn => hq (hp hn)⟩
  induction n using Node.inductionOn generalizing names with
  | step form span marks ih =>
    rw [visitWith_apply]
    exact applyRules_of_steps (P := P) hP hcall hrevisit _ _ _
      (hsettle (all_of_visited (fun c hc names => ih c hc names) names))

end Pass

/-! ### Settled trees -/

theorem Node.Settled.of_no_lists {form : Form Node} (hargs : form.args = [])
    (hparams : form.params = []) (hstatements : form.statements = []) :
    (Node.synthesized form).Settled :=
  .synthesized (by simp [hargs]) hparams (by simp [hstatements])

theorem Node.settled_var (x : String) : (Node.var x).All Node.Settled :=
  Node.all_iff.2 ⟨.of_no_lists rfl rfl rfl, fun _ hc => absurd hc List.not_mem_nil⟩

theorem Nullsafe.settled_lowered {n object : Node} {plain : Node → Form Node}
    (h : access? n.form = some (object, plain)) (hn : n.All Node.Settled) (strict : Bool)
    (x : String) : (lowered strict (Node.var x) object plain).All Node.Settled := by
  obtain ⟨form, span, marks⟩ := n
  obtain ⟨-, hargs, hparams, -⟩ := access?_eq_some h (Node.var x)
  refine all_lowered (Node.layered_all _) h (fun c hc => hn.child hc) (Node.settled_var x)
    (.of_no_lists rfl rfl rfl) (.of_no_lists rfl rfl rfl) ?_ ?_ (.of_no_lists rfl rfl rfl)
  · cases strict <;> exact .of_no_lists rfl rfl rfl
  · refine .synthesized (fun a ha => hn.self.args a (hargs ▸ ha)) hparams ?_
    cases Access.of_access? h <;> simp [Form.statements]

theorem Hoist.settled_hoisted {n : Node} {hole : Hole Node} (h : receiverInStatement? n = some hole)
    (hn : n.All Node.Settled) (x : String) : (hoisted (Node.var x) hole).All Node.Settled := by
  refine all_of_receiverInStatement? (Node.layered_all _)
    (fun hrefilled hlayer => hlayer.refilled hrefilled) h hn (Node.settled_var x)
    (.of_no_lists rfl rfl rfl) (.of_no_lists rfl rfl rfl)
    (.synthesized (by simp [Form.args]) rfl ?_)
  refine List.forall_mem_cons.2 ⟨rfl, List.forall_mem_singleton.2 ?_⟩
  -- what is left of the statement is a statement, not a group
  obtain ⟨value, plug, inner, hslot, -, rfl⟩ := receiverInStatement?_eq_some h
  obtain ⟨form, span, marks⟩ := n
  cases hslot <;> rfl

/-- A call of a rule of the catalog keeps a settled tree settled. -/
theorem Node.settled_called {cfg : Settings} {ctx : Context} {n : Node} {names : NameSupply}
    {rule : Rule} {e : Effect} (h : CatalogCall cfg ctx n names rule e) (kind : Kind)
    (hn : n.All Node.Settled) : (Pass.called rule kind e).value.All Node.Settled := by
  cases h with
  | unchanged => exact hn
  | cleaned hclean =>
    have hcleaned := TrailingComma.Cleaned.of_cleanForm? hclean
    refine Node.all_iff.2 ⟨hn.self.cleaned hcleaned, fun c hc => hn.child ?_⟩
    rw [← hcleaned.children_eq]
    exact hc
  | lowered _ haccess => exact Nullsafe.settled_lowered haccess hn _ _
  | hoisted _ hreceiver => exact Hoist.settled_hoisted hreceiver hn _

theorem Node.all_settled_settle {g : Form Node} {span : Option Span} {marks : Marks}
    (h : ∀ c ∈ g.children, c.All Node.Settled) : (Node.settle g span marks).All Node.Settled :=
  Node.all_settle h (Node.settled_settle fun m hm =>
    (h m (Form.mem_children.2 (.inr (.inr (.inr hm))))).self)

/-! ### Trees without nullsafe accesses -/

/-- A node that is no nullsafe access. -/
def Node.IsPlain (n : Node) : Prop :=
  Nullsafe.access? n.form = none

theorem Node.isPlain_iff {n : Node} :
    n.IsPlain ↔ n.form.kind ∉ [.nullsafeMethodCall, .nullsafePropertyFetch] :=
  Nullsafe.access?_eq_none_iff

theorem Node.isPlain_var (x : String) : (Node.var x).All Node.IsPlain :=
  Node.all_iff.2 ⟨rfl, fun _ hc => absurd hc List.not_mem_nil⟩

theorem Nullsafe.isPlain_lowered {n object : Node} {plain : Node → Form Node}
    (h : access? n.form = some (object, plain)) (hn : ∀ c ∈ n.form.children, c.All Node.IsPlain)
    (strict : Bool) (x : String) : (lowered strict (Node.var x) object plain).All Node.IsPlain := by
  obtain ⟨form, span, marks⟩ := n
  refine all_lowered (Node.layered_all _) h hn (Node.isPlain_var x) rfl rfl ?_ ?_ rfl
  · cases strict <;> rfl
  · cases Access.of_access? h <;> rfl

theorem Hoist.isPlain_hoisted {n : Node} {hole : Hole Node} (h : receiverInStatement? n = some hole)
    (hn : ∀ c ∈ n.form.children, c.All Node.IsPlain) (x : String) :
    (hoisted (Node.var x) hole).All Node.IsPlain := by
  have hself : n.IsPlain := by
    obtain ⟨value, plug, inner, hslot, -⟩ := receiverInStatement?_eq_some h
    obtain ⟨form, span, marks⟩ := n
    cases hslot <;> rfl
  refine all_of_receiverInStatement? (Node.layered_all _) (fun hrefilled hlayer => ?_) h
    (Node.all_iff.2 ⟨hself, hn⟩) (Node.isPlain_var x) rfl rfl rfl
  rw [Node.isPlain_iff] at hlayer ⊢
  exact hrefilled.kind ▸ hlayer

namespace Pass

variable {cfg : Settings} {rules : List Rule} {ctx : Context} {revisit : Node → Pass Node}

/-- The rules leave no nullsafe access at a settled node over children without any. -/
theorem isPlain_applyRules {file : FileId} (hfile : ctx.file = some file)
    (hrules : rules ⊆ cfg.catalog)
    (hnullsafe : Nullsafe.rule cfg.nullsafeStem cfg.strictNullCheck ∈ rules)
    (hrevisit : ∀ n names, n.All Node.IsPlain → (revisit n names).value.All Node.IsPlain) {n : Node}
    (hsettled : n.Settled) (hchildren : ∀ c ∈ n.form.children, c.All Node.IsPlain)
    (names : NameSupply) :
    (applyRules revisit ctx n.kind rules n names).value.All Node.IsPlain := by
  have happlied : Applied cfg ctx revisit n _ ∨ _ := applied_or_idle hfile hrules hsettled names
  generalize (applyRules revisit ctx n.kind rules n names).value = m at happlied ⊢
  rcases happlied with happlied | ⟨rfl, hidle⟩
  · cases happlied with
    | quiet _ hplain _ => exact Node.all_iff.2 ⟨hplain, hchildren⟩
    | cleaned hclean =>
      refine Node.all_iff.2 ⟨(NormalAt.cleaned hsettled hclean 0).plain, fun c hc => hchildren c ?_⟩
      rw [← (TrailingComma.Cleaned.of_cleanForm? hclean).children_eq]
      exact hc
    | lowered haccess x names => exact hrevisit _ _ (Nullsafe.isPlain_lowered haccess hchildren _ x)
    | hoisted hreceiver x names => exact hrevisit _ _ (Hoist.isPlain_hoisted hreceiver hchildren x)
  · refine Node.all_iff.2 ⟨?_, hchildren⟩
    -- the nullsafe rule was called and left the node alone
    have hcall := hidle _ hnullsafe
    rw [Nullsafe.call_eq hfile] at hcall
    unfold Node.IsPlain
    cases haccess : Nullsafe.access? m.form with
    | none => rfl
    | some access => simp [haccess, Effect.none, Effect.replace] at hcall

theorem visitWith_settled (hrules : rules ⊆ cfg.catalog)
    (hrevisit : ∀ n names, n.All Node.Settled → (revisit n names).value.All Node.Settled) (n : Node)
    (names : NameSupply) : (visitWith revisit rules ctx n names).value.All Node.Settled :=
  visitWith_all Node.all_settled_settle
    (fun _ hrule kind n names hn =>
      Node.settled_called (.of_mem (hrules hrule) ctx n names) kind hn)
    hrevisit n names

theorem visitWith_isPlain {file : FileId} (hfile : ctx.file = some file)
    (hrules : rules ⊆ cfg.catalog)
    (hnullsafe : Nullsafe.rule cfg.nullsafeStem cfg.strictNullCheck ∈ rules)
    (hsettled : ∀ n names, n.All Node.Settled → (revisit n names).value.All Node.Settled)
    (hplain : ∀ n names, n.All Node.IsPlain → (revisit n names).value.All Node.IsPlain) (n : Node)
    (names : NameSupply) : (visitWith revisit rules ctx n names).value.All Node.IsPlain := by
  induction n using Node.inductionOn generalizing names with
  | step form span marks ih =>
    have hbelow := all_of_visited (fun c hc names => ih c hc names) names
    have hbelow' : ∀ c ∈ (form.mapM (visitWith revisit rules ctx) names).value.children,
        c.All Node.Settled :=
      all_of_visited (fun c _ names => visitWith_settled hrules hsettled c names) names
    rw [visitWith_apply]
    refine isPlain_applyRules hfile hrules hnullsafe hplain
      (Node.all_settled_settle hbelow').self (fun c hc => ?_) _
    rcases Form.mem_children_settled hc with hc | ⟨g, hg, hc⟩
    · exact hbelow c hc
    · exact (hbelow g hg).child hc

/-- A visit leaves no node unsettled: no group stands in a statement list. -/
theorem visit_settled (hrules : rules ⊆ cfg.catalog) (revisits : Nat) (n : Node)
    (names : NameSupply) : (visit rules ctx revisits n names).value.All Node.Settled := by
  induction revisits generalizing n names with
  | zero => exact visitWith_settled hrules (fun _ _ hn => hn) n names
  | succ revisits ih => exact visitWith_settled hrules (fun n names _ => ih n names) n names

/-- A visit in a file with the nullsafe rule leaves no nullsafe access, whatever the other rules
and the limit on revisits. -/
theorem visit_isPlain {file : FileId} (hfile : ctx.file = some file) (hrules : rules ⊆ cfg.catalog)
    (hnullsafe : Nullsafe.rule cfg.nullsafeStem cfg.strictNullCheck ∈ rules) (revisits : Nat)
    (n : Node) (names : NameSupply) :
    (visit rules ctx revisits n names).value.All Node.IsPlain := by
  induction revisits generalizing n names with
  | zero =>
    exact visitWith_isPlain hfile hrules hnullsafe (fun _ _ hn => hn) (fun _ _ hn => hn) n names
  | succ revisits ih =>
    exact visitWith_isPlain hfile hrules hnullsafe
      (fun n names _ => visit_settled hrules revisits n names) (fun n names _ => ih n names) n names

end Pass

end SyntaxLowering
