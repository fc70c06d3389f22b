import SyntaxLowering.Proofs.Conservation
import SyntaxLowering.Proofs.Hygiene
import SyntaxLowering.Proofs.SessionHistories

/-!
# How much a tree leaves to do

A `Workload` of a rule is a measure of single nodes, such as the number of objects to be hoisted out
of a statement. Its total over a tree is an account of the rule: each replacement by the rule takes
one from the total, and neither settling nor the other rules change it. What a run has replaced is
then the difference of two totals (`Workload.visit`), whatever the limit on revisits.
-/

namespace SyntaxLowering

/-- The sum of a measure over the nodes of a tree. -/
def Node.total (f : Node → Nat) (n : Node) : Nat :=
  (n.preorder.map f).sum

theorem Node.total_eq (f : Node → Nat) (n : Node) :
    n.total f = f n + (n.form.children.map (Node.total f)).sum := by
  cases n with
  | mk form span marks =>
    rw [Node.total, Node.preorder_mk, List.map_cons, List.sum_cons, List.flatMap_def,
      List.map_flatten, List.sum_flatten, List.map_map, List.map_map]
    rfl

theorem Node.total_synthesized (f : Node → Nat) (form : Form Node) :
    (Node.synthesized form).total f =
      f (Node.synthesized form) + (form.children.map (Node.total f)).sum :=
  Node.total_eq f _

/-- The total of an indicator counts nodes. -/
theorem Node.total_indicator (p : Node → Bool) (n : Node) :
    n.total (fun m => if p m then 1 else 0) = n.preorder.countP p := by
  unfold Node.total
  induction n.preorder with
  | nil => rfl
  | cons m ms ih => rw [List.map_cons, List.sum_cons, ih, List.countP_cons, Nat.add_comm]

/-- Splicing keeps the totals of a measure that groups themselves add nothing to. -/
theorem Node.sum_total_splice {f : Node → Nat}
    (hgroup : ∀ n : Node, n.form.isGroup = true → f n = 0) (statements : List Node) :
    ((splice statements).map (Node.total f)).sum = (statements.map (Node.total f)).sum := by
  induction statements with
  | nil => rfl
  | cons n rest ih =>
    rw [splice_cons, List.map_append, List.sum_append, ih, List.map_cons, List.sum_cons]
    by_cases hn : n.form.isGroup = true
    · rw [if_pos hn, n.total_eq f, hgroup n hn, Form.children_of_isGroup hn, Nat.zero_add]
    · rw [if_neg hn]
      simp

theorem Node.total_settle {f : Node → Nat} (hgroup : ∀ n : Node, n.form.isGroup = true → f n = 0)
    (g : Form Node) (span : Option Span) (marks : Marks) :
    (Node.settle g span marks).total f =
      f (Node.settle g span marks) + (g.children.map (Node.total f)).sum := by
  rw [Node.total_eq]
  show _ + (g.settled.children.map (Node.total f)).sum = _
  rw [Form.children_settled, Form.children_eq, List.map_append, List.sum_append,
    Node.sum_total_splice hgroup, ← List.sum_append, ← List.map_append]

theorem Hoist.StatementSlot.kind_mem {form : Form Node} {c : Node} {plug : Node → Form Node}
    (h : StatementSlot form c plug) : form.kind ∈ [.expression, .ret] := by
  cases h <;> simp [Form.kind]

/-- The value of a statement is its only child. -/
theorem Hoist.StatementSlot.children_eq {form : Form Node} {c : Node} {plug : Node → Form Node}
    (h : StatementSlot form c plug) : form.children = [c] ∧ ∀ x, (plug x).children = [x] := by
  cases h <;> exact ⟨rfl, fun _ => rfl⟩

/-- Of single calls, only replacements by rules of the name count. -/
theorem replacementsBy_singleton (rule : String) (c : Call) :
    replacementsBy rule [c] = if rule = c.rule.name ∧ c.outcome = .replaced then 1 else 0 := by
  by_cases hname : rule = c.rule.name <;> by_cases hreplaced : c.outcome = .replaced <;>
    simp [replacementsBy, Tally.count, hname, hreplaced, Ne.symm]

/-- A measure of what the nodes of a tree leave to do for the rule of a name. -/
structure Workload (rule : String) (f : Node → Nat) : Prop where
  group : ∀ n : Node, n.form.isGroup = true → f n = 0
  /-- The nodes that rules build around expressions leave nothing to do. -/
  built : ∀ form : Form Node,
    form.kind ∈ [.null, .var, .assign, .notIdentical, .ternary, .methodCall, .propertyFetch] →
    f (Node.synthesized form) = 0
  settle : ∀ (n : Node) (g : Form Node), Form.Rel Hoist.CountsAs n.form g →
    f (Node.settle g n.span n.marks) = f n
  cleaned : ∀ (n : Node) (form : Form Node), TrailingComma.Cleaned n.form form →
    f ⟨form, n.span, n.marks.outdated⟩ = f n
  refilled : ∀ {form : Form Node} {c : Node} {plug : Node → Form Node}, Hoist.Slot form c plug →
    ∀ x span marks, f ⟨plug x, span, marks.outdated⟩ = f ⟨form, span, marks⟩
  lowered : ∀ {n object : Node} {plain : Node → Form Node},
    Nullsafe.access? n.form = some (object, plain) →
    f n = if rule = "NullsafeToTernary" then 1 else 0
  /-- Hoisting divides a statement into two. -/
  hoisted : ∀ {n : Node} {hole : Hoist.Hole Node}, Hoist.receiverInStatement? n = some hole →
    ∀ x, f n = f (Node.synthesized (.expression
        (Node.synthesized (.assign (Node.var x) hole.content)))) +
      f (hole.fill (Node.var x)) + if rule = "InstanceMethodCall" then 1 else 0

namespace Workload

variable {rule : String} {f : Node → Nat} (hf : Workload rule f)

include hf

/-! ### Single rewrites -/

theorem total_var (x : String) : (Node.var x).total f = 0 := by
  rw [Node.var, Node.total_synthesized, hf.built _ (by simp [Form.kind])]
  rfl

theorem total_null : Node.null.total f = 0 := by
  rw [Node.null, Node.total_synthesized, hf.built _ (by simp [Form.kind])]
  rfl

theorem total_assign_var (x : String) (value : Node) :
    (Node.synthesized (.assign (Node.var x) value)).total f = value.total f := by
  rw [Node.total_synthesized, hf.built _ (by simp [Form.kind])]
  simp [Form.children, hf.total_var]

theorem total_guard (strict : Bool) (x : String) (object : Node) :
    (Nullsafe.guard strict (Node.var x) object).total f = object.total f := by
  cases strict with
  | false => exact hf.total_assign_var x object
  | true =>
    rw [Nullsafe.guard, if_pos rfl, Node.total_synthesized, hf.built _ (by simp [Form.kind])]
    simp [Form.children, hf.total_assign_var, hf.total_null]

/-- A lowered access has the total of its parts. -/
theorem total_lowered {n object : Node} {plain : Node → Form Node}
    (haccess : Nullsafe.access? n.form = some (object, plain)) (strict : Bool) (x : String) :
    (Nullsafe.lowered strict (Node.var x) object plain).total f =
      (n.form.children.map (Node.total f)).sum := by
  have hplain : object.total f + (Node.synthesized (plain (Node.var x))).total f =
      (n.form.children.map (Node.total f)).sum := by
    have haccess := Nullsafe.Access.of_access? haccess
    rw [Node.total_synthesized]
    revert haccess
    generalize n.form = form
    rintro (_ | _) <;> rw [hf.built _ (by simp [Form.kind])] <;>
      simp [Form.children, hf.total_var]
  rw [Nullsafe.lowered, Node.total_synthesized, hf.built _ (by simp [Form.kind]), ← hplain]
  simp [Form.children, hf.total_guard, hf.total_null]

/-- Taking an object out of an expression divides its total. -/
theorem total_path {n : Node} {hole : Hoist.Hole Node} (h : Hoist.Path n hole) (x : String) :
    hole.content.total f + (hole.fill (Node.var x)).total f = n.total f := by
  have hrefill {form : Form Node} {c d : Node} {plug : Node → Form Node} (span : Option Span)
      (marks : Marks) (hslot : Hoist.Slot form c plug) :
      (⟨plug d, span, marks.outdated⟩ : Node).total f + c.total f =
        (⟨form, span, marks⟩ : Node).total f + d.total f := by
    obtain ⟨pre, post, hform, hplug⟩ := (hslot.refilled d).children
    rw [Node.total_eq, Node.total_eq f ⟨form, span, marks⟩, hf.refilled hslot, hform, hplug]
    simp only [List.map_append, List.map_cons, List.sum_append, List.sum_cons]
    omega
  induction h with
  | @here form span marks o plug hslot _ =>
    have hlayer := hrefill (d := Node.var x) span marks hslot.slot
    rw [hf.total_var] at hlayer
    show o.total f + (⟨plug (Node.var x), span, marks.outdated⟩ : Node).total f = _
    omega
  | @inside form span marks c plug inner hslot _ ih =>
    have hlayer := hrefill (d := inner.fill (Node.var x)) span marks hslot
    show inner.content.total f +
      (⟨plug (inner.fill (Node.var x)), span, marks.outdated⟩ : Node).total f = _
    omega

/-- Hoisting takes one from the total if it is an account of the hoisting rule. -/
theorem total_hoisted {n : Node} {hole : Hoist.Hole Node}
    (h : Hoist.receiverInStatement? n = some hole) (x : String) :
    (Hoist.hoisted (Node.var x) hole).total f + (if rule = "InstanceMethodCall" then 1 else 0) =
      n.total f := by
  have hself := hf.hoisted h x
  obtain ⟨value, plug, inner, hslot, hreceiver, rfl⟩ := Hoist.receiverInStatement?_eq_some h
  have hpath := hf.total_path (Hoist.Path.of_receiver? hreceiver) x
  obtain ⟨hchild, hrefilled⟩ := hslot.children_eq
  have hrest : ((Hoist.Hole.under n.span n.marks (inner.map plug)).fill (Node.var x)).total f =
      f ((Hoist.Hole.under n.span n.marks (inner.map plug)).fill (Node.var x)) +
        (inner.fill (Node.var x)).total f := by
    rw [Node.total_eq]
    show _ + ((plug (inner.fill (Node.var x))).children.map (Node.total f)).sum = _
    rw [hrefilled]
    rfl
  have hassign : (Node.synthesized (.expression (Node.synthesized
      (.assign (Node.var x) inner.content)))).total f = f (Node.synthesized (.expression
        (Node.synthesized (.assign (Node.var x) inner.content)))) + inner.content.total f := by
    rw [Node.total_synthesized]
    show _ + ((Node.synthesized (.assign (Node.var x) inner.content)).total f + 0) = _
    rw [hf.total_assign_var, Nat.add_zero]
  have hgroup :
      (Hoist.hoisted (Node.var x) (Hoist.Hole.under n.span n.marks (inner.map plug))).total f =
        (Node.synthesized (.expression (Node.synthesized
          (.assign (Node.var x) inner.content)))).total f +
          ((Hoist.Hole.under n.span n.marks (inner.map plug)).fill (Node.var x)).total f := by
    rw [Hoist.hoisted, Node.total_synthesized, hf.group _ rfl]
    simp [Form.children, Hoist.Hole.under, Hoist.Hole.map]
  rw [n.total_eq f, hself, hchild, hgroup, hrest, hassign]
  simp only [Hoist.Hole.under, Hoist.Hole.map, List.map_cons, List.map_nil, List.sum_cons,
    List.sum_nil] at hpath ⊢
  omega

/-! ### Whole runs -/

omit hf in
/-- A step that keeps what its result counts for elsewhere, and whose replacements account for what
it takes from the total. -/
structure Pays (rule : String) (f : Node → Nat) (n : Node) (p : Progress Node) : Prop where
  counts : Hoist.CountsAs n p.value
  total : n.total f = p.value.total f + replacementsBy rule p.calls

omit hf in
theorem Pays.compositional : Pass.Compositional fun n (_ : NameSupply) p => Pays rule f n p where
  refl n _ := ⟨.refl n, rfl⟩
  trans := by
    rintro n names p q hp hq
    refine ⟨hp.counts.trans hq.counts, ?_⟩
    show n.total f = q.value.total f + replacementsBy rule (p.calls ++ q.calls)
    rw [hp.total, hq.total, replacementsBy_append]
    omega

omit hf in
theorem Pays.sweep {cs : List Node} {names : NameSupply} {p : Progress (List Node)}
    (h : Sweep (fun n _ p => Pays rule f n p) cs names p) :
    (cs.map (Node.total f)).sum =
      (p.value.map (Node.total f)).sum + replacementsBy rule p.calls := by
  induction h with
  | nil names => rfl
  | cons head _ ih =>
    simp only [List.map_cons, List.sum_cons, head.total, ih, replacementsBy_append]
    omega

theorem pays_settle {n : Node} {names names' : NameSupply} {g : Form Node} {calls : List Call}
    (hshape : n.form.shape = g.shape)
    (h : Sweep (fun n _ p => Pays rule f n p) n.form.children names ⟨g.children, names', calls⟩) :
    Pays rule f n ⟨Node.settle g n.span n.marks, names', calls⟩ := by
  have hrel : Form.Rel Hoist.CountsAs n.form g :=
    ⟨hshape, h.forall₂ fun _ _ _ hstep => hstep.counts⟩
  have hsweep : (n.form.children.map (Node.total f)).sum =
      (g.children.map (Node.total f)).sum + replacementsBy rule calls := Pays.sweep h
  refine ⟨.settle hrel, ?_⟩
  show n.total f = (Node.settle g n.span n.marks).total f + replacementsBy rule calls
  rw [n.total_eq f, Node.total_settle hf.group, hf.settle n g hrel, hsweep, Nat.add_assoc]

theorem pays_called {cfg : Settings} {ctx : Context} {n : Node} {names : NameSupply} {r : Rule}
    {e : Effect} (h : CatalogCall cfg ctx n names r e) (kind : Kind) :
    Pays rule f n (Pass.called r kind e) := by
  refine ⟨(Hoist.CountsAs.invariant cfg ctx).called h kind, ?_⟩
  show n.total f = (Pass.called r kind e).value.total f +
    replacementsBy rule [⟨r, kind, e.verdict.outcome⟩]
  rw [replacementsBy_singleton]
  cases h with
  | unchanged => simp [Pass.called, Effect.none, Verdict.outcome]
  | @cleaned form hclean =>
    have hcleaned := TrailingComma.Cleaned.of_cleanForm? hclean
    show n.total f = (⟨form, n.span, n.marks.outdated⟩ : Node).total f + _
    rw [Node.total_eq f ⟨form, _, _⟩, hf.cleaned n form hcleaned, hcleaned.children_eq,
      ← n.total_eq f]
    simp [Verdict.outcome]
  | lowered _ haccess =>
    show n.total f = (Nullsafe.lowered _ _ _ _).total f + _
    rw [hf.total_lowered haccess, n.total_eq f, hf.lowered haccess, Nat.add_comm]
    simp [Effect.replace, Verdict.outcome, Nullsafe.rule]
  | @hoisted file hole _ hreceiver =>
    show n.total f = (Hoist.hoisted _ _).total f + _
    rw [← hf.total_hoisted hreceiver (names.allocate file cfg.hoistStem ctx.reserved).1]
    simp [Effect.replace, Verdict.outcome, Hoist.rule]

/-- The replacements that a visit makes by the rule are what it takes from the total. -/
theorem visit {cfg : Settings} {ctx : Context} {rules : List Rule} (hrules : rules ⊆ cfg.catalog)
    (revisits : Nat) (n : Node) (names : NameSupply) :
    n.total f = (Pass.visit rules ctx revisits n names).value.total f +
      replacementsBy rule (Pass.visit rules ctx revisits n names).calls :=
  (Pass.visit_of_steps Pays.compositional (fun _ _ _ _ _ hshape h => hf.pays_settle hshape h)
    (fun _ hrule kind n names => hf.pays_called (.of_mem (hrules hrule) ctx n names) kind)
    revisits n names).total

end Workload

/-! ### The two workloads of the catalog -/

/-- Every nullsafe access is to be lowered once. -/
theorem Nullsafe.workload :
    Workload "NullsafeToTernary" fun n => if n.isNullsafe then 1 else 0 := by
  have hkind {n m : Node} (h : m.form.kind = n.form.kind) : m.isNullsafe = n.isNullsafe := by
    rw [Node.isNullsafe, Node.isNullsafe, Node.kind, Node.kind, h]
  have hother {n : Node} (h : n.form.kind ∉ [.nullsafeMethodCall, .nullsafePropertyFetch]) :
      n.isNullsafe = false := by
    simpa [Node.isNullsafe, Node.kind] using h
  constructor
  · intro n hgroup
    rw [hother]
    · rfl
    · rw [Form.isGroup_eq, beq_iff_eq] at hgroup
      simp [hgroup]
  · intro form hform
    rw [hother]
    · rfl
    · intro hmem
      have hmem : form.kind ∈ [.nullsafeMethodCall, .nullsafePropertyFetch] := hmem
      revert hform hmem
      cases form.kind <;> decide
  · intro n g h
    rw [hkind]
    exact (Form.kind_settled g).trans h.kind_eq.symm
  · intro n form h
    rw [hkind]
    exact h.kind
  · intro form c plug hslot x span marks
    rw [hkind]
    exact (hslot.refilled x).kind
  · intro n object plain haccess
    have hself : n.isNullsafe = true := by
      rw [Node.isNullsafe, Node.kind]
      revert haccess
      cases n.form <;> simp [access?, Form.kind]
    rw [hself]
    rfl
  · intro n hole h x
    obtain ⟨value, plug, inner, hslot, -, rfl⟩ := Hoist.receiverInStatement?_eq_some h
    have hstatement := hslot.kind_mem
    have hrest := (hslot.refilled (inner.fill (Node.var x))).kind
    have hnot : n.form.kind ∉ [.nullsafeMethodCall, .nullsafePropertyFetch] := by
      intro hmem
      revert hstatement hmem
      cases n.form.kind <;> decide
    rw [hother hnot, hother (n := (Hoist.Hole.under n.span n.marks (inner.map plug)).fill _)]
    · rfl
    · show (plug (inner.fill (Node.var x))).kind ∉ _
      rw [hrest]
      exact hnot

/-- Every object that is to be hoisted is hoisted once. -/
theorem Hoist.workload : Workload "InstanceMethodCall" hoistable := by
  constructor
  · intro n hgroup
    rw [Form.isGroup_eq, beq_iff_eq] at hgroup
    exact hoistable_eq_zero (by simp [hgroup])
  · intro form hform
    apply hoistable_eq_zero
    intro hmem
    have hmem : form.kind ∈ [.expression, .ret] := hmem
    revert hform hmem
    cases form.kind <;> decide
  · exact fun n g h => hoistable_settle h
  · intro n form h
    simp only [hoistable_eq, h.kind, h.heads]
  · intro form c plug hslot x span marks
    have hnot : form.kind ∉ [.expression, .ret] :=
      fun hmem => hslot.kind_not_mem (List.mem_cons_of_mem _ hmem)
    rw [hoistable_eq_zero (n := ⟨form, span, marks⟩) hnot]
    apply hoistable_eq_zero
    show (plug x).kind ∉ _
    rw [(hslot.refilled x).kind]
    exact hnot
  · intro n object plain haccess
    apply hoistable_eq_zero
    revert haccess
    cases n.form <;> simp [Nullsafe.access?, Form.kind]
  · intro n hole h x
    obtain ⟨value, plug, inner, hslot, hvalue, rfl⟩ := receiverInStatement?_eq_some h
    have hcount := (Path.of_receiver? hvalue).accesses_add x
    have hassign : accesses (Node.synthesized (.assign (Node.var x) inner.content)) =
        accesses inner.content := by
      rw [Node.synthesized, accesses_mk]
      simp [Form.object?, searched, accesses_var]
    have hself : hoistable n = accesses value ∧ ∀ v span marks,
        hoistable ⟨plug v, span, marks⟩ = accesses v := by
      unfold hoistable
      revert hslot
      generalize n.form = form
      rintro (_ | _) <;> exact ⟨rfl, fun _ _ _ => rfl⟩
    rw [hself.1, if_pos rfl]
    show _ = accesses (Node.synthesized (.assign (Node.var x) inner.content)) +
      hoistable ⟨plug (inner.fill (Node.var x)), n.span, n.marks.outdated⟩ + 1
    rw [hself.2, hassign, hcount]

/-! ### Statistics -/

/-- The tally of a rule grows by the replacements that the calls of a run count for its name. -/
theorem Session.Tallied.replacements_tallyOf {s : Session} (h : s.Tallied) {rule : Rule}
    (hrule : rule ∈ s.rules) (file : FileId) (tree : Node) (tokens : List Token) :
    ((s.run file tree tokens).session.tallyOf rule.name).replacements =
      (s.tallyOf rule.name).replacements +
        replacementsBy rule.name (s.run file tree tokens).calls := by
  have htally := h.tallyOf_transform hrule (some file) tree (some tokens)
  show ((s.transform (some file) tree (some tokens)).session.tallyOf rule.name).replacements = _
  rw [htally]
  simp [Tally.count, replacementsBy, s.rule_tallyOf rule.name, Session.run]

end SyntaxLowering
