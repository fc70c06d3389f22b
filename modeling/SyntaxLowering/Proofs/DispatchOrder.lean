import SyntaxLowering.Proofs.Fixpoint
import SyntaxLowering.Proofs.SessionHistories

/-!
# The order of calls

A run calls rules while it rebuilds the tree; `Node.preorder` only reads it. Both go through the
same nodes: rules that leave every node alone are called node by node in postorder, children in the
order of `Form.children`, and at each node in the order in which the session holds them. Neither
splicing nor lost source text makes a difference, since a settled layer has the kind of the layer
that was visited.
-/

namespace SyntaxLowering

namespace Node

/-- The nodes of a tree, each after its descendants, siblings in evaluation order. -/
def postorder (n : Node) : List Node :=
  (n.fold fun layer span marks =>
    let node : Node := ⟨layer.map (·.1), span, marks⟩
    (node, layer.children.flatMap (·.2) ++ [node]) : Node × List Node).2

theorem postorder_mk (form : Form Node) (span : Option Span) (marks : Marks) :
    postorder ⟨form, span, marks⟩ = form.children.flatMap postorder ++ [⟨form, span, marks⟩] := by
  simp only [postorder, fold_mk, Form.map_map, Form.children_map, List.flatMap_map]
  rw [Form.map_congr fun c _ => fold_rebuilt _ c, Form.map_id]
  rfl

/-- Both orders go through the same nodes, each as often as it stands in the tree. -/
theorem postorder_perm_preorder (n : Node) : n.postorder.Perm n.preorder := by
  induction n using Node.inductionOn with
  | step form span marks ih =>
    rw [postorder_mk, preorder_mk]
    have hbelow : (form.children.flatMap postorder).Perm (form.children.flatMap preorder) :=
      List.Perm.flatMap_left _ ih
    exact List.perm_append_comm.trans (hbelow.cons _)

end Node

/-- A rule that leaves every node alone. It may still draw on the supply of names. -/
def Rule.IsInert (rule : Rule) : Prop :=
  ∀ ctx n names, ∃ names', rule.call ctx n names = ⟨.unchanged, n, names'⟩

/-- One call for each of some rules that claims a kind, in order, none of which does anything. -/
def idleCalls (rules : List Rule) (kind : Kind) : List Call :=
  (rules.filter (·.claims kind)).map fun rule => ⟨rule, kind, .unchanged⟩

theorem idleCalls_cons (rule : Rule) (rules : List Rule) (kind : Kind) :
    idleCalls (rule :: rules) kind =
      if rule.claims kind then ⟨rule, kind, .unchanged⟩ :: idleCalls rules kind
      else idleCalls rules kind := by
  by_cases hclaims : rule.claims kind = true <;> simp [idleCalls, hclaims]

namespace Pass

variable {rules : List Rule} {ctx : Context} {revisit : Node → Pass Node}

theorem applyRules_inert (hrules : ∀ rule ∈ rules, rule.IsInert) (kind : Kind) (n : Node)
    (names : NameSupply) :
    (applyRules revisit ctx kind rules n names).value = n ∧
      (applyRules revisit ctx kind rules n names).calls = idleCalls rules kind := by
  induction rules generalizing names with
  | nil => exact ⟨rfl, rfl⟩
  | cons rule rules ih =>
    obtain ⟨names', hcall⟩ := hrules rule List.mem_cons_self ctx n names
    have ih := ih fun r hr => hrules r (List.mem_cons_of_mem rule hr)
    by_cases hclaims : rule.claims kind = true
    · rw [applyRules_of_claims hclaims, hcall]
      obtain ⟨hvalue, hcalls⟩ := ih names'
      refine ⟨hvalue, ?_⟩
      rw [idleCalls_cons, if_pos hclaims, ← hcalls]
      rfl
    · rw [applyRules_of_not_claims hclaims, idleCalls_cons, if_neg hclaims]
      exact ih names

/-- A sweep makes the calls of its steps one after the other. -/
theorem calls_of_sweep {calls : Node → List Call} {cs : List Node} {names : NameSupply}
    {p : Progress (List Node)} (h : Sweep (fun n _ q => q.calls = calls n) cs names p) :
    p.calls = cs.flatMap calls := by
  induction h with
  | nil => rfl
  | cons head _ ih => rw [List.flatMap_cons, ← head, ← ih]

theorem visitWith_inert (hrules : ∀ rule ∈ rules, rule.IsInert) (n : Node) (names : NameSupply) :
    (visitWith revisit rules ctx n names).calls =
      n.postorder.flatMap fun m => idleCalls rules m.kind := by
  induction n using Node.inductionOn generalizing names with
  | step form span marks ih =>
    obtain ⟨hshape, hchildren⟩ := mapM_form (visitWith revisit rules ctx) form names
    have hsweep := Sweep.of_mapM
      (P := fun n _ q => q.calls = n.postorder.flatMap fun m => idleCalls rules m.kind) ih names
    rw [hchildren] at hsweep
    have hbelow : (form.mapM (visitWith revisit rules ctx) names).calls = _ := calls_of_sweep hsweep
    have hkind : (Node.settle (form.mapM (visitWith revisit rules ctx) names).value span
        marks).kind = form.kind := by
      have : (form.mapM (visitWith revisit rules ctx) names).value.kind = form.kind := by
        simpa [Form.shape] using congrArg Form.kind hshape
      simpa [Node.settle, Node.kind] using this
    rw [visitWith_apply, Node.postorder_mk, List.flatMap_append, List.flatMap_assoc]
    show _ ++ _ = _ ++ _
    rw [(applyRules_inert hrules _ _ _).2, hkind, hbelow]
    simp [Node.kind]

theorem visit_inert (hrules : ∀ rule ∈ rules, rule.IsInert) (revisits : Nat) (n : Node)
    (names : NameSupply) :
    (visit rules ctx revisits n names).calls =
      n.postorder.flatMap fun m => idleCalls rules m.kind := by
  cases revisits with
  | zero => exact visitWith_inert hrules n names
  | succ revisits => exact visitWith_inert hrules n names

end Pass

/-! ### Priorities -/

namespace Session

theorem sortByPriority_perm (s : Session) : s.sortByPriority.rules.Perm s.rules :=
  List.mergeSort_perm _ _

theorem sortByPriority_pairwise (s : Session) :
    s.sortByPriority.rules.Pairwise fun a b => b.priority ≤ a.priority := by
  have hsorted : s.sortByPriority.rules.Pairwise
      fun a b => decide (b.priority ≤ a.priority) = true :=
    List.pairwise_mergeSort (fun a b c hab hbc => by simp at hab hbc ⊢; omega)
      (fun a b => by simp; omega) s.rules
  exact hsorted.imp fun hab => by simpa using hab

/-- Sorting keeps the order of the rules of one priority. -/
theorem filter_sortByPriority (s : Session) (priority : Nat) :
    s.sortByPriority.rules.filter (·.priority == priority) =
      s.rules.filter (·.priority == priority) := by
  have hequal : ∀ r ∈ s.rules.filter (·.priority == priority), r.priority = priority :=
    fun r hr => by simpa using (List.mem_filter.1 hr).2
  have hpairwise : (s.rules.filter (·.priority == priority)).Pairwise
      fun a b => decide (b.priority ≤ a.priority) = true := by
    refine List.pairwise_of_forall_mem_list fun a ha b hb => ?_
    simp [hequal a ha, hequal b hb]
  have hsublist : (s.rules.filter (·.priority == priority)).Sublist s.sortByPriority.rules :=
    List.sublist_mergeSort (fun a b c hab hbc => by simp at hab hbc ⊢; omega)
      (fun a b => by simp; omega) hpairwise List.filter_sublist
  have hfiltered := hsublist.filter (·.priority == priority)
  simp only [List.filter_filter, Bool.and_self] at hfiltered
  have hlength := (s.sortByPriority_perm.filter (·.priority == priority)).length_eq
  exact (hfiltered.eq_of_length hlength.symm).symm

/-- What a run does and what reading the tree finds agree. Take a session that was put together in
any way and has sorted its rules, none of which ever touches a node. The calls of a run, with or
without a file or tokens, go through the tree in postorder, and at each node through the rules that
claim its kind, by descending priority and in the order of their addition among equals. So every
node of the tree, and nothing else, has its turn exactly once. Each rule's applications grow by the
number of its calls, and nothing else is counted. -/
theorem run_calls_in_postorder (s : Session) (hreachable : s.Reachable)
    (hrules : ∀ rule ∈ s.rules, rule.IsInert) (file : Option FileId) (tree : Node)
    (tokens : Option (List Token)) :
    let sorted := s.sortByPriority
    let run := sorted.transform file tree tokens
    (run.calls.map fun call => (call.rule, call.kind)) =
      (tree.postorder.flatMap fun n =>
        (sorted.rules.filter (·.claims n.kind)).map fun rule => (rule, n.kind)) ∧
    (sorted.rules.Perm s.rules ∧
      (sorted.rules.Pairwise fun a b => b.priority ≤ a.priority) ∧
      ∀ priority, sorted.rules.filter (·.priority == priority) =
        s.rules.filter (·.priority == priority)) ∧
    tree.postorder.Perm tree.preorder ∧
    ∀ rule ∈ s.rules, run.session.tallyOf rule.name =
      let before := sorted.tallyOf rule.name
      { before with
        applications := before.applications +
          (run.calls.filter (·.rule.name == rule.name)).length } := by
  intro sorted run
  have hsorted : ∀ rule ∈ sorted.rules, rule.IsInert :=
    fun rule hrule => hrules rule (s.sortByPriority_perm.mem_iff.1 hrule)
  have hcalls : run.calls = tree.postorder.flatMap fun n => idleCalls sorted.rules n.kind :=
    Pass.visit_inert hsorted sorted.maxRevisits tree sorted.names
  refine ⟨?_, ⟨s.sortByPriority_perm, s.sortByPriority_pairwise, s.filter_sortByPriority⟩,
    tree.postorder_perm_preorder, fun rule hrule => ?_⟩
  · rw [hcalls, List.map_flatMap]
    simp only [idleCalls, List.map_map]
    rfl
  · have hidle : ∀ c ∈ run.calls, c.outcome = .unchanged := by
      intro c hc
      rw [hcalls] at hc
      obtain ⟨n, -, hc⟩ := List.mem_flatMap.1 hc
      obtain ⟨r, -, rfl⟩ := List.mem_map.1 hc
      rfl
    have htally : run.session.tallyOf rule.name = (sorted.tallyOf rule.name).count run.calls :=
      hreachable.sorted.tallied.tallyOf_transform (s.sortByPriority_perm.mem_iff.2 hrule) file tree
        tokens
    obtain ⟨hmutations, hreplacements⟩ := Tally.count_unchanged hidle (sorted.tallyOf rule.name)
    rw [htally]
    simp only [Tally.count, sorted.rule_tallyOf] at hmutations hreplacements ⊢
    rw [hmutations, hreplacements]

/-- Two rules that only watch, the second one of higher priority, over `$x = $y; return;` with the
first statement in a group: both see the variables, the second one first. -/
theorem run_calls_in_postorder_of_two_watchers :
    let watcher (name : String) (priority : Nat) (kinds : List Kind) : Rule :=
      { name, description := "", priority, kinds, call := fun _ n names => .none n names }
    let s := (({} : Session).add (watcher "low" 1 [.var, .program])).add
      (watcher "high" 2 [.var, .group, .ret])
    let tree := Node.synthesized (.program [
      Node.synthesized (.group [Node.synthesized (.expression
        (Node.synthesized (.assign (Node.var "x") (Node.var "y"))))]),
      Node.synthesized (.ret none)])
    let run := s.sortByPriority.transform none tree none
    s.Reachable ∧ (∀ rule ∈ s.rules, rule.IsInert) ∧
      (run.calls.map fun call => (call.rule.name, call.kind)) =
        [("high", .var), ("low", .var), ("high", .var), ("low", .var), ("high", .group),
          ("high", .ret), ("low", .program)] ∧
      run.session.tallyOf "high" = ⟨"high", 4, 0, 0⟩ := by
  intro watcher s tree run
  have hreachable : s.Reachable := .add _ (.add _ .new)
  have hrules : ∀ rule ∈ s.rules, rule.IsInert := by
    intro rule hrule
    have hcall : ∀ name priority kinds, (watcher name priority kinds).IsInert :=
      fun _ _ _ _ n names => ⟨names, rfl⟩
    rcases List.mem_pair.1 hrule with rfl | rfl <;> exact hcall _ _ _
  let high := watcher "high" 2 [.var, .group, .ret]
  have hsorted : s.sortByPriority =
      { s with rules := [high, watcher "low" 1 [.var, .program]] } := by
    simp [sortByPriority, s, high, watcher, add, List.mergeSort,
      List.MergeSort.Internal.splitInTwo]
  obtain ⟨hcalls, -, -, htallies⟩ := run_calls_in_postorder s hreachable hrules none tree none
  have htally := htallies high (List.mem_pair.2 (.inr rfl))
  have hrun : run = _ := congrArg (·.transform none tree none) hsorted
  rw [hsorted] at hcalls htally
  rw [hrun]
  refine ⟨hreachable, hrules, ?_, htally.trans (by decide +kernel)⟩
  have hnames := congrArg (List.map fun call : Rule × Kind => (call.1.name, call.2)) hcalls
  rw [List.map_map] at hnames
  exact hnames.trans (by decide +kernel)

end Session

end SyntaxLowering
