import SyntaxLowering.Proofs.SplicedGroups
import SyntaxLowering.Source.Printer

/-!
# Hoisting is complete within the limit

A statement with one object more than there are revisits is cleared of all of them: one object is
hoisted when the statement is visited first, and the two statements that it becomes are visited with
one revisit less. So no object is left if no statement has more, and the replacements by the rule
are then the whole of what there was to hoist. Whether or not the limit is enough, every object that
was hoisted is assigned before it is used.
-/

namespace SyntaxLowering

namespace Hoist

/-! ### Single rewrites -/

theorem hoistable_var (x : String) : (Node.var x).All (hoistable · = 0) :=
  Node.all_iff.2 ⟨rfl, fun _ hc => absurd hc List.not_mem_nil⟩

/-- A lowered access over finished parts leaves nothing to hoist. -/
theorem hoistable_lowered {n object : Node} {plain : Node → Form Node}
    (h : Nullsafe.access? n.form = some (object, plain))
    (hchildren : ∀ c ∈ n.form.children, c.All (hoistable · = 0)) (strict : Bool) (x : String) :
    (Nullsafe.lowered strict (Node.var x) object plain).All (hoistable · = 0) := by
  refine Nullsafe.all_lowered (Node.layered_all _) h hchildren (hoistable_var x) rfl rfl ?_ ?_ rfl
  · cases strict <;> rfl
  · have haccess := Nullsafe.Access.of_access? h
    revert haccess
    generalize n.form = form
    rintro (_ | _) <;> rfl

/-- Of the objects of a statement over finished parts one is hoisted, and the two statements share
the others. -/
theorem hoistable_hoisted {n : Node} {hole : Hole Node} {room : Nat}
    (h : receiverInStatement? n = some hole)
    (hchildren : ∀ c ∈ n.form.children, c.All (hoistable · = 0)) (hload : hoistable n ≤ room + 1)
    (x : String) : (hoisted (Node.var x) hole).All (hoistable · ≤ room) := by
  have hdivided := workload.hoisted h x
  rw [if_pos rfl] at hdivided
  obtain ⟨value, plug, inner, hslot, hvalue, rfl⟩ := receiverInStatement?_eq_some h
  obtain ⟨hchild, hrefilled⟩ := hslot.children_eq
  have hroom {m : Node} (hm : m.All (hoistable · = 0)) : m.All (hoistable · ≤ room) :=
    hm.mono fun _ hk => hk ▸ Nat.zero_le room
  obtain ⟨hcontent, hfill⟩ := (Path.of_receiver? hvalue).all (Node.layered_all _)
    (fun hslot hself y => (workload.refilled hslot y _ _).trans hself)
    (hchildren value (hchild ▸ List.mem_cons_self))
  refine all_hoisted (Node.layered_all _) (hroom (hoistable_var x)) (hroom hcontent) ?_
    (Nat.zero_le _) ?_ (Nat.zero_le _)
  · refine Node.all_iff.2 ⟨by omega, fun c hc => ?_⟩
    have hc : c ∈ (plug (inner.fill (Node.var x))).children := hc
    rw [hrefilled] at hc
    obtain rfl := List.mem_singleton.1 hc
    exact hroom (hfill _ (hoistable_var x))
  · show hoistable _ ≤ room
    simp only [Hole.under, Hole.map] at hdivided ⊢
    omega

end Hoist

/-! ### Whole visits -/

namespace Pass

variable {cfg : Settings} {ctx : Context} {file : FileId} {rules : List Rule}
  {revisit : Node → Pass Node} {revisits : Nat}

/-- The rules leave nothing to hoist at a settled node over finished children, if the visit of what
they put in its place does so. -/
theorem hoistable_applyRules (hfile : ctx.file = some file) (hrules : rules ⊆ cfg.catalog)
    (hhoist : Hoist.rule cfg.hoistStem ∈ rules)
    (hrevisit : ∀ m names, m.All (Hoist.hoistable · ≤ revisits) →
      (revisit m names).value.All (Hoist.hoistable · = 0))
    {n : Node} (hsettled : n.Settled)
    (hchildren : ∀ c ∈ n.form.children, c.All (Hoist.hoistable · = 0))
    (hload : Hoist.hoistable n ≤ revisits + 1) (names : NameSupply) :
    (applyRules revisit ctx n.kind rules n names).value.All (Hoist.hoistable · = 0) := by
  have happlied : Applied cfg ctx revisit n _ ∨ _ := applied_or_idle hfile hrules hsettled names
  generalize (applyRules revisit ctx n.kind rules n names).value = m at happlied ⊢
  rcases happlied with happlied | ⟨rfl, hidle⟩
  · cases happlied with
    | quiet hself _ _ => exact Node.all_iff.2 ⟨hself, hchildren⟩
    | cleaned hclean =>
      refine Node.all_iff.2 ⟨Nat.le_zero.1 (NormalAt.cleaned hsettled hclean 0).load, ?_⟩
      intro c hc
      rw [(TrailingComma.Cleaned.of_cleanForm? hclean).children_eq] at hc
      exact hchildren c hc
    | lowered haccess x names =>
      have hlowered := Hoist.hoistable_lowered haccess hchildren cfg.strictNullCheck x
      exact hrevisit _ names (hlowered.mono fun _ hk => hk ▸ Nat.zero_le revisits)
    | hoisted hreceiver x names =>
      exact hrevisit _ names (Hoist.hoistable_hoisted hreceiver hchildren hload x)
  · -- the hoisting rule was called and left the node alone
    refine Node.all_iff.2 ⟨?_, hchildren⟩
    have hcall := hidle _ hhoist
    rw [Hoist.call_eq hfile] at hcall
    cases hreceiver : Hoist.receiverInStatement? m with
    | none => exact Hoist.receiverInStatement?_eq_none.1 hreceiver
    | some hole => simp [hreceiver, Effect.none, Effect.replace] at hcall

theorem visitWith_hoistable (hfile : ctx.file = some file) (hrules : rules ⊆ cfg.catalog)
    (hhoist : Hoist.rule cfg.hoistStem ∈ rules)
    (hcounts : ∀ n names, Hoist.CountsAs n (visitWith revisit rules ctx n names).value)
    (hsettled : ∀ m names, m.All Node.Settled → (revisit m names).value.All Node.Settled)
    (hrevisit : ∀ m names, m.All (Hoist.hoistable · ≤ revisits) →
      (revisit m names).value.All (Hoist.hoistable · = 0))
    {n : Node} (hn : n.All (Hoist.hoistable · ≤ revisits + 1)) (names : NameSupply) :
    (visitWith revisit rules ctx n names).value.All (Hoist.hoistable · = 0) := by
  induction n using Node.inductionOn generalizing names with
  | step form span marks ih =>
    obtain ⟨hshape, hchildren⟩ := mapM_form (visitWith revisit rules ctx) form names
    have hbelow := all_of_visited (fun c hc names => ih c hc (hn.child hc) names) names
    have hbelow' : ∀ c ∈ (form.mapM (visitWith revisit rules ctx) names).value.children,
        c.All Node.Settled :=
      all_of_visited (fun c _ names => visitWith_settled hrules hsettled c names) names
    -- a statement has as much to hoist over its visited parts as it had before
    have hsweep : Sweep (fun c _ p => Hoist.CountsAs c p.value) form.children names _ :=
      Sweep.of_mapM (fun c _ names => hcounts c names) names
    rw [hchildren] at hsweep
    have hrel : Form.Rel Hoist.CountsAs form
        (form.mapM (visitWith revisit rules ctx) names).value :=
      ⟨hshape.symm, hsweep.forall₂ fun _ _ _ h => h⟩
    rw [visitWith_apply]
    refine hoistable_applyRules hfile hrules hhoist hrevisit
      (Node.all_settled_settle hbelow').self (fun c hc => ?_) ?_ _
    · rcases Form.mem_children_settled hc with hc | ⟨g, hg, hc⟩
      · exact hbelow c hc
      · exact (hbelow g hg).child hc
    · rw [Hoist.hoistable_settle (n := ⟨form, span, marks⟩) hrel]
      exact hn.self

/-- A visit leaves nothing to hoist, if no statement has more than one object beyond the number of
revisits. -/
theorem visit_hoistable (hfile : ctx.file = some file) (hrules : rules ⊆ cfg.catalog)
    (hhoist : Hoist.rule cfg.hoistStem ∈ rules) {n : Node}
    (hn : n.All (Hoist.hoistable · ≤ revisits + 1)) (names : NameSupply) :
    (visit rules ctx revisits n names).value.All (Hoist.hoistable · = 0) := by
  have hcounts (revisits : Nat) (n : Node) (names : NameSupply) :
      Hoist.CountsAs n (visit rules ctx revisits n names).value :=
    .visit hrules revisits n names
  induction revisits generalizing n names with
  | zero =>
    refine visitWith_hoistable hfile hrules hhoist (hcounts 0) (fun _ _ hm => hm) ?_ hn names
    exact fun _ _ hm => hm.mono fun _ hk => Nat.le_zero.1 hk
  | succ revisits ih =>
    exact visitWith_hoistable hfile hrules hhoist (hcounts (revisits + 1))
      (fun m names _ => visit_settled hrules revisits m names) (fun _ names hm => ih hm names) hn
      names

end Pass

/-- Calls of rules of other names count for nothing. -/
theorem replacementsBy_eq_zero {rule : String} {calls : List Call}
    (h : ∀ c ∈ calls, c.rule.name ≠ rule) : replacementsBy rule calls = 0 := by
  have hfilter : calls.filter (·.rule.name == rule) = [] :=
    List.filter_eq_nil_iff.2 fun c hc hname => h c hc (beq_iff_eq.1 hname)
  simp [replacementsBy, Tally.count, hfilter]

/-- Nullsafe lowering leaves as much to hoist as there was. -/
theorem Hoist.total_nullsafe (cfg : Settings) (ctx : Context) (revisits : Nat) (n : Node)
    (names : NameSupply) :
    (Pass.visit [Nullsafe.rule cfg.nullsafeStem cfg.strictNullCheck] ctx revisits n
      names).value.total hoistable = n.total hoistable := by
  have hrules : [Nullsafe.rule cfg.nullsafeStem cfg.strictNullCheck] ⊆ cfg.catalog := by
    simp [Settings.catalog]
  have hnone : replacementsBy "InstanceMethodCall" (Pass.visit
      [Nullsafe.rule cfg.nullsafeStem cfg.strictNullCheck] ctx revisits n names).calls = 0 := by
    refine replacementsBy_eq_zero fun c hc => ?_
    rw [List.mem_singleton.1 (Pass.rule_mem_of_visit _ ctx revisits n names c hc)]
    simp [Nullsafe.rule]
  rw [workload.visit hrules revisits n names, hnone, Nat.add_zero]

/-! ### The names of hoisted objects -/

/-- The names drawn are temporaries of the tree afterwards. -/
theorem Introduces.isTemporary {cfg : Settings} {file : FileId} {drawn : List String}
    {n n' : Node} {names names' : NameSupply} {calls : List Call}
    (h : Introduces cfg file n.variableNames drawn n.uses names n'.uses names' calls) {x : String}
    (hx : x ∈ drawn) : IsTemporary n' x := by
  obtain ⟨hmention, htarget, hobject, hbinder⟩ := count_ofTemporary drawn x
  have hone : drawn.count x = 1 := List.count_eq_one_of_mem h.draws.nodup hx
  have hfresh := h.draws.not_mem_reserved x hx
  -- the name is new, so all its uses are those of a temporary
  have hcount (u : Use) (hu : u.name = x) :
      n'.uses.count u = (drawn.flatMap Use.ofTemporary).count u := by
    have hold : n.uses.count u = 0 :=
      List.count_eq_zero.2 fun hmem => hfresh (hu ▸ Node.name_mem_variableNames hmem)
    rw [h.uses.count_eq, List.count_append, hold, Nat.zero_add]
  have hnone : .binder x ∉ n'.uses := by
    rw [← List.count_eq_zero, hcount _ rfl, hbinder]
  refine ⟨?_, ?_, ?_, ?_, ?_⟩
  · rw [← Node.count_mention, hcount _ rfl, hmention, hone]
  · rw [← Node.count_target, hcount _ rfl, htarget, hone]
  · rw [← Node.count_object, hcount _ rfl, hobject, hone]
  · exact fun m hm p hp hname => hnone (Node.binder_mem_uses hm (.inl ⟨p, hp, hname⟩))
  · exact fun m hm c hc hname => hnone (Node.binder_mem_uses hm (.inr ⟨c, hc, hname⟩))

/-- What is defined first is a variable of the tree. -/
theorem Node.DefinesFirst.mem_variableNames {tree : Node} {x : String}
    (h : tree.DefinesFirst x) : x ∈ tree.variableNames := by
  obtain ⟨m, hm, definition, use, hlist, -, huse⟩ := h
  obtain ⟨k, hk, hlocal⟩ := List.mem_flatMap.1 huse.mem_uses
  have hchild : use ∈ m.form.children :=
    Form.mem_children_of_mem_statements (hlist.subset (List.mem_cons_of_mem _ List.mem_cons_self))
  exact Node.name_mem_variableNames (List.mem_flatMap.2
    ⟨k, Node.mem_preorder_trans hm (Node.mem_preorder_trans (Node.mem_preorder_child hchild) hk),
      hlocal⟩)

/-- Hoisting is complete within the limit and defines before use. If after nullsafe lowering no
statement has more than one object to hoist beyond the limit on revisits, a run leaves none, and its
replacements are the objects that there were. Whatever the limit, each replacement draws a name, and
the temporary of that name is assigned in a statement that stands in the same list before the
statement of its only use. The use is in an expression of that statement, and in no list nested in
it. No list holds a group, and no group is left anywhere if the statements of the tree stand in
lists. -/
theorem run_hoists_completely (cfg : Settings) (s : Session) (hrules : s.rules ⊆ cfg.catalog)
    (file : FileId) (tree : Node) (tokens : List Token) :
    let rule := Hoist.rule cfg.hoistStem
    let lowered := (({ s with rules := [Nullsafe.rule cfg.nullsafeStem cfg.strictNullCheck] } :
      Session).run file tree tokens).tree
    let load := (lowered.preorder.map Hoist.hoistable).sum
    let run := s.run file tree tokens
    let drawn := replay cfg file tree.variableNames s.names run.calls
    (rule ∈ s.rules → (∀ n ∈ lowered.preorder, Hoist.hoistable n ≤ s.maxRevisits + 1) →
      (∀ n ∈ run.tree.preorder, Hoist.hoistable n = 0) ∧
      replacementsBy rule.name run.calls = load ∧
      (s.Reachable → (run.session.tallyOf rule.name).replacements =
        (s.tallyOf rule.name).replacements + load)) ∧
    (drawn.1.length = replacementsBy rule.name run.calls ∧ run.session.names = drawn.2) ∧
    (∀ x ∈ drawn.1, IsTemporary run.tree x ∧ run.tree.DefinesFirst x) ∧
    (∀ n ∈ run.tree.preorder, ∀ m ∈ n.form.statements, m.form.isGroup = false) ∧
    (tree.kind.isDivisible = false → (∀ n ∈ tree.preorder, n.Orderly) →
      ∀ n ∈ run.tree.preorder, n.form.isGroup = false) := by
  intro rule lowered load run drawn
  let ctx : Context := ⟨some file, some tokens, tree.variableNames⟩
  have hhoists : Hoists cfg file ctx.reserved tree s.names
      (Pass.visit s.rules ctx s.maxRevisits tree s.names) := Hoists.visit rfl hrules _ _ _
  refine ⟨fun hrule hload => ?_, ⟨length_replay _ _ _ _ _, hhoists.supply⟩, fun x hx => ?_, ?_, ?_⟩
  · have hload : (Pass.visit [Nullsafe.rule cfg.nullsafeStem cfg.strictNullCheck] ctx s.maxRevisits
        tree s.names).value.All (Hoist.hoistable · ≤ s.maxRevisits + 1) := hload
    have hfinished : run.tree.All (Hoist.hoistable · = 0) :=
      Pass.visit_hoistable rfl hrules hrule (Hoist.hoistable_le_of_nullsafe rfl _ _ _ hload) s.names
    have htotal : load = replacementsBy rule.name run.calls := by
      calc load = tree.total Hoist.hoistable :=
            Hoist.total_nullsafe cfg ctx s.maxRevisits tree s.names
        _ = run.tree.total Hoist.hoistable + replacementsBy rule.name run.calls :=
            Hoist.workload.visit hrules s.maxRevisits tree s.names
        _ = replacementsBy rule.name run.calls := by
            rw [Node.total, List.map_congr_left hfinished, List.map_const', List.sum_replicate]
            simp
    refine ⟨hfinished, htotal.symm, fun hreachable => ?_⟩
    rw [htotal]
    exact hreachable.tallied.replacements_tallyOf hrule file tree tokens
  · have hdefined : run.tree.DefinesFirst x := hhoists.defines x hx
    have hnew : x ∉ tree.variableNames := not_mem_reserved_of_mem_replay cfg file _ hx
    obtain ⟨-, introduced, hintroduced⟩ : Hygienic cfg file tree.variableNames tree s.names
        (Pass.visit s.rules ctx s.maxRevisits tree s.names) := Hygienic.visit rfl hrules _ _ _
    have hmem : x ∈ introduced :=
      (hintroduced.mem_variableNames.1 hdefined.mem_variableNames).resolve_left hnew
    exact ⟨hintroduced.isTemporary hmem, hdefined⟩
  · have hsettled : run.tree.All Node.Settled :=
      Pass.visit_settled hrules s.maxRevisits tree s.names
    exact fun n hn => (hsettled n hn).flat
  · exact fun hkind horderly => Pass.visit_ungrouped hrules hkind horderly s.maxRevisits s.names

/-- One revisit is enough for an object in the constructor of another,
`function h() { return (new A((clone $b)->g($c?->d)))->f(); }`. -/
theorem run_hoists_completely_of_nested_objects :
    let cfg : Settings := {}
    let rule := Hoist.rule cfg.hoistStem
    let s : Session := { (({} : Session).add TrailingComma.rule).add rule with maxRevisits := 1 }
    let d := Node.synthesized (.nullsafePropertyFetch (Node.var "c") "d")
    let g := Node.synthesized (.methodCall (Node.synthesized (.clone (Node.var "b"))) "g"
      [{ value := d }])
    let a := Node.synthesized (.new (Node.synthesized (.name "A")) [{ value := g }])
    let tree := Node.synthesized (.functionDecl "h" []
      [Node.synthesized (.ret (some (Node.synthesized (.methodCall a "f" []))))])
    let lowered := (({ s with rules := [Nullsafe.rule cfg.nullsafeStem cfg.strictNullCheck] } :
      Session).run "a.php" tree []).tree
    let run := s.run "a.php" tree []
    s.rules ⊆ cfg.catalog ∧ rule ∈ s.rules ∧ s.Reachable ∧
      (∀ n ∈ lowered.preorder, Hoist.hoistable n ≤ 2) ∧ (∀ n ∈ tree.preorder, n.Orderly) ∧
      (∀ n ∈ run.tree.preorder, Hoist.hoistable n = 0) ∧
      (run.session.tallyOf rule.name).replacements = 2 ∧
      (∀ x ∈ ["object1", "object2"], IsTemporary run.tree x ∧ run.tree.DefinesFirst x) ∧
      (∀ n ∈ run.tree.preorder, n.form.isGroup = false) ∧
      run.tree.toSource = "function h()\n\x7b\n    $object2 = clone $b;\n" ++
        "    $object1 = new A($object2->g($c?->d));\n    return $object1->f();\n\x7d" := by
  intro cfg rule s d g a tree lowered run
  have hrules : s.rules = [TrailingComma.rule, rule] := rfl
  have hsub : s.rules ⊆ cfg.catalog := by simp [hrules, rule, Settings.catalog]
  have hmem : rule ∈ s.rules := by simp [hrules]
  have hreachable : s.Reachable := .limited 1 (.add rule (.add TrailingComma.rule .new))
  have hload : ∀ n ∈ lowered.preorder, Hoist.hoistable n ≤ 2 := by decide +kernel
  have horderly : ∀ n ∈ tree.preorder, n.Orderly := by decide +kernel
  have hdrawn : (replay cfg "a.php" tree.variableNames s.names run.calls).1 =
      ["object1", "object2"] := by decide +kernel
  obtain ⟨hcomplete, -, hdefined, -, hungrouped⟩ :=
    run_hoists_completely cfg s hsub "a.php" tree []
  obtain ⟨hfinished, -, htally⟩ := hcomplete hmem hload
  exact ⟨hsub, hmem, hreachable, hload, horderly, hfinished,
    (htally hreachable).trans (by decide +kernel), fun x hx => hdefined x (hdrawn ▸ hx),
    hungrouped rfl horderly, by decide +kernel⟩

end SyntaxLowering
