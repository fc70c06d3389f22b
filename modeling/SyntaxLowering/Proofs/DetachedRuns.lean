import SyntaxLowering.Proofs.NormalForm
import SyntaxLowering.Source.Printer

/-!
# Trees of no file

Two rules of the catalog need new names, and for a tree of no file there are none. They are called
on it all the same and leave every node alone, so a run over the tree settles each layer, cleans its
lists if the rule for commas is there, and does nothing else (`Pass.visit_detached`). No name is
drawn, and the runs over files before and after it cannot tell whether it took place.
-/

namespace SyntaxLowering

/-- A tree rebuilt bottom-up: each layer is settled over its rebuilt children and then finished.
With nothing to finish, this splices groups and lets stale text spread to what contains it. -/
def Node.settleWith (finish : Node → Node) (n : Node) : Node :=
  n.fold fun layer span marks => finish (Node.settle layer span marks)

theorem Node.settleWith_mk (finish : Node → Node) (form : Form Node) (span : Option Span)
    (marks : Marks) :
    Node.settleWith finish ⟨form, span, marks⟩ =
      finish (Node.settle (form.map (Node.settleWith finish)) span marks) :=
  Node.fold_mk _ form span marks

/-- A node with its lists cleaned. -/
def TrailingComma.cleaned (ctx : Context) (n : Node) : Node :=
  match cleanForm? ctx n.form with
  | none => n
  | some form => ⟨form, n.span, n.marks.outdated⟩

namespace TrailingComma

variable (ctx : Context) (n : Node)

theorem kind_cleaned : (cleaned ctx n).kind = n.kind := by
  unfold cleaned
  split
  · rfl
  · next form hclean => exact (Cleaned.of_cleanForm? hclean).kind

/-- Cleaning twice is cleaning once. -/
theorem cleaned_cleaned : cleaned ctx (cleaned ctx n) = cleaned ctx n := by
  cases hclean : cleanForm? ctx n.form with
  | none => simp only [cleaned, hclean]
  | some form => simp only [cleaned, hclean, cleanForm?_cleanForm? hclean]

theorem call_eq_cleaned (names : NameSupply) :
    ∃ verdict, (∀ m, verdict ≠ .replaced m) ∧
      rule.call ctx n names = ⟨verdict, cleaned ctx n, names⟩ := by
  rw [call_eq]
  unfold cleaned
  cases cleanForm? ctx n.form with
  | none => exact ⟨.unchanged, nofun, rfl⟩
  | some form => exact ⟨.mutated, nofun, rfl⟩

variable {ctx n}

theorem cleaned_congr {ctx' : Context} (h : ctx'.tokens = ctx.tokens) :
    cleaned ctx' = cleaned ctx := by
  funext n
  rw [cleaned, cleaned, cleanForm?_congr h]

theorem cleaned_of_not_claims (ctx : Context) (h : ¬rule.claims n.kind = true) :
    cleaned ctx n = n := by
  have hclean : cleanForm? ctx n.form = none :=
    cleanForm?_eq_none_iff.2 fun hkind => absurd (List.contains_iff_mem.2 hkind) h
  rw [cleaned, hclean]

end TrailingComma

/-! ### A pass without a file -/

/-- Without a file, every rule of the catalog but the one for commas leaves every node alone. -/
theorem comma_or_idle {cfg : Settings} {ctx : Context} (hfile : ctx.file = none) {rule : Rule}
    (hrule : rule ∈ cfg.catalog) :
    rule = TrailingComma.rule ∨
      rule ≠ TrailingComma.rule ∧ ∀ n names, rule.call ctx n names = .none n names := by
  have hne {r : Rule} (hname : r.name ≠ TrailingComma.rule.name) : r ≠ TrailingComma.rule :=
    fun h => hname (congrArg Rule.name h)
  simp only [Settings.catalog, List.mem_cons, List.not_mem_nil, or_false] at hrule
  rcases hrule with rfl | rfl | rfl
  · refine .inr ⟨hne (show "InstanceMethodCall" ≠ _ by decide), fun n names => ?_⟩
    simp only [Hoist.rule, hfile]
    rfl
  · refine .inr ⟨hne (show "NullsafeToTernary" ≠ _ by decide), fun n names => ?_⟩
    simp only [Nullsafe.rule, Context.freshVariable, hfile]
    cases Nullsafe.access? n.form <;> rfl
  · exact .inl rfl

namespace Pass

variable {rules : List Rule} {ctx : Context} {revisit : Node → Pass Node} {finish : Node → Node}

/-- A step that finishes a node and draws no names. -/
structure Finishes (finish : Node → Node) (n : Node) (names : NameSupply) (p : Progress Node) :
    Prop where
  value : p.value = finish n
  names : p.names = names

theorem Finishes.sweep {cs : List Node} {names : NameSupply} {p : Progress (List Node)}
    (h : Sweep (Finishes finish) cs names p) : p.value = cs.map finish ∧ p.names = names := by
  induction h with
  | nil names => exact ⟨rfl, rfl⟩
  | cons head _ ih =>
    obtain ⟨hvalue, hnames⟩ := ih
    exact ⟨by rw [List.map_cons, head.value, hvalue], hnames.trans head.names⟩

/-- Steps that finish the children of a layer map it. -/
theorem Finishes.mapM {f : Node → Pass Node} {form : Form Node}
    (h : ∀ c ∈ form.children, ∀ names, Finishes finish c names (f c names)) (names : NameSupply) :
    (form.mapM f names).value = form.map finish ∧ (form.mapM f names).names = names := by
  obtain ⟨hshape, hchildren⟩ := mapM_form f form names
  have hsweep := Sweep.of_mapM h names
  rw [hchildren] at hsweep
  obtain ⟨hvalue, hnames⟩ := Finishes.sweep hsweep
  refine ⟨Form.eq_of_shape_eq ?_ ?_, hnames⟩
  · rw [hshape, Form.shape, Form.shape, Form.map_map]
  · rw [Form.children_map]
    exact hvalue

/-- If the rules only finish settled nodes, a visit rebuilds the tree with them. -/
theorem Finishes.visitWith
    (h : ∀ n names, Finishes finish n names (applyRules revisit ctx n.kind rules n names))
    (n : Node) (names : NameSupply) :
    Finishes (Node.settleWith finish) n names (visitWith revisit rules ctx n names) := by
  induction n using Node.inductionOn generalizing names with
  | step form span marks ih =>
    obtain ⟨hform, hnames⟩ := Finishes.mapM ih names
    have happly := h (Node.settle (form.map (Node.settleWith finish)) span marks)
      (form.mapM (Pass.visitWith revisit rules ctx) names).names
    rw [visitWith_apply]
    constructor
    · rw [Node.settleWith_mk, ← happly.value, ← hform]
    · exact (hform ▸ happly.names).trans hnames

/-- A rule that leaves a node alone makes no difference to what the others do. -/
theorem Finishes.skip {rule : Rule} {n : Node} {names : NameSupply}
    (hidle : rule.call ctx n names = .none n names)
    (hrest : Finishes finish n names (applyRules revisit ctx n.kind rules n names)) :
    Finishes finish n names (applyRules revisit ctx n.kind (rule :: rules) n names) := by
  by_cases hclaims : rule.claims n.kind = true
  · rw [applyRules_of_claims hclaims, hidle]
    exact ⟨hrest.value, hrest.names⟩
  · rw [applyRules_of_not_claims hclaims]
    exact hrest

/-- The rule for commas cleans the node for those that come after it. -/
theorem Finishes.clean {n : Node} {names : NameSupply}
    (hrest : Finishes finish (TrailingComma.cleaned ctx n) names
      (applyRules revisit ctx n.kind rules (TrailingComma.cleaned ctx n) names)) :
    Finishes (finish ∘ TrailingComma.cleaned ctx) n names
      (applyRules revisit ctx n.kind (TrailingComma.rule :: rules) n names) := by
  by_cases hclaims : TrailingComma.rule.claims n.kind = true
  · obtain ⟨verdict, hverdict, hcall⟩ := TrailingComma.call_eq_cleaned ctx n names
    rw [applyRules_of_claims hclaims, hcall]
    cases verdict with
    | replaced m => exact absurd rfl (hverdict m)
    | unchanged => exact ⟨hrest.value, hrest.names⟩
    | mutated => exact ⟨hrest.value, hrest.names⟩
  · have hself := TrailingComma.cleaned_of_not_claims ctx hclaims
    rw [applyRules_of_not_claims hclaims]
    rw [hself] at hrest
    exact ⟨hrest.value.trans (congrArg finish hself.symm), hrest.names⟩

/-- What some rules make of a settled node of no file: they clean it, or leave it alone. -/
structure Detached (ctx : Context) (revisit : Node → Pass Node) (rules : List Rule) : Prop where
  cleans : TrailingComma.rule ∈ rules → ∀ n names,
    Finishes (TrailingComma.cleaned ctx) n names (applyRules revisit ctx n.kind rules n names)
  keeps : TrailingComma.rule ∉ rules → ∀ n names,
    Finishes id n names (applyRules revisit ctx n.kind rules n names)

theorem detached_of_subset {cfg : Settings} (hfile : ctx.file = none)
    (hrules : rules ⊆ cfg.catalog) : Detached ctx revisit rules := by
  induction rules with
  | nil => exact ⟨fun h => absurd h List.not_mem_nil, fun _ _ _ => ⟨rfl, rfl⟩⟩
  | cons rule rules ih =>
    rw [List.cons_subset] at hrules
    have ih := ih hrules.2
    rcases comma_or_idle hfile hrules.1 with rfl | ⟨hne, hidle⟩
    · refine ⟨fun _ n names => ?_, fun h => absurd List.mem_cons_self h⟩
      have hkind := TrailingComma.kind_cleaned ctx n
      by_cases hcomma : TrailingComma.rule ∈ rules
      · have hrest := ih.cleans hcomma (TrailingComma.cleaned ctx n) names
        rw [hkind] at hrest
        obtain ⟨hvalue, hnames⟩ := Finishes.clean hrest
        exact ⟨hvalue.trans (TrailingComma.cleaned_cleaned ctx n), hnames⟩
      · have hrest := ih.keeps hcomma (TrailingComma.cleaned ctx n) names
        rw [hkind] at hrest
        exact Finishes.clean hrest
    · constructor
      · intro hcomma n names
        have hcomma := (List.mem_cons.1 hcomma).resolve_left fun h => hne h.symm
        exact .skip (hidle n names) (ih.cleans hcomma n names)
      · intro hcomma n names
        have hcomma : TrailingComma.rule ∉ rules := fun h => hcomma (List.mem_cons_of_mem _ h)
        exact .skip (hidle n names) (ih.keeps hcomma n names)

/-- A visit without a file rebuilds the tree and draws no names, whatever the limit on revisits. -/
theorem visit_detached {cfg : Settings} (ctx : Context) (hfile : ctx.file = none)
    (hrules : rules ⊆ cfg.catalog) (revisits : Nat) (n : Node) (names : NameSupply) :
    (TrailingComma.rule ∈ rules → Finishes (Node.settleWith (TrailingComma.cleaned ctx)) n names
      (visit rules ctx revisits n names)) ∧
    (TrailingComma.rule ∉ rules → Finishes (Node.settleWith id) n names
      (visit rules ctx revisits n names)) := by
  cases revisits <;>
    exact ⟨fun hcomma => .visitWith ((detached_of_subset hfile hrules).cleans hcomma) n names,
      fun hcomma => .visitWith ((detached_of_subset hfile hrules).keeps hcomma) n names⟩

theorem visitWith_comma (revisit : Node → Pass Node) (ctx : Context) (n : Node)
    (names : NameSupply) :
    Finishes (Node.settleWith (TrailingComma.cleaned ctx)) n names
      (visitWith revisit [TrailingComma.rule] ctx n names) := by
  refine .visitWith (fun m names => ?_) n names
  exact .clean (show Finishes id (TrailingComma.cleaned ctx m) names _ from ⟨rfl, rfl⟩)

/-- A visit with the rule for commas alone does the same, in a file or not. -/
theorem visit_comma (ctx : Context) (revisits : Nat) (n : Node) (names : NameSupply) :
    Finishes (Node.settleWith (TrailingComma.cleaned ctx)) n names
      (visit [TrailingComma.rule] ctx revisits n names) := by
  cases revisits <;> exact visitWith_comma _ ctx n names

end Pass

/-! ### Histories with trees of no file -/

/-- A tree for a session to lower. -/
inductive Task where
  | run (file : FileId) (tree : Node) (tokens : List Token)
  | detached (tree : Node) (tokens : Option (List Token))

/-- Whether the tree belongs to a file. -/
def Task.hasFile : Task → Bool
  | run .. => true
  | detached .. => false

namespace Session

/-- The trees that a session gives back for files, one task after another. -/
def fileTrees (s : Session) : List Task → List Node
  | [] => []
  | .run file tree tokens :: tasks =>
    (s.run file tree tokens).tree :: fileTrees (s.run file tree tokens).session tasks
  | .detached tree tokens :: tasks => fileTrees (s.runDetached tree tokens).session tasks

/-- Statistics make no difference to trees. -/
theorem fileTrees_tallies (s : Session) (tallies : List Tally) (tasks : List Task) :
    fileTrees { s with tallies } tasks = s.fileTrees tasks := by
  induction tasks generalizing s tallies with
  | nil => rfl
  | cons task tasks ih =>
    cases task with
    | run file tree tokens =>
      show (s.run file tree tokens).tree ::
        fileTrees { (s.run file tree tokens).session with tallies := _ } tasks = _
      rw [ih]
      rfl
    | detached tree tokens => exact ih (s.runDetached tree tokens).session _

variable {cfg : Settings} {s : Session}

theorem names_runDetached (hrules : s.rules ⊆ cfg.catalog) (tree : Node)
    (tokens : Option (List Token)) : (s.runDetached tree tokens).session.names = s.names := by
  obtain ⟨hmem, hnot⟩ := Pass.visit_detached ⟨none, tokens, tree.variableNames⟩ rfl hrules
    s.maxRevisits tree s.names
  by_cases hcomma : TrailingComma.rule ∈ s.rules
  · exact (hmem hcomma).names
  · exact (hnot hcomma).names

/-- A tree of no file leaves nothing in the session but its statistics. -/
theorem session_runDetached (hrules : s.rules ⊆ cfg.catalog) (tree : Node)
    (tokens : Option (List Token)) :
    ∃ tallies, (s.runDetached tree tokens).session = { s with tallies } := by
  have hnames := names_runDetached hrules tree tokens
  refine ⟨(s.runDetached tree tokens).session.tallies, ?_⟩
  show ({ s with
    tallies := _, names := (s.runDetached tree tokens).session.names } : Session) = _
  rw [hnames]
  rfl

/-- Trees of no file can be left out of a history. -/
theorem fileTrees_filter (hrules : s.rules ⊆ cfg.catalog) (tasks : List Task) :
    s.fileTrees tasks = s.fileTrees (tasks.filter (·.hasFile)) := by
  induction tasks generalizing s with
  | nil => rfl
  | cons task tasks ih =>
    cases task with
    | run file tree tokens =>
      exact congrArg ((s.run file tree tokens).tree :: ·)
        (ih (s := (s.run file tree tokens).session) hrules)
    | detached tree tokens =>
      obtain ⟨tallies, hsession⟩ := session_runDetached hrules tree tokens
      show fileTrees (s.runDetached tree tokens).session tasks = _
      rw [hsession, fileTrees_tallies]
      exact ih hrules

/-- Trees of no file are cleaned of commas at most, and leave no trace. Whatever rules of the
catalog a session has, it gives for such a tree what the rule for commas gives alone, in any session
and with or without a file, if that rule is among them; otherwise it only settles the layers of the
tree. It draws no names. So histories that lower the same files, with any trees of no file between
them, give the same trees for the files. -/
theorem runDetached_leaves_no_trace (cfg : Settings) (s : Session)
    (hrules : s.rules ⊆ cfg.catalog) :
    (∀ (tree : Node) (tokens : Option (List Token)),
      let run := s.runDetached tree tokens
      (TrailingComma.rule ∈ s.rules → ∀ (t : Session) (file : Option FileId),
        t.rules = [TrailingComma.rule] → run.tree = (t.transform file tree tokens).tree) ∧
      (TrailingComma.rule ∉ s.rules → run.tree = tree.settleWith id) ∧
      run.session.names = s.names) ∧
    ∀ tasks tasks' : List Task,
      tasks.filter (·.hasFile) = tasks'.filter (·.hasFile) →
      s.fileTrees tasks = s.fileTrees tasks' := by
  refine ⟨fun tree tokens => ⟨fun hcomma t file ht => ?_, fun hcomma => ?_, ?_⟩, ?_⟩
  · have hrun := (Pass.visit_detached ⟨none, tokens, tree.variableNames⟩ rfl hrules
      s.maxRevisits tree s.names).1 hcomma
    have hcommas := Pass.visit_comma ⟨file, tokens, tree.variableNames⟩ t.maxRevisits tree t.names
    have htree : (t.transform file tree tokens).tree =
        tree.settleWith (TrailingComma.cleaned ⟨file, tokens, tree.variableNames⟩) := by
      show (Pass.visit t.rules _ _ _ _).value = _
      rw [ht, hcommas.value]
    have htokens : TrailingComma.cleaned ⟨none, tokens, tree.variableNames⟩ =
        TrailingComma.cleaned ⟨file, tokens, tree.variableNames⟩ :=
      TrailingComma.cleaned_congr rfl
    rw [htree, ← htokens]
    exact hrun.value
  · exact ((Pass.visit_detached ⟨none, tokens, tree.variableNames⟩ rfl hrules
      s.maxRevisits tree s.names).2 hcomma).value
  · exact names_runDetached hrules tree tokens
  · intro tasks tasks' htasks
    rw [fileTrees_filter hrules tasks, htasks, ← fileTrees_filter hrules tasks']

/-- In `(new A)->f($a?->b,);` of no file only the comma is removed, as by the rule for commas alone
in a file. The object and the nullsafe access get the first names in a file, although the tree was
lowered without a file before. -/
theorem runDetached_leaves_no_trace_of_comma :
    let cfg : Settings := {}
    let s : Session := { rules := cfg.catalog }
    let fetch := Node.synthesized (.nullsafePropertyFetch (Node.var "a") "b")
    let tree := Node.synthesized (.expression (Node.synthesized (.methodCall
      (Node.synthesized (.new (Node.synthesized (.name "A")) [])) "f"
      [{ value := fetch, span := some ⟨11, 16⟩ }])))
    let tokens : List Token := [.startingAt 16 .comma ",", .startingAt 17 .closeParen ")"]
    let alone : Task := .detached tree (some tokens)
    let inFile : Task := .run "a.php" tree tokens
    cfg.catalog ⊆ cfg.catalog ∧ TrailingComma.rule ∈ s.rules ∧
      (s.runDetached tree (some tokens)).tree =
        (({ rules := [TrailingComma.rule] } : Session).run "b.php" tree tokens).tree ∧
      (s.runDetached tree (some tokens)).tree ≠ tree ∧
      (s.runDetached tree (some tokens)).session.names = {} ∧
      s.fileTrees [alone, inFile, alone] = s.fileTrees [inFile] ∧
      (s.fileTrees [inFile]).map Node.toSource =
        ["$object1 = new A();\n$object1->f(($nullsafeVariable1 = $a) ? " ++
          "$nullsafeVariable1->b : null);"] := by
  intro cfg s fetch tree tokens alone inFile
  have hsub : cfg.catalog ⊆ cfg.catalog := List.Subset.refl _
  have hcomma : TrailingComma.rule ∈ s.rules := by simp [s, Settings.catalog]
  obtain ⟨hdetached, hhistories⟩ := runDetached_leaves_no_trace cfg s hsub
  obtain ⟨hcommas, -, hnames⟩ := hdetached tree (some tokens)
  exact ⟨hsub, hcomma, hcommas hcomma { rules := [TrailingComma.rule] } (some "b.php") rfl,
    by decide +kernel, hnames, hhistories [alone, inFile, alone] [inFile] rfl, by decide +kernel⟩

end Session

end SyntaxLowering
