import SyntaxLowering.Proofs.ByteOffsets
import SyntaxLowering.Proofs.CommaExactness
import SyntaxLowering.Proofs.Isolation
import SyntaxLowering.Proofs.Workload

/-!
# What is reported as changed

A lowered unit is reported as changed if its tree differs from the one that was given, marks
included. A run over a tree whose marks have settled leaves the tree alone as long as every call
reports so (`Pass.visit_eq_self_of_unchanged`). Conversely, no step takes back what another one did:
a replacement leaves a variable behind that was not there before, and a mark that forbids a comma is
never removed. So the report agrees with the statistics of the rules.
-/

namespace SyntaxLowering

/-! ### Trees whose marks agree with each other -/

/-- Whatever may be copied from the source text holds nothing that may not. -/
structure Node.TextClosed (n : Node) : Prop where
  node : n.isStale = false → (∀ c ∈ n.form.children, c.isStale = false) ∧
    (∀ a ∈ n.form.args, SyntaxLowering.isStale a.span a.marks = false) ∧
    ∀ p ∈ n.form.params, SyntaxLowering.isStale p.span p.marks = false
  args : ∀ a ∈ n.form.args,
    SyntaxLowering.isStale a.span a.marks = false → a.value.isStale = false
  params : ∀ p ∈ n.form.params,
    SyntaxLowering.isStale p.span p.marks = false → ∀ d ∈ p.default, d.isStale = false

/-- No group stands in the statement list of the node. -/
def Node.IsFlat (n : Node) : Prop :=
  ∀ m ∈ n.form.statements, m.form.isGroup = false

instance (n : Node) : Decidable n.TextClosed :=
  decidable_of_iff (_ ∧ _ ∧ _) ⟨fun h => ⟨h.1, h.2.1, h.2.2⟩, fun h => ⟨h.1, h.2, h.3⟩⟩

instance (n : Node) : Decidable n.IsFlat :=
  inferInstanceAs (Decidable (∀ m ∈ n.form.statements, m.form.isGroup = false))

theorem Node.TextClosed.settled {n : Node} (h : n.TextClosed) (hflat : n.IsFlat) : n.Settled where
  args a ha := by
    rw [Arg.settled_eq_iff]
    intro hstale hspan
    by_contra htext
    have := h.args a ha (isStale_eq_false.2 ⟨hspan, Bool.not_eq_false _ ▸ htext⟩)
    rw [hstale] at this
    cases this
  params p hp := by
    rw [Param.settled_eq_iff, Option.any_eq_true]
    rintro ⟨d, hd, hstale⟩ hspan
    by_contra htext
    have := h.params p hp (isStale_eq_false.2 ⟨hspan, Bool.not_eq_false _ ▸ htext⟩) d hd
    rw [hstale] at this
    cases this
  flat := hflat
  text hout hspan := by
    by_contra htext
    obtain ⟨hchildren, hargs, hparams⟩ :=
      h.node (isStale_eq_false.2 ⟨hspan, Bool.not_eq_false _ ▸ htext⟩)
    rw [Form.outdatesText_eq_false.2 ⟨hchildren, hargs, hparams, hflat⟩] at hout
    cases hout

/-! ### Runs that report no change -/

namespace Pass

variable {cfg : Settings} {rules : List Rule} {ctx : Context}

theorem sweep_eq_self_of_unchanged {cs : List Node} {names : NameSupply}
    {p : Progress (List Node)}
    (h : Sweep (fun n _ p => n.All Node.Settled → (∀ c ∈ p.calls, c.outcome = .unchanged) →
      p.value = n) cs names p) (hcs : ∀ c ∈ cs, c.All Node.Settled)
    (hcalls : ∀ c ∈ p.calls, c.outcome = .unchanged) : p.value = cs := by
  induction h with
  | nil => rfl
  | cons head _ ih =>
    rw [List.forall_mem_cons] at hcs
    rw [List.forall_mem_append] at hcalls
    rw [head hcs.1 hcalls.1, ih hcs.2 hcalls.2]

/-- A visit whose calls all leave their nodes alone leaves a settled tree alone. -/
theorem visit_eq_self_of_unchanged (hrules : rules ⊆ cfg.catalog) (revisits : Nat) (n : Node)
    (names : NameSupply) (hn : n.All Node.Settled)
    (hcalls : ∀ c ∈ (visit rules ctx revisits n names).calls, c.outcome = .unchanged) :
    (visit rules ctx revisits n names).value = n := by
  let P (n : Node) (_ : NameSupply) (p : Progress Node) : Prop :=
    n.All Node.Settled → (∀ c ∈ p.calls, c.outcome = .unchanged) → p.value = n
  have hP : Compositional P := by
    refine ⟨fun _ _ _ _ => rfl, fun {n names p q} hp hq hn hcalls => ?_⟩
    obtain ⟨hpcalls, hqcalls⟩ := List.forall_mem_append.1 hcalls
    have hvalue := hp hn hpcalls
    exact (hq (hvalue ▸ hn) hqcalls).trans hvalue
  refine visit_of_steps (P := P) hP ?_ ?_ revisits n names hn hcalls
  · intro n names g calls names' hshape hsweep hn hcalls
    have hchildren : g.children = n.form.children :=
      sweep_eq_self_of_unchanged hsweep (fun c hc => hn.child hc) hcalls
    rw [← Form.eq_of_shape_eq hshape hchildren.symm]
    exact hn.self.settle_eq
  · intro rule hrule kind n names
    have hcall := CatalogCall.of_mem (hrules hrule) ctx n names
    generalize rule.call ctx n names = e at hcall
    intro _ hcalls
    have houtcome : e.verdict.outcome = .unchanged := hcalls _ List.mem_cons_self
    cases hcall with
    | unchanged => rfl
    | cleaned | lowered | hoisted => cases houtcome

/-! ### Replacements leave new variables -/

/-- Only the two rules that draw names replace nodes. -/
theorem name_of_replaced (hrules : rules ⊆ cfg.catalog) (revisits : Nat) (n : Node)
    (names : NameSupply) : ∀ c ∈ (visit rules ctx revisits n names).calls,
      c.outcome = .replaced → c.rule.name = "NullsafeToTernary" ∨
        c.rule.name = "InstanceMethodCall" := by
  refine forall_calls_of_visit (fun rule hrule kind n names => ?_) revisits n names
  have hcall := CatalogCall.of_mem (hrules hrule) ctx n names
  generalize rule.call ctx n names = e at hcall
  intro houtcome
  cases hcall with
  | unchanged | cleaned => cases houtcome
  | lowered => exact .inl rfl
  | hoisted => exact .inr rfl

theorem replacementsBy_pos {calls : List Call} {c : Call} (hc : c ∈ calls)
    (hreplaced : c.outcome = .replaced) : 0 < replacementsBy c.rule.name calls := by
  show 0 < 0 + (calls.filter (·.rule.name == c.rule.name)).countP (·.outcome == .replaced)
  rw [Nat.zero_add, List.countP_pos_iff]
  exact ⟨c, List.mem_filter.2 ⟨hc, beq_self_eq_true _⟩, by rw [hreplaced]; rfl⟩

theorem visit_ne_self_of_replaced {file : FileId} (hfile : ctx.file = some file)
    (hrules : rules ⊆ cfg.catalog) {revisits : Nat} {n : Node} {names : NameSupply} {c : Call}
    (hc : c ∈ (visit rules ctx revisits n names).calls) (hreplaced : c.outcome = .replaced) :
    (visit rules ctx revisits n names).value ≠ n := by
  intro heq
  obtain ⟨-, drawn, h⟩ := Hygienic.visit hfile hrules revisits n names
  have hdrawn : 0 < drawn.length := by
    have hpos := replacementsBy_pos hc hreplaced
    rw [← h.count]
    rcases name_of_replaced hrules revisits n names c hc hreplaced with hname | hname <;>
      rw [hname] at hpos <;> omega
  -- the run adds four uses for each name that it draws
  have hlength := h.uses.length_eq
  have hfour : (drawn.flatMap Use.ofTemporary).length = 4 * drawn.length := by
    simp [Use.ofTemporary, Nat.mul_comm]
  rw [heq, List.length_append, hfour] at hlength
  omega

end Pass

/-! ### Marks that forbid a comma stay -/

section Suppressed

variable {ε : Type} [Listed ε]

/-- How many elements of a list forbid a comma after them. -/
def suppressed (es : List ε) : Nat :=
  es.countP fun e => (Listed.marks e).commaSuppressed

theorem suppressed_map {ζ : Type} [Listed ζ] (f : ε → ζ)
    (hf : ∀ e, (Listed.marks (f e)).commaSuppressed = (Listed.marks e).commaSuppressed)
    (es : List ε) : suppressed (es.map f) = suppressed es := by
  simp only [suppressed, List.countP_map, Function.comp_def, hf]

theorem suppressed_clean? [LawfulListed ε] {ctx : Context} {es es' : List ε}
    (h : TrailingComma.clean? ctx es = some es') : suppressed es' = suppressed es + 1 := by
  fun_induction TrailingComma.clean? ctx es generalizing es' with
  | case1 => cases h
  | case2 e hdue =>
    obtain rfl := Option.some.inj h
    have hmark : (Listed.marks e).commaSuppressed = false := by
      rw [TrailingComma.isDue, Bool.and_eq_true] at hdue
      simpa using hdue.1
    simp [suppressed, hmark, LawfulListed.marks_withMarks, Marks.suppressComma]
  | case3 => cases h
  | case4 e rest _ ih =>
    obtain ⟨rest', hrest, rfl⟩ := Option.map_eq_some_iff.1 h
    have := ih hrest
    simp only [suppressed, List.countP_cons] at this ⊢
    omega

theorem suppressed_le_clean?_getD [LawfulListed ε] (ctx : Context) (es : List ε) :
    suppressed es ≤ suppressed ((TrailingComma.clean? ctx es).getD es) := by
  cases h : TrailingComma.clean? ctx es with
  | none => exact Nat.le_refl _
  | some es' => exact (suppressed_clean? h).symm ▸ Nat.le_succ _

end Suppressed

/-- How many elements of the lists of a layer forbid a comma after them. -/
def Form.suppressions {α : Type} (form : Form α) : Nat :=
  suppressed form.args + suppressed form.params + suppressed form.captures

theorem Form.suppressions_shape {α : Type} (form : Form α) :
    form.shape.suppressions = form.suppressions := by
  have hargs : suppressed (form.args.map (·.map fun _ => ())) = suppressed form.args :=
    suppressed_map (fun a : Arg α => a.map fun _ => ()) (fun _ => rfl) form.args
  have hparams : suppressed (form.params.map (·.map fun _ => ())) = suppressed form.params :=
    suppressed_map (fun p : Param α => p.map fun _ => ()) (fun _ => rfl) form.params
  rw [suppressions, suppressions, shape, args_map, params_map, captures_map, hargs, hparams]

theorem Form.suppressions_settled (form : Form Node) :
    form.settled.suppressions = form.suppressions := by
  rw [suppressions, suppressions, args_settled, params_settled, captures_settled,
    suppressed_map _ Arg.commaSuppressed_settled, suppressed_map _ Param.commaSuppressed_settled]

/-- Cleaning a layer marks one more element at least. -/
theorem TrailingComma.suppressions_cleanForm? {ctx : Context} {form form' : Form Node}
    (h : cleanForm? ctx form = some form') : form.suppressions < form'.suppressions := by
  cases form with
  | functionCall | methodCall | staticCall | new =>
    obtain ⟨as, has, rfl⟩ := Option.map_eq_some_iff.1 h
    have := suppressed_clean? has
    simp only [Form.suppressions, Form.args, Form.params, Form.captures]
    omega
  | functionDecl | methodDecl =>
    obtain ⟨ps, hps, rfl⟩ := Option.map_eq_some_iff.1 h
    have := suppressed_clean? hps
    simp only [Form.suppressions, Form.args, Form.params, Form.captures]
    omega
  | closure params captures body isStatic =>
    obtain ⟨⟨ps, cs⟩, hboth, rfl⟩ := Option.map_eq_some_iff.1 h
    obtain ⟨rfl, rfl⟩ := cleanBoth?_eq_some hboth
    have hparams := suppressed_le_clean?_getD ctx params
    have hcaptures := suppressed_le_clean?_getD ctx captures
    simp only [Form.suppressions, Form.args, Form.params, Form.captures]
    -- one of the two lists was not clean
    cases hps : clean? ctx params with
    | some ps =>
      have := suppressed_clean? hps
      simp only [hps, Option.getD_some] at hparams ⊢
      omega
    | none =>
      cases hcs : clean? ctx captures with
      | some cs =>
        have := suppressed_clean? hcs
        simp only [hcs, Option.getD_some, Option.getD_none] at hcaptures ⊢
        omega
      | none => simp [cleanBoth?, hps, hcs] at hboth
  | _ => simp [cleanForm?] at h

namespace Pass

variable {cfg : Settings} {rules : List Rule} {ctx : Context}

/-- A step that replaces nothing and marks an element with each change. -/
def Marking (n : Node) (p : Progress Node) : Prop :=
  (∀ c ∈ p.calls, c.outcome ≠ .replaced) →
    n.total (·.form.suppressions) + p.calls.countP (·.outcome == .mutated) ≤
      p.value.total (·.form.suppressions)

theorem Marking.sweep {cs : List Node} {names : NameSupply} {p : Progress (List Node)}
    (h : Sweep (fun n _ p => Marking n p) cs names p)
    (hcalls : ∀ c ∈ p.calls, c.outcome ≠ .replaced) :
    (cs.map (Node.total (·.form.suppressions))).sum + p.calls.countP (·.outcome == .mutated) ≤
      (p.value.map (Node.total (·.form.suppressions))).sum := by
  induction h with
  | nil => exact Nat.le_refl _
  | cons head _ ih =>
    obtain ⟨hhead, htail⟩ := List.forall_mem_append.1 hcalls
    have hhead := head hhead
    have htail := ih htail
    simp only [List.map_cons, List.sum_cons, List.countP_append]
    omega

theorem suppressions_of_isGroup (n : Node) (h : n.form.isGroup = true) :
    n.form.suppressions = 0 := by
  revert h
  cases n.form <;> simp [Form.isGroup, Form.suppressions, Form.args, Form.params, Form.captures,
    suppressed]

theorem marking_visit (hrules : rules ⊆ cfg.catalog) (revisits : Nat) (n : Node)
    (names : NameSupply) : Marking n (visit rules ctx revisits n names) := by
  have hP : Compositional fun n (_ : NameSupply) p => Marking n p := by
    refine ⟨fun _ _ _ => Nat.le_refl _, fun {n names p q} hp hq hcalls => ?_⟩
    obtain ⟨hpcalls, hqcalls⟩ := List.forall_mem_append.1 hcalls
    have hp := hp hpcalls
    have hq := hq hqcalls
    simp only [List.countP_append]
    omega
  refine visit_of_steps hP ?_ ?_ revisits n names
  · intro n names g calls names' hshape hsweep hcalls
    have hsweep : _ + calls.countP (·.outcome == .mutated) ≤ (g.children.map _).sum :=
      Marking.sweep hsweep hcalls
    have hlayer : g.settled.suppressions = n.form.suppressions := by
      rw [Form.suppressions_settled, ← Form.suppressions_shape, ← hshape, Form.suppressions_shape]
    show n.total _ + calls.countP _ ≤ (Node.settle g n.span n.marks).total _
    rw [Node.total_settle suppressions_of_isGroup, Node.total_eq]
    show n.form.suppressions + _ + _ ≤ g.settled.suppressions + _
    omega
  · intro rule hrule kind n names
    have hcall := CatalogCall.of_mem (hrules hrule) ctx n names
    generalize rule.call ctx n names = e at hcall
    intro hcalls
    have houtcome : e.verdict.outcome ≠ .replaced := hcalls _ List.mem_cons_self
    cases hcall with
    | unchanged => exact Nat.le_refl _
    | lowered | hoisted => exact absurd rfl houtcome
    | @cleaned form hclean =>
      have hless := TrailingComma.suppressions_cleanForm? hclean
      show n.total _ + 1 ≤ (⟨form, n.span, n.marks.outdated⟩ : Node).total _
      rw [Node.total_eq, Node.total_eq _ ⟨form, n.span, n.marks.outdated⟩,
        (TrailingComma.Cleaned.of_cleanForm? hclean).children_eq]
      show n.form.suppressions + _ + 1 ≤ form.suppressions + _
      omega

/-- A visit in a file leaves a settled tree as it is exactly if all its calls report so. -/
theorem visit_eq_self_iff {file : FileId} (hfile : ctx.file = some file)
    (hrules : rules ⊆ cfg.catalog) (revisits : Nat) {n : Node} (hn : n.All Node.Settled)
    (names : NameSupply) :
    (visit rules ctx revisits n names).value = n ↔
      ∀ c ∈ (visit rules ctx revisits n names).calls, c.outcome = .unchanged := by
  refine ⟨fun heq => ?_, visit_eq_self_of_unchanged hrules revisits n names hn⟩
  have hreplaced : ∀ c ∈ (visit rules ctx revisits n names).calls, c.outcome ≠ .replaced :=
    fun c hc houtcome => visit_ne_self_of_replaced hfile hrules hc houtcome heq
  have hmarking := marking_visit hrules revisits n names hreplaced
  rw [heq] at hmarking
  have hmutated : (visit rules ctx revisits n names).calls.countP (·.outcome == .mutated) = 0 := by
    omega
  intro c hc
  have := List.countP_eq_zero.1 hmutated c hc
  cases houtcome : c.outcome with
  | unchanged => rfl
  | mutated => simp [houtcome] at this
  | replaced => exact absurd houtcome (hreplaced c hc)

end Pass

/-! ### The statistics of a run -/

/-- How many calls that changed anything the tallies hold together. -/
def Session.changes (s : Session) : Nat :=
  (s.tallies.map (·.changes)).sum

theorem countP_changed (calls : List Call) :
    calls.countP (·.outcome == .mutated) + calls.countP (·.outcome == .replaced) =
      calls.countP (·.outcome != .unchanged) := by
  induction calls with
  | nil => rfl
  | cons c calls ih =>
    simp only [List.countP_cons, ← ih]
    cases c.outcome <;> simp <;> omega

/-- The tallies together grow by the changes that a run makes. -/
theorem Session.Tallied.changes_transform {s : Session} (h : s.Tallied) (file : Option FileId)
    (tree : Node) (tokens : Option (List Token)) :
    (s.transform file tree tokens).session.changes =
      s.changes + (s.transform file tree tokens).calls.countP (·.outcome != .unchanged) := by
  have hcovers : ∀ c ∈ (s.transform file tree tokens).calls,
      c.rule.name ∈ s.tallies.map (·.rule) :=
    fun c hc => h.covers c.rule (Pass.rule_mem_of_visit s.rules _ s.maxRevisits tree s.names c hc)
  have hcount (t : Tally) (calls : List Call) : (t.count calls).changes =
      t.changes + (calls.filter (·.rule.name == t.rule)).countP (·.outcome != .unchanged) := by
    rw [← countP_changed]
    simp only [Tally.changes, Tally.count]
    omega
  rw [← sum_countP_calls _ h.nodup hcovers, List.map_map, changes, changes, ← List.sum_map_add]
  show ((s.tallies.map (·.count (s.transform file tree tokens).calls)).map _).sum = _
  rw [List.map_map]
  exact congrArg List.sum (List.map_congr_left fun t _ => hcount t _)

theorem Session.reachable_ofRules (rules : List Rule) (maxRevisits : Nat) :
    (ofRules rules maxRevisits).Reachable := by
  have hadded (s : Session) (hs : s.Reachable) : (rules.foldl add s).Reachable := by
    induction rules generalizing s with
    | nil => exact hs
    | cons rule rules ih => exact ih _ (hs.add rule)
  exact (hadded _ (.limited maxRevisits .new)).sorted

theorem Workbench.reachable_of_ofSettings {cfg : Settings} {w : Workbench}
    (h : ofSettings cfg = .ok w) : w.session.Reachable := by
  unfold ofSettings Settings.session at h
  cases hselect : cfg.selectRules with
  | error e =>
    rw [hselect] at h
    cases h
  | ok rules =>
    rw [hselect] at h
    obtain rfl := Except.ok.inj h
    exact Session.reachable_ofRules rules cfg.maxRevisits

/-! ### Units -/

/-- A node that stands for the whole source text is printed as it. -/
theorem Printer.print_of_whole {source : String} {tokens : List Token} {n : Node}
    (htext : n.marks.textValid = true) (hspan : n.span = some ⟨0, source.utf8ByteSize⟩) :
    (Printer.withSource source tokens).print n = source := by
  obtain ⟨form, span, textValid, commaSuppressed⟩ := n
  obtain rfl : textValid = true := htext
  obtain rfl : span = some ⟨0, source.utf8ByteSize⟩ := hspan
  have hslice : slice? source.toList 0 source.utf8ByteSize = some source.toList := by
    have := slice?_append [] source.toList []
    rwa [List.nil_append, List.append_nil, utf8_nil, List.length_nil, Nat.zero_add,
      ← utf8ByteSize_eq] at this
  simp [print, render, verbatim?, withSource, hslice]

namespace Workbench

/-- **A unit is reported as changed exactly if a change was recorded, and one that is not is printed
as it was read.** This holds of every workbench in any state, and of every unit whose marks agree
with each other and that has no group in a statement list. -/
theorem changed_iff_recorded (cfg : Settings) (w : Workbench) (hsession : w.session.Reachable)
    (hrules : w.session.rules ⊆ cfg.catalog) (u : SourceUnit)
    (hclosed : u.tree.All Node.TextClosed) (hflat : u.tree.All Node.IsFlat) :
    let result := (w.process u).1
    let w' := (w.process u).2
    (result.changed = true ↔ w.session.changes < w'.session.changes) ∧
    (result.changed = false → ∀ source, u.source = some source → w.preserveFormatting = true →
      u.tree.marks.textValid = true → u.tree.span = some ⟨0, source.utf8ByteSize⟩ →
      result.render = source) := by
  intro result w'
  let run := w.session.run u.path u.tree u.tokenStream
  have hsettled : u.tree.All Node.Settled :=
    fun m hm => (hclosed m hm).settled (hflat m hm)
  have hkept : run.tree = u.tree ↔ ∀ c ∈ run.calls, c.outcome = .unchanged :=
    Pass.visit_eq_self_iff rfl hrules w.session.maxRevisits hsettled w.session.names
  have hgrowth : w'.session.changes =
      w.session.changes + run.calls.countP (·.outcome != .unchanged) :=
    hsession.tallied.changes_transform (some u.path) u.tree (some u.tokenStream)
  have hchanged : result.changed = (run.tree != u.tree) := rfl
  refine ⟨?_, fun hsame source hsource hpreserve htext hspan => ?_⟩
  · rw [hchanged, bne_iff_ne, ne_eq, hkept, hgrowth, Nat.lt_add_right_iff_pos, List.countP_pos_iff]
    simp
  · have htree : result.tree = u.tree := by
      rw [hchanged, bne_eq_false_iff_eq] at hsame
      exact hsame
    have hrender : result.render = (Printer.withSource source result.tokens).print result.tree := by
      have hs : result.source = some source := hsource
      have hp : result.preserveFormatting = true := hpreserve
      rw [LoweredUnit.render, hs, hp]
    rw [hrender, htree, Printer.print_of_whole htext hspan]

/-- A call with a comma after its last argument is changed. The same call without it, next in line,
is not, and keeps spaces that a regenerated text would not have. -/
theorem changed_iff_recorded_of_calls :
    let tree (stop : Nat) : Node := ⟨.expression ⟨.functionCall ⟨.name "f", some ⟨0, 1⟩, {}⟩
      [{ value := ⟨.var "a", some ⟨3, 5⟩, {}⟩, span := some ⟨3, 5⟩ }], some ⟨0, stop - 1⟩, {}⟩,
      some ⟨0, stop⟩, {}⟩
    let comma : SourceUnit := { path := "a.php", source := some "f( $a, );", tree := tree 9 }
    let plain : SourceUnit := { path := "b.php", source := some "f( $a );", tree := tree 8 }
    let w := (usual.process comma).2
    ofSettings {} = .ok usual ∧
      (tree 9).All Node.TextClosed ∧ (tree 9).All Node.IsFlat ∧
      (usual.process comma).1.changed = true ∧
      usual.session.changes < w.session.changes ∧
      (w.process plain).1.changed = false ∧ (w.process plain).1.render = "f( $a );" ∧
      (w.process plain).1.tree.toSource = "f($a);" := by
  intro tree comma plain w
  have husual := reachable_of_ofSettings ofSettings_usual
  have hcomma := changed_iff_recorded {} usual husual usual_rules comma
    (by decide +kernel) (by decide +kernel)
  have hplain := changed_iff_recorded {} w
    (husual.ran (some comma.path) comma.tree (some comma.tokenStream)) usual_rules plain
    (by decide +kernel) (by decide +kernel)
  have hchanged : (usual.process comma).1.changed = true := by decide +kernel
  have hsame : (w.process plain).1.changed = false := by decide +kernel
  refine ⟨ofSettings_usual, by decide +kernel, by decide +kernel, hchanged,
    hcomma.1.1 hchanged, hsame, ?_, by decide +kernel⟩
  exact hplain.2 hsame "f( $a );" rfl rfl rfl (by decide +kernel)

end Workbench

end SyntaxLowering
