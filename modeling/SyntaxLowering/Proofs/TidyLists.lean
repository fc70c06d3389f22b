import SyntaxLowering.Proofs.CanonicalText
import SyntaxLowering.Proofs.VisitedTrees

/-!
# No list ends in a comma

With the nullsafe and the comma rule a run leaves no list that would be printed with a comma after
its last element. The comma rule does not claim nullsafe calls, so their arguments wait until the
call is lowered and its replacement is visited: all nullsafe accesses of a tree are lowered in its
first visit, and one revisit is enough for what takes their place. Hoisting moves no comma.

After such a run the printer has no use for the tokens.
-/

namespace SyntaxLowering

/-- The last element of a list forbids a comma, or no comma follows it. -/
def TidyEnd {ε : Type} [Listed ε] (tokens : Option (List Token)) (es : List ε) : Prop :=
  ∀ e ∈ es.getLast?, (Listed.marks e).commaSuppressed = true ∨
    followedBySeparator tokens (Listed.span e) = false

instance {ε : Type} [Listed ε] (tokens : Option (List Token)) (es : List ε) :
    Decidable (TidyEnd tokens es) :=
  inferInstanceAs (Decidable (∀ e ∈ es.getLast?, _ ∨ _))

/-- All lists of a node end without a comma. -/
structure TidyLists (tokens : Option (List Token)) (n : Node) : Prop where
  args : TidyEnd tokens n.form.args
  params : TidyEnd tokens n.form.params
  captures : TidyEnd tokens n.form.captures

instance (tokens : Option (List Token)) (n : Node) : Decidable (TidyLists tokens n) :=
  decidable_of_iff (_ ∧ _ ∧ _) ⟨fun ⟨h, h', h''⟩ => ⟨h, h', h''⟩, fun h => ⟨h.1, h.2, h.3⟩⟩

theorem tidyLists_of_not_followed {tokens : Option (List Token)}
    (h : ∀ span, followedBySeparator tokens span = false) (n : Node) : TidyLists tokens n :=
  ⟨fun _ _ => .inr (h _), fun _ _ => .inr (h _), fun _ _ => .inr (h _)⟩

namespace TrailingComma

section Lists

variable {ε : Type} [Listed ε] {ctx : Context}

theorem tidyEnd_nil : TidyEnd ctx.tokens ([] : List ε) := by
  simp [TidyEnd]

theorem tidyEnd_singleton_iff {e : ε} : TidyEnd ctx.tokens [e] ↔ isDue ctx e = false := by
  simp [TidyEnd, isDue, Context.followedBySeparator, or_iff_not_imp_left]

/-- The rule has something to do on a list exactly if the list does not end as it should. -/
theorem clean?_eq_none_iff {es : List ε} : clean? ctx es = none ↔ TidyEnd ctx.tokens es := by
  fun_induction clean? ctx es with
  | case1 => exact iff_of_true rfl tidyEnd_nil
  | case2 e hdue =>
    rw [tidyEnd_singleton_iff, hdue]
    exact iff_of_false (Option.some_ne_none _) (by decide)
  | case3 e hdue =>
    rw [tidyEnd_singleton_iff]
    exact iff_of_true rfl (Bool.eq_false_iff.2 hdue)
  | case4 e rest hrest ih =>
    obtain ⟨e', rest, rfl⟩ := List.exists_cons_of_ne_nil hrest
    rw [Option.map_eq_none_iff, ih, TidyEnd, TidyEnd, List.getLast?_cons_cons]

end Lists

/-- Only the arguments of a nullsafe call are out of reach of the rule. -/
theorem tidyLists_of_clean {ctx : Context} {n : Node} (hplain : n.IsPlain)
    (hclean : cleanForm? ctx n.form = none) : TidyLists ctx.tokens n := by
  obtain ⟨form, span, marks⟩ := n
  by_cases hkind : form.kind ∈ rule.kinds
  · obtain ⟨hargs, hparams, hcaptures⟩ := cleanForm?_eq_none_iff.1 hclean hkind
    exact ⟨clean?_eq_none_iff.1 hargs, clean?_eq_none_iff.1 hparams,
      clean?_eq_none_iff.1 hcaptures⟩
  · have hempty : form.args = [] ∧ form.params = [] ∧ form.captures = [] := by
      rw [Node.isPlain_iff] at hplain
      cases form <;> simp_all [rule, Form.kind, Form.args, Form.params, Form.captures]
    obtain ⟨hargs, hparams, hcaptures⟩ := hempty
    refine ⟨?_, ?_, ?_⟩
    · rw [hargs]
      exact tidyEnd_nil
    · rw [hparams]
      exact tidyEnd_nil
    · rw [hcaptures]
      exact tidyEnd_nil

end TrailingComma

/-! ### Whole visits -/

/-- A node that is no nullsafe access and on whose lists the comma rule has nothing to do. -/
structure Node.IsTidy (ctx : Context) (n : Node) : Prop where
  plain : n.IsPlain
  clean : TrailingComma.cleanForm? ctx n.form = none

theorem Node.isTidy_var (ctx : Context) (x : String) : (Node.var x).All (Node.IsTidy ctx) :=
  Node.all_iff.2 ⟨⟨rfl, rfl⟩, fun _ hc => absurd hc List.not_mem_nil⟩

theorem Hoist.isTidy_hoisted {ctx : Context} {n : Node} {hole : Hole Node}
    (h : receiverInStatement? n = some hole)
    (hchildren : ∀ c ∈ n.form.children, c.All (Node.IsTidy ctx)) (x : String) :
    (hoisted (Node.var x) hole).All (Node.IsTidy ctx) := by
  have hself : n.IsTidy ctx := by
    obtain ⟨value, plug, inner, hslot, -⟩ := receiverInStatement?_eq_some h
    obtain ⟨form, span, marks⟩ := n
    cases hslot <;> exact ⟨rfl, rfl⟩
  refine all_of_receiverInStatement? (Node.layered_all _) (fun hrefilled hlayer => ?_) h
    (Node.all_iff.2 ⟨hself, hchildren⟩) (Node.isTidy_var ctx x) ⟨rfl, rfl⟩ ⟨rfl, rfl⟩ ⟨rfl, rfl⟩
  refine ⟨?_, TrailingComma.cleanForm?_refilled hrefilled hlayer.clean⟩
  rw [Node.isPlain_iff]
  exact hrefilled.kind ▸ Node.isPlain_iff.1 hlayer.plain

namespace Pass

variable {cfg : Settings} {ctx : Context} {file : FileId} {rules : List Rule}
  {revisit : Node → Pass Node}

/-- The rules tidy a settled node over tidy children. What they put in the place of a nullsafe
access is tidied when it is visited. -/
theorem isTidy_applyRules (hfile : ctx.file = some file) (hrules : rules ⊆ cfg.catalog)
    (hnullsafe : Nullsafe.rule cfg.nullsafeStem cfg.strictNullCheck ∈ rules)
    (hcomma : TrailingComma.rule ∈ rules)
    (hkeep : ∀ m names, m.All (Node.IsTidy ctx) → (revisit m names).value.All (Node.IsTidy ctx))
    {n : Node} (hsettled : n.Settled)
    (hlower : n.IsPlain ∨ ∀ m names, m.All Node.IsPlain →
      (revisit m names).value.All (Node.IsTidy ctx))
    (hchildren : ∀ c ∈ n.form.children, c.All (Node.IsTidy ctx)) (names : NameSupply) :
    (applyRules revisit ctx n.kind rules n names).value.All (Node.IsTidy ctx) := by
  have happlied : Applied cfg ctx revisit n _ ∨ _ := applied_or_idle hfile hrules hsettled names
  generalize (applyRules revisit ctx n.kind rules n names).value = m at happlied ⊢
  rcases happlied with happlied | ⟨rfl, hidle⟩
  · cases happlied with
    | quiet _ hplain hclean => exact Node.all_iff.2 ⟨⟨hplain, hclean⟩, hchildren⟩
    | cleaned hclean =>
      have hnormal := NormalAt.cleaned hsettled hclean 0
      refine Node.all_iff.2 ⟨⟨hnormal.plain, hnormal.clean⟩, fun c hc => hchildren c ?_⟩
      rw [← (TrailingComma.Cleaned.of_cleanForm? hclean).children_eq]
      exact hc
    | lowered haccess x names =>
      rcases hlower with hplain | hlower
      · exact absurd (haccess.symm.trans hplain) (Option.some_ne_none _)
      · exact hlower _ names (Nullsafe.isPlain_lowered haccess
          (fun c hc => (hchildren c hc).mono fun _ h => h.plain) _ x)
    | hoisted hreceiver x names => exact hkeep _ names (Hoist.isTidy_hoisted hreceiver hchildren x)
  · -- both rules were called and left the node alone
    refine Node.all_iff.2 ⟨⟨?_, ?_⟩, hchildren⟩
    · have hcall := hidle _ hnullsafe
      rw [Nullsafe.call_eq hfile] at hcall
      unfold Node.IsPlain
      cases haccess : Nullsafe.access? m.form with
      | none => rfl
      | some access => simp [haccess, Effect.none, Effect.replace] at hcall
    · have hcall := hidle _ hcomma
      rw [TrailingComma.call_eq] at hcall
      cases hclean : TrailingComma.cleanForm? ctx m.form with
      | none => rfl
      | some form => simp [hclean, Effect.none] at hcall

theorem visitWith_isTidy (hfile : ctx.file = some file) (hrules : rules ⊆ cfg.catalog)
    (hnullsafe : Nullsafe.rule cfg.nullsafeStem cfg.strictNullCheck ∈ rules)
    (hcomma : TrailingComma.rule ∈ rules)
    (hsettled : ∀ m names, m.All Node.Settled → (revisit m names).value.All Node.Settled)
    (hkeep : ∀ m names, m.All (Node.IsTidy ctx) → (revisit m names).value.All (Node.IsTidy ctx))
    {n : Node}
    (hlower : n.All Node.IsPlain ∨ ∀ m names, m.All Node.IsPlain →
      (revisit m names).value.All (Node.IsTidy ctx))
    (names : NameSupply) : (visitWith revisit rules ctx n names).value.All (Node.IsTidy ctx) := by
  induction n using Node.inductionOn generalizing names with
  | step form span marks ih =>
    have hbelow := all_of_visited
      (fun c hc names => ih c hc (hlower.imp_left fun hn => hn.child hc) names) names
    have hbelow' : ∀ c ∈ (form.mapM (visitWith revisit rules ctx) names).value.children,
        c.All Node.Settled :=
      all_of_visited (fun c _ names => visitWith_settled hrules hsettled c names) names
    have hkind : (form.mapM (visitWith revisit rules ctx) names).value.kind = form.kind := by
      simpa [Form.shape] using
        congrArg Form.kind (mapM_form (visitWith revisit rules ctx) form names).1
    rw [visitWith_apply]
    refine isTidy_applyRules hfile hrules hnullsafe hcomma hkeep
      (Node.all_settled_settle hbelow').self (hlower.imp_left fun hn => ?_) (fun c hc => ?_) _
    · rw [Node.isPlain_iff]
      show Form.kind (Form.settled _) ∉ _
      rw [Form.kind_settled, hkind]
      exact Node.isPlain_iff.1 hn.self
    · rcases Form.mem_children_settled hc with hc | ⟨g, hg, hc⟩
      · exact hbelow c hc
      · exact (hbelow g hg).child hc

/-- A visit in a file with the nullsafe and the comma rule ends in a tidy tree, if there is a
revisit or nothing to lower. -/
theorem visit_isTidy (hfile : ctx.file = some file) (hrules : rules ⊆ cfg.catalog)
    (hnullsafe : Nullsafe.rule cfg.nullsafeStem cfg.strictNullCheck ∈ rules)
    (hcomma : TrailingComma.rule ∈ rules) {revisits : Nat} {n : Node}
    (hn : revisits = 0 → n.All Node.IsPlain) (names : NameSupply) :
    (visit rules ctx revisits n names).value.All (Node.IsTidy ctx) := by
  induction revisits generalizing n names with
  | zero =>
    exact visitWith_isTidy hfile hrules hnullsafe hcomma (fun _ _ hm => hm) (fun _ _ hm => hm)
      (.inl (hn rfl)) names
  | succ revisits ih =>
    exact visitWith_isTidy hfile hrules hnullsafe hcomma
      (fun m names _ => visit_settled hrules revisits m names)
      (fun m names hm => ih (fun _ => hm.mono fun _ h => h.plain) names)
      (.inr fun m names hm => ih (fun _ => hm) names) names

end Pass

/-! ### Printing with and without tokens -/

namespace Printer

variable {p q : Printer} {depth : Nat}

theorem verbatim?_congr (hsource : p.source = q.source) (span : Option Span) (marks : Marks) :
    p.verbatim? span marks = q.verbatim? span marks := by
  unfold verbatim?
  rw [hsource]

theorem element_congr {ε : Type} [Listed ε] (hsource : p.source = q.source) (e : ε)
    (text : String) : p.element e text = q.element e text := by
  rw [element, element, verbatim?_congr hsource]

theorem keepsComma_eq_false {ε : Type} [Listed ε] {es : List ε} (h : TidyEnd p.tokens es) :
    p.keepsComma es = false := by
  unfold keepsComma
  split
  · next last hlast =>
    rcases h last hlast with hmark | hfollowed
    · rw [hmark]; rfl
    · rw [hfollowed, Bool.and_false]
  · rfl

/-- Lists that end without a comma are printed from the texts of their elements. -/
theorem commaList_congr {ε : Type} [Listed ε] {es : List ε} (hp : TidyEnd p.tokens es)
    (hq : TidyEnd q.tokens es) {texts texts' : List String} (htexts : texts = texts') :
    p.commaList es texts = q.commaList es texts' := by
  rw [commaList, commaList, keepsComma_eq_false hp, keepsComma_eq_false hq, htexts]

/-- Two printers of one source agree on a tree whose lists end without a comma for both. -/
theorem render_congr (hsource : p.source = q.source) {n : Node} (hp : n.All (TidyLists p.tokens))
    (hq : n.All (TidyLists q.tokens)) (depth : Nat) : p.render depth n = q.render depth n := by
  induction n using Node.inductionOn generalizing depth with
  | step form span marks ih =>
    have hchildren (d : Nat) (c : Node) (hc : (d, c) ∈ form.places depth) :
        p.render d c = q.render d c :=
      have hc := Form.mem_children_of_mem_places hc
      ih c hc (hp.child hc) (hq.child hc) d
    have hform : p.renderForm depth form = q.renderForm depth form := by
      refine renderForm_congr ?_ ?_ ?_ hchildren
      · refine commaList_congr hp.self.args hq.self.args ?_
        rw [renderArgs_eq, renderArgs_eq]
        refine List.map_congr_left fun a ha => ?_
        rw [element_congr hsource, hchildren depth _ (mem_places_value ha)]
      · refine commaList_congr hp.self.params hq.self.params ?_
        rw [renderParams_eq, renderParams_eq]
        refine List.map_congr_left fun r hr => ?_
        rw [element_congr hsource]
        cases hdefault : r.default with
        | none => rfl
        | some value => simp only [hchildren depth value (mem_places_default hr hdefault)]
      · rw [Printer.captures, Printer.captures]
        refine congrArg _ (congrArg (· ++ ")") (congrArg (" use (" ++ ·) ?_))
        refine commaList_congr hp.self.captures hq.self.captures ?_
        exact List.map_congr_left fun e _ => element_congr hsource e _
    rw [render, render, verbatim?_congr hsource, hform]

end Printer

/-- No list ends in a comma after a run with the nullsafe and the comma rule and at least one
revisit. So whatever the source text is, the tokens do not matter when the result is printed. -/
theorem run_leaves_no_trailing_comma (cfg : Settings) (s : Session) (hrules : s.rules ⊆ cfg.catalog)
    (hnullsafe : Nullsafe.rule cfg.nullsafeStem cfg.strictNullCheck ∈ s.rules)
    (hcomma : TrailingComma.rule ∈ s.rules) (hrevisits : 1 ≤ s.maxRevisits) (file : FileId)
    (tree : Node) (tokens : List Token) :
    let out := (s.run file tree tokens).tree
    (∀ n ∈ out.preorder, TidyLists (some tokens) n) ∧
      ∀ source : String,
        (Printer.withSource source tokens).print out =
          (⟨some source.toList, none⟩ : Printer).print out ∧
        (Printer.withSource source tokens).print out =
          (Printer.withSource source []).print out := by
  intro out
  let ctx : Context := ⟨some file, some tokens, tree.variableNames⟩
  have htidy : out.All (Node.IsTidy ctx) :=
    Pass.visit_isTidy rfl hrules hnullsafe hcomma (fun hzero => by omega) s.names
  have hlists : out.All (TidyLists ctx.tokens) :=
    htidy.mono fun _ h => TrailingComma.tidyLists_of_clean h.plain h.clean
  have hprint (source : String) (q : Printer) (hsource : q.source = some source.toList)
      (hq : ∀ span, followedBySeparator q.tokens span = false) :
      (Printer.withSource source tokens).print out = q.print out :=
    Printer.render_congr hsource.symm hlists (fun n _ => tidyLists_of_not_followed hq n) 0
  refine ⟨hlists, fun source => ⟨hprint source _ rfl fun _ => rfl, hprint source _ rfl ?_⟩⟩
  rintro (_ | span)
  · rfl
  · exact congrArg startsWithTrailingComma List.drop_nil

/-- Three lists end in a comma: one moves with a hoisted object, and one belongs to a nullsafe call
and is reached through the only revisit. -/
theorem run_leaves_no_trailing_comma_of_nested_calls :
    let source := "(new A(1,))->f($x?->g(2,),);"
    let tokens := scan source
    let object := Node.synthesized (.new (Node.synthesized (.name "A"))
      [{ value := ⟨.int 1, some ⟨7, 8⟩, {}⟩, span := some ⟨7, 8⟩ }])
    let call := Node.synthesized (.nullsafeMethodCall (Node.var "x") "g"
      [{ value := ⟨.int 2, some ⟨22, 23⟩, {}⟩, span := some ⟨22, 23⟩ }])
    let tree := Node.synthesized (.expression (Node.synthesized (.methodCall object "f"
      [{ value := call, span := some ⟨15, 25⟩ }])))
    let cfg : Settings := {}
    let s : Session := { rules := cfg.catalog, maxRevisits := 1 }
    let out := (s.run "a.php" tree tokens).tree
    s.rules ⊆ cfg.catalog ∧ Nullsafe.rule cfg.nullsafeStem cfg.strictNullCheck ∈ s.rules ∧
      TrailingComma.rule ∈ s.rules ∧ 1 ≤ s.maxRevisits ∧
      (tree.preorder.countP fun n => !decide (TidyLists (some tokens) n)) = 3 ∧
      (∀ n ∈ out.preorder, TidyLists (some tokens) n) ∧
      (Printer.withSource source tokens).print out = (Printer.withSource source []).print out ∧
      (Printer.withSource source tokens).print out =
        "$object1 = new A(1);\n" ++
          "$object1->f(($nullsafeVariable1 = $x) ? $nullsafeVariable1->g(2) : null);" := by
  intro source tokens object call tree cfg s out
  have hsub : s.rules ⊆ cfg.catalog := List.Subset.refl _
  have hnullsafe : Nullsafe.rule cfg.nullsafeStem cfg.strictNullCheck ∈ s.rules := by
    simp [s, Settings.catalog]
  have hcomma : TrailingComma.rule ∈ s.rules := by simp [s, Settings.catalog]
  obtain ⟨hlists, hprint⟩ := run_leaves_no_trailing_comma cfg s hsub hnullsafe hcomma
    (Nat.le_refl 1) "a.php" tree tokens
  exact ⟨hsub, hnullsafe, hcomma, Nat.le_refl 1, by decide +kernel, hlists, (hprint source).2,
    by decide +kernel⟩

end SyntaxLowering
