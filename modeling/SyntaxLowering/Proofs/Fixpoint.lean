import SyntaxLowering.Proofs.NormalForm
import SyntaxLowering.SourceUnit

/-!
# A lowered tree is a fixpoint

A run ends in a normal tree if it has enough revisits for each statement: one less than the
statement has objects to hoist, and one for a nullsafe access. The proof is by induction on the
revisits and, within them, on the tree; a replacement is visited with one revisit less, and has
one access less in each of its statements. A second run then finds nothing to do.
-/

namespace SyntaxLowering

/-! ### What the catalog does to a settled node -/

namespace Pass

variable {revisit : Node → Pass Node} {ctx : Context} {rules : List Rule}

/-- A rule that has nothing to do on the kinds it does not claim may as well be called on them. -/
theorem value_applyRules_cons {rule : Rule} {n : Node} {names : NameSupply}
    (h : ¬rule.claims n.kind = true → rule.call ctx n names = .none n names) :
    (applyRules revisit ctx n.kind (rule :: rules) n names).value =
      (match (rule.call ctx n names).verdict with
        | .replaced m => revisit m (rule.call ctx n names).names
        | _ => applyRules revisit ctx n.kind rules (rule.call ctx n names).node
            (rule.call ctx n names).names).value := by
  by_cases hclaims : rule.claims n.kind = true
  · exact (congrArg Progress.value (applyRules_of_claims hclaims)).trans rfl
  · rw [applyRules_of_not_claims hclaims, h hclaims]
    rfl

/-- What the rules of the catalog make of a node. -/
inductive Applied (cfg : Settings) (ctx : Context) (revisit : Node → Pass Node) (n : Node) :
    Node → Prop
  | quiet (hload : Hoist.hoistable n = 0) (hplain : Nullsafe.access? n.form = none)
      (hclean : TrailingComma.cleanForm? ctx n.form = none) : Applied cfg ctx revisit n n
  | cleaned {form : Form Node} (hclean : TrailingComma.cleanForm? ctx n.form = some form) :
      Applied cfg ctx revisit n ⟨form, n.span, n.marks.outdated⟩
  | lowered {object : Node} {plain : Node → Form Node}
      (haccess : Nullsafe.access? n.form = some (object, plain)) (x : String)
      (names : NameSupply) :
      Applied cfg ctx revisit n
        (revisit (Nullsafe.lowered cfg.strictNullCheck (Node.var x) object plain) names).value
  | hoisted {hole : Hoist.Hole Node} (hreceiver : Hoist.receiverInStatement? n = some hole)
      (x : String) (names : NameSupply) :
      Applied cfg ctx revisit n (revisit (Hoist.hoisted (Node.var x) hole) names).value

theorem call_of_not_claims {cfg : Settings} {file : FileId} (hfile : ctx.file = some file)
    {rule : Rule} (hrule : rule ∈ cfg.catalog) {n : Node} (hclaims : ¬rule.claims n.kind = true)
    (names : NameSupply) : rule.call ctx n names = .none n names := by
  simp only [Settings.catalog, List.mem_cons, List.not_mem_nil, or_false] at hrule
  rcases hrule with rfl | rfl | rfl
  · have hload : Hoist.hoistable n = 0 := by
      apply Hoist.hoistable_eq_zero
      simpa [Rule.claims, Hoist.rule, Node.kind] using hclaims
    rw [Hoist.call_eq hfile, Hoist.receiverInStatement?_eq_none.2 hload]
  · have hplain : Nullsafe.access? n.form = none := by
      rw [Nullsafe.access?_eq_none_iff]
      simpa [Rule.claims, Nullsafe.rule, Node.kind] using hclaims
    rw [Nullsafe.call_eq hfile, hplain]
  · have hclean : TrailingComma.cleanForm? ctx n.form = none := by
      rw [TrailingComma.cleanForm?_eq_none_iff]
      exact fun hkind => absurd (List.contains_iff_mem.2 hkind) hclaims
    rw [TrailingComma.call_eq, hclean]

/-- Some of the rules, in any order, act on a node as the catalog does, or all of them leave it
alone. -/
theorem applied_or_idle {cfg : Settings} {file : FileId} (hfile : ctx.file = some file)
    (hrules : rules ⊆ cfg.catalog) {n : Node} (hn : n.Settled) (names : NameSupply) :
    Applied cfg ctx revisit n (applyRules revisit ctx n.kind rules n names).value ∨
      (applyRules revisit ctx n.kind rules n names).value = n ∧
        ∀ rule ∈ rules, rule.call ctx n names = .none n names := by
  induction rules with
  | nil => exact .inr ⟨rfl, by simp⟩
  | cons rule rules ih =>
    rw [List.cons_subset] at hrules
    obtain ⟨hrule, hrules⟩ := hrules
    rw [value_applyRules_cons fun hclaims => call_of_not_claims hfile hrule hclaims names]
    have hnext (hcall : rule.call ctx n names = .none n names) :
        Applied cfg ctx revisit n (applyRules revisit ctx n.kind rules n names).value ∨
          (applyRules revisit ctx n.kind rules n names).value = n ∧
            ∀ r ∈ rule :: rules, r.call ctx n names = .none n names :=
      (ih hrules).imp_right fun hidle => ⟨hidle.1, List.forall_mem_cons.2 ⟨hcall, hidle.2⟩⟩
    generalize hcall : rule.call ctx n names = e at hnext ⊢
    have hcases := CatalogCall.of_mem hrule ctx n names
    rw [hcall] at hcases
    cases hcases with
    | unchanged => exact hnext rfl
    | lowered _ haccess => exact .inl (.lowered haccess _ _)
    | hoisted _ hreceiver => exact .inl (.hoisted hreceiver _ _)
    | @cleaned form hclean =>
      -- the other rules have nothing to do on a cleaned node
      have hcleaned := NormalAt.cleaned hn hclean 0
      have hidle : Idle _ names (applyRules revisit ctx n.kind rules _ names) :=
        applyRules_idle (fun r hr => hcleaned.call_eq hfile (hrules hr) names) n.kind
      refine .inl ?_
      change Applied cfg ctx revisit n (applyRules revisit ctx n.kind rules
        ⟨form, n.span, n.marks.outdated⟩ names).value
      rw [hidle.value]
      exact .cleaned hclean

theorem applied_of_applyRules {cfg : Settings} {file : FileId} (hfile : ctx.file = some file)
    (hrules : rules ⊆ cfg.catalog) (hall : cfg.catalog ⊆ rules) {n : Node} (hn : n.Settled)
    (names : NameSupply) :
    Applied cfg ctx revisit n (applyRules revisit ctx n.kind rules n names).value := by
  rcases applied_or_idle hfile hrules hn names with happlied | ⟨hvalue, hidle⟩
  · exact happlied
  · rw [hvalue]
    have hhoist := hidle (Hoist.rule cfg.hoistStem) (hall (by simp [Settings.catalog]))
    have hnullsafe := hidle (Nullsafe.rule cfg.nullsafeStem cfg.strictNullCheck)
      (hall (by simp [Settings.catalog]))
    have hcomma := hidle TrailingComma.rule (hall (by simp [Settings.catalog]))
    rw [Hoist.call_eq hfile] at hhoist
    rw [Nullsafe.call_eq hfile] at hnullsafe
    rw [TrailingComma.call_eq] at hcomma
    cases hreceiver : Hoist.receiverInStatement? n with
    | some hole => simp [hreceiver, Effect.none, Effect.replace] at hhoist
    | none =>
      cases haccess : Nullsafe.access? n.form with
      | some access => simp [haccess, Effect.none, Effect.replace] at hnullsafe
      | none =>
        cases hclean : TrailingComma.cleanForm? ctx n.form with
        | some form => simp [hclean, Effect.none] at hcomma
        | none => exact .quiet (Hoist.receiverInStatement?_eq_none.1 hreceiver) haccess hclean

/-! ### A visit ends in a normal tree -/

/-- A node that a visit with some revisits left brings to its normal form. -/
structure Payable (revisits : Nat) (n : Node) : Prop where
  load : Hoist.hoistable n ≤ revisits + 1
  plain : revisits = 0 → Nullsafe.access? n.form = none

theorem Payable.of_normalAt {room revisits : Nat} {n : Node} (h : NormalAt ctx room n)
    (hroom : room ≤ revisits + 1) : Payable revisits n :=
  ⟨Nat.le_trans h.load hroom, fun _ => h.plain⟩

/-- A lowered access over normal parts has no accesses to pay for. -/
theorem payable_lowered {n object : Node} {plain : Node → Form Node}
    (haccess : Nullsafe.access? n.form = some (object, plain))
    (hparts : ∀ c ∈ n.form.children, c.Normal ctx 0) (strict : Bool) (x : String)
    (revisits : Nat) :
    (Nullsafe.lowered strict (Node.var x) object plain).All (Payable revisits) := by
  obtain ⟨form, span, marks⟩ := n
  have hvar : (Node.var x).All (Payable revisits) :=
    Node.all_iff.2 ⟨⟨Nat.zero_le _, fun _ => rfl⟩, fun _ hc => absurd hc List.not_mem_nil⟩
  refine Nullsafe.all_lowered (Node.layered_all _) haccess ?_ hvar ⟨Nat.zero_le _, fun _ => rfl⟩
    ⟨Nat.zero_le _, fun _ => rfl⟩ ?_ ?_ ⟨Nat.zero_le _, fun _ => rfl⟩
  · exact fun c hc => (hparts c hc).mono fun _ hm => .of_normalAt hm (Nat.zero_le _)
  · cases strict <;> exact ⟨Nat.zero_le _, fun _ => rfl⟩
  · cases Nullsafe.Access.of_access? haccess <;> exact ⟨Nat.zero_le _, fun _ => rfl⟩

/-- The rules bring a settled node over normal children to its normal form, if the visit of a
replacement does so. -/
theorem Applied.normal {cfg : Settings} {revisits : Nat}
    (hhoisted : ∀ n names, n.Normal ctx revisits → (revisit n names).value.Normal ctx 0)
    (hlowered : revisits ≠ 0 → ∀ n names, n.All (Payable (revisits - 1)) →
      (revisit n names).value.Normal ctx 0)
    {n m : Node} (h : Applied cfg ctx revisit n m) (hsettled : n.Settled)
    (hchildren : ∀ c ∈ n.form.children, c.Normal ctx 0) (hn : Payable revisits n) :
    m.Normal ctx 0 := by
  cases h with
  | quiet hload hplain hclean =>
    exact Node.all_iff.2 ⟨⟨hsettled, hplain, hclean, Nat.le_zero.2 hload⟩, hchildren⟩
  | cleaned hclean =>
    refine Node.all_iff.2 ⟨.cleaned hsettled hclean 0, fun c hc => hchildren c ?_⟩
    rw [← (TrailingComma.Cleaned.of_cleanForm? hclean).children_eq]
    exact hc
  | lowered haccess x names =>
    have hrevisits : revisits ≠ 0 := by
      intro hzero
      rw [hn.plain hzero] at haccess
      cases haccess
    exact hlowered hrevisits _ names (payable_lowered haccess hchildren _ x _)
  | hoisted hreceiver x names =>
    exact hhoisted _ names (Node.normal_hoisted hchildren hreceiver hn.load x)

theorem visitWith_normal {cfg : Settings} {file : FileId} (hfile : ctx.file = some file)
    (hrules : rules ⊆ cfg.catalog) (hall : cfg.catalog ⊆ rules) {revisits : Nat}
    (hcounts : ∀ n names, Hoist.CountsAs n (visitWith revisit rules ctx n names).value)
    (hhoisted : ∀ n names, n.Normal ctx revisits → (revisit n names).value.Normal ctx 0)
    (hlowered : revisits ≠ 0 → ∀ n names, n.All (Payable (revisits - 1)) →
      (revisit n names).value.Normal ctx 0)
    {n : Node} (hn : n.All (Payable revisits)) (names : NameSupply) :
    (visitWith revisit rules ctx n names).value.Normal ctx 0 := by
  induction n using Node.inductionOn generalizing names with
  | step form span marks ih =>
    obtain ⟨hshape, hchildren⟩ := mapM_form (visitWith revisit rules ctx) form names
    -- each child ends normal, and with as much to hoist as it had
    let P (c : Node) (_ : NameSupply) (p : Progress Node) : Prop :=
      Hoist.CountsAs c p.value ∧ p.value.Normal ctx 0
    have hsweep : Sweep P form.children names _ :=
      Sweep.of_mapM (fun c hc names => ⟨hcounts c names, ih c hc (hn.child hc) names⟩) names
    rw [hchildren] at hsweep
    rw [visitWith_apply]
    revert hshape hsweep
    generalize form.mapM (visitWith revisit rules ctx) names = p
    intro hshape hsweep
    have hforall : List.Forall₂ (fun c d => Hoist.CountsAs c d ∧ d.Normal ctx 0) form.children
        p.value.children := Sweep.forall₂ (P := P) (fun _ _ _ h => h) hsweep
    have hrel : Form.Rel Hoist.CountsAs form p.value :=
      ⟨hshape.symm, hforall.imp fun _ _ hcd => hcd.1⟩
    have hbelow : ∀ d ∈ p.value.children, d.Normal ctx 0 := by
      intro d hd
      obtain ⟨c, -, -, hnormal⟩ := exists_left_of_forall₂ hforall hd
      exact hnormal
    have hsettled : (Node.settle p.value span marks).Settled := by
      refine Node.settled_settle fun m hm => (hbelow m ?_).self.settled
      exact Form.mem_children.2 (.inr (.inr (.inr hm)))
    refine (applied_of_applyRules hfile hrules hall hsettled p.names).normal hhoisted hlowered
      hsettled ?_ ?_
    · intro c hc
      rcases Form.mem_children_settled hc with hc | ⟨g, hg, hc⟩
      · exact hbelow c hc
      · exact (hbelow g hg).child hc
    · have hself : Payable revisits ⟨form, span, marks⟩ := hn.self
      refine ⟨?_, fun hzero => ?_⟩
      · rw [Hoist.hoistable_settle (n := ⟨form, span, marks⟩) hrel]
        exact hself.load
      · have hplain := hself.plain hzero
        rw [Nullsafe.access?_eq_none_iff] at hplain ⊢
        change p.value.settled.kind ∉ _
        rw [Form.kind_settled, ← hrel.kind_eq]
        exact hplain

/-- A visit with the whole catalog ends in a normal tree, if every statement has at most one
object to hoist more than there are revisits, and no nullsafe access is left for the last visit. -/
theorem visit_normal {cfg : Settings} {file : FileId} (hfile : ctx.file = some file)
    (hrules : rules ⊆ cfg.catalog) (hall : cfg.catalog ⊆ rules) {revisits : Nat} {n : Node}
    (hn : n.All (Payable revisits)) (names : NameSupply) :
    (visit rules ctx revisits n names).value.Normal ctx 0 := by
  have hcounts (revisits : Nat) (n : Node) (names : NameSupply) :
      Hoist.CountsAs n (visit rules ctx revisits n names).value :=
    .visit hrules revisits n names
  induction revisits generalizing n names with
  | zero =>
    exact visitWith_normal hfile hrules hall (hcounts 0) (fun _ _ hnormal => hnormal)
      (fun hne => absurd rfl hne) hn names
  | succ revisits ih =>
    -- one revisit is spent on a replacement, which has one access less in each statement
    have hhoisted (m : Node) (names : NameSupply) (hm : m.Normal ctx (revisits + 1)) :
        (visit rules ctx revisits m names).value.Normal ctx 0 :=
      ih (hm.mono fun _ hk => .of_normalAt hk (Nat.le_refl _)) names
    have hlowered (_ : revisits + 1 ≠ 0) (m : Node) (names : NameSupply)
        (hm : m.All (Payable (revisits + 1 - 1))) :
        (visit rules ctx revisits m names).value.Normal ctx 0 := ih hm names
    exact visitWith_normal hfile hrules hall (hcounts (revisits + 1)) hhoisted hlowered hn names

end Pass

/-! ### A second run -/

theorem Tally.count_unchanged {calls : List Call} (h : ∀ c ∈ calls, c.outcome = .unchanged)
    (t : Tally) :
    (t.count calls).mutations = t.mutations ∧ (t.count calls).replacements = t.replacements := by
  have hnone (outcome : Outcome) (hne : outcome ≠ .unchanged) :
      (calls.filter (·.rule.name == t.rule)).countP (·.outcome == outcome) = 0 := by
    rw [List.countP_eq_zero]
    intro c hc
    rw [h c (List.mem_filter.1 hc).1]
    simpa using hne.symm
  exact ⟨by simp [Tally.count, hnone], by simp [Tally.count, hnone]⟩

/-- Running over a normal tree of the same tokens changes nothing, in any session. -/
theorem Session.run_normal {ctx : Context} {tokens : List Token}
    (htokens : ctx.tokens = some tokens) {tree : Node} (htree : tree.Normal ctx 0)
    {cfg : Settings} {s : Session} (hrules : s.rules ⊆ cfg.catalog) (file : FileId) :
    (s.run file tree tokens).tree = tree ∧
      ∀ c ∈ (s.run file tree tokens).calls, c.outcome = .unchanged := by
  let ctx' : Context := ⟨some file, some tokens, tree.variableNames⟩
  have htree' : tree.Normal ctx' 0 := htree.mono fun _ hn => hn.of_tokens_eq htokens.symm
  have hidle : Idle tree s.names (Pass.visit s.rules ctx' s.maxRevisits tree s.names) :=
    Pass.visit_idle hrules rfl htree' s.maxRevisits s.names
  exact ⟨hidle.value, hidle.calls⟩

/-- A lowered tree is a fixpoint. If after nullsafe lowering no statement has more than one object
to hoist beyond the limit on revisits, a run leaves no nullsafe access and no object to hoist, and
another run over the result gives the very same tree, with all spans and marks, and counts no
mutation and no replacement, whatever the file, the state of the session and its limit on revisits.
So processing a lowered unit again reports no change. -/
theorem run_reaches_fixpoint (cfg : Settings) (s : Session) (hrules : s.rules ⊆ cfg.catalog)
    (hall : cfg.catalog ⊆ s.rules) (hrevisits : 1 ≤ s.maxRevisits) (file : FileId) (tree : Node)
    (tokens : List Token)
    (hload : ∀ n ∈ (({ s with rules := [Nullsafe.rule cfg.nullsafeStem cfg.strictNullCheck] } :
      Session).run file tree tokens).tree.preorder, Hoist.hoistable n ≤ s.maxRevisits + 1) :
    let out := (s.run file tree tokens).tree
    (∀ n ∈ out.preorder,
      n.kind ∉ [.nullsafeMethodCall, .nullsafePropertyFetch] ∧ Hoist.hoistable n = 0) ∧
    (∀ (cfg' : Settings) (s' : Session) (file' : FileId), s'.rules ⊆ cfg'.catalog →
      let again := s'.run file' out tokens
      again.tree = out ∧ (∀ c ∈ again.calls, c.outcome = .unchanged) ∧
        again.session.tallies.map (fun t => (t.rule, t.mutations, t.replacements)) =
          s'.tallies.map fun t => (t.rule, t.mutations, t.replacements)) ∧
    ∀ (cfg' : Settings) (w w' : Workbench) (u : SourceUnit), w.session = s → u.path = file →
      u.tree = tree → u.tokenStream = tokens → w'.session.rules ⊆ cfg'.catalog →
      (w'.process (w.process u).1.toUnit).1.changed = false := by
  intro out
  let ctx : Context := ⟨some file, some tokens, tree.variableNames⟩
  have hload : (Pass.visit [Nullsafe.rule cfg.nullsafeStem cfg.strictNullCheck] ctx s.maxRevisits
      tree s.names).value.All (Hoist.hoistable · ≤ s.maxRevisits + 1) := hload
  have hbound : tree.All (Hoist.hoistable · ≤ s.maxRevisits + 1) :=
    Hoist.hoistable_le_of_nullsafe rfl _ _ _ hload
  have hpayable : tree.All (Pass.Payable s.maxRevisits) :=
    hbound.mono fun n hn => ⟨hn, fun hzero => by omega⟩
  have hnormal : out.Normal ctx 0 := Pass.visit_normal rfl hrules hall hpayable s.names
  refine ⟨fun n hn => ?_, ?_, ?_⟩
  · have hself : NormalAt ctx 0 n := hnormal n hn
    exact ⟨Nullsafe.access?_eq_none_iff.1 hself.plain, Nat.le_zero.1 hself.load⟩
  · intro cfg' s' file' hrules' again
    obtain ⟨htree, hcalls⟩ : again.tree = out ∧ ∀ c ∈ again.calls, c.outcome = .unchanged :=
      Session.run_normal rfl hnormal hrules' file'
    refine ⟨htree, hcalls, ?_⟩
    change (s'.tallies.map (·.count again.calls)).map _ = _
    rw [List.map_map]
    refine List.map_congr_left fun t _ => ?_
    obtain ⟨hmutations, hreplacements⟩ := Tally.count_unchanged hcalls t
    rw [Function.comp_apply, hmutations, hreplacements]
    rfl
  · rintro cfg' w w' u rfl rfl rfl rfl hrules'
    obtain ⟨htree, -⟩ := Session.run_normal rfl hnormal hrules' u.path
    change ((w'.session.run u.path out u.tokenStream).tree != out) = false
    rw [htree]
    simp

/-- One revisit is enough for the two objects and the nullsafe access of
`return (new A)->f((clone $b)->g($c?->d,));`, and the second run changes nothing. -/
theorem run_reaches_fixpoint_of_two_objects :
    let d := Node.synthesized (.nullsafePropertyFetch (Node.var "c") "d")
    let g := Node.synthesized (.methodCall (Node.synthesized (.clone (Node.var "b"))) "g"
      [{ value := d, span := some ⟨33, 38⟩ }])
    let tree := Node.synthesized (.ret (some (Node.synthesized (.methodCall
      (Node.synthesized (.new (Node.synthesized (.name "A")) [])) "f" [{ value := g }]))))
    let tokens : List Token := [.startingAt 38 .comma ",", .startingAt 39 .closeParen ")"]
    let cfg : Settings := {}
    let s : Session := { rules := cfg.catalog, maxRevisits := 1 }
    let lowered := (({ s with rules := [Nullsafe.rule cfg.nullsafeStem cfg.strictNullCheck] } :
      Session).run "a.php" tree tokens).tree
    let w : Workbench := ⟨s, true⟩
    let u : SourceUnit := ⟨"a.php", none, some tokens, tree⟩
    (∀ n ∈ lowered.preorder, Hoist.hoistable n ≤ 2) ∧
      (∃ n ∈ lowered.preorder, Hoist.hoistable n = 2) ∧ (w.process u).1.changed = true ∧
      ((w.process u).2.process (w.process u).1.toUnit).1.changed = false := by
  intro d g tree tokens cfg s lowered w u
  have hload : ∀ n ∈ lowered.preorder, Hoist.hoistable n ≤ 2 := by decide +kernel
  have hsub : cfg.catalog ⊆ cfg.catalog := List.Subset.refl _
  obtain ⟨-, -, hunits⟩ :=
    run_reaches_fixpoint cfg s hsub hsub (Nat.le_refl 1) "a.php" tree tokens hload
  exact ⟨hload, by decide +kernel, by decide +kernel,
    hunits cfg w (w.process u).2 u rfl rfl rfl rfl hsub⟩

end SyntaxLowering
