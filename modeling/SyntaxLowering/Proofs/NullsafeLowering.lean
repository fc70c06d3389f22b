import SyntaxLowering.Proofs.Erasure
import SyntaxLowering.Proofs.Workload
import SyntaxLowering.Source.Printer

/-!
# Nullsafe accesses are lowered once

A pass visits every replacement again, with all that is already lowered below it. With the nullsafe
rule alone these visits find nothing to do, so the pass amounts to one recursion from the leaves to
the root that never looks back (`Nullsafe.lowerAll`). The two differ in whose source text is still
valid, which the recursion does not keep track of, so they are compared up to that.
-/

namespace SyntaxLowering

namespace Nullsafe

/-! ### One recursion -/

/-- `(temp = object) ? access : null`, or with the condition `(temp = object) !== null`. -/
def choice (strict : Bool) (temp object access : Node) : Node :=
  let assigned := Node.synthesized (.assign temp object)
  let condition :=
    if strict then Node.synthesized (.notIdentical assigned Node.null) else assigned
  Node.synthesized (.ternary condition access Node.null)

/-- Lowers all nullsafe accesses of a tree from the leaves to the root. The name of a temporary is
drawn when the parts of its access are done. -/
def lowerAll (stem : String) (strict : Bool) (file : FileId) (reserved : List String) (n : Node) :
    StateM NameSupply Node :=
  n.fold fun layer span marks => do
    match (← layer.mapM id).spliced with
    | .nullsafeMethodCall object method args =>
      let x ← modifyGet fun names : NameSupply => names.allocate file stem reserved
      return choice strict (Node.var x) object
        (Node.synthesized (.methodCall (Node.var x) method args))
    | .nullsafePropertyFetch object property =>
      let x ← modifyGet fun names : NameSupply => names.allocate file stem reserved
      return choice strict (Node.var x) object
        (Node.synthesized (.propertyFetch (Node.var x) property))
    | form => return ⟨form, span, marks⟩

theorem lowerAll_mk (stem : String) (strict : Bool) (file : FileId) (reserved : List String)
    (form : Form Node) (span : Option Span) (marks : Marks) (names : NameSupply) :
    lowerAll stem strict file reserved ⟨form, span, marks⟩ names =
      (let below := form.mapM (lowerAll stem strict file reserved) names
       match access? below.1.spliced with
       | none => (⟨below.1.spliced, span, marks⟩, below.2)
       | some (object, plain) =>
         (lowered strict (Node.var (below.2.allocate file stem reserved).1) object plain,
           (below.2.allocate file stem reserved).2)) := by
  rw [lowerAll, Node.fold_mk, Form.mapM_map]
  have hbind {γ δ : Type} (x : StateM NameSupply γ) (k : γ → StateM NameSupply δ) :
      (x >>= k) names = k (x names).1 (x names).2 := rfl
  refine (hbind (form.mapM (lowerAll stem strict file reserved)) _).trans ?_
  generalize form.mapM (lowerAll stem strict file reserved) names = below
  dsimp only
  cases below.1.spliced <;> rfl

/-- A step of a pass that does what a step without calls does, up to the validity of source text. -/
structure Agrees (p : Progress Node) (q : Node × NameSupply) : Prop where
  value : p.value.erase .textValidity = q.1.erase .textValidity
  names : p.names = q.2

end Nullsafe

/-- Steps over the children of a layer that agree one by one agree on the layer. -/
theorem Nullsafe.Agrees.mapM_form {f : Node → Pass Node} {g : Node → StateM NameSupply Node}
    {form : Form Node} (h : ∀ c ∈ form.children, ∀ names, Nullsafe.Agrees (f c names) (g c names))
    (names : NameSupply) :
    (form.mapM f names).value.map (·.erase .textValidity) =
        (form.mapM g names).1.map (·.erase .textValidity) ∧
      (form.mapM f names).names = (form.mapM g names).2 := by
  have hlist {cs : List Node} (hcs : ∀ c ∈ cs, ∀ names, Nullsafe.Agrees (f c names) (g c names))
      (names : NameSupply) :
      (cs.mapM f names).value.map (·.erase .textValidity) =
          (cs.mapM g names).1.map (·.erase .textValidity) ∧
        (cs.mapM f names).names = (cs.mapM g names).2 := by
    induction cs generalizing names with
    | nil => exact ⟨rfl, rfl⟩
    | cons c cs ih =>
      have hhead := hcs c List.mem_cons_self names
      obtain ⟨hvalue, hnames⟩ :=
        ih (fun d hd => hcs d (List.mem_cons_of_mem c hd)) (f c names).names
      have hcons : (c :: cs).mapM g names =
          ((g c names).1 :: (cs.mapM g (g c names).2).1, (cs.mapM g (g c names).2).2) := by
        rw [List.mapM_cons]
        rfl
      rw [hhead.names] at hvalue hnames
      rw [Pass.mapM_cons, hcons, hhead.names]
      exact ⟨by simp only [List.map_cons, hhead.value, hvalue], hnames⟩
  obtain ⟨hshape, hchildren⟩ := Pass.mapM_form f form names
  have hmapM := congrFun (Form.mapM_bind g form fun shape cs => pure (shape, cs)) names
  have hshape' : (form.mapM g names).1.shape = form.shape := congrArg (·.1.1) hmapM
  have hchildren' : (form.mapM g names).1.children = (form.children.mapM g names).1 :=
    congrArg (·.1.2) hmapM
  have hnames' : (form.mapM g names).2 = (form.children.mapM g names).2 := congrArg (·.2) hmapM
  obtain ⟨hvalue, hnames⟩ := hlist h names
  rw [hchildren] at hvalue hnames
  refine ⟨?_, hnames.trans hnames'.symm⟩
  apply Form.eq_of_shape_eq
  · simp only [Form.shape, Form.map_map] at hshape hshape' ⊢
    rw [hshape, hshape']
  · rw [Form.children_map, Form.children_map, hchildren']
    exact hvalue

namespace Nullsafe

/-- Lowering an access and forgetting the validity of source text can be exchanged. -/
theorem erase_lowered {form : Form Node} {object : Node} {plain : Node → Form Node}
    (h : access? form = some (object, plain)) (strict : Bool) (x : String) :
    ∃ plain', access? ((form.map (·.erase .textValidity)).erase .textValidity) =
        some (object.erase .textValidity, plain') ∧
      (lowered strict (Node.var x) object plain).erase .textValidity =
        lowered strict (Node.var x) (object.erase .textValidity) plain' := by
  have hsynthesized (g : Form Node) : (Node.synthesized g).erase .textValidity =
      Node.synthesized ((g.map (·.erase .textValidity)).erase .textValidity) :=
    Node.erase_mk .textValidity g none {}
  have hvar : (Node.var x).erase .textValidity = Node.var x := hsynthesized (.var x)
  have hnull : Node.null.erase .textValidity = Node.null := hsynthesized .null
  have hguard : (guard strict (Node.var x) object).erase .textValidity =
      guard strict (Node.var x) (object.erase .textValidity) := by
    cases strict <;> simp [guard, hsynthesized, hvar, hnull, Form.map, Form.erase, Form.rebuild]
  cases Access.of_access? h with
  | call =>
    refine ⟨_, rfl, ?_⟩
    simp [lowered, hsynthesized, hguard, hvar, hnull, Form.map, Form.erase, Form.rebuild]
  | fetch =>
    refine ⟨_, rfl, ?_⟩
    simp [lowered, hsynthesized, hguard, hvar, hnull, Form.map, Form.erase, Form.rebuild]

/-- Accesses that differ in the validity of source text only are lowered alike. -/
theorem erase_lowered_eq {form form' : Form Node} {object object' : Node}
    {plain plain' : Node → Form Node} (h : access? form = some (object, plain))
    (h' : access? form' = some (object', plain'))
    (heq : (form.map (·.erase .textValidity)).erase .textValidity =
      (form'.map (·.erase .textValidity)).erase .textValidity)
    (strict : Bool) (x : String) :
    (lowered strict (Node.var x) object plain).erase .textValidity =
      (lowered strict (Node.var x) object' plain').erase .textValidity := by
  obtain ⟨_, haccess, hlowered⟩ := erase_lowered h strict x
  obtain ⟨_, haccess', hlowered'⟩ := erase_lowered h' strict x
  rw [heq, haccess'] at haccess
  obtain ⟨hobject, rfl⟩ := Prod.mk.inj (Option.some.inj haccess)
  rw [hlowered, hlowered', hobject]

/-! ### A pass is the recursion -/

variable {ctx : Context} {file : FileId} {revisit : Node → Pass Node}

/-- The rule lowers a settled node as the recursion does, if the visit of a replacement leaves
settled trees without nullsafe accesses alone. -/
theorem agrees_applyRules (stem : String) (strict : Bool) (hfile : ctx.file = some file)
    (hidle : ∀ n names, n.All Node.Settled → n.All Node.IsPlain → Idle n names (revisit n names))
    {form form' : Form Node} (span : Option Span) (marks : Marks)
    (hsettled : (Node.settle form span marks).All Node.Settled)
    (hplain : ∀ c ∈ form.settled.children, c.All Node.IsPlain)
    (heq : form.map (·.erase .textValidity) = form'.map (·.erase .textValidity))
    (names : NameSupply) :
    Agrees
      (Pass.applyRules revisit ctx (Node.settle form span marks).kind [rule stem strict]
        (Node.settle form span marks) names)
      (match access? form'.spliced with
        | none => (⟨form'.spliced, span, marks⟩, names)
        | some (object, plain) =>
          (lowered strict (Node.var (names.allocate file stem ctx.reserved).1) object plain,
            (names.allocate file stem ctx.reserved).2)) := by
  have hlayer : (form.settled.map (·.erase .textValidity)).erase .textValidity =
      (form'.spliced.map (·.erase .textValidity)).erase .textValidity := by
    rw [Form.erase_settled Erasure.forgetsValidity_textValidity, Form.map_erase_spliced, heq]
  have herase : (Node.settle form span marks).erase .textValidity =
      Node.erase ⟨form'.spliced, span, marks⟩ .textValidity := by
    rw [Node.erase_settle Erasure.forgetsValidity_textValidity, Node.erase_mk, Node.erase_mk,
      Form.map_erase_spliced, Form.map_erase_spliced, heq]
  have hkind : form.settled.kind = form'.spliced.kind := by
    simpa using congrArg Form.kind hlayer
  cases haccess : access? form.settled with
  | none =>
    have haccess' : access? form'.spliced = none := by
      rw [access?_eq_none_iff] at haccess ⊢
      rwa [← hkind]
    have hcall : ∀ r ∈ [rule stem strict], r.call ctx (Node.settle form span marks) names =
        .none (Node.settle form span marks) names := by
      refine List.forall_mem_singleton.2 ?_
      rw [call_eq hfile]
      show (match access? form.settled with | none => _ | some (object, plain) => _) = _
      rw [haccess]
    have hrules : Idle (Node.settle form span marks) names (Pass.applyRules revisit ctx
        (Node.settle form span marks).kind [rule stem strict] (Node.settle form span marks)
        names) :=
      Pass.applyRules_idle hcall _
    rw [haccess']
    exact ⟨(congrArg (Node.erase · .textValidity) hrules.value).trans herase, hrules.names⟩
  | some access =>
    obtain ⟨object, plain⟩ := access
    have hnullsafe : form.settled.kind ∈ [.nullsafeMethodCall, .nullsafePropertyFetch] := by
      by_contra hnot
      rw [access?_eq_none_iff.2 hnot] at haccess
      cases haccess
    cases haccess' : access? form'.spliced with
    | none => exact absurd (hkind ▸ hnullsafe) (access?_eq_none_iff.1 haccess')
    | some access' =>
      have hcall : (rule stem strict).call ctx (Node.settle form span marks) names =
          .replace
            (lowered strict (Node.var (names.allocate file stem ctx.reserved).1) object plain)
            (names.allocate file stem ctx.reserved).2 := by
        rw [call_eq hfile]
        show (match access? form.settled with | none => _ | some (object, plain) => _) = _
        rw [haccess]
      rw [Pass.applyRules_of_claims (List.contains_iff_mem.2 hnullsafe), hcall]
      -- the replacement is settled and plain, so its visit changes nothing
      have hrevisit := hidle _ (names.allocate file stem ctx.reserved).2
        (settled_lowered (n := Node.settle form span marks) haccess hsettled strict
          (names.allocate file stem ctx.reserved).1)
        (isPlain_lowered (n := Node.settle form span marks) haccess hplain strict _)
      exact ⟨(congrArg (Node.erase · .textValidity) hrevisit.value).trans
        (erase_lowered_eq haccess haccess' hlayer strict _), hrevisit.names⟩

theorem agrees_visitWith {cfg : Settings} (hfile : ctx.file = some file)
    (hidle : ∀ n names, n.All Node.Settled → n.All Node.IsPlain → Idle n names (revisit n names))
    (hsettled : ∀ n names,
      (Pass.visitWith revisit [rule cfg.nullsafeStem cfg.strictNullCheck] ctx n names).value.All
        Node.Settled)
    (hplain : ∀ n names,
      (Pass.visitWith revisit [rule cfg.nullsafeStem cfg.strictNullCheck] ctx n names).value.All
        Node.IsPlain) (n : Node) (names : NameSupply) :
    Agrees (Pass.visitWith revisit [rule cfg.nullsafeStem cfg.strictNullCheck] ctx n names)
      (lowerAll cfg.nullsafeStem cfg.strictNullCheck file ctx.reserved n names) := by
  induction n using Node.inductionOn generalizing names with
  | step form span marks ih =>
    obtain ⟨hform, hnames⟩ := Agrees.mapM_form ih names
    have hbelow := Pass.all_of_visited (fun c (_ : c ∈ form.children) => hsettled c) names
    have hbelow' := Pass.all_of_visited (fun c (_ : c ∈ form.children) => hplain c) names
    rw [Pass.visitWith_apply, lowerAll_mk]
    dsimp only
    rw [← hnames]
    have hplain' : ∀ c ∈ (form.mapM (Pass.visitWith revisit
        [rule cfg.nullsafeStem cfg.strictNullCheck] ctx) names).value.settled.children,
        c.All Node.IsPlain := by
      intro c hc
      rcases Form.mem_children_settled hc with hc | ⟨g, hg, hc⟩
      · exact hbelow' c hc
      · exact (hbelow' g hg).child hc
    obtain ⟨hvalue, hnames'⟩ := agrees_applyRules cfg.nullsafeStem cfg.strictNullCheck hfile hidle
      span marks (Node.all_settled_settle hbelow) hplain' hform
      (form.mapM (Pass.visitWith revisit [rule cfg.nullsafeStem cfg.strictNullCheck] ctx)
        names).names
    exact ⟨hvalue, hnames'⟩

/-- With the nullsafe rule alone, a visit is the recursion, whatever the limit on revisits. -/
theorem agrees_visit (cfg : Settings) (hfile : ctx.file = some file) (revisits : Nat) (n : Node)
    (names : NameSupply) :
    Agrees (Pass.visit [rule cfg.nullsafeStem cfg.strictNullCheck] ctx revisits n names)
      (lowerAll cfg.nullsafeStem cfg.strictNullCheck file ctx.reserved n names) := by
  have hrules : [rule cfg.nullsafeStem cfg.strictNullCheck] ⊆ cfg.catalog := by
    simp [Settings.catalog]
  have hsettled (revisits : Nat) (n : Node) (names : NameSupply) :
      (Pass.visit [rule cfg.nullsafeStem cfg.strictNullCheck] ctx revisits n names).value.All
        Node.Settled := Pass.visit_settled hrules revisits n names
  have hplain (revisits : Nat) := Pass.visit_isPlain hfile hrules List.mem_cons_self revisits
  cases revisits with
  | zero =>
    refine agrees_visitWith hfile (fun n names _ _ => ⟨rfl, rfl, ?_⟩) (hsettled 0) (hplain 0) n
      names
    exact fun _ hc => absurd hc List.not_mem_nil
  | succ revisits =>
    refine agrees_visitWith hfile (fun m names hm hm' => ?_) (hsettled (revisits + 1))
      (hplain (revisits + 1)) n names
    refine Pass.visit_idle_of_calls (fun k hk => ⟨hm k hk, ?_⟩) revisits names
    refine List.forall_mem_singleton.2 fun names => ?_
    rw [call_eq hfile, show access? k.form = none from hm' k hk]

end Nullsafe

/-- Nullsafe lowering is complete and lowers every access once, whatever the limit on revisits. With
the nullsafe rule alone, a run is one recursion from the leaves to the root, up to the validity of
source text, and leaves the supply of names as the recursion does. With any other rules of the
catalog, no nullsafe access is left, and the rule makes as many replacements as there were. -/
theorem run_lowers_each_access_once (cfg : Settings) (s : Session) (file : FileId) (tree : Node)
    (tokens : List Token) :
    let rule := Nullsafe.rule cfg.nullsafeStem cfg.strictNullCheck
    let run := s.run file tree tokens
    (s.rules = [rule] →
      let once := (Nullsafe.lowerAll cfg.nullsafeStem cfg.strictNullCheck file tree.variableNames
        tree).run s.names
      run.tree.erase .textValidity = once.1.erase .textValidity ∧ run.session.names = once.2) ∧
    (s.rules ⊆ cfg.catalog → rule ∈ s.rules →
      (∀ n ∈ run.tree.preorder, n.isNullsafe = false) ∧
      replacementsBy rule.name run.calls = tree.preorder.countP (·.isNullsafe) ∧
      (s.Reachable → (run.session.tallyOf rule.name).replacements =
        (s.tallyOf rule.name).replacements + tree.preorder.countP (·.isNullsafe))) := by
  intro rule run
  let ctx : Context := ⟨some file, some tokens, tree.variableNames⟩
  refine ⟨fun hrules => ?_, fun hrules hrule => ?_⟩
  · have hagrees : Nullsafe.Agrees (Pass.visit [rule] ctx s.maxRevisits tree s.names) _ :=
      Nullsafe.agrees_visit cfg rfl s.maxRevisits tree s.names
    rw [← hrules] at hagrees
    exact ⟨hagrees.value, hagrees.names⟩
  · have hplain : ∀ n ∈ run.tree.preorder, n.isNullsafe = false := by
      intro n hn
      have hself : run.tree.All Node.IsPlain :=
        Pass.visit_isPlain rfl hrules hrule s.maxRevisits tree s.names
      simpa [Node.isNullsafe, Node.kind] using Node.isPlain_iff.1 (hself n hn)
    have htotal : tree.total (fun n => if n.isNullsafe then 1 else 0) =
        run.tree.total (fun n => if n.isNullsafe then 1 else 0) +
          replacementsBy rule.name run.calls :=
      Nullsafe.workload.visit hrules s.maxRevisits tree s.names
    have hnone : run.tree.preorder.countP (·.isNullsafe) = 0 :=
      List.countP_eq_zero.2 fun n hn => Bool.eq_false_iff.1 (hplain n hn)
    rw [Node.total_indicator, Node.total_indicator, hnone, Nat.zero_add] at htotal
    refine ⟨hplain, htotal.symm, fun hreachable => ?_⟩
    rw [htotal]
    exact hreachable.tallied.replacements_tallyOf hrule file tree tokens

/-- The default of a parameter and a chain in the body of a closure,
`function ($a = $b?->c) { return $a?->d($b?->e)?->f; };`, are lowered without any revisits: four
accesses, four names, in the order in which the accesses are complete. -/
theorem run_lowers_each_access_once_of_closure :
    let cfg : Settings := { nullsafeStem := "t", strictNullCheck := true }
    let rule := Nullsafe.rule cfg.nullsafeStem cfg.strictNullCheck
    let s : Session := { (({} : Session).add rule) with maxRevisits := 0 }
    let fetch (object : Node) (property : String) :=
      Node.synthesized (.nullsafePropertyFetch object property)
    let call := Node.synthesized (.nullsafeMethodCall (Node.var "a") "d"
      [{ value := fetch (Node.var "b") "e" }])
    let tree := Node.synthesized (.closure
      [{ name := "a", default := some (fetch (Node.var "b") "c") }] []
      [Node.synthesized (.ret (some (fetch call "f")))] false)
    let run := s.run "a.php" tree []
    let once := (Nullsafe.lowerAll cfg.nullsafeStem cfg.strictNullCheck "a.php" tree.variableNames
      tree).run s.names
    s.rules = [rule] ∧ s.rules ⊆ cfg.catalog ∧ rule ∈ s.rules ∧ s.Reachable ∧
      run.tree.erase .textValidity = once.1.erase .textValidity ∧ run.session.names = once.2 ∧
      (∀ n ∈ run.tree.preorder, n.isNullsafe = false) ∧
      (run.session.tallyOf rule.name).replacements = 4 ∧
      once.1.toSource = "function ($a = ($t1 = $b) !== null ? $t1->c : null) \x7b\n" ++
        "    return ($t4 = ($t3 = $a) !== null ? $t3->d(($t2 = $b) !== null ? $t2->e : null)" ++
        " : null) !== null ? $t4->f : null;\n\x7d" := by
  intro cfg rule s fetch call tree run once
  have hrules : s.rules = [rule] := rfl
  have hsub : s.rules ⊆ cfg.catalog := by simp [hrules, rule, Settings.catalog]
  have hmem : rule ∈ s.rules := by simp [hrules]
  have hreachable : s.Reachable := .limited 0 (.add rule .new)
  obtain ⟨honly, hany⟩ := run_lowers_each_access_once cfg s "a.php" tree []
  obtain ⟨htree, hnames⟩ := honly hrules
  obtain ⟨hplain, -, htally⟩ := hany hsub hmem
  refine ⟨hrules, hsub, hmem, hreachable, htree, hnames, hplain,
    (htally hreachable).trans (by decide +kernel), by decide +kernel⟩

end SyntaxLowering
