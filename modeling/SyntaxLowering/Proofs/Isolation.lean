import Mathlib.Algebra.GroupWithZero.Nat
import Mathlib.Data.List.Perm.Basic
import SyntaxLowering.Proofs.FreshNames
import SyntaxLowering.Proofs.Traversal
import SyntaxLowering.SourceUnit

/-!
# Units do not influence each other

A workbench keeps its supply of names from one unit to the next. The supply is renewed only when a
name is drawn in another file, so after a unit that draws none it still belongs to an older file.
`NameSupply.AlikeIn` relates the supplies that a file cannot tell apart, and two passes over the
file from such supplies make the same calls, give the same tree and end in such supplies again
(`Pass.visit_isolated`). Hence units with different paths are lowered as if each were the first.
-/

namespace SyntaxLowering

variable {α β : Type} {file : FileId}

/-! ### Results that a file cannot tell apart -/

/-- A supply that belongs afterwards to the file it belonged to before, or to the one given. -/
def NameSupply.MovesTo (file : FileId) (s s' : NameSupply) : Prop :=
  s'.file = s.file ∨ s'.file = some file

theorem NameSupply.MovesTo.trans {s s' s'' : NameSupply} (h : s.MovesTo file s')
    (h' : s'.MovesTo file s'') : s.MovesTo file s'' := by
  rcases h' with h' | h'
  · rcases h with h | h
    · exact .inl (h'.trans h)
    · exact .inr (h'.trans h)
  · exact .inr h'

/-- Two results of a pass that a file cannot tell apart. -/
structure Progress.AlikeIn (file : FileId) (p p' : Progress α) : Prop where
  value : p.value = p'.value
  names : p.names.AlikeIn file p'.names
  calls : p.calls = p'.calls

theorem Progress.AlikeIn.after_call {p p' : Progress α} (h : p.AlikeIn file p') (c : Call) :
    AlikeIn file ⟨p.value, p.names, c :: p.calls⟩ ⟨p'.value, p'.names, c :: p'.calls⟩ :=
  ⟨h.value, h.names, congrArg (c :: ·) h.calls⟩

/-- A step whose result does not depend on what the supply holds for other files. -/
def Pass.Isolated (file : FileId) (p : Pass α) : Prop :=
  ∀ s s', s.AlikeIn file s' → (p s).AlikeIn file (p s')

namespace Pass

theorem Isolated.pure (a : α) : Isolated file (Pure.pure a : Pass α) := by
  intro s s' h
  exact ⟨rfl, h, rfl⟩

theorem Isolated.bind {p : Pass α} {f : α → Pass β} (hp : Isolated file p)
    (hf : ∀ a, Isolated file (f a)) : Isolated file (p >>= f) := by
  intro s s' h
  obtain ⟨hvalue, hnames, hcalls⟩ := hp s s' h
  obtain ⟨hvalue', hnames', hcalls'⟩ := hf (p s).value (p s).names (p s').names hnames
  refine ⟨?_, ?_, ?_⟩
  · show (f (p s).value (p s).names).value = (f (p s').value (p s').names).value
    rw [hvalue', hvalue]
  · show (f (p s).value (p s).names).names.AlikeIn file (f (p s').value (p s').names).names
    rw [← hvalue]
    exact hnames'
  · show (p s).calls ++ (f (p s).value (p s).names).calls =
      (p s').calls ++ (f (p s').value (p s').names).calls
    rw [hcalls, hcalls', hvalue]

theorem Isolated.mapM {f : Node → Pass Node} {cs : List Node}
    (hf : ∀ c ∈ cs, Isolated file (f c)) : Isolated file (cs.mapM f) := by
  induction cs with
  | nil => exact .pure []
  | cons c cs ih =>
    rw [List.mapM_cons]
    apply Isolated.bind (hf c List.mem_cons_self)
    intro d
    apply Isolated.bind (ih fun e he => hf e (List.mem_cons_of_mem c he))
    intro ds
    exact .pure (d :: ds)

/-- A step over a layer is a step over its children. -/
theorem Isolated.mapM_form {f : Node → Pass Node} {form : Form Node}
    (hf : ∀ c ∈ form.children, Isolated file (f c)) : Isolated file (form.mapM f) := by
  intro s s' h
  have hchildren := Isolated.mapM hf s s' h
  obtain ⟨hshape, heq⟩ := Pass.mapM_form f form s
  obtain ⟨hshape', heq'⟩ := Pass.mapM_form f form s'
  rw [heq, heq'] at hchildren
  exact ⟨Form.eq_of_shape_eq (hshape.trans hshape'.symm) hchildren.value, hchildren.names,
    hchildren.calls⟩

end Pass

/-! ### Passes over a file -/

/-- Two effects of a call that a file cannot tell apart. -/
structure Effect.AlikeIn (file : FileId) (e e' : Effect) : Prop where
  verdict : e.verdict = e'.verdict
  node : e.node = e'.node
  names : e.names.AlikeIn file e'.names

/-- The rules of the catalog see of the supply only what it gives them in their file. -/
theorem Effect.alikeIn_call {cfg : Settings} {ctx : Context} (hfile : ctx.file = some file)
    {rule : Rule} (hrule : rule ∈ cfg.catalog) (n : Node) {s s' : NameSupply}
    (h : s.AlikeIn file s') :
    (rule.call ctx n s).AlikeIn file (rule.call ctx n s') := by
  have hidle : (Effect.none n s).AlikeIn file (Effect.none n s') := ⟨rfl, rfl, h⟩
  simp only [Settings.catalog, List.mem_cons, List.not_mem_nil, or_false] at hrule
  rcases hrule with rfl | rfl | rfl
  · rw [Hoist.call_eq hfile, Hoist.call_eq hfile, h.allocate_eq]
    cases Hoist.receiverInStatement? n with
    | none => exact hidle
    | some hole => exact ⟨rfl, rfl, rfl⟩
  · rw [Nullsafe.call_eq hfile, Nullsafe.call_eq hfile, h.allocate_eq]
    cases Nullsafe.access? n.form with
    | none => exact hidle
    | some access => exact ⟨rfl, rfl, rfl⟩
  · rw [TrailingComma.call_eq, TrailingComma.call_eq]
    cases TrailingComma.cleanForm? ctx n.form with
    | none => exact hidle
    | some form => exact ⟨rfl, rfl, h⟩

namespace Pass

variable {cfg : Settings} {ctx : Context} {rules : List Rule}

theorem applyRules_isolated (hfile : ctx.file = some file) (hrules : rules ⊆ cfg.catalog)
    {revisit : Node → Pass Node} (hrevisit : ∀ n, Isolated file (revisit n)) (kind : Kind)
    (n : Node) : Isolated file (applyRules revisit ctx kind rules n) := by
  induction rules generalizing n with
  | nil => exact .pure n
  | cons rule rules ih =>
    have ih := ih fun r hr => hrules (List.mem_cons_of_mem rule hr)
    by_cases hclaims : rule.claims kind = true
    · intro s s' h
      have hcall := Effect.alikeIn_call hfile (hrules List.mem_cons_self) n h
      rw [applyRules_of_claims hclaims, applyRules_of_claims hclaims]
      -- both calls have one verdict, so both passes go on with the same step
      revert hcall
      generalize rule.call ctx n s = e
      generalize rule.call ctx n s' = e'
      obtain ⟨verdict, node, names⟩ := e
      obtain ⟨verdict', node', names'⟩ := e'
      rintro ⟨rfl, rfl, hnames⟩
      cases verdict with
      | replaced m => exact (hrevisit m names names' hnames).after_call _
      | unchanged => exact (ih node names names' hnames).after_call _
      | mutated => exact (ih node names names' hnames).after_call _
    · rw [applyRules_of_not_claims hclaims]
      exact ih n

/-- A pass over a file depends on the supply of names only as far as the file can see it. -/
theorem visit_isolated (hfile : ctx.file = some file) (hrules : rules ⊆ cfg.catalog)
    (revisits : Nat) (n : Node) : Isolated file (visit rules ctx revisits n) := by
  -- first for any visit of replacements, by induction on the tree; then on the revisits
  have hvisit (revisit : Node → Pass Node) (hrevisit : ∀ n, Isolated file (revisit n)) (n : Node) :
      Isolated file (visitWith revisit rules ctx n) := by
    induction n using Node.inductionOn with
    | step form span marks ih =>
      rw [visitWith_mk]
      apply Isolated.bind (Isolated.mapM_form ih)
      intro g
      exact applyRules_isolated hfile hrules hrevisit _ _
  induction revisits generalizing n with
  | zero => exact hvisit Pass.pure Isolated.pure n
  | succ revisits ih => exact hvisit _ ih n

/-- A pass over a file leaves the supply with the file it belonged to or with its own. -/
theorem visit_movesTo (hfile : ctx.file = some file) (hrules : rules ⊆ cfg.catalog)
    (revisits : Nat) (n : Node) (s : NameSupply) :
    s.MovesTo file (visit rules ctx revisits n s).names := by
  let P (_ : Node) (s : NameSupply) (p : Progress Node) : Prop := s.MovesTo file p.names
  have hP : Compositional P := ⟨fun _ _ => .inl rfl, fun hp hq => hp.trans hq⟩
  refine visit_of_steps hP ?_ ?_ revisits n s
  · intro n s g calls s' _ hsweep
    suffices hswept : ∀ cs s p, Sweep P cs s p → s.MovesTo file p.names from hswept _ _ _ hsweep
    intro cs s p hsweep
    induction hsweep with
    | nil s => exact .inl rfl
    | cons head _ ih => exact NameSupply.MovesTo.trans head ih
  · intro rule hrule kind n s
    generalize hcall : rule.call ctx n s = e
    have h : CatalogCall cfg ctx n s rule e := hcall ▸ .of_mem (hrules hrule) ctx n s
    cases h with
    | unchanged => exact .inl rfl
    | cleaned hclean => exact .inl rfl
    | @lowered f object plain hf haccess =>
      obtain rfl : f = file := Option.some.inj (hf.symm.trans hfile)
      exact .inr (s.allocate_file f _ _)
    | @hoisted f hole hf hreceiver =>
      obtain rfl : f = file := Option.some.inj (hf.symm.trans hfile)
      exact .inr (s.allocate_file f _ _)

end Pass

/-! ### Statistics -/

namespace Tally

theorem count_append (t : Tally) (calls calls' : List Call) :
    t.count (calls ++ calls') = (t.count calls).count calls' := by
  simp [count, List.filter_append, List.countP_append, Nat.add_assoc]

/-- The tally of a rule name that sums up others. -/
def total (rule : String) (ts : List Tally) : Tally where
  rule := rule
  applications := (ts.map (·.applications)).sum
  mutations := (ts.map (·.mutations)).sum
  replacements := (ts.map (·.replacements)).sum

theorem count_flatMap (rule : String) (calls : β → List Call) (bs : List β) :
    ({ rule } : Tally).count (bs.flatMap calls) =
      total rule (bs.map fun b => ({ rule } : Tally).count (calls b)) := by
  induction bs with
  | nil => rfl
  | cons b bs ih =>
    simp only [count, total, List.flatMap_cons, List.filter_append, List.length_append,
      List.countP_append, List.map_cons, List.sum_cons, Nat.zero_add, mk.injEq, true_and] at ih ⊢
    omega

end Tally

/-- The tally of a rule name, with nothing counted if there is none. -/
def Session.tallyOf (s : Session) (rule : String) : Tally :=
  (s.tallies.find? (·.rule == rule)).getD { rule }

/-! ### New sessions -/

theorem Settings.selectRules_subset {cfg : Settings} {rules : List Rule}
    (h : cfg.selectRules = .ok rules) : rules ⊆ cfg.catalog := by
  unfold Settings.selectRules at h
  split at h
  · obtain rfl := Except.ok.inj h
    exact List.Subset.refl _
  · split at h
    · cases h
    · obtain rfl := Except.ok.inj h
      exact List.filter_subset_self _

/-- A session before its first tree, with rules from a list. -/
structure Session.IsNew (rules : List Rule) (s : Session) : Prop where
  rules : s.rules ⊆ rules
  names : s.names = {}
  tallies : ∀ t ∈ s.tallies, t = { rule := t.rule }

theorem Session.IsNew.add {rules : List Rule} {s : Session} (h : s.IsNew rules) {rule : Rule}
    (hrule : rule ∈ rules) : (s.add rule).IsNew rules := by
  refine ⟨?_, h.names, ?_⟩
  · intro r hr
    rcases List.mem_append.1 hr with hr | hr
    · exact h.rules hr
    · obtain rfl := List.mem_singleton.1 hr
      exact hrule
  · intro t ht
    rcases List.mem_append.1 ht with ht | ht
    · exact h.tallies t (List.mem_filter.1 ht).1
    · obtain rfl := List.mem_singleton.1 ht
      rfl

theorem Session.isNew_ofRules (rules : List Rule) (maxRevisits : Nat) :
    (ofRules rules maxRevisits).IsNew rules := by
  have hadded : ∀ (rest : List Rule) (s : Session), rest ⊆ rules → s.IsNew rules →
      (rest.foldl Session.add s).IsNew rules := by
    intro rest
    induction rest with
    | nil => exact fun s _ hs => hs
    | cons rule rest ih =>
      intro s hrest hs
      exact ih _ (fun r hr => hrest (List.mem_cons_of_mem rule hr))
        (hs.add (hrest List.mem_cons_self))
  obtain ⟨hrules, hnames, htallies⟩ := hadded rules { maxRevisits } (List.Subset.refl _)
    ⟨List.nil_subset _, rfl, fun t ht => absurd ht List.not_mem_nil⟩
  exact ⟨fun r hr => hrules (List.mem_mergeSort.1 hr), hnames, htallies⟩

/-- The rules of the catalog have one priority and keep their order. -/
theorem Session.ofRules_catalog (cfg : Settings) (maxRevisits : Nat) :
    ofRules cfg.catalog maxRevisits =
      { rules := cfg.catalog, tallies := cfg.catalog.map ({ rule := ·.name }), maxRevisits } := by
  have hsorted : cfg.catalog.mergeSort (fun a b => b.priority ≤ a.priority) = cfg.catalog := by
    refine List.mergeSort_of_pairwise ?_
    simp [Settings.catalog, Hoist.rule, Nullsafe.rule, TrailingComma.rule]
  show ({ cfg.catalog.foldl add { maxRevisits } with
    rules := cfg.catalog.mergeSort _ } : Session) = _
  rw [hsorted]
  rfl

/-! ### Units one after another -/

namespace Workbench

variable {cfg : Settings} {w : Workbench}

/-- The session of a workbench made from settings is new. -/
theorem isNew_of_ofSettings (h : ofSettings cfg = .ok w) : w.session.IsNew cfg.catalog := by
  unfold ofSettings Settings.session at h
  cases hselect : cfg.selectRules with
  | error e =>
    rw [hselect] at h
    cases h
  | ok rules =>
    rw [hselect] at h
    obtain rfl := Except.ok.inj h
    have hnew := Session.isNew_ofRules rules cfg.maxRevisits
    exact ⟨fun r hr => Settings.selectRules_subset hselect (hnew.rules hr), hnew.names,
      hnew.tallies⟩

theorem ofSettings_usual : ofSettings {} = .ok usual := by
  show Except.ok (⟨Session.ofRules (Settings.catalog {}) 32, true⟩ : Workbench) = .ok usual
  rw [Session.ofRules_catalog]
  rfl

theorem usual_rules : usual.session.rules ⊆ Settings.catalog {} :=
  List.Subset.refl _

/-- Processes units in order. -/
def processEach (w : Workbench) : List SourceUnit → List LoweredUnit × Workbench
  | [] => ([], w)
  | u :: us =>
    let (result, w) := w.process u
    let (results, w) := w.processEach us
    (result :: results, w)

/-- The calls that processing a unit makes. -/
def calls (w : Workbench) (u : SourceUnit) : List Call :=
  (w.session.run u.path u.tree u.tokenStream).calls

/-- A workbench with the names and statistics that other units have left. -/
def resumed (w : Workbench) (names : NameSupply) (tallies : List Tally) : Workbench :=
  { w with session := { w.session with names := names, tallies := tallies } }

/-- Whatever other units have left, a unit gets the result and makes the calls of a new
workbench. -/
theorem process_resumed (hw : w.session.IsNew cfg.catalog) {names : NameSupply} {u : SourceUnit}
    (hnames : names.file ≠ some u.path) (tallies : List Tally) :
    ∃ names', names.MovesTo u.path names' ∧
      (w.resumed names tallies).process u =
        ((w.process u).1, w.resumed names' (tallies.map (·.count (w.calls u)))) := by
  let ctx : Context := ⟨some u.path, some u.tokenStream, u.tree.variableNames⟩
  have halike : names.AlikeIn u.path w.session.names := by
    rw [hw.names]
    exact NameSupply.alikeIn_new hnames
  have hvisit : (Pass.visit w.session.rules ctx w.session.maxRevisits u.tree names).AlikeIn u.path
      (Pass.visit w.session.rules ctx w.session.maxRevisits u.tree w.session.names) :=
    Pass.visit_isolated rfl hw.rules _ _ _ _ halike
  have hmoves : names.MovesTo u.path
      (Pass.visit w.session.rules ctx w.session.maxRevisits u.tree names).names :=
    Pass.visit_movesTo rfl hw.rules _ _ _
  refine ⟨_, hmoves, ?_⟩
  simp only [process, resumed, calls, Session.run, Session.transform]
  rw [hvisit.value, hvisit.calls]

/-- Whatever file the names belong to, units with other paths are processed as by a new
workbench. -/
theorem processEach_resumed (hw : w.session.IsNew cfg.catalog) {units : List SourceUnit}
    (hpaths : (units.map (·.path)).Nodup) {names : NameSupply}
    (hnames : ∀ u ∈ units, names.file ≠ some u.path) (tallies : List Tally) :
    ((w.resumed names tallies).processEach units).1 = units.map (fun u => (w.process u).1) ∧
      ((w.resumed names tallies).processEach units).2.session.tallies =
        tallies.map (·.count (units.flatMap w.calls)) := by
  induction units generalizing names tallies with
  | nil =>
    refine ⟨rfl, ?_⟩
    show tallies = _
    simp [Tally.count]
  | cons u us ih =>
    obtain ⟨names', hmoves, hprocess⟩ := process_resumed hw (hnames u List.mem_cons_self) tallies
    obtain ⟨hu, hus⟩ := List.nodup_cons.1 hpaths
    -- the supply belongs to an older file or to this unit's, and both differ from what comes
    have hnames' : ∀ v ∈ us, names'.file ≠ some v.path := by
      intro v hv
      rcases hmoves with hmoves | hmoves
      · rw [hmoves]
        exact hnames v (List.mem_cons_of_mem u hv)
      · rw [hmoves]
        intro heq
        exact hu (List.mem_map.2 ⟨v, hv, (Option.some.inj heq).symm⟩)
    obtain ⟨hresults, htallies⟩ := ih hus hnames' (tallies.map (·.count (w.calls u)))
    simp only [processEach, hprocess, List.map_cons, List.flatMap_cons]
    refine ⟨congrArg _ hresults, htallies.trans ?_⟩
    rw [List.map_map]
    exact List.map_congr_left fun t _ => (t.count_append _ _).symm

/-- The statistics that a new workbench has of a unit. -/
theorem tallyOf_process (hw : w.session.IsNew cfg.catalog) {t : Tally} (ht : t ∈ w.session.tallies)
    (u : SourceUnit) :
    (w.process u).2.session.tallyOf t.rule = ({ rule := t.rule } : Tally).count (w.calls u) := by
  show ((w.session.tallies.map (·.count (w.calls u))).find? (·.rule == t.rule)).getD _ = _
  rw [List.find?_map]
  cases hfind : w.session.tallies.find? ((·.rule == t.rule) ∘ (·.count (w.calls u))) with
  | none => exact absurd (List.find?_eq_none.1 hfind t ht) (by simp [Tally.count])
  | some t' =>
    -- all tallies of one name are equal at the start
    have hrule : t'.rule = t.rule := by simpa [Tally.count] using List.find?_some hfind
    have hnew := hw.tallies t' (List.mem_of_find?_eq_some hfind)
    rw [Option.map_some, Option.getD_some, hnew, hrule]

/-- Units do not influence each other. Processed in any order with one workbench, units with
different paths get the results that a new workbench gives each of them alone, hence with the same
text and the same unit to hand on, and the statistics of each rule are the sum of what the new
workbenches count. -/
theorem processEach_isolates (cfg : Settings) (w : Workbench) (hw : ofSettings cfg = .ok w)
    (units : List SourceUnit) (hpaths : (units.map (·.path)).Nodup) :
    (w.processEach units).1 = units.map (fun u => (w.process u).1) ∧
    (∀ units' : List SourceUnit, units'.Perm units →
      (units'.zip (w.processEach units').1).Perm (units.zip (w.processEach units).1)) ∧
    (w.processEach units).2.session.tallies = w.session.tallies.map fun t =>
      .total t.rule (units.map fun u => (w.process u).2.session.tallyOf t.rule) := by
  have hnew := isNew_of_ofSettings hw
  have heach (us : List SourceUnit) (hus : (us.map (·.path)).Nodup) :
      (w.processEach us).1 = us.map (fun u => (w.process u).1) ∧
        (w.processEach us).2.session.tallies =
          w.session.tallies.map (·.count (us.flatMap w.calls)) := by
    have hnames : ∀ u ∈ us, w.session.names.file ≠ some u.path := by
      intro u _
      rw [hnew.names]
      exact nofun
    exact processEach_resumed hnew hus hnames w.session.tallies
  refine ⟨(heach units hpaths).1, ?_, ?_⟩
  · intro units' hperm
    have hzip (us : List SourceUnit) :
        us.zip (us.map fun u => (w.process u).1) = us.map fun u => (u, (w.process u).1) := by
      simpa using List.zip_map' (l := us) (f := id) (g := fun u => (w.process u).1)
    rw [(heach units hpaths).1, (heach units' ((hperm.map _).nodup_iff.2 hpaths)).1, hzip, hzip]
    exact hperm.map _
  · rw [(heach units hpaths).2]
    refine List.map_congr_left fun t ht => ?_
    rw [hnew.tallies t ht, Tally.count_flatMap]
    exact congrArg _ (List.map_congr_left fun u _ => (tallyOf_process hnew ht u).symm)

/-- A unit without temporaries between two that need one: both get the first name, in either
order, and each rule has the sum of the calls. -/
theorem processEach_isolates_of_three_units :
    let cfg : Settings := {}
    let w : Workbench :=
      ⟨{ rules := cfg.catalog, tallies := cfg.catalog.map ({ rule := ·.name }) }, true⟩
    let fetch (object : String) :=
      Node.synthesized (.nullsafePropertyFetch (Node.var object) "p")
    let a : SourceUnit := { path := "a.php", tree := fetch "a" }
    let b : SourceUnit := { path := "b.php", tree := Node.var "b" }
    let c : SourceUnit := { path := "c.php", tree := fetch "c" }
    ofSettings cfg = .ok w ∧ ([a, b, c].map (·.path)).Nodup ∧
      (w.processEach [a, b, c]).1.map (·.render) =
        ["($nullsafeVariable1 = $a) ? $nullsafeVariable1->p : null", "$b",
          "($nullsafeVariable1 = $c) ? $nullsafeVariable1->p : null"] ∧
      ([c, b, a].zip (w.processEach [c, b, a]).1).Perm
        ([a, b, c].zip (w.processEach [a, b, c]).1) ∧
      (w.processEach [a, b, c]).2.session.tallies =
        [⟨"InstanceMethodCall", 0, 0, 0⟩, ⟨"NullsafeToTernary", 2, 0, 2⟩,
          ⟨"TrailingCommasInParamUse", 0, 0, 0⟩] := by
  intro cfg w fetch a b c
  have hw : ofSettings cfg = .ok w := ofSettings_usual
  have hpaths : ([a, b, c].map (·.path)).Nodup := by decide
  obtain ⟨hresults, hperm, htallies⟩ := processEach_isolates cfg w hw [a, b, c] hpaths
  refine ⟨hw, hpaths, ?_, hperm _ (List.reverse_perm [a, b, c]), ?_⟩
  · rw [hresults]
    decide +kernel
  · rw [htallies]
    decide +kernel

end Workbench

end SyntaxLowering
