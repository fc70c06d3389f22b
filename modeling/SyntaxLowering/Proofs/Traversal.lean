import SyntaxLowering.Proofs.Settling
import SyntaxLowering.Settings

/-!
# What a visit preserves

A visit is made of three kinds of steps: visiting the children of a layer, settling the layer, and
calling a rule. `Pass.visit_of_steps` lifts a relation between a tree and its rewritten form from
the single steps to whole visits, whatever the limit on revisits: the relation has to be closed
under composition, to hold of a settled layer whose children are related, and to hold of each call.

`CatalogCall` says once what a call of a rule of the catalog can do. A relation between trees that
holds of each of these changes is a `CatalogInvariant`, and holds of whole visits.
-/

namespace SyntaxLowering

variable {α β γ : Type}

/-! ### Traversing a layer is traversing its children -/

section Actions

variable {m : Type → Type} [Monad m] [LawfulMonad m]

theorem Arg.mapM_bind (f : α → m β) (as : List (Arg α)) (k : List (Arg Unit) → List β → m γ) :
    (as.mapM (·.mapM f) >>= fun bs => k (bs.map (·.map fun _ => ())) (bs.map (·.value))) =
      (as.map (·.value)).mapM f >>= fun vs => k (as.map (·.map fun _ => ())) vs := by
  induction as generalizing k with
  | nil => simp
  | cons a as ih =>
    simp only [List.mapM_cons, List.map_cons, Arg.mapM, bind_assoc, pure_bind]
    refine bind_congr fun b => ?_
    exact ih fun shapes values => k (a.map (fun _ => ()) :: shapes) (b :: values)

theorem Param.mapM_bind (f : α → m β) (ps : List (Param α))
    (k : List (Param Unit) → List β → m γ) :
    (ps.mapM (·.mapM f) >>= fun qs =>
      k (qs.map (·.map fun _ => ())) (qs.filterMap (·.default))) =
      (ps.filterMap (·.default)).mapM f >>= fun ds => k (ps.map (·.map fun _ => ())) ds := by
  induction ps generalizing k with
  | nil => simp
  | cons p ps ih =>
    obtain ⟨name, typeHint, _ | d, variadic, byRef, span, marks⟩ := p
    · simp only [List.mapM_cons, List.map_cons, List.filterMap_cons, Param.mapM, Option.mapM_none,
        bind_assoc, pure_bind]
      exact ih fun shapes defaults =>
        k (⟨name, typeHint, none, variadic, byRef, span, marks⟩ :: shapes) defaults
    · simp only [List.mapM_cons, List.map_cons, List.filterMap_cons, Param.mapM, Option.mapM_some,
        bind_assoc, pure_bind, map_eq_pure_bind]
      refine bind_congr fun e => ?_
      exact ih fun shapes defaults =>
        k (⟨name, typeHint, some (), variadic, byRef, span, marks⟩ :: shapes) (e :: defaults)

theorem mapM_bind_list (f : α → m β) (as : List α) (k : List Unit → List β → m γ) :
    (as.mapM f >>= fun bs => k (bs.map fun _ => ()) bs) =
      as.mapM f >>= fun bs => k (as.map fun _ => ()) bs := by
  induction as generalizing k with
  | nil => simp
  | cons a as ih =>
    simp only [List.mapM_cons, List.map_cons, bind_assoc, pure_bind]
    refine bind_congr fun b => ?_
    exact ih fun shapes bs => k (() :: shapes) (b :: bs)

/-- An action on a layer keeps its shape and acts on the list of its children. -/
theorem Form.mapM_bind (f : α → m β) (form : Form α) (k : Form Unit → List β → m γ) :
    (form.mapM f >>= fun g => k g.shape g.children) =
      form.children.mapM f >>= fun cs => k form.shape cs := by
  have list (l : List α) (k : List Unit → List β → m γ) := mapM_bind_list f l k
  -- where there are no lists, both sides are the same computation
  cases form <;> simp only [Form.mapM, Form.children, Form.shape, Form.map, bind_assoc, pure_bind,
    List.mapM_cons, List.mapM_nil, List.mapM_append]
  case ret value => cases value <;> simp
  case methodCall object method args =>
    exact bind_congr fun o =>
      Arg.mapM_bind f args fun as vs => k (.methodCall () method as) (o :: vs)
  case nullsafeMethodCall object method args =>
    exact bind_congr fun o =>
      Arg.mapM_bind f args fun as vs => k (.nullsafeMethodCall () method as) (o :: vs)
  case staticCall scope method args =>
    exact bind_congr fun o =>
      Arg.mapM_bind f args fun as vs => k (.staticCall () method as) (o :: vs)
  case functionCall function args =>
    exact bind_congr fun o => Arg.mapM_bind f args fun as vs => k (.functionCall () as) (o :: vs)
  case new scope args =>
    exact bind_congr fun o => Arg.mapM_bind f args fun as vs => k (.new () as) (o :: vs)
  case closure params captures body isStatic =>
    rw [Param.mapM_bind f params fun ps ds => body.mapM f >>= fun cs =>
      k (.closure ps captures (cs.map fun _ => ()) isStatic) (ds ++ cs)]
    exact bind_congr fun ds => list body fun us cs => k (.closure _ captures us isStatic) (ds ++ cs)
  case functionDecl name params body =>
    rw [Param.mapM_bind f params fun ps ds => body.mapM f >>= fun cs =>
      k (.functionDecl name ps (cs.map fun _ => ())) (ds ++ cs)]
    exact bind_congr fun ds => list body fun us cs => k (.functionDecl name _ us) (ds ++ cs)
  case methodDecl name modifiers params body =>
    rw [Param.mapM_bind f params fun ps ds => body.mapM f >>= fun cs =>
      k (.methodDecl name modifiers ps (cs.map fun _ => ())) (ds ++ cs)]
    exact bind_congr fun ds => list body fun us cs => k (.methodDecl name modifiers _ us) (ds ++ cs)
  case classDecl name members => exact list members fun us cs => k (.classDecl name us) cs
  case group statements => exact list statements fun us cs => k (.group us) cs
  case program statements => exact list statements fun us cs => k (.program us) cs

end Actions

/-! ### Sweeps over the children -/

/-- The steps over a list of nodes, one after another, each related by `P` to its result. -/
inductive Sweep (P : Node → NameSupply → Progress Node → Prop) :
    List Node → NameSupply → Progress (List Node) → Prop
  | nil (names : NameSupply) : Sweep P [] names ⟨[], names, []⟩
  | cons {c : Node} {cs : List Node} {names : NameSupply} {p : Progress Node}
      {q : Progress (List Node)} (head : P c names p) (tail : Sweep P cs p.names q) :
      Sweep P (c :: cs) names ⟨p.value :: q.value, q.names, p.calls ++ q.calls⟩

theorem Pass.mapM_cons (f : Node → Pass Node) (c : Node) (cs : List Node) (names : NameSupply) :
    (c :: cs).mapM f names =
      ⟨(f c names).value :: (cs.mapM f (f c names).names).value,
        (cs.mapM f (f c names).names).names,
        (f c names).calls ++ (cs.mapM f (f c names).names).calls⟩ := by
  rw [List.mapM_cons]
  change Progress.mk _ _ (_ ++ (_ ++ [])) = _
  rw [List.append_nil]
  rfl

theorem Sweep.of_mapM {P : Node → NameSupply → Progress Node → Prop} {f : Node → Pass Node}
    {cs : List Node} (h : ∀ c ∈ cs, ∀ names, P c names (f c names)) (names : NameSupply) :
    Sweep P cs names (cs.mapM f names) := by
  induction cs generalizing names with
  | nil => exact .nil names
  | cons c cs ih =>
    rw [Pass.mapM_cons]
    exact .cons (h c List.mem_cons_self names)
      (ih (fun d hd => h d (List.mem_cons_of_mem c hd)) _)

/-- Results of a sweep stand in the places of what they came from. -/
theorem Sweep.forall₂ {P : Node → NameSupply → Progress Node → Prop} {R : Node → Node → Prop}
    (hR : ∀ n names p, P n names p → R n p.value) {cs : List Node} {names : NameSupply}
    {p : Progress (List Node)} (h : Sweep P cs names p) : List.Forall₂ R cs p.value := by
  induction h with
  | nil => exact .nil
  | cons head _ ih => exact .cons (hR _ _ _ head) ih

theorem Sweep.mono {P Q : Node → NameSupply → Progress Node → Prop}
    (hPQ : ∀ n names p, P n names p → Q n names p) {cs : List Node} {names : NameSupply}
    {p : Progress (List Node)} (h : Sweep P cs names p) : Sweep Q cs names p := by
  induction h with
  | nil names => exact .nil names
  | cons head _ ih => exact .cons (hPQ _ _ _ head) ih

/-- A sweep over two lists is one over the first and then one over the second. -/
theorem Sweep.of_append {P : Node → NameSupply → Progress Node → Prop} {cs ds : List Node}
    {names : NameSupply} {p : Progress (List Node)} (h : Sweep P (cs ++ ds) names p) :
    ∃ q r, Sweep P cs names q ∧ Sweep P ds q.names r ∧ p.value = q.value ++ r.value := by
  induction cs generalizing names p with
  | nil => exact ⟨_, p, .nil names, h, rfl⟩
  | cons c cs ih =>
    cases h with
    | cons head tail =>
      obtain ⟨q, r, hq, hr, hvalue⟩ := ih tail
      exact ⟨_, r, .cons head hq, hr, congrArg (_ :: ·) hvalue⟩

namespace Pass

/-- A step over a layer keeps its shape, and sweeps over its children. -/
theorem mapM_form (f : Node → Pass Node) (form : Form Node) (names : NameSupply) :
    (form.mapM f names).value.shape = form.shape ∧
      form.children.mapM f names =
        ⟨(form.mapM f names).value.children, (form.mapM f names).names,
          (form.mapM f names).calls⟩ := by
  have h := congrFun (Form.mapM_bind f form fun shape cs => pure (shape, cs)) names
  have hshape : (form.mapM f names).value.shape = form.shape := congrArg (·.value.1) h
  have hvalue : (form.mapM f names).value.children = (form.children.mapM f names).value :=
    congrArg (·.value.2) h
  have hnames : (form.mapM f names).names = (form.children.mapM f names).names :=
    congrArg (·.names) h
  have hcalls : (form.mapM f names).calls ++ [] = (form.children.mapM f names).calls ++ [] :=
    congrArg (·.calls) h
  rw [List.append_nil, List.append_nil] at hcalls
  exact ⟨hshape, (Progress.mk.injEq ..).mpr ⟨hvalue.symm, hnames.symm, hcalls.symm⟩⟩

variable {rules : List Rule} {ctx : Context} {revisit : Node → Pass Node}

/-- The defining equation of a visit, with the supply of names in place. -/
theorem visitWith_apply (n : Node) (names : NameSupply) :
    visitWith revisit rules ctx n names =
      (let p := n.form.mapM (visitWith revisit rules ctx) names
       let node := Node.settle p.value n.span n.marks
       let q := applyRules revisit ctx node.kind rules node p.names
       ⟨q.value, q.names, p.calls ++ q.calls⟩) := by
  cases n with
  | mk form span marks => rw [visitWith_mk]; rfl

theorem applyRules_of_claims {rule : Rule} {kind : Kind} (h : rule.claims kind = true) {n : Node}
    {names : NameSupply} :
    applyRules revisit ctx kind (rule :: rules) n names =
      (let e := rule.call ctx n names
       let p := match e.verdict with
         | .replaced m => revisit m e.names
         | _ => applyRules revisit ctx kind rules e.node e.names
       ⟨p.value, p.names, ⟨rule, kind, e.verdict.outcome⟩ :: p.calls⟩) :=
  congrFun (if_pos h) names

theorem applyRules_of_not_claims {rule : Rule} {kind : Kind} (h : ¬rule.claims kind = true)
    {n : Node} :
    applyRules revisit ctx kind (rule :: rules) n = applyRules revisit ctx kind rules n :=
  if_neg h

/-- What the call of a rule makes of a node: the node as it is left, or its replacement. -/
def called (rule : Rule) (kind : Kind) (e : Effect) : Progress Node :=
  ⟨match e.verdict with
    | .replaced m => m
    | _ => e.node,
    e.names, [⟨rule, kind, e.verdict.outcome⟩]⟩

/-- A relation between a node and what steps of a pass make of it that holds of no step at all
and of one step after another. -/
structure Compositional (P : Node → NameSupply → Progress Node → Prop) : Prop where
  refl : ∀ n names, P n names ⟨n, names, []⟩
  trans : ∀ {n names p q}, P n names p → P p.value p.names q →
    P n names ⟨q.value, q.names, p.calls ++ q.calls⟩

variable {P : Node → NameSupply → Progress Node → Prop}

theorem applyRules_of_steps (hP : Compositional P)
    (hcall : ∀ rule ∈ rules, ∀ kind n names, P n names (called rule kind (rule.call ctx n names)))
    (hrevisit : ∀ n names, P n names (revisit n names)) (kind : Kind) :
    ∀ n names, P n names (applyRules revisit ctx kind rules n names) := by
  induction rules with
  | nil => exact hP.refl
  | cons rule rules ih =>
    intro n names
    have ih := ih fun r hr => hcall r (List.mem_cons_of_mem rule hr)
    have hstep := hcall rule List.mem_cons_self kind n names
    by_cases hclaims : rule.claims kind = true
    · rw [applyRules_of_claims hclaims]
      -- the call comes first, then the visit of the replacement or the other rules
      revert hstep
      generalize rule.call ctx n names = e
      obtain ⟨verdict, node, names'⟩ := e
      intro hstep
      cases verdict with
      | replaced m => exact hP.trans hstep (hrevisit m names')
      | unchanged => exact hP.trans hstep (ih node names')
      | mutated => exact hP.trans hstep (ih node names')
    · rw [applyRules_of_not_claims hclaims]
      exact ih n names

/-- What holds of a settled layer whose children are related, and of each call of a rule, holds
of a whole visit. -/
theorem visit_of_steps (hP : Compositional P)
    (hsettle : ∀ n names (g : Form Node) calls names', n.form.shape = g.shape →
      Sweep P n.form.children names ⟨g.children, names', calls⟩ →
      P n names ⟨Node.settle g n.span n.marks, names', calls⟩)
    (hcall : ∀ rule ∈ rules, ∀ kind n names, P n names (called rule kind (rule.call ctx n names))) :
    ∀ revisits n names, P n names (visit rules ctx revisits n names) := by
  -- first for any visit of replacements, by induction on the tree; then on the revisits
  have hvisit : ∀ revisit : Node → Pass Node, (∀ n names, P n names (revisit n names)) →
      ∀ n names, P n names (visitWith revisit rules ctx n names) := by
    intro revisit hrevisit n
    induction n using Node.inductionOn with
    | step form span marks ih =>
      intro names
      obtain ⟨hshape, hchildren⟩ := mapM_form (visitWith revisit rules ctx) form names
      have hsweep := Sweep.of_mapM ih names
      rw [hchildren] at hsweep
      rw [visitWith_apply]
      exact hP.trans (hsettle ⟨form, span, marks⟩ names _ _ _ hshape.symm hsweep)
        (applyRules_of_steps hP hcall hrevisit _ _ _)
  intro revisits
  induction revisits with
  | zero => exact hvisit Pass.pure hP.refl
  | succ revisits ih => exact hvisit _ ih

/-- The same for a relation between trees alone. -/
theorem visit_of_node_steps {R : Node → Node → Prop} (hrefl : ∀ n, R n n)
    (htrans : ∀ {n m k}, R n m → R m k → R n k)
    (hsettle : ∀ n g, Form.Rel R n.form g → R n (Node.settle g n.span n.marks))
    (hcall : ∀ rule ∈ rules, ∀ kind n names, R n (called rule kind (rule.call ctx n names)).value)
    (revisits : Nat) (n : Node) (names : NameSupply) :
    R n (visit rules ctx revisits n names).value := by
  let P (n : Node) (_ : NameSupply) (p : Progress Node) : Prop := R n p.value
  have hP : Compositional P := ⟨fun n _ => hrefl n, htrans⟩
  refine visit_of_steps hP ?_ hcall revisits n names
  intro n names g calls names' hshape hsweep
  exact hsettle n g ⟨hshape, hsweep.forall₂ fun _ _ _ h => h⟩

end Pass

/-! ### Calls of the rules of the catalog -/

/-- A nullsafe access, its object, and the plain access to another object. -/
inductive Nullsafe.Access : Form Node → Node → (Node → Form Node) → Prop
  | call {o : Node} {m : String} {as : List (Arg Node)} :
      Access (.nullsafeMethodCall o m as) o (fun x => .methodCall x m as)
  | fetch {o : Node} {p : String} :
      Access (.nullsafePropertyFetch o p) o (fun x => .propertyFetch x p)

theorem Nullsafe.Access.of_access? {form : Form Node} {object : Node} {plain : Node → Form Node}
    (h : access? form = some (object, plain)) : Access form object plain := by
  cases form with
  | nullsafeMethodCall =>
    obtain ⟨rfl, rfl⟩ : _ ∧ _ := by simpa [access?] using h
    exact .call
  | nullsafePropertyFetch =>
    obtain ⟨rfl, rfl⟩ : _ ∧ _ := by simpa [access?] using h
    exact .fetch
  | _ => simp [access?] at h

/-- A nullsafe access and the plain access differ in their object only. -/
theorem Nullsafe.access?_eq_some {form : Form Node} {object : Node} {plain : Node → Form Node}
    (h : access? form = some (object, plain)) (x : Node) :
    object ∈ form.children ∧ (plain x).args = form.args ∧ (plain x).params = [] ∧
      ∀ c ∈ (plain x).children, c = x ∨ c ∈ form.children := by
  cases Access.of_access? h with
  | call =>
    refine ⟨List.mem_cons_self, rfl, rfl, fun c hc => ?_⟩
    rcases List.mem_cons.1 hc with rfl | hc
    · exact .inl rfl
    · exact .inr (List.mem_cons_of_mem _ hc)
  | fetch => exact ⟨List.mem_cons_self, rfl, rfl, fun c hc => .inl (List.mem_singleton.1 hc)⟩

/-- A property of the parts of a nullsafe access and of the new nodes holds of the lowered
access. -/
theorem Nullsafe.all_lowered {q H : Node → Prop} (hH : Layered q H) {n object temp : Node}
    {plain : Node → Form Node} {strict : Bool} (haccess : access? n.form = some (object, plain))
    (hparts : ∀ c ∈ n.form.children, H c) (htemp : H temp) (hnull : q Node.null)
    (hassign : q (Node.synthesized (.assign temp object)))
    (hguard : q (guard strict temp object)) (hplain : q (Node.synthesized (plain temp)))
    (hself : q (lowered strict temp object plain)) : H (lowered strict temp object plain) := by
  obtain ⟨form, span, marks⟩ := n
  obtain ⟨hobject, -, -, hchildren⟩ := access?_eq_some haccess temp
  have hnull : H Node.null := (hH _ rfl).2 ⟨hnull, fun _ hc => absurd hc List.not_mem_nil⟩
  have hassign : H (Node.synthesized (.assign temp object)) :=
    (hH _ rfl).2 ⟨hassign, List.forall_mem_cons.2
      ⟨htemp, List.forall_mem_singleton.2 (hparts object hobject)⟩⟩
  have hguard : H (guard strict temp object) := by
    cases strict with
    | false => exact hassign
    | true =>
      exact (hH _ rfl).2 ⟨hguard,
        List.forall_mem_cons.2 ⟨hassign, List.forall_mem_singleton.2 hnull⟩⟩
  have hplain : H (Node.synthesized (plain temp)) := by
    have hblock : (Node.synthesized (plain temp)).kind.opensBlock = false := by
      cases Access.of_access? haccess <;> rfl
    refine (hH _ hblock).2 ⟨hplain, fun c hc => ?_⟩
    rcases hchildren c hc with rfl | hc
    · exact htemp
    · exact hparts c hc
  exact (hH _ rfl).2 ⟨hself, List.forall_mem_cons.2
    ⟨hguard, List.forall_mem_cons.2 ⟨hplain, List.forall_mem_singleton.2 hnull⟩⟩⟩

/-- A property of the two pieces and of the new nodes holds of the two statements. -/
theorem Hoist.all_hoisted {q H : Node → Prop} (hH : Layered q H) {temp : Node} {hole : Hole Node}
    (htemp : H temp) (hcontent : H hole.content) (hfill : H (hole.fill temp))
    (hassign : q (Node.synthesized (.assign temp hole.content)))
    (hstatement : q (Node.synthesized
      (.expression (Node.synthesized (.assign temp hole.content)))))
    (hself : q (hoisted temp hole)) : H (hoisted temp hole) := by
  have hassign : H (Node.synthesized (.assign temp hole.content)) :=
    (hH _ rfl).2 ⟨hassign, List.forall_mem_cons.2
      ⟨htemp, List.forall_mem_singleton.2 hcontent⟩⟩
  have hstatement := (hH _ rfl).2 ⟨hstatement, List.forall_mem_singleton.2 hassign⟩
  exact (hH _ rfl).2 ⟨hself,
    List.forall_mem_cons.2 ⟨hstatement, List.forall_mem_singleton.2 hfill⟩⟩

/-- What a call of a rule of the catalog can do to a node and a supply of names. -/
inductive CatalogCall (cfg : Settings) (ctx : Context) (n : Node) (names : NameSupply) :
    Rule → Effect → Prop
  | unchanged {rule : Rule} : CatalogCall cfg ctx n names rule (.none n names)
  | cleaned {form : Form Node} (hclean : TrailingComma.cleanForm? ctx n.form = some form) :
      CatalogCall cfg ctx n names TrailingComma.rule
        ⟨.mutated, ⟨form, n.span, n.marks.outdated⟩, names⟩
  | lowered {file : FileId} {object : Node} {plain : Node → Form Node}
      (hfile : ctx.file = some file) (haccess : Nullsafe.access? n.form = some (object, plain)) :
      CatalogCall cfg ctx n names (Nullsafe.rule cfg.nullsafeStem cfg.strictNullCheck)
        (.replace
          (Nullsafe.lowered cfg.strictNullCheck
            (Node.var (names.allocate file cfg.nullsafeStem ctx.reserved).1) object plain)
          (names.allocate file cfg.nullsafeStem ctx.reserved).2)
  | hoisted {file : FileId} {hole : Hoist.Hole Node} (hfile : ctx.file = some file)
      (hreceiver : Hoist.receiverInStatement? n = some hole) :
      CatalogCall cfg ctx n names (Hoist.rule cfg.hoistStem)
        (.replace
          (Hoist.hoisted (Node.var (names.allocate file cfg.hoistStem ctx.reserved).1) hole)
          (names.allocate file cfg.hoistStem ctx.reserved).2)

section Calls

variable {ctx : Context} {file : FileId} (hfile : ctx.file = some file)

include hfile

/-- In a file, the hoisting rule acts where its search finds an object. -/
theorem Hoist.call_eq (stem : String) (n : Node) (names : NameSupply) :
    (rule stem).call ctx n names = match receiverInStatement? n with
      | none => .none n names
      | some hole => .replace (hoisted (Node.var (names.allocate file stem ctx.reserved).1) hole)
          (names.allocate file stem ctx.reserved).2 := by
  simp only [rule, Context.freshVariable, hfile]
  cases receiverInStatement? n <;> rfl

/-- In a file, the nullsafe rule acts on every nullsafe access. -/
theorem Nullsafe.call_eq (stem : String) (strict : Bool) (n : Node) (names : NameSupply) :
    (rule stem strict).call ctx n names = match access? n.form with
      | none => .none n names
      | some (object, plain) =>
        .replace (lowered strict (Node.var (names.allocate file stem ctx.reserved).1) object plain)
          (names.allocate file stem ctx.reserved).2 := by
  simp only [rule, Context.freshVariable, hfile]
  cases access? n.form <;> rfl

end Calls

/-- The rule for commas acts where its search finds one to remove. -/
theorem TrailingComma.call_eq (ctx : Context) (n : Node) (names : NameSupply) :
    rule.call ctx n names = match cleanForm? ctx n.form with
      | none => .none n names
      | some form => ⟨.mutated, ⟨form, n.span, n.marks.outdated⟩, names⟩ :=
  rfl

theorem CatalogCall.of_mem {cfg : Settings} {rule : Rule} (hrule : rule ∈ cfg.catalog)
    (ctx : Context) (n : Node) (names : NameSupply) :
    CatalogCall cfg ctx n names rule (rule.call ctx n names) := by
  simp only [Settings.catalog, List.mem_cons, List.not_mem_nil, or_false] at hrule
  rcases hrule with rfl | rfl | rfl
  · cases hfile : ctx.file with
    | none =>
      simp only [Hoist.rule, hfile]
      exact .unchanged
    | some file =>
      rw [Hoist.call_eq hfile]
      cases hreceiver : Hoist.receiverInStatement? n with
      | none => exact .unchanged
      | some hole => exact .hoisted hfile hreceiver
  · cases hfile : ctx.file with
    | none =>
      simp only [Nullsafe.rule, Context.freshVariable, hfile]
      cases Nullsafe.access? n.form <;> exact .unchanged
    | some file =>
      rw [Nullsafe.call_eq hfile]
      cases haccess : Nullsafe.access? n.form with
      | none => exact .unchanged
      | some access => exact .lowered hfile haccess
  · rw [TrailingComma.call_eq]
    cases hclean : TrailingComma.cleanForm? ctx n.form with
    | none => exact .unchanged
    | some form => exact .cleaned hclean

/-- A relation between trees that holds of everything a visit with rules of the catalog does: it is
closed under composition, and holds of a settled layer whose children are related, of a node with
cleaned lists, of a lowered access and of the statements made of one statement. -/
structure CatalogInvariant (cfg : Settings) (ctx : Context) (R : Node → Node → Prop) : Prop where
  refl : ∀ n, R n n
  trans : ∀ {n m k}, R n m → R m k → R n k
  settle : ∀ {n g}, Form.Rel R n.form g → R n (Node.settle g n.span n.marks)
  cleaned : ∀ {n form}, TrailingComma.cleanForm? ctx n.form = some form →
    R n ⟨form, n.span, n.marks.outdated⟩
  lowered : ∀ {n object plain}, Nullsafe.access? n.form = some (object, plain) →
    ∀ x, R n (Nullsafe.lowered cfg.strictNullCheck (Node.var x) object plain)
  hoisted : ∀ {n hole}, Hoist.receiverInStatement? n = some hole →
    ∀ x, R n (Hoist.hoisted (Node.var x) hole)

theorem CatalogInvariant.called {cfg : Settings} {ctx : Context} {R : Node → Node → Prop}
    (hR : CatalogInvariant cfg ctx R) {n : Node} {names : NameSupply} {rule : Rule} {e : Effect}
    (h : CatalogCall cfg ctx n names rule e) (kind : Kind) :
    R n (Pass.called rule kind e).value := by
  cases h with
  | unchanged => exact hR.refl n
  | cleaned hclean => exact hR.cleaned hclean
  | lowered _ haccess => exact hR.lowered haccess _
  | hoisted _ hreceiver => exact hR.hoisted hreceiver _

theorem CatalogInvariant.visit {cfg : Settings} {ctx : Context} {R : Node → Node → Prop}
    (hR : CatalogInvariant cfg ctx R) {rules : List Rule} (hrules : rules ⊆ cfg.catalog)
    (revisits : Nat) (n : Node) (names : NameSupply) :
    R n (Pass.visit rules ctx revisits n names).value := by
  refine Pass.visit_of_node_steps hR.refl hR.trans (fun _ _ => hR.settle) ?_ revisits n names
  intro rule hrule kind n names
  exact hR.called (.of_mem (hrules hrule) ctx n names) kind

end SyntaxLowering
