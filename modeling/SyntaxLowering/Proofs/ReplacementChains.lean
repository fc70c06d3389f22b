import SyntaxLowering.Proofs.SessionHistories

/-!
# Visits come to an end

Rules are arbitrary functions, and a replacement may be larger than what it replaces. `Visits` lays
down the course of a visit as it happens, with the revisits counted upwards and without any bound on
the length of the course. A course is a finite derivation, so a visit ends if it has one. Every
visit has exactly one (`Visits.iff`): children of a node are smaller, and a replacement is visited
only below the limit.

How long chains of replacements get shows in the simplest case, rules that put nodes without
children in the place of such nodes. There a visit is an iteration, cut off one step after the
revisits are used up (`Pass.visit_swaps`).
-/

namespace SyntaxLowering

/-! ### Courses of visits -/

mutual

/-- The course of a visit after `k` revisits: the children first, then the rules on the settled
layer. -/
inductive Visits (rules : List Rule) (ctx : Context) (limit : Nat) :
    Nat → Node → NameSupply → Progress Node → Prop
  | mk {k : Nat} {n : Node} {names : NameSupply} {below : Progress (List Node)} {g : Form Node}
      {p : Progress Node} (children : VisitsAll rules ctx limit k n.form.children names below)
      (shape : g.shape = n.form.shape) (value : g.children = below.value)
      (applied : Applies rules ctx limit k (Node.settle g n.span n.marks).kind rules
        (Node.settle g n.span n.marks) below.names p) :
      Visits rules ctx limit k n names ⟨p.value, p.names, below.calls ++ p.calls⟩

/-- The visits of some nodes, one after another. -/
inductive VisitsAll (rules : List Rule) (ctx : Context) (limit : Nat) :
    Nat → List Node → NameSupply → Progress (List Node) → Prop
  | nil {k : Nat} {names : NameSupply} : VisitsAll rules ctx limit k [] names ⟨[], names, []⟩
  | cons {k : Nat} {n : Node} {rest : List Node} {names : NameSupply} {p : Progress Node}
      {q : Progress (List Node)} (head : Visits rules ctx limit k n names p)
      (tail : VisitsAll rules ctx limit k rest p.names q) :
      VisitsAll rules ctx limit k (n :: rest) names
        ⟨p.value :: q.value, q.names, p.calls ++ q.calls⟩

/-- The calls of the rules that are left on a node of some kind. -/
inductive Applies (rules : List Rule) (ctx : Context) (limit : Nat) :
    Nat → Kind → List Rule → Node → NameSupply → Progress Node → Prop
  | done {k : Nat} {kind : Kind} {n : Node} {names : NameSupply} :
      Applies rules ctx limit k kind [] n names ⟨n, names, []⟩
  | unclaimed {k : Nat} {kind : Kind} {rule : Rule} {rest : List Rule} {n : Node}
      {names : NameSupply} {p : Progress Node} (claims : rule.claims kind = false)
      (next : Applies rules ctx limit k kind rest n names p) :
      Applies rules ctx limit k kind (rule :: rest) n names p
  | kept {k : Nat} {kind : Kind} {rule : Rule} {rest : List Rule} {n left : Node}
      {names names' : NameSupply} {verdict : Verdict} {p : Progress Node}
      (claims : rule.claims kind = true) (call : rule.call ctx n names = ⟨verdict, left, names'⟩)
      (outcome : verdict.outcome ≠ .replaced)
      (next : Applies rules ctx limit k kind rest left names' p) :
      Applies rules ctx limit k kind (rule :: rest) n names
        ⟨p.value, p.names, ⟨rule, kind, verdict.outcome⟩ :: p.calls⟩
  /-- A replacement below the limit is visited in its turn. -/
  | revisited {k : Nat} {kind : Kind} {rule : Rule} {rest : List Rule} {n m left : Node}
      {names names' : NameSupply} {p : Progress Node} (claims : rule.claims kind = true)
      (call : rule.call ctx n names = ⟨.replaced m, left, names'⟩) (below : k < limit)
      (next : Visits rules ctx limit (k + 1) m names' p) :
      Applies rules ctx limit k kind (rule :: rest) n names
        ⟨p.value, p.names, ⟨rule, kind, .replaced⟩ :: p.calls⟩
  /-- At the limit a replacement is taken as it is. -/
  | cut {k : Nat} {kind : Kind} {rule : Rule} {rest : List Rule} {n m left : Node}
      {names names' : NameSupply} (claims : rule.claims kind = true)
      (call : rule.call ctx n names = ⟨.replaced m, left, names'⟩) (reached : limit ≤ k) :
      Applies rules ctx limit k kind (rule :: rest) n names
        ⟨m, names', [⟨rule, kind, .replaced⟩]⟩

end

section Courses

variable {rules : List Rule} {ctx : Context} {limit : Nat}

/-- What becomes of a replacement after `k` revisits. -/
def Pass.revisitAfter (rules : List Rule) (ctx : Context) (limit k : Nat) : Node → Pass Node :=
  if k < limit then visit rules ctx (limit - (k + 1)) else Pass.pure

/-- A call that does not replace the node leaves it to the other rules. -/
theorem Pass.applyRules_of_kept {revisit : Node → Pass Node} {rule : Rule} {kind : Kind}
    {n left : Node} {names names' : NameSupply} {verdict : Verdict}
    (hclaims : rule.claims kind = true) (hcall : rule.call ctx n names = ⟨verdict, left, names'⟩)
    (houtcome : verdict.outcome ≠ .replaced) :
    applyRules revisit ctx kind (rule :: rules) n names =
      ⟨(applyRules revisit ctx kind rules left names').value,
        (applyRules revisit ctx kind rules left names').names,
        ⟨rule, kind, verdict.outcome⟩ ::
          (applyRules revisit ctx kind rules left names').calls⟩ := by
  rw [applyRules_of_claims hclaims, hcall]
  cases verdict with
  | replaced m => exact absurd rfl houtcome
  | unchanged => rfl
  | mutated => rfl

theorem Pass.visit_eq_revisitAfter (k : Nat) :
    visit rules ctx (limit - k) = visitWith (revisitAfter rules ctx limit k) rules ctx := by
  funext n
  unfold revisitAfter
  by_cases hk : k < limit
  · rw [if_pos hk, show limit - k = limit - (k + 1) + 1 by omega]
    rfl
  · rw [if_neg hk, show limit - k = 0 by omega]
    rfl

/-! A course determines its result. -/

mutual

theorem Visits.eq_visit : ∀ {k : Nat} {n : Node} {names : NameSupply} {p : Progress Node},
    Visits rules ctx limit k n names p → p = Pass.visit rules ctx (limit - k) n names
  | _, _, _, _, @Visits.mk _ _ _ k n names below g p children shape value applied => by
    have hchildren := children.eq_mapM
    have happlied := applied.eq_applyRules
    obtain ⟨hshape, hmapM⟩ := Pass.mapM_form (Pass.visit rules ctx (limit - k)) n.form names
    rw [hmapM] at hchildren
    have hg : g = (n.form.mapM (Pass.visit rules ctx (limit - k)) names).value :=
      Form.eq_of_shape_eq (shape.trans hshape.symm) (by rw [value, hchildren])
    subst hg hchildren happlied
    rw [Pass.visit_eq_revisitAfter, Pass.visitWith_apply]

theorem VisitsAll.eq_mapM : ∀ {k : Nat} {ns : List Node} {names : NameSupply}
    {p : Progress (List Node)}, VisitsAll rules ctx limit k ns names p →
      p = ns.mapM (Pass.visit rules ctx (limit - k)) names
  | _, _, _, _, .nil => rfl
  | _, _, _, _, .cons head tail => by
    rw [Pass.mapM_cons, ← head.eq_visit, ← tail.eq_mapM]

theorem Applies.eq_applyRules : ∀ {k : Nat} {kind : Kind} {rest : List Rule} {n : Node}
    {names : NameSupply} {p : Progress Node}, Applies rules ctx limit k kind rest n names p →
      p = Pass.applyRules (Pass.revisitAfter rules ctx limit k) ctx kind rest n names
  | _, _, _, _, _, _, .done => rfl
  | _, _, _, _, _, _, .unclaimed claims next => by
    rw [Pass.applyRules_of_not_claims (by simp [claims])]
    exact next.eq_applyRules
  | _, _, _, _, _, _, .kept claims call outcome next => by
    rw [Pass.applyRules_of_kept claims call outcome, ← next.eq_applyRules]
  | _, _, _, _, _, _, .revisited claims call below next => by
    have hnext := next.eq_visit
    rw [Pass.applyRules_of_claims claims, call, hnext, Pass.revisitAfter, if_pos below]
    rfl
  | _, _, _, _, _, _, .cut claims call reached => by
    rw [Pass.applyRules_of_claims claims, call, Pass.revisitAfter, if_neg (Nat.not_lt.2 reached)]
    rfl

end

/-! Every visit has a course. -/

theorem VisitsAll.of_mapM {k : Nat} {f : Node → Pass Node} {cs : List Node}
    (h : ∀ c ∈ cs, ∀ names, Visits rules ctx limit k c names (f c names)) (names : NameSupply) :
    VisitsAll rules ctx limit k cs names (cs.mapM f names) := by
  induction cs generalizing names with
  | nil => exact .nil
  | cons c cs ih =>
    rw [Pass.mapM_cons]
    exact .cons (h c List.mem_cons_self names)
      (ih (fun d hd => h d (List.mem_cons_of_mem c hd)) _)

theorem Applies.of_applyRules {k : Nat}
    (hrevisit : k < limit → ∀ m names,
      Visits rules ctx limit (k + 1) m names (Pass.visit rules ctx (limit - (k + 1)) m names))
    (kind : Kind) (rest : List Rule) (n : Node) (names : NameSupply) :
    Applies rules ctx limit k kind rest n names
      (Pass.applyRules (Pass.revisitAfter rules ctx limit k) ctx kind rest n names) := by
  induction rest generalizing n names with
  | nil => exact .done
  | cons rule rest ih =>
    by_cases hclaims : rule.claims kind = true
    · rw [Pass.applyRules_of_claims hclaims]
      generalize hcall : rule.call ctx n names = e
      obtain ⟨verdict, left, names'⟩ := e
      cases verdict with
      | unchanged => exact .kept hclaims hcall nofun (ih left names')
      | mutated => exact .kept hclaims hcall nofun (ih left names')
      | replaced m =>
        by_cases hk : k < limit
        · rw [Pass.revisitAfter, if_pos hk]
          exact .revisited hclaims hcall hk (hrevisit hk m names')
        · rw [Pass.revisitAfter, if_neg hk]
          exact .cut hclaims hcall (Nat.not_lt.1 hk)
    · rw [Pass.applyRules_of_not_claims hclaims]
      exact .unclaimed (by simpa using hclaims) (ih n names)

/-- A visit has a course if the visits of replacements have one, by induction on the tree. -/
theorem Visits.of_revisits {k : Nat}
    (hrevisit : k < limit → ∀ m names,
      Visits rules ctx limit (k + 1) m names (Pass.visit rules ctx (limit - (k + 1)) m names))
    (n : Node) (names : NameSupply) :
    Visits rules ctx limit k n names (Pass.visit rules ctx (limit - k) n names) := by
  rw [Pass.visit_eq_revisitAfter]
  induction n using Node.inductionOn generalizing names with
  | step form span marks ih =>
    obtain ⟨hshape, hmapM⟩ := Pass.mapM_form
      (Pass.visitWith (Pass.revisitAfter rules ctx limit k) rules ctx) form names
    have hchildren := VisitsAll.of_mapM ih names
    rw [hmapM] at hchildren
    have hcourse := Visits.mk (n := ⟨form, span, marks⟩) hchildren hshape rfl
      (.of_applyRules hrevisit _ rules _ _)
    rw [Pass.visitWith_apply]
    exact hcourse

/-- A visit comes to an end, and in one way only. -/
theorem Visits.iff {k : Nat} {n : Node} {names : NameSupply} {p : Progress Node} :
    Visits rules ctx limit k n names p ↔ p = Pass.visit rules ctx (limit - k) n names := by
  refine ⟨Visits.eq_visit, ?_⟩
  rintro rfl
  -- by induction on the revisits that are left
  induction hleft : limit - k generalizing k n names with
  | zero =>
    rw [← hleft]
    exact .of_revisits (fun hk => by omega) n names
  | succ left ih =>
    rw [← hleft]
    refine .of_revisits (fun _ m names => ?_) n names
    have hleft' : limit - (k + 1) = left := by omega
    rw [hleft']
    exact ih hleft'

end Courses

/-! ### Chains of replacements -/

/-- The replacement that a verdict names. -/
def Verdict.replacement? : Verdict → Option Node
  | replaced m => some m
  | _ => none

/-- A rule that decides by the node alone, and either leaves it as it is or puts a node without
children in its place. -/
structure Rule.IsSwap (rule : Rule) : Prop where
  verdict : ∀ {n : Node}, rule.claims n.kind = true → ∀ ctx ctx' names names',
    (rule.call ctx n names).verdict = (rule.call ctx' n names').verdict
  names : ∀ {n : Node}, rule.claims n.kind = true → ∀ ctx names,
    (rule.call ctx n names).names = names
  node : ∀ {n : Node}, rule.claims n.kind = true → ∀ ctx names,
    (rule.call ctx n names).verdict.replacement? = none → (rule.call ctx n names).node = n
  childless : ∀ {n m : Node}, rule.claims n.kind = true → ∀ ctx names,
    (rule.call ctx n names).verdict = .replaced m → m.form.children = []

/-- The rule that puts what a function gives for a node in its place. -/
def Rule.ofSwap (name : String) (kinds : List Kind) (swap : Node → Option Node) : Rule where
  name := name
  description := ""
  kinds := kinds
  call _ n names :=
    match swap n with
    | none => .none n names
    | some m => .replace m names

theorem Rule.IsSwap.ofSwap {name : String} {kinds : List Kind} {swap : Node → Option Node}
    (hswap : ∀ n m, swap n = some m → m.form.children = []) :
    (Rule.ofSwap name kinds swap).IsSwap := by
  have hcall (ctx : Context) (n : Node) (names : NameSupply) :
      (Rule.ofSwap name kinds swap).call ctx n names =
        match swap n with
        | none => .none n names
        | some m => .replace m names := rfl
  constructor
  · intro n _ ctx ctx' names names'
    cases h : swap n <;> simp [hcall, h, Effect.none, Effect.replace]
  · intro n _ ctx names
    cases h : swap n <;> simp [hcall, h, Effect.none, Effect.replace]
  · intro n _ ctx names
    cases h : swap n <;> simp [hcall, h, Effect.none, Effect.replace, Verdict.replacement?]
  · intro n m _ ctx names
    cases h : swap n with
    | none => simp [hcall, h, Effect.none]
    | some m' => simpa [hcall, h, Effect.replace] using fun heq : m' = m => heq ▸ hswap n m' h

/-- What a rule that decides by the node alone puts in its place. -/
def Rule.swap? (rule : Rule) (n : Node) : Option Node :=
  (rule.call ⟨none, none, []⟩ n {}).verdict.replacement?

/-- What the first of some rules that claims and replaces a node puts in its place. -/
def firstSwap? (rules : List Rule) (n : Node) : Option Node :=
  (rules.filter (·.claims n.kind)).findSome? (·.swap? n)

/-- The nodes that a step leads to from a node, one after another, as far as it goes but at most
`bound` of them. -/
def successors (step : Node → Option Node) : (bound : Nat) → Node → List Node
  | 0, _ => []
  | bound + 1, n =>
    match step n with
    | none => []
    | some m => m :: successors step bound m

/-- Whether a parameter of a layer cannot be copied from the source text. -/
def Form.hasStaleParam (form : Form Node) : Bool :=
  form.params.any fun p => isStale p.span p.marks

/-- A node without children as its rules see it: a parameter that cannot be copied from the source
text takes the text of the whole node with it. -/
def Node.settledLeaf (n : Node) : Node :=
  if n.form.hasStaleParam && n.span.isSome then n.outdated else n

theorem Node.settle_of_childless {form : Form Node} (h : form.children = []) (span : Option Span)
    (marks : Marks) :
    Node.settle form span marks = (⟨form, span, marks⟩ : Node).settledLeaf := by
  have hparts := h
  rw [Form.children_eq, Form.inline, List.append_eq_nil_iff, List.append_eq_nil_iff,
    List.append_eq_nil_iff] at hparts
  obtain ⟨⟨⟨-, hargs⟩, hdefaults⟩, hstatements⟩ := hparts
  have hargs : form.args = [] := List.map_eq_nil_iff.1 hargs
  have hsettled : form.settled = form := by
    refine Form.settled_eq_self (by simp [hargs]) (fun p hp => ?_) (by simp [hstatements])
    have hdefault : p.default = none := List.filterMap_eq_nil_iff.1 hdefaults p hp
    exact Param.settled_eq_self (by simp [hdefault])
  have houtdates : form.outdatesText = form.hasStaleParam := by
    simp [Form.outdatesText, Form.hasStaleParam, h, hargs, hstatements]
  rw [Node.settle, hsettled, houtdates, Node.settledLeaf]
  by_cases hstale : (form.hasStaleParam && span.isSome) = true
  · rw [if_pos hstale, if_pos hstale]
    rfl
  · rw [if_neg hstale, if_neg hstale]

theorem firstSwap?_cons (rule : Rule) (rules : List Rule) (n : Node) :
    firstSwap? (rule :: rules) n =
      if rule.claims n.kind then (rule.swap? n).or (firstSwap? rules n)
      else firstSwap? rules n := by
  by_cases hclaims : rule.claims n.kind = true
  · rw [if_pos hclaims]
    cases hswap : rule.swap? n <;> simp [firstSwap?, hclaims, hswap]
  · simp [firstSwap?, hclaims]

/-- What a call of such a rule does, in any context. -/
theorem Rule.IsSwap.call_eq {rule : Rule} (h : rule.IsSwap) {n : Node}
    (hclaims : rule.claims n.kind = true) (ctx : Context) (names : NameSupply) :
    match rule.swap? n with
    | none => ∃ verdict, rule.call ctx n names = ⟨verdict, n, names⟩ ∧ verdict.outcome ≠ .replaced
    | some m =>
      m.form.children = [] ∧ ∃ left, rule.call ctx n names = ⟨.replaced m, left, names⟩ := by
  have hverdict := h.verdict hclaims ⟨none, none, []⟩ ctx {} names
  have hnames := h.names hclaims ctx names
  have hnode := h.node hclaims ctx names
  have hchildless := fun m => @h.childless n m hclaims ctx names
  rw [Rule.swap?, hverdict]
  generalize rule.call ctx n names = e at *
  obtain ⟨verdict, left, names'⟩ := e
  obtain rfl : names' = names := hnames
  cases verdict with
  | replaced m => exact ⟨hchildless m rfl, left, rfl⟩
  | unchanged =>
    obtain rfl : left = n := hnode rfl
    exact ⟨.unchanged, rfl, nofun⟩
  | mutated =>
    obtain rfl : left = n := hnode rfl
    exact ⟨.mutated, rfl, nofun⟩

/-- How many of some calls replaced their node. -/
def replacedCalls (calls : List Call) : Nat :=
  calls.countP (·.outcome == .replaced)

namespace Pass

variable {rules : List Rule} {ctx : Context} {revisit : Node → Pass Node}

/-- Such rules leave a node alone, or hand over the first replacement that one of them has. -/
theorem applyRules_swaps (revisit : Node → Pass Node) (ctx : Context)
    (hrules : ∀ rule ∈ rules, rule.IsSwap) (n : Node) (names : NameSupply) :
    let p := applyRules revisit ctx n.kind rules n names
    match firstSwap? rules n with
    | none => p.value = n ∧ p.names = names ∧ replacedCalls p.calls = 0
    | some m => m.form.children = [] ∧ p.value = (revisit m names).value ∧
        p.names = (revisit m names).names ∧
        replacedCalls p.calls = replacedCalls (revisit m names).calls + 1 := by
  induction rules with
  | nil => exact ⟨rfl, rfl, rfl⟩
  | cons rule rules ih =>
    have ih := ih fun r hr => hrules r (List.mem_cons_of_mem rule hr)
    rw [firstSwap?_cons]
    by_cases hclaims : rule.claims n.kind = true
    · have hcall := (hrules rule List.mem_cons_self).call_eq hclaims ctx names
      rw [if_pos hclaims]
      cases hswap : rule.swap? n with
      | some m =>
        simp only [hswap] at hcall
        obtain ⟨hchildless, left, hcall⟩ := hcall
        rw [applyRules_of_claims hclaims, hcall]
        exact ⟨hchildless, rfl, rfl, List.countP_cons_of_pos rfl⟩
      | none =>
        simp only [hswap] at hcall
        obtain ⟨verdict, hcall, houtcome⟩ := hcall
        rw [Option.none_or, applyRules_of_kept hclaims hcall houtcome]
        -- the call counts for nothing
        have hcount (calls : List Call) :
            replacedCalls (⟨rule, n.kind, verdict.outcome⟩ :: calls) = replacedCalls calls :=
          List.countP_cons_of_neg (by simpa using houtcome)
        simp only [hcount]
        exact ih
    · rw [if_neg hclaims, applyRules_of_not_claims hclaims]
      exact ih

/-- A visit of a node without children goes to its rules at once. -/
theorem visitWith_of_childless {n : Node} (hn : n.form.children = []) (names : NameSupply) :
    visitWith revisit rules ctx n names =
      applyRules revisit ctx n.settledLeaf.kind rules n.settledLeaf names := by
  obtain ⟨form, span, marks⟩ := n
  obtain ⟨hshape, hmapM⟩ := mapM_form (visitWith revisit rules ctx) form names
  have hn : form.children = [] := hn
  rw [hn] at hmapM
  have hchildren := congrArg Progress.value hmapM
  have hnames := congrArg Progress.names hmapM
  have hcalls := congrArg Progress.calls hmapM
  have hform : (form.mapM (visitWith revisit rules ctx) names).value = form :=
    Form.eq_of_shape_eq hshape (hchildren.symm.trans hn.symm)
  have hbelow : form.mapM (visitWith revisit rules ctx) names = ⟨form, names, []⟩ :=
    (Progress.mk.injEq ..).mpr ⟨hform, hnames.symm, hcalls.symm⟩
  rw [visitWith_apply, hbelow]
  show (⟨_, _, [] ++ _⟩ : Progress Node) = _
  rw [Node.settle_of_childless hn]
  rfl

/-- A step of a pass that follows the chain of replacements from a node, `bound` at most. Only a
chain that ends by itself ends in a node that its rules have seen. -/
structure FollowsChain (rules : List Rule) (bound : Nat) (n : Node) (names : NameSupply)
    (p : Progress Node) : Prop where
  value : p.value =
    let chain := successors (fun m => firstSwap? rules m.settledLeaf) bound n
    if chain.length = bound then chain.getLastD n else (chain.getLastD n).settledLeaf
  names : p.names = names
  calls : replacedCalls p.calls =
    (successors (fun m => firstSwap? rules m.settledLeaf) bound n).length

/-- A visit follows a chain for one replacement more than the visits of replacements do. -/
theorem FollowsChain.visitWith {bound : Nat} (hrules : ∀ rule ∈ rules, rule.IsSwap)
    (hrevisit : ∀ m names, m.form.children = [] →
      FollowsChain rules bound m names (revisit m names))
    {n : Node} (hn : n.form.children = []) (names : NameSupply) :
    FollowsChain rules (bound + 1) n names (visitWith revisit rules ctx n names) := by
  rw [visitWith_of_childless hn]
  have happlied := applyRules_swaps revisit ctx hrules n.settledLeaf names
  have hchain : successors (fun m => firstSwap? rules m.settledLeaf) (bound + 1) n =
      match firstSwap? rules n.settledLeaf with
      | none => []
      | some m => m :: successors (fun m => firstSwap? rules m.settledLeaf) bound m := rfl
  cases hswap : firstSwap? rules n.settledLeaf with
  | none =>
    simp only [hswap] at happlied hchain
    obtain ⟨hvalue, hnames, hcalls⟩ := happlied
    exact ⟨by rw [hvalue, hchain]; rfl, hnames, by rw [hcalls, hchain]; rfl⟩
  | some m =>
    simp only [hswap] at happlied hchain
    obtain ⟨hm, hvalue, hnames, hcalls⟩ := happlied
    have hnext := hrevisit m names hm
    refine ⟨?_, hnames.trans hnext.names, ?_⟩
    · rw [hvalue, hnext.value, hchain]
      simp only [List.length_cons, Nat.add_right_cancel_iff, List.getLastD_cons]
    · rw [hcalls, hnext.calls, hchain, List.length_cons]

/-- On a node without children a visit is an iteration: each time the first rule that has a
replacement gives it, until no rule has one or the revisits are used up and one more replacement
was made. -/
theorem visit_followsChain (hrules : ∀ rule ∈ rules, rule.IsSwap) (ctx : Context)
    (revisits : Nat) {n : Node} (hn : n.form.children = []) (names : NameSupply) :
    FollowsChain rules (revisits + 1) n names (visit rules ctx revisits n names) := by
  induction revisits generalizing n names with
  | zero => exact .visitWith hrules (fun m names _ => ⟨rfl, rfl, rfl⟩) hn names
  | succ revisits ih => exact .visitWith hrules (fun m names hm => ih hm names) hn names

end Pass

namespace Session

/-- Runs end, whatever the rules do, and bound chains of replacements. A run has one course, and
that is a finite one. If moreover the rules decide by the node alone and only put nodes without
children in the place of others, the run over a node without children follows the chain that the
first rule with a replacement gives each time, for one replacement more than there are revisits at
most, and records as many replacements as the chain has. A node of the chain that has a span and a
parameter without source text loses its own text before the rules see it. -/
theorem transform_ends_chains (s : Session) (file : Option FileId) (tokens : Option (List Token)) :
    (∀ (tree : Node) (p : Progress Node),
      let run := s.transform file tree tokens
      Visits s.rules ⟨file, tokens, tree.variableNames⟩ s.maxRevisits 0 tree s.names p ↔
        p = ⟨run.tree, run.session.names, run.calls⟩) ∧
    ((∀ rule ∈ s.rules, rule.IsSwap) → ∀ n : Node, n.form.children = [] →
      let run := s.transform file n tokens
      let chain := successors (fun m => firstSwap? s.rules m.settledLeaf) (s.maxRevisits + 1) n
      let last := chain.getLastD n
      run.tree = (if chain.length = s.maxRevisits + 1 then last else last.settledLeaf) ∧
        replacedCalls run.calls = chain.length ∧
        (s.Reachable → run.session.replacements = s.replacements + chain.length)) := by
  refine ⟨fun tree p => Visits.iff, fun hrules n hn => ?_⟩
  intro run chain last
  have hfollows : Pass.FollowsChain s.rules (s.maxRevisits + 1) n s.names _ :=
    Pass.visit_followsChain hrules ⟨file, tokens, n.variableNames⟩ s.maxRevisits hn s.names
  refine ⟨hfollows.value, hfollows.calls, fun hreachable => ?_⟩
  rw [hreachable.tallied.replacements_transform, ← hfollows.calls]
  rfl

/-- With two revisits a rule that counts up to ten gets from zero to three, and three replacements
are recorded. -/
theorem transform_ends_chains_of_counting :
    let next : Node → Option Node := fun n => match n.form with
      | .int k => if k < 10 then some (.synthesized (.int (k + 1))) else none
      | _ => none
    let s : Session := { ({} : Session).add (.ofSwap "Count" [.int] next) with maxRevisits := 2 }
    let zero := Node.synthesized (.int 0)
    let run := s.transform none zero none
    (∀ rule ∈ s.rules, rule.IsSwap) ∧ zero.form.children = [] ∧ s.Reachable ∧
      run.tree = .synthesized (.int 3) ∧ run.session.replacements = 3 ∧
      ∃ p, Visits s.rules ⟨none, none, []⟩ 2 0 zero {} p ∧ p.value = .synthesized (.int 3) := by
  intro next s zero run
  have hnext : ∀ n m, next n = some m → m.form.children = [] := by
    intro n m h
    simp only [next] at h
    split at h
    · split at h
      · obtain rfl := Option.some.inj h
        rfl
      · cases h
    · cases h
  have hrules : ∀ rule ∈ s.rules, rule.IsSwap := List.forall_mem_singleton.2 (.ofSwap hnext)
  have hreachable : s.Reachable := .limited 2 (.add _ .new)
  obtain ⟨hcourse, hchains⟩ := transform_ends_chains s none none
  obtain ⟨htree, -, hrecorded⟩ := hchains hrules zero rfl
  have hthree : run.tree = .synthesized (.int 3) := htree.trans (by decide +kernel)
  exact ⟨hrules, rfl, hreachable, hthree, (hrecorded hreachable).trans (by decide +kernel), _,
    (hcourse zero _).2 rfl, hthree⟩

/-- A closure without children loses its source text because of a parameter that has none, though
the only rule leaves it alone. -/
theorem stale_parameter_outdates_closure :
    let s := ({} : Session).add (.ofSwap "Watch" [.closure] fun _ => none)
    let n : Node := ⟨.closure [{ name := "x" }] [] [] false, some ⟨0, 16⟩, {}⟩
    (∀ rule ∈ s.rules, rule.IsSwap) ∧ n.form.children = [] ∧ firstSwap? s.rules n = none ∧
      (s.runDetached n none).tree ≠ n := by
  intro s n
  exact ⟨List.forall_mem_singleton.2 (.ofSwap nofun), rfl, rfl, by decide +kernel⟩

end Session

end SyntaxLowering
