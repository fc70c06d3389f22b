import SyntaxLowering.Proofs.HoistCount

/-!
# Normal forms

A tree is normal if no rule of the catalog has anything to do in it and its marks have settled.
`Node.Normal` leaves room for some accesses in each statement, so that it also describes a tree
between two hoistings; with no room, a pass over the tree changes nothing (`Pass.visit_idle`).

The rest of the module says which rewrites lead to normal trees: settling a layer over normal
children, cleaning it, and taking an object out of it.
-/

namespace SyntaxLowering

/-! ### Settled nodes -/

theorem Marks.outdated_eq_self {m : Marks} : m.outdated = m ↔ m.textValid = false := by
  constructor
  · intro h
    rw [← h]
    rfl
  · intro h
    rw [Marks.outdated, ← h]

theorem Arg.settled_eq_iff (a : Arg Node) :
    a.settled = a ↔
      (a.value.isStale = true → a.span.isSome = true → a.marks.textValid = false) := by
  rw [Arg.settled, ← Marks.outdated_eq_self]
  cases a
  split <;> simp_all

theorem Param.settled_eq_iff (p : Param Node) :
    p.settled = p ↔
      (p.default.any (·.isStale) = true → p.span.isSome = true → p.marks.textValid = false) := by
  rw [Param.settled, ← Marks.outdated_eq_self]
  cases p
  split <;> simp_all

theorem Arg.settled_settled (a : Arg Node) : a.settled.settled = a.settled := by
  rw [Arg.settled_eq_iff, Arg.value_settled, Arg.span_settled]
  intro hstale hspan
  rw [Arg.settled, hstale, hspan]
  rfl

theorem Param.settled_settled (p : Param Node) : p.settled.settled = p.settled := by
  rw [Param.settled_eq_iff, Param.default_settled, Param.span_settled]
  intro hstale hspan
  rw [Param.settled, hstale, hspan]
  rfl

/-- Settling a node over its own layer changes nothing. -/
structure Node.Settled (n : Node) : Prop where
  args : ∀ a ∈ n.form.args, a.settled = a
  params : ∀ p ∈ n.form.params, p.settled = p
  flat : ∀ m ∈ n.form.statements, m.form.isGroup = false
  text : n.form.outdatesText = true → n.span.isSome = true → n.marks.textValid = false

theorem Node.Settled.settle_eq {n : Node} (h : n.Settled) :
    Node.settle n.form n.span n.marks = n := by
  obtain ⟨form, span, marks⟩ := n
  have hform : form.settled = form := Form.settled_eq_self h.args h.params h.flat
  rw [Node.settle, hform]
  congr 1
  split
  · next hboth =>
    rw [Bool.and_eq_true] at hboth
    exact Marks.outdated_eq_self.2 (h.text hboth.1 hboth.2)
  · rfl

/-- A node is settled once it has been settled over settled children. -/
theorem Node.settled_settle {form : Form Node} {span : Option Span} {marks : Marks}
    (h : ∀ m ∈ form.statements, m.Settled) : (Node.settle form span marks).Settled where
  args := by
    intro a ha
    change a ∈ form.settled.args at ha
    rw [Form.args_settled] at ha
    obtain ⟨b, -, rfl⟩ := List.mem_map.1 ha
    exact b.settled_settled
  params := by
    intro p hp
    change p ∈ form.settled.params at hp
    rw [Form.params_settled] at hp
    obtain ⟨q, -, rfl⟩ := List.mem_map.1 hp
    exact q.settled_settled
  flat := by
    intro m hm
    change m ∈ form.settled.statements at hm
    rw [Form.statements_settled] at hm
    obtain ⟨k, hk, hm⟩ := mem_splice.1 hm
    by_cases hgroup : k.form.isGroup = true
    · rw [if_pos hgroup] at hm
      exact (h k hk).flat m hm
    · rw [if_neg hgroup] at hm
      rw [hm]
      exact Bool.eq_false_iff.2 hgroup
  text := by
    intro hout hspan
    change form.settled.outdatesText = true at hout
    change span.isSome = true at hspan
    change (if form.outdatesText && span.isSome then marks.outdated else marks).textValid = false
    -- a layer that keeps its text is not changed by settling, so it would keep it now
    by_cases hform : form.outdatesText = true
    · rw [hform, hspan]
      rfl
    · rw [Form.settled_of_fresh (Bool.eq_false_iff.2 hform)] at hout
      exact absurd hout hform

/-! ### Normal nodes -/

/-- A node that no rule would change, but for at most `room` accesses from which objects are to be
hoisted. -/
structure NormalAt (ctx : Context) (room : Nat) (n : Node) : Prop where
  settled : n.Settled
  plain : Nullsafe.access? n.form = none
  clean : TrailingComma.cleanForm? ctx n.form = none
  load : Hoist.hoistable n ≤ room

/-- A tree all of whose nodes are normal. -/
def Node.Normal (ctx : Context) (room : Nat) (n : Node) : Prop :=
  n.All (NormalAt ctx room)

theorem NormalAt.mono {ctx : Context} {room room' : Nat} {n : Node} (h : NormalAt ctx room n)
    (hroom : room ≤ room') : NormalAt ctx room' n :=
  ⟨h.settled, h.plain, h.clean, Nat.le_trans h.load hroom⟩

theorem Hoist.receiverInStatement?_eq_none {n : Node} :
    receiverInStatement? n = none ↔ hoistable n = 0 := by
  obtain ⟨form, span, marks⟩ := n
  cases form with
  | expression value => simp [receiverInStatement?, hoistable, receiver?_eq_none_iff]
  | ret value =>
    cases value with
    | none => simp [receiverInStatement?, hoistable]
    | some value => simp [receiverInStatement?, hoistable, receiver?_eq_none_iff]
  | _ => simp [receiverInStatement?, hoistable]

/-- Of its surroundings, only the tokens matter to whether a layer is clean. -/
theorem TrailingComma.cleanForm?_congr {ctx ctx' : Context} (h : ctx'.tokens = ctx.tokens)
    (form : Form Node) : cleanForm? ctx' form = cleanForm? ctx form := by
  have hdue {ε : Type} [Listed ε] (e : ε) : isDue ctx' e = isDue ctx e := by
    simp only [isDue, Context.followedBySeparator, h]
  have hclean {ε : Type} [Listed ε] (es : List ε) : clean? ctx' es = clean? ctx es := by
    fun_induction clean? ctx es <;> simp_all [clean?]
  cases form <;> simp only [cleanForm?, cleanBoth?, hclean]

theorem NormalAt.of_tokens_eq {ctx ctx' : Context} (h : ctx'.tokens = ctx.tokens) {room : Nat}
    {n : Node} (hn : NormalAt ctx room n) : NormalAt ctx' room n :=
  ⟨hn.settled, hn.plain, (TrailingComma.cleanForm?_congr h n.form).trans hn.clean, hn.load⟩

/-! ### A pass over a normal tree -/

/-- A step that changed nothing. -/
structure Idle (n : Node) (names : NameSupply) (p : Progress Node) : Prop where
  value : p.value = n
  names : p.names = names
  calls : ∀ c ∈ p.calls, c.outcome = .unchanged

theorem Idle.sweep {cs : List Node} {names : NameSupply} {p : Progress (List Node)}
    (h : Sweep Idle cs names p) :
    p.value = cs ∧ p.names = names ∧ ∀ c ∈ p.calls, c.outcome = .unchanged := by
  induction h with
  | nil names => exact ⟨rfl, rfl, by simp⟩
  | @cons c cs names p q head _ ih =>
    obtain ⟨hvalue, hnames, hcalls⟩ := ih
    refine ⟨by rw [head.value, hvalue], hnames.trans head.names, fun call hcall => ?_⟩
    rcases List.mem_append.1 hcall with hcall | hcall
    · exact head.calls call hcall
    · exact hcalls call hcall

theorem NormalAt.call_eq {cfg : Settings} {ctx : Context} {n : Node} (h : NormalAt ctx 0 n)
    {file : FileId} (hfile : ctx.file = some file) {rule : Rule} (hrule : rule ∈ cfg.catalog)
    (names : NameSupply) : rule.call ctx n names = .none n names := by
  have hreceiver := Hoist.receiverInStatement?_eq_none.2 (Nat.le_zero.1 h.load)
  simp only [Settings.catalog, List.mem_cons, List.not_mem_nil, or_false] at hrule
  rcases hrule with rfl | rfl | rfl
  · rw [Hoist.call_eq hfile, hreceiver]
  · rw [Nullsafe.call_eq hfile, h.plain]
  · rw [TrailingComma.call_eq, h.clean]

namespace Pass

variable {ctx : Context} {revisit : Node → Pass Node} {rules : List Rule}

theorem applyRules_idle {n : Node} {names : NameSupply}
    (h : ∀ rule ∈ rules, rule.call ctx n names = .none n names) (kind : Kind) :
    Idle n names (applyRules revisit ctx kind rules n names) := by
  induction rules with
  | nil => exact ⟨rfl, rfl, by simp [applyRules, Pass.pure]⟩
  | cons rule rules ih =>
    rw [List.forall_mem_cons] at h
    have ih := ih h.2
    by_cases hclaims : rule.claims kind = true
    · rw [applyRules_of_claims hclaims, h.1]
      refine ⟨ih.value, ih.names, fun c hc => ?_⟩
      rcases List.mem_cons.1 hc with rfl | hc
      · rfl
      · exact ih.calls c hc
    · rw [applyRules_of_not_claims hclaims]
      exact ih

/-- A visit leaves a tree alone, draws no names, and reports every call as unchanged, if its nodes
are settled and no rule has anything to do on them. -/
theorem visitWith_idle_of_calls {n : Node}
    (hn : n.All fun m => m.Settled ∧ ∀ rule ∈ rules, ∀ names, rule.call ctx m names = .none m names)
    (names : NameSupply) : Idle n names (visitWith revisit rules ctx n names) := by
  induction n using Node.inductionOn generalizing names with
  | step form span marks ih =>
    obtain ⟨hshape, hchildren⟩ := mapM_form (visitWith revisit rules ctx) form names
    have hsweep := Sweep.of_mapM (fun c hc => ih c hc (hn.child hc)) names
    rw [hchildren] at hsweep
    obtain ⟨hvalue, hnames, hcalls⟩ := Idle.sweep hsweep
    have hform : (form.mapM (visitWith revisit rules ctx) names).value = form :=
      Form.eq_of_shape_eq hshape hvalue
    have hnames : (form.mapM (visitWith revisit rules ctx) names).names = names := hnames
    obtain ⟨hsettled, hcall⟩ := hn.self
    have happly : Idle ⟨form, span, marks⟩ names
        (applyRules revisit ctx form.kind rules ⟨form, span, marks⟩ names) :=
      applyRules_idle (fun rule hrule => hcall rule hrule names) form.kind
    have hsettle : Node.settle form span marks = ⟨form, span, marks⟩ := hsettled.settle_eq
    rw [visitWith_apply]
    simp only [hform, hnames, hsettle]
    refine ⟨happly.value, happly.names, fun c hc => ?_⟩
    rcases List.mem_append.1 hc with hc | hc
    · exact hcalls c hc
    · exact happly.calls c hc

theorem visit_idle_of_calls {n : Node}
    (hn : n.All fun m => m.Settled ∧ ∀ rule ∈ rules, ∀ names, rule.call ctx m names = .none m names)
    (revisits : Nat) (names : NameSupply) : Idle n names (visit rules ctx revisits n names) := by
  cases revisits <;> exact visitWith_idle_of_calls hn names

/-- Rules of the catalog have nothing to do on a normal tree. -/
theorem visit_idle {cfg : Settings} (hrules : rules ⊆ cfg.catalog) {file : FileId}
    (hfile : ctx.file = some file) {n : Node} (hn : n.Normal ctx 0) (revisits : Nat)
    (names : NameSupply) : Idle n names (visit rules ctx revisits n names) :=
  visit_idle_of_calls (hn.mono fun _ hm =>
    ⟨hm.settled, fun _ hrule names => hm.call_eq hfile (hrules hrule) names⟩) revisits names

end Pass

/-! ### Rewrites that end in normal trees -/

theorem Nullsafe.access?_eq_none_iff {form : Form Node} :
    access? form = none ↔ form.kind ∉ [.nullsafeMethodCall, .nullsafePropertyFetch] := by
  cases form <;> simp [access?, Form.kind]

theorem Hoist.hoistable_eq_zero {n : Node} (h : n.form.kind ∉ [.expression, .ret]) :
    hoistable n = 0 := by
  rw [hoistable_eq]
  split <;> simp_all

theorem Node.Settled.cleaned {n : Node} {form : Form Node} (h : n.Settled)
    (hclean : TrailingComma.Cleaned n.form form) :
    (⟨form, n.span, n.marks.outdated⟩ : Node).Settled where
  args := by
    intro b hb
    obtain ⟨a, ha, suppressed, rfl⟩ := exists_left_of_forall₂ hclean.args hb
    have := h.args a ha
    rw [Arg.settled_eq_iff] at this ⊢
    exact this
  params := by
    intro q hq
    obtain ⟨p, hp, suppressed, rfl⟩ := exists_left_of_forall₂ hclean.params hq
    have := h.params p hp
    rw [Param.settled_eq_iff] at this ⊢
    exact this
  flat := hclean.statements ▸ h.flat
  text _ _ := rfl

/-- Filling a place of a settled layer keeps it settled: the argument around the place has lost its
text. -/
theorem Node.Settled.refilled {c x : Node} {form form' : Form Node} {span : Option Span}
    {marks : Marks} (h : (⟨form, span, marks⟩ : Node).Settled)
    (hr : Hoist.Refilled c x form form') : (⟨form', span, marks.outdated⟩ : Node).Settled where
  args := by
    intro b hb
    obtain ⟨a, ha, rfl | ⟨-, rfl⟩⟩ := exists_left_of_forall₂ hr.args hb
    · exact h.args b ha
    · exact (Arg.settled_eq_iff _).2 fun _ _ => rfl
  params := hr.params ▸ h.params
  flat := hr.statements ▸ h.flat
  text _ _ := rfl

/-- A new node is settled if its arguments and parameters are and no group stands in it. -/
theorem Node.Settled.synthesized {form : Form Node} (hargs : ∀ a ∈ form.args, a.settled = a)
    (hparams : form.params = []) (hflat : ∀ m ∈ form.statements, m.form.isGroup = false) :
    (Node.synthesized form).Settled :=
  ⟨hargs, fun _ hp => absurd (hparams ▸ hp) List.not_mem_nil, hflat, fun _ hspan => by cases hspan⟩

theorem NormalAt.cleaned {ctx : Context} {n : Node} {form : Form Node} (h : n.Settled)
    (hclean : TrailingComma.cleanForm? ctx n.form = some form) (room : Nat) :
    NormalAt ctx room ⟨form, n.span, n.marks.outdated⟩ := by
  have hcleaned := TrailingComma.Cleaned.of_cleanForm? hclean
  have hkind : form.kind ∈ TrailingComma.rule.kinds := by
    rw [hcleaned.kind]
    exact TrailingComma.cleanForm?_kind hclean
  -- no other rule claims a kind of layer that has lists
  have hother : ∀ k ∈ TrailingComma.rule.kinds,
      k ∉ [.nullsafeMethodCall, .nullsafePropertyFetch] ∧ k ∉ [.expression, .ret] := by
    decide
  refine ⟨h.cleaned hcleaned, Nullsafe.access?_eq_none_iff.2 (hother _ hkind).1,
    TrailingComma.cleanForm?_cleanForm? hclean, ?_⟩
  rw [Hoist.hoistable_eq_zero (hother _ hkind).2]
  exact Nat.zero_le room

/-- Filling a place of a clean layer keeps it clean: no comma moves. -/
theorem TrailingComma.cleanForm?_refilled {ctx : Context} {c x : Node} {form form' : Form Node}
    (h : Hoist.Refilled c x form form') (hclean : cleanForm? ctx form = none) :
    cleanForm? ctx form' = none := by
  rw [cleanForm?_eq_none_iff] at hclean ⊢
  rw [h.kind, h.params, h.captures]
  intro hkind
  obtain ⟨hargs, hparams, hcaptures⟩ := hclean hkind
  refine ⟨clean?_eq_none_congr (h.args.imp ?_) hargs, hparams, hcaptures⟩
  rintro a b (rfl | ⟨-, rfl⟩) <;> exact ⟨rfl, rfl⟩

/-- Filling a place of a normal layer keeps it normal. -/
theorem NormalAt.refilled {ctx : Context} {room : Nat} {form : Form Node} {c : Node}
    {plug : Node → Form Node} {span : Option Span} {marks : Marks}
    (hslot : Hoist.Slot form c plug) (h : NormalAt ctx room ⟨form, span, marks⟩) (x : Node) :
    NormalAt ctx room ⟨plug x, span, marks.outdated⟩ := by
  have hrefilled := hslot.refilled x
  have hload : Hoist.hoistable ⟨plug x, span, marks.outdated⟩ = 0 := by
    apply Hoist.hoistable_eq_zero
    rw [hrefilled.kind]
    exact fun hkind => hslot.kind_not_mem (List.mem_cons_of_mem _ hkind)
  refine ⟨h.settled.refilled hrefilled, ?_, ?_, hload ▸ Nat.zero_le room⟩
  · have hplain := h.plain
    rw [Nullsafe.access?_eq_none_iff] at hplain ⊢
    rw [hrefilled.kind]
    exact hplain
  · exact TrailingComma.cleanForm?_refilled hrefilled h.clean

theorem NormalAt.synthesized {ctx : Context} {room : Nat} {form : Form Node}
    (hargs : form.args = []) (hparams : form.params = [])
    (hflat : ∀ m ∈ form.statements, m.form.isGroup = false)
    (hplain : Nullsafe.access? form = none) (hclean : TrailingComma.cleanForm? ctx form = none)
    (hload : Hoist.hoistable (Node.synthesized form) ≤ room) :
    NormalAt ctx room (Node.synthesized form) :=
  ⟨.synthesized (by simp [hargs]) hparams hflat, hplain, hclean, hload⟩

/-- Hoisting an object out of a statement over normal children leaves room for one access less in
each of the two statements. -/
theorem Node.normal_hoisted {ctx : Context} {n : Node} {hole : Hoist.Hole Node} {room : Nat}
    (hchildren : ∀ c ∈ n.form.children, c.Normal ctx 0)
    (hreceiver : Hoist.receiverInStatement? n = some hole)
    (hload : Hoist.hoistable n ≤ room + 1) (x : String) :
    (Hoist.hoisted (Node.var x) hole).Normal ctx room := by
  obtain ⟨value, plug, inner, hslot, hvalue, rfl⟩ := Hoist.receiverInStatement?_eq_some hreceiver
  have hpath := Hoist.Path.of_receiver? hvalue
  have hvar {room : Nat} : (Node.var x).Normal ctx room :=
    Node.all_iff.2 ⟨.synthesized rfl rfl (by simp [Form.statements]) rfl rfl (Nat.zero_le _),
      fun _ hc => absurd hc List.not_mem_nil⟩
  have hmem : value ∈ n.form.children := (hslot.refilled Node.null).mem_children
  obtain ⟨hcontent, hfill⟩ :=
    hpath.all (Node.layered_all _) NormalAt.refilled (hchildren value hmem)
  have hrest := hfill _ hvar
  have hroom {m : Node} (hm : m.Normal ctx 0) : m.Normal ctx room :=
    hm.mono fun _ hk => hk.mono (Nat.zero_le room)
  -- the two pieces share what is left of the accesses
  have hcount := hpath.accesses_add x
  have hvalueload : Hoist.hoistable n = Hoist.accesses value := by
    unfold Hoist.hoistable
    revert hslot
    generalize n.form = form
    rintro (_ | _) <;> rfl
  have hassignload : Hoist.accesses (Node.synthesized (.assign (Node.var x) inner.content)) =
      Hoist.accesses inner.content := by
    rw [Node.synthesized, Hoist.accesses_mk]
    simp [Form.object?, Hoist.searched, Hoist.accesses_var]
  have hplug : plug = .expression ∨ plug = fun v => .ret (some v) := by
    revert hslot
    generalize n.form = form
    rintro (_ | _)
    · exact .inl rfl
    · exact .inr rfl
  have hfillload : Hoist.accesses (inner.fill (Node.var x)) ≤ room := by omega
  refine Hoist.all_hoisted (Node.layered_all _) hvar (hroom hcontent) ?_ ?_ ?_ ?_
  · change (⟨plug (inner.fill (Node.var x)), n.span, n.marks.outdated⟩ : Node).All _
    rcases hplug with rfl | rfl <;>
      exact Node.all_iff.2 ⟨⟨⟨by simp [Form.args], by simp [Form.params],
        by simp [Form.statements], fun _ _ => rfl⟩, rfl, rfl, hfillload⟩,
        List.forall_mem_singleton.2 (hroom hrest)⟩
  · exact .synthesized rfl rfl (by simp [Form.statements]) rfl rfl (Nat.zero_le _)
  · refine .synthesized rfl rfl (by simp [Form.statements]) rfl rfl ?_
    change Hoist.accesses (Node.synthesized (.assign (Node.var x) inner.content)) ≤ room
    omega
  · refine .synthesized rfl rfl ?_ rfl rfl (Nat.zero_le _)
    refine List.forall_mem_cons.2 ⟨rfl, List.forall_mem_singleton.2 ?_⟩
    rcases hplug with rfl | rfl <;> rfl

end SyntaxLowering
