import SyntaxLowering.Proofs.HoistPath

/-!
# Source text is reused for untouched trees only

A node that still may be printed by copying its span must be a node of the tree that was read:
otherwise the printer would bring back text from before a rewrite. `Node.Traced` says this of all
nodes, arguments and parameters of a tree. One step of a pass keeps it because whatever a step
changes loses its source text, and `Reuses` also keeps that what did not lose its text did not
change, which is what the layer above needs.
-/

namespace SyntaxLowering

/-- All arguments of calls in a tree. -/
def Node.arguments (n : Node) : List (Arg Node) :=
  n.preorder.flatMap (·.form.args)

/-- All parameters of closures and declarations in a tree. -/
def Node.parameters (n : Node) : List (Param Node) :=
  n.preorder.flatMap (·.form.params)

/-- A node that may be copied is a node of `tree`, and its arguments and parameters that may be
copied are those of `tree`, up to their comma mark. -/
structure TracedLayer (tree n : Node) : Prop where
  node : n.isStale = false → n ∈ tree.preorder
  args : ∀ a ∈ n.form.args, isStale a.span a.marks = false → ∃ b ∈ tree.arguments, SameButComma b a
  params : ∀ p ∈ n.form.params, isStale p.span p.marks = false →
    ∃ q ∈ tree.parameters, SameButComma q p

/-- Whatever may be copied in a tree comes from `tree`. -/
def Traced (tree n : Node) : Prop :=
  n.All (TracedLayer tree)

namespace Traced

variable {tree n : Node}

theorem refl (tree : Node) : Traced tree tree := by
  intro m hm
  refine ⟨fun _ => hm, fun a ha _ => ⟨a, ?_, .refl a⟩, fun p hp _ => ⟨p, ?_, .refl p⟩⟩
  · exact List.mem_flatMap.2 ⟨m, hm, ha⟩
  · exact List.mem_flatMap.2 ⟨m, hm, hp⟩

end Traced

namespace TracedLayer

variable {tree n : Node}

/-- A node that may not be copied is traced if its arguments and parameters are. -/
theorem of_stale (hstale : n.isStale = true)
    (hargs : ∀ a ∈ n.form.args, isStale a.span a.marks = false →
      ∃ b ∈ tree.arguments, SameButComma b a)
    (hparams : ∀ p ∈ n.form.params, isStale p.span p.marks = false →
      ∃ q ∈ tree.parameters, SameButComma q p) : TracedLayer tree n :=
  ⟨fun h => absurd (hstale.symm.trans h) (by decide), hargs, hparams⟩

/-- A new node without arguments and parameters is traced. -/
theorem synthesized {form : Form Node} (hargs : form.args = []) (hparams : form.params = []) :
    TracedLayer tree (Node.synthesized form) := by
  refine of_stale rfl (fun a ha => ?_) (fun p hp => ?_)
  · exact absurd (hargs ▸ ha) List.not_mem_nil
  · exact absurd (hparams ▸ hp) List.not_mem_nil

end TracedLayer

theorem Traced.var (tree : Node) (x : String) : Traced tree (Node.var x) :=
  Node.all_iff.2 ⟨.synthesized rfl rfl, fun _ hc => absurd hc List.not_mem_nil⟩

/-- What a step of a pass makes of a node: a node that kept its source text was left as it was,
and whatever may be copied still comes from where it came from before. -/
structure Reuses (n n' : Node) : Prop where
  same : n'.isStale = false → n' = n
  traced : ∀ {tree : Node}, Traced tree n → Traced tree n'

namespace Reuses

theorem refl (n : Node) : Reuses n n :=
  ⟨fun _ => rfl, fun h => h⟩

theorem trans {n n' n'' : Node} (h : Reuses n n') (h' : Reuses n' n'') : Reuses n n'' := by
  refine ⟨fun hfresh => ?_, fun htraced => h'.traced (h.traced htraced)⟩
  obtain rfl := h'.same hfresh
  exact h.same hfresh

/-- A step whose result may not be copied only has to trace what is below it. -/
theorem of_stale {n n' : Node} (hstale : n'.isStale = true)
    (h : ∀ {tree : Node}, Traced tree n → Traced tree n') : Reuses n n' :=
  ⟨fun hfresh => absurd (hstale.symm.trans hfresh) (by decide), h⟩

end Reuses

/-! ### Settling -/

/-- An argument that kept its text through a step is the argument before the step. -/
theorem Arg.Rel.eq_of_settled {a b : Arg Node} (h : Arg.Rel Reuses a b)
    (hfresh : isStale b.settled.span b.settled.marks = false) : b.settled = a := by
  have hspan : b.span.isSome = true := by
    have := (isStale_eq_false.1 hfresh).1
    rwa [Arg.span_settled] at this
  -- a stale value would have outdated the argument
  have hvalue : b.value.isStale = false := by
    by_contra hne
    rw [Bool.not_eq_false] at hne
    rw [Arg.settled, hne, hspan] at hfresh
    simp at hfresh
  rw [Arg.settled_eq_self hvalue]
  obtain ⟨hshape, hreuses⟩ := h
  have hvalues := hreuses.same hvalue
  cases a; cases b
  simp_all [Arg.map]

/-- A parameter that kept its text through a step is the parameter before the step. -/
theorem Param.Rel.eq_of_settled {p q : Param Node} (h : Param.Rel Reuses p q)
    (hfresh : isStale q.settled.span q.settled.marks = false) : q.settled = p := by
  have hspan : q.span.isSome = true := by
    have := (isStale_eq_false.1 hfresh).1
    rwa [Param.span_settled] at this
  have hdefault : q.default.any (·.isStale) = false := by
    by_contra hne
    rw [Bool.not_eq_false] at hne
    rw [Param.settled, hne, hspan] at hfresh
    simp at hfresh
  have hsettled : q.settled = q := by rw [Param.settled, hdefault]; rfl
  rw [hsettled]
  obtain ⟨hshape, hdefaults⟩ := h
  have hsame : q.default = p.default := by
    revert hdefault hdefaults
    generalize p.default = d
    generalize q.default = e
    intro hfresh hrel
    cases hrel with
    | none => rfl
    | some hreuses => rw [hreuses.same hfresh]
  cases p; cases q
  simp_all [Param.map]

/-- Settling a layer whose children were reused reuses the node. -/
theorem Reuses.settle {n : Node} {g : Form Node} (h : Form.Rel Reuses n.form g) :
    Reuses n (Node.settle g n.span n.marks) := by
  obtain ⟨form, span, marks⟩ := n
  have hsame : (Node.settle g span marks).isStale = false →
      Node.settle g span marks = ⟨form, span, marks⟩ := by
    intro hfresh
    -- the node keeps its text only if its children do, and those are as they were
    obtain ⟨hsettle, hout⟩ := Node.settle_eq_self hfresh
    have hchildren := (Form.outdatesText_eq_false.1 hout).1
    have hrel : Form.Rel Eq form g :=
      ⟨h.shape, forall₂_imp_of_mem h.children fun c d hd hreuses =>
        (hreuses.same (hchildren d hd)).symm⟩
    obtain rfl := Form.eq_of_rel_eq hrel
    exact hsettle
  refine ⟨hsame, fun {tree} htraced => ?_⟩
  obtain ⟨-, hargs, hparams, -⟩ := h.parts
  refine Node.all_settle (fun c hc => ?_)
    ⟨fun hfresh => ?_, fun a ha hfresh => ?_, fun p hp hfresh => ?_⟩
  · obtain ⟨d, hd, hreuses⟩ := exists_left_of_forall₂ h.children hc
    exact hreuses.traced (htraced.child hd)
  · have heq := hsame hfresh
    rw [heq] at hfresh ⊢
    exact htraced.self.node hfresh
  · rw [Node.settle, Form.args_settled, List.mem_map] at ha
    obtain ⟨b, hb, rfl⟩ := ha
    obtain ⟨c, hc, hrel⟩ := exists_left_of_forall₂ hargs hb
    have heq := hrel.eq_of_settled hfresh
    rw [heq] at hfresh ⊢
    exact htraced.self.args c hc hfresh
  · rw [Node.settle, Form.params_settled, List.mem_map] at hp
    obtain ⟨q, hq, rfl⟩ := hp
    obtain ⟨r, hr, hrel⟩ := exists_left_of_forall₂ hparams hq
    have heq := hrel.eq_of_settled hfresh
    rw [heq] at hfresh ⊢
    exact htraced.self.params r hr hfresh

/-! ### Calls of rules -/

theorem Reuses.cleaned {n : Node} {form : Form Node} (h : TrailingComma.Cleaned n.form form) :
    Reuses n ⟨form, n.span, n.marks.outdated⟩ := by
  refine .of_stale (isStale_outdated _ _) fun {tree} htraced => Node.all_iff.2 ⟨?_, fun c hc => ?_⟩
  · refine .of_stale (isStale_outdated _ _) (fun a ha hfresh => ?_) (fun p hp hfresh => ?_)
    · obtain ⟨b, hb, hsame⟩ := exists_left_of_forall₂ h.args ha
      obtain ⟨c, hc, hsame'⟩ := htraced.self.args b hb (hsame.isStale_eq ▸ hfresh)
      exact ⟨c, hc, hsame'.trans hsame⟩
    · obtain ⟨q, hq, hsame⟩ := exists_left_of_forall₂ h.params hp
      obtain ⟨r, hr, hsame'⟩ := htraced.self.params q hq (hsame.isStale_eq ▸ hfresh)
      exact ⟨r, hr, hsame'.trans hsame⟩
  · exact htraced.child (h.children_eq ▸ hc)

theorem Traced.lowered {tree n object : Node} {plain : Node → Form Node}
    (h : Nullsafe.access? n.form = some (object, plain)) (hn : Traced tree n) (strict : Bool)
    (x : String) : Traced tree (Nullsafe.lowered strict (Node.var x) object plain) := by
  obtain ⟨-, hargs, hparams, -⟩ := Nullsafe.access?_eq_some h (Node.var x)
  refine Nullsafe.all_lowered (Node.layered_all _) h (fun c hc => hn.child hc) (Traced.var tree x)
    (.synthesized rfl rfl) (.synthesized rfl rfl) ?_ ?_ (.synthesized rfl rfl)
  · cases strict <;> exact .synthesized rfl rfl
  · exact .of_stale rfl (fun a ha => hn.self.args a (hargs ▸ ha))
      fun p hp => absurd (hparams ▸ hp) List.not_mem_nil

/-- Putting something into a place of a layer leaves the rest traced. -/
theorem Hoist.Refilled.tracedLayer {tree c x : Node} {form form' : Form Node} {span : Option Span}
    {marks : Marks} (h : Hoist.Refilled c x form form')
    (hn : TracedLayer tree ⟨form, span, marks⟩) :
    TracedLayer tree ⟨form', span, marks.outdated⟩ := by
  refine .of_stale (isStale_outdated _ _) (fun a ha hfresh => ?_) (fun p hp hfresh => ?_)
  · obtain ⟨b, hb, rfl | ⟨-, rfl⟩⟩ := exists_left_of_forall₂ h.args ha
    · exact hn.args a hb hfresh
    · exact absurd ((isStale_outdated b.span b.marks).symm.trans hfresh) (by decide)
  · exact hn.params p (h.params ▸ hp) hfresh

theorem Traced.hoisted {tree n : Node} {hole : Hoist.Hole Node}
    (h : Hoist.receiverInStatement? n = some hole) (hn : Traced tree n) (x : String) :
    Traced tree (Hoist.hoisted (Node.var x) hole) :=
  Hoist.all_of_receiverInStatement? (Node.layered_all _)
    (fun hrefilled hlayer => hrefilled.tracedLayer hlayer) h hn (Traced.var tree x)
    (.synthesized rfl rfl) (.synthesized rfl rfl) (.synthesized rfl rfl)

/-- A call of a rule of the catalog reuses the text of untouched nodes only. -/
theorem Reuses.invariant (cfg : Settings) (ctx : Context) : CatalogInvariant cfg ctx Reuses where
  refl := .refl
  trans := .trans
  settle := .settle
  cleaned hclean := .cleaned (.of_cleanForm? hclean)
  lowered haccess x := .of_stale rfl fun hn => hn.lowered haccess _ x
  hoisted hreceiver x := .of_stale rfl fun hn => hn.hoisted hreceiver x

/-- A visit with rules of the catalog reuses the text of untouched nodes only. -/
theorem Reuses.visit {cfg : Settings} {ctx : Context} {rules : List Rule}
    (hrules : rules ⊆ cfg.catalog) (revisits : Nat) (n : Node) (names : NameSupply) :
    Reuses n (Pass.visit rules ctx revisits n names).value :=
  (Reuses.invariant cfg ctx).visit hrules revisits n names

/-- Source text is never reused for a changed part of a tree. In the result of a run with any
selection of the rules of the catalog, a node with a span and valid text is a node of the given
tree, and an argument or parameter with a span and valid text is one of the given tree up to its
comma mark. -/
theorem run_copies_only_given_text (cfg : Settings) (s : Session) (hrules : s.rules ⊆ cfg.catalog)
    (file : FileId) (tree : Node) (tokens : List Token) :
    let out := (s.run file tree tokens).tree
    (∀ n ∈ out.preorder, n.span.isSome = true → n.marks.textValid = true → n ∈ tree.preorder) ∧
      (∀ a ∈ out.arguments, a.span.isSome = true → a.marks.textValid = true →
        ∃ b ∈ tree.arguments, ∃ suppressed,
          a = { b with marks := { b.marks with commaSuppressed := suppressed } }) ∧
      ∀ p ∈ out.parameters, p.span.isSome = true → p.marks.textValid = true →
        ∃ q ∈ tree.parameters, ∃ suppressed,
          p = { q with marks := { q.marks with commaSuppressed := suppressed } } := by
  intro out
  have htraced : Traced tree out := (Reuses.visit hrules _ _ _).traced (.refl tree)
  refine ⟨fun n hn hspan htext => ?_, fun a ha hspan htext => ?_, fun p hp hspan htext => ?_⟩
  · exact (htraced n hn).node (isStale_eq_false.2 ⟨hspan, htext⟩)
  · obtain ⟨n, hn, ha⟩ := List.mem_flatMap.1 ha
    exact (htraced n hn).args a ha (isStale_eq_false.2 ⟨hspan, htext⟩)
  · obtain ⟨n, hn, hp⟩ := List.mem_flatMap.1 hp
    exact (htraced n hn).params p hp (isStale_eq_false.2 ⟨hspan, htext⟩)

/-- Of `return (clone $this)->m($x,);` the hoisted `clone $this` is still copied as a whole, and
so is the argument, which has lost its comma. -/
theorem run_copies_only_given_text_of_hoisted_clone :
    let this : Node := ⟨.var "this", some ⟨14, 19⟩, {}⟩
    let x : Arg Node := { value := ⟨.var "x", some ⟨24, 26⟩, {}⟩, span := some ⟨24, 26⟩ }
    let clone : Node := ⟨.clone this, some ⟨8, 19⟩, {}⟩
    let tree : Node := ⟨.ret (some ⟨.methodCall clone "m" [x], some ⟨7, 28⟩, {}⟩), some ⟨0, 29⟩, {}⟩
    let cfg : Settings := {}
    let out := (({ rules := cfg.catalog } : Session).run "a.php" tree
      [.startingAt 26 .comma ",", .startingAt 27 .closeParen ")"]).tree
    cfg.catalog ⊆ cfg.catalog ∧
      (∃ n ∈ out.preorder, (n.span = some ⟨8, 19⟩ ∧ n.marks.textValid = true) ∧
        n ∈ tree.preorder) ∧
      ∃ a ∈ out.arguments, (a.span = some ⟨24, 26⟩ ∧ a.marks = ⟨true, true⟩) ∧
        ∃ b ∈ tree.arguments, ∃ suppressed,
          a = { b with marks := { b.marks with commaSuppressed := suppressed } } := by
  intro this x clone tree cfg out
  have hsub : cfg.catalog ⊆ cfg.catalog := List.Subset.refl _
  obtain ⟨hnodes, hargs, -⟩ :=
    run_copies_only_given_text cfg { rules := cfg.catalog } hsub "a.php" tree
      [.startingAt 26 .comma ",", .startingAt 27 .closeParen ")"]
  obtain ⟨n, hn, hspan, htext⟩ :
      ∃ n ∈ out.preorder, n.span = some ⟨8, 19⟩ ∧ n.marks.textValid = true := by decide +kernel
  obtain ⟨a, ha, hspan', hmarks⟩ :
      ∃ a ∈ out.arguments, a.span = some ⟨24, 26⟩ ∧ a.marks = ⟨true, true⟩ := by decide +kernel
  exact ⟨hsub, ⟨n, hn, ⟨hspan, htext⟩, hnodes n hn (by rw [hspan]; rfl) htext⟩,
    a, ha, ⟨hspan', hmarks⟩, hargs a ha (by rw [hspan']; rfl) (by rw [hmarks])⟩

end SyntaxLowering
