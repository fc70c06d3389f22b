import SyntaxLowering.Proofs.Depth
import SyntaxLowering.Proofs.TextReuse
import SyntaxLowering.Source.Printer

/-!
# Copied and regenerated text agree

A tree is canonically formatted in a source text if the text at each span is what the printer would
generate there, and no list ends in a comma (`Node.FormattedAt`). The printer that copies what it
can then prints the same as the one that regenerates everything, and this is so after every run.

`Printer.Canonical` is the invariant: what may still be copied agrees with what would be
regenerated at the same depth. A step keeps it because what keeps its text is unchanged (`Reuses`)
and on the level where it was.
-/

namespace SyntaxLowering

/-- The text of a node at some depth, all of it regenerated. -/
def Node.textAt (depth : Nat) (n : Node) : String :=
  ({} : Printer).render depth n

/-- The text of an argument at some depth, all of it regenerated. -/
def Arg.textAt (depth : Nat) (a : Arg Node) : String :=
  a.head ++ a.value.textAt depth

/-- The text of a parameter at some depth, all of it regenerated. -/
def Param.textAt (depth : Nat) (p : Param Node) : String :=
  match p.default with
  | none => p.head
  | some value => p.head ++ " = " ++ value.textAt depth

/-! ### Canonical formatting -/

/-- The text at a span. -/
def Span.textIn (source : String) (span : Span) : Option String :=
  (slice? source.toList span.start span.stop).map String.ofList

/-- The source has some text at a span, if there is a span. -/
def Formatted (source : String) (span : Option Span) (text : String) : Prop :=
  ∀ s ∈ span, s.textIn source = some text

instance {source : String} {span : Option Span} {text : String} :
    Decidable (Formatted source span text) :=
  inferInstanceAs (Decidable (∀ s ∈ span, s.textIn source = some text))

/-- The elements of a list stand in the source with their texts, and no comma follows the last. -/
structure FormattedList {ε : Type} [Listed ε] (source : String) (tokens : List Token)
    (text : ε → String) (es : List ε) : Prop where
  texts : ∀ e ∈ es, Formatted source (Listed.span e) (text e)
  comma : ∀ e ∈ es.getLast?, followedBySeparator (some tokens) (Listed.span e) = false

instance {ε : Type} [Listed ε] {source : String} {tokens : List Token} {text : ε → String}
    {es : List ε} : Decidable (FormattedList source tokens text es) :=
  decidable_of_iff (_ ∧ _) ⟨fun h => ⟨h.1, h.2⟩, fun h => ⟨h.texts, h.comma⟩⟩

/-- A node at some depth and the elements of its lists stand in the source as they would be
regenerated. -/
structure Node.FormattedAt (source : String) (tokens : List Token) (depth : Nat) (n : Node) :
    Prop where
  node : Formatted source n.span (n.textAt depth)
  args : FormattedList source tokens (Arg.textAt depth) n.form.args
  params : FormattedList source tokens (Param.textAt depth) n.form.params
  captures : FormattedList source tokens Capture.render n.form.captures

instance {source : String} {tokens : List Token} {depth : Nat} {n : Node} :
    Decidable (n.FormattedAt source tokens depth) :=
  decidable_of_iff (_ ∧ _ ∧ _ ∧ _)
    ⟨fun ⟨h, h', h'', h'''⟩ => ⟨h, h', h'', h'''⟩,
      fun h => ⟨h.node, h.args, h.params, h.captures⟩⟩

/-- An element keeps its span and, as long as it may be copied, is the same up to its comma
mark. -/
def Kept {ε : Type} [Listed ε] (e e' : ε) : Prop :=
  Listed.span e' = Listed.span e ∧
    (isStale (Listed.span e') (Listed.marks e') = false → SameButComma e e')

namespace Kept

variable {ε : Type} [Listed ε] [LawfulListed ε]

theorem refl (e : ε) : Kept e e :=
  ⟨rfl, fun _ => .refl e⟩

theorem of_same {e e' : ε} (h : SameButComma e e') : Kept e e' := by
  refine ⟨?_, fun _ => h⟩
  obtain ⟨suppressed, rfl⟩ := h
  exact LawfulListed.span_withMarks e _

end Kept

namespace Printer

variable {p : Printer} {depth : Nat} {n n' : Node}

/-! ### What may be copied agrees with what would be regenerated -/

theorem isStale_of_mem_verbatim? {span : Option Span} {marks : Marks} {text : String}
    (h : text ∈ p.verbatim? span marks) : isStale span marks = false := by
  obtain ⟨textValid, commaSuppressed⟩ := marks
  cases textValid <;> cases span <;> simp_all [verbatim?, isStale]

theorem eq_of_mem_verbatim? {source : String} {tokens : List Token} {span : Option Span}
    {marks : Marks} {text t : String} (h : Formatted source span text)
    (ht : t ∈ (withSource source tokens).verbatim? span marks) : t = text := by
  obtain ⟨hspan, hvalid⟩ := isStale_eq_false.1 (isStale_of_mem_verbatim? ht)
  obtain ⟨s, rfl⟩ := Option.isSome_iff_exists.1 hspan
  have hcopy : (withSource source tokens).verbatim? (some s) marks = s.textIn source := by
    unfold verbatim?
    rw [hvalid]
    rfl
  rw [hcopy, h s rfl] at ht
  exact (Option.some.inj ht).symm

/-- The copies of list elements agree with their texts, and no comma follows the last element. -/
structure Faithful {ε : Type} [Listed ε] (p : Printer) (text : ε → String) (es : List ε) :
    Prop where
  texts : ∀ e ∈ es, ∀ t ∈ p.verbatim? (Listed.span e) (Listed.marks e), t = text e
  comma : ∀ e ∈ es.getLast?, followedBySeparator p.tokens (Listed.span e) = false

namespace Faithful

variable {ε : Type} [Listed ε] {text : ε → String} {es es' : List ε}

theorem nil : p.Faithful text ([] : List ε) :=
  ⟨by simp, by simp⟩

theorem of_formattedList {source : String} {tokens : List Token}
    (h : FormattedList source tokens text es) : (withSource source tokens).Faithful text es :=
  ⟨fun e he _ ht => eq_of_mem_verbatim? (h.texts e he) ht, h.comma⟩

/-- The list is printed as if it were regenerated. -/
theorem commaList_eq (h : p.Faithful text es) {render : ε → String}
    (hrender : ∀ e ∈ es, render e = text e) :
    p.commaList es (es.map fun e => p.element e (render e)) =
      ({} : Printer).commaList es (es.map fun e => ({} : Printer).element e (text e)) := by
  have hcomma (q : Printer)
      (hq : ∀ e ∈ es.getLast?, followedBySeparator q.tokens (Listed.span e) = false) :
      q.keepsComma es = false := by
    unfold keepsComma
    split
    · next last hlast => rw [hq last hlast, Bool.and_false]
    · rfl
  have helement : ∀ e ∈ es, p.element e (render e) = ({} : Printer).element e (text e) := by
    intro e he
    have hplain : ({} : Printer).element e (text e) = text e := by
      unfold element verbatim?
      split <;> simp_all
    rw [hplain, element]
    cases hcopy : p.verbatim? (Listed.span e) (Listed.marks e) with
    | none => exact hrender e he
    | some t => exact h.texts e he t hcopy
  rw [commaList, commaList, List.map_congr_left helement, hcomma p h.comma,
    hcomma {} fun _ _ => rfl]

theorem of_kept [LawfulListed ε] (h : p.Faithful text es)
    (htext : ∀ e m, text (Listed.withMarks e m) = text e) (hkept : List.Forall₂ Kept es es') :
    p.Faithful text es' := by
  constructor
  · intro e' he' t ht
    obtain ⟨e, he, -, hsame⟩ := exists_left_of_forall₂ hkept he'
    obtain ⟨suppressed, rfl⟩ := hsame (isStale_of_mem_verbatim? ht)
    rw [LawfulListed.span_withMarks, LawfulListed.marks_withMarks] at ht
    rw [htext]
    exact h.texts e he t ht
  · intro e' he'
    have hspans := forall₂_map_eq hkept Listed.span fun hkept => hkept.1
    have hlast := congrArg List.getLast? hspans
    rw [List.getLast?_map, List.getLast?_map, Option.mem_def.1 he', Option.map_some] at hlast
    obtain ⟨e, he, hspan⟩ := Option.map_eq_some_iff.1 hlast.symm
    rw [← hspan]
    exact h.comma e he

end Faithful

/-- The copies of a node at some depth and of the elements of its lists agree with what would be
regenerated, and no comma follows the lists. -/
structure CanonicalLayer (p : Printer) (depth : Nat) (n : Node) : Prop where
  node : ∀ t ∈ p.verbatim? n.span n.marks, t = n.textAt depth
  args : p.Faithful (Arg.textAt depth) n.form.args
  params : p.Faithful (Param.textAt depth) n.form.params
  captures : p.Faithful Capture.render n.form.captures

/-- What may be copied in a tree at some depth agrees with what would be regenerated. -/
def Canonical (p : Printer) (depth : Nat) (n : Node) : Prop :=
  n.AllAt p.CanonicalLayer depth

theorem CanonicalLayer.of_formattedAt {source : String} {tokens : List Token}
    (h : n.FormattedAt source tokens depth) : (withSource source tokens).CanonicalLayer depth n :=
  ⟨fun _ ht => eq_of_mem_verbatim? h.node ht, .of_formattedList h.args, .of_formattedList h.params,
    .of_formattedList h.captures⟩

/-! ### The two printers agree on canonical trees -/

theorem renderArgs_eq (p : Printer) (depth : Nat) (as : List (Arg Node)) :
    p.renderArgs depth as = as.map fun a => p.element a (a.head ++ p.render depth a.value) := by
  induction as with
  | nil => rfl
  | cons a as ih => rw [renderArgs, ih]; rfl

theorem renderParams_eq (p : Printer) (depth : Nat) (ps : List (Param Node)) :
    p.renderParams depth ps = ps.map fun q => p.element q (match q.default with
      | none => q.head
      | some value => q.head ++ " = " ++ p.render depth value) := by
  induction ps with
  | nil => rfl
  | cons q ps ih =>
    obtain ⟨name, typeHint, _ | value, variadic, byRef, span, marks⟩ := q
    · rw [renderParams, ih]; rfl
    · rw [renderParams, ih]; rfl

theorem renderStatements_eq (p : Printer) (depth : Nat) (ns : List Node) :
    p.renderStatements depth ns = ns.map (p.render depth) := by
  induction ns with
  | nil => rfl
  | cons n ns ih => rw [renderStatements, ih]; rfl

/-- The regenerated text of a layer is made of its lists and of the texts of its children, each at
its depth. -/
theorem renderForm_congr {q : Printer} {form : Form Node}
    (hargs : p.commaList form.args (p.renderArgs depth form.args) =
      q.commaList form.args (q.renderArgs depth form.args))
    (hparams : p.commaList form.params (p.renderParams depth form.params) =
      q.commaList form.params (q.renderParams depth form.params))
    (hcaptures : p.captures form.captures = q.captures form.captures)
    (hchildren : ∀ d c, (d, c) ∈ form.places depth → p.render d c = q.render d c) :
    p.renderForm depth form = q.renderForm depth form := by
  have hheads : ∀ c ∈ form.heads, p.render depth c = q.render depth c :=
    fun c hc => hchildren depth c (Form.mem_places.2 (.inl ⟨rfl, by simp [Form.inline, hc]⟩))
  have hstatements : p.renderStatements (form.kind.bodyDepth depth) form.statements =
      q.renderStatements (form.kind.bodyDepth depth) form.statements := by
    rw [renderStatements_eq, renderStatements_eq]
    exact List.map_congr_left fun c hc => hchildren _ c (Form.mem_places.2 (.inr ⟨rfl, hc⟩))
  clear hchildren
  -- each kind is printed from the texts of its four runs
  cases form with
  | ret value => cases value <;> simp_all [renderForm, Form.heads]
  | _ => simp_all [renderForm, Form.heads, Form.args, Form.params, Form.captures, Form.statements,
      Form.kind, Kind.bodyDepth, Kind.opensBlock]

theorem mem_places_value {form : Form Node} {a : Arg Node} (ha : a ∈ form.args) :
    (depth, a.value) ∈ form.places depth := by
  simp only [Form.mem_places, Form.inline, List.mem_append, List.mem_map]
  exact .inl ⟨trivial, .inl (.inr ⟨a, ha, rfl⟩)⟩

theorem mem_places_default {form : Form Node} {r : Param Node} (hr : r ∈ form.params)
    {value : Node} (hvalue : r.default = some value) : (depth, value) ∈ form.places depth := by
  simp only [Form.mem_places, Form.inline, List.mem_append, List.mem_filterMap]
  exact .inl ⟨trivial, .inr ⟨r, hr, hvalue⟩⟩

/-- The regenerated text of a canonical layer is the same for both printers if that of its children
is, each at its depth. -/
theorem CanonicalLayer.renderForm_eq {form : Form Node} {span : Option Span} {marks : Marks}
    (h : p.CanonicalLayer depth ⟨form, span, marks⟩)
    (hchildren : ∀ d c, (d, c) ∈ form.places depth → p.render d c = c.textAt d) :
    p.renderForm depth form = ({} : Printer).renderForm depth form := by
  refine renderForm_congr ?_ ?_ ?_ hchildren
  · rw [renderArgs_eq, renderArgs_eq]
    refine h.args.commaList_eq fun a ha => congrArg (a.head ++ ·) ?_
    exact hchildren depth _ (mem_places_value ha)
  · rw [renderParams_eq, renderParams_eq]
    refine h.params.commaList_eq fun r hr => ?_
    cases hdefault : r.default with
    | none => simp only [Param.textAt, hdefault]
    | some value =>
      simp only [Param.textAt, hdefault, hchildren depth value (mem_places_default hr hdefault)]
  · rw [Printer.captures, Printer.captures, h.captures.commaList_eq fun _ _ => rfl]

/-- A canonical tree is printed as if all of it were regenerated. -/
theorem Canonical.render_eq (h : p.Canonical depth n) : p.render depth n = n.textAt depth := by
  induction n using Node.inductionOn generalizing depth with
  | step form span marks ih =>
    obtain ⟨hself, hbelow⟩ := Node.allAt_iff.1 h
    have hplain : (⟨form, span, marks⟩ : Node).textAt depth =
        ({} : Printer).renderForm depth form := by
      have hnone : ({} : Printer).verbatim? span marks = none := by
        unfold verbatim?
        split <;> simp_all
      rw [Node.textAt, render, hnone]
    rw [render]
    cases hcopy : p.verbatim? span marks with
    | some t => exact hself.node t hcopy
    | none =>
      rw [hplain]
      exact hself.renderForm_eq fun d c hc =>
        ih c (Form.mem_children_of_mem_places hc) (hbelow d c hc)

/-! ### Steps of a pass -/

namespace CanonicalLayer

/-- A node that is unchanged if it may still be copied stays canonical if its lists are kept. -/
theorem of_kept (h : p.CanonicalLayer depth n) (hsame : n'.isStale = false → n' = n)
    (hargs : List.Forall₂ Kept n.form.args n'.form.args)
    (hparams : List.Forall₂ Kept n.form.params n'.form.params)
    (hcaptures : List.Forall₂ Kept n.form.captures n'.form.captures) :
    p.CanonicalLayer depth n' := by
  refine ⟨fun t ht => ?_, h.args.of_kept (fun _ _ => rfl) hargs,
    h.params.of_kept (fun _ _ => rfl) hparams, h.captures.of_kept (fun _ _ => rfl) hcaptures⟩
  obtain rfl := hsame (isStale_of_mem_verbatim? ht)
  exact h.node t ht

/-- A new node is canonical if its arguments are faithful and it has no other lists. -/
theorem synthesized {form : Form Node} (hargs : p.Faithful (Arg.textAt depth) form.args)
    (hparams : form.params = []) (hcaptures : form.captures = []) :
    p.CanonicalLayer depth (Node.synthesized form) := by
  refine ⟨fun t ht => ?_, hargs, ?_, ?_⟩
  · exact absurd (isStale_of_mem_verbatim? ht) (by simp [isStale, Node.synthesized])
  · change p.Faithful _ form.params
    rw [hparams]
    exact .nil
  · change p.Faithful _ form.captures
    rw [hcaptures]
    exact .nil

theorem refilled {c x : Node} {form form' : Form Node} {span : Option Span} {marks : Marks}
    (h : p.CanonicalLayer depth ⟨form, span, marks⟩) (hr : Hoist.Refilled c x form form') :
    p.CanonicalLayer depth ⟨form', span, marks.outdated⟩ := by
  refine h.of_kept (fun hfresh => ?_) (hr.args.imp fun a b hab => ?_) ?_ ?_
  · exact absurd ((isStale_outdated span marks).symm.trans hfresh) (by decide)
  · rcases hab with rfl | ⟨-, rfl⟩
    · exact .refl b
    · refine ⟨rfl, fun hfresh => ?_⟩
      exact absurd ((isStale_outdated a.span a.marks).symm.trans hfresh) (by decide)
  · rw [hr.params]
    exact List.forall₂_same.2 fun q _ => .refl q
  · rw [hr.captures]
    exact List.forall₂_same.2 fun e _ => .refl e

end CanonicalLayer

/-- A step of a pass that reuses text of untouched nodes only, and after which it still agrees with
what would be regenerated. -/
structure Reprints (p : Printer) (n n' : Node) : Prop extends Reuses n n' where
  canonical : ∀ {depth : Nat}, p.Canonical depth n → p.Canonical depth n'

theorem Canonical.var (p : Printer) (depth : Nat) (x : String) : p.Canonical depth (Node.var x) :=
  (Node.layered_allAt _ depth _ rfl).2
    ⟨.synthesized .nil rfl rfl, fun _ hc => absurd hc List.not_mem_nil⟩

theorem Canonical.cleaned {form : Form Node} (h : TrailingComma.Cleaned n.form form)
    (hn : p.Canonical depth n) : p.Canonical depth ⟨form, n.span, n.marks.outdated⟩ := by
  obtain ⟨hself, hbelow⟩ := Node.allAt_iff.1 hn
  refine Node.allAt_iff.2 ⟨hself.of_kept (fun hfresh => ?_) (h.args.imp fun _ _ => .of_same)
    (h.params.imp fun _ _ => .of_same) (h.captures.imp fun _ _ => .of_same), ?_⟩
  · exact absurd ((isStale_outdated n.span n.marks).symm.trans hfresh) (by decide)
  · have hplaces : form.places depth = n.form.places depth := by
      rw [Form.places, Form.places, h.inline_eq, h.statements, h.kind]
    rw [hplaces]
    exact hbelow

theorem Canonical.lowered {object : Node} {plain : Node → Form Node}
    (h : Nullsafe.access? n.form = some (object, plain)) (hn : p.Canonical depth n) (strict : Bool)
    (x : String) : p.Canonical depth (Nullsafe.lowered strict (Node.var x) object plain) := by
  obtain ⟨form, span, marks⟩ := n
  obtain ⟨-, hargs, hparams, -⟩ := Nullsafe.access?_eq_some h (Node.var x)
  have hblock : form.kind.opensBlock = false := by
    cases Nullsafe.Access.of_access? h <;> rfl
  obtain ⟨hself, hparts⟩ := (Node.layered_allAt _ depth ⟨form, span, marks⟩ hblock).1 hn
  refine Nullsafe.all_lowered (Node.layered_allAt _ depth) h hparts (Canonical.var p depth x)
    (.synthesized .nil rfl rfl) (.synthesized .nil rfl rfl) ?_ ?_ (.synthesized .nil rfl rfl)
  · cases strict <;> exact .synthesized .nil rfl rfl
  · refine .synthesized (by rw [hargs]; exact hself.args) hparams ?_
    cases Nullsafe.Access.of_access? h <;> rfl

theorem Canonical.hoisted {hole : Hoist.Hole Node} (h : Hoist.receiverInStatement? n = some hole)
    (hn : p.Canonical depth n) (x : String) :
    p.Canonical depth (Hoist.hoisted (Node.var x) hole) :=
  Hoist.all_of_receiverInStatement? (Node.layered_allAt _ depth)
    (fun hrefilled hlayer => hlayer.refilled hrefilled) h hn (Canonical.var p depth x)
    (.synthesized .nil rfl rfl) (.synthesized .nil rfl rfl) (.synthesized .nil rfl rfl)

namespace Reprints

theorem refl (p : Printer) (n : Node) : p.Reprints n n :=
  ⟨.refl n, fun h => h⟩

theorem trans {k : Node} (h : p.Reprints n n') (h' : p.Reprints n' k) : p.Reprints n k :=
  ⟨h.toReuses.trans h'.toReuses, fun hn => h'.canonical (h.canonical hn)⟩

/-- Settling a layer keeps what is copied in agreement with what would be regenerated. -/
theorem settle {g : Form Node} (h : Form.Rel p.Reprints n.form g) :
    p.Reprints n (Node.settle g n.span n.marks) := by
  have hrel : Form.Rel Reuses n.form g := ⟨h.shape, h.children.imp fun _ _ h => h.toReuses⟩
  have hreuses := Reuses.settle hrel
  refine ⟨hreuses, fun {depth} hn => ?_⟩
  obtain ⟨hself, hbelow⟩ := Node.allAt_iff.1 hn
  obtain ⟨-, hargs, hparams, -⟩ := hrel.parts
  refine Node.allAt_settle (fun d c hc => ?_) (hself.of_kept hreuses.same ?_ ?_ ?_)
  · obtain ⟨b, hb, hbc⟩ := h.exists_mem_places hc
    exact hbc.canonical (hbelow d b hb)
  · rw [Node.settle, Form.args_settled, List.forall₂_map_right_iff]
    refine hargs.imp fun a b hab => ⟨?_, fun hfresh => ?_⟩
    · exact (Arg.span_settled b).trans (congrArg Arg.span hab.1).symm
    · rw [hab.eq_of_settled hfresh]
      exact .refl a
  · rw [Node.settle, Form.params_settled, List.forall₂_map_right_iff]
    refine hparams.imp fun q r hqr => ⟨?_, fun hfresh => ?_⟩
    · exact (Param.span_settled r).trans (congrArg Param.span hqr.1).symm
    · rw [hqr.eq_of_settled hfresh]
      exact .refl q
  · rw [Node.settle, Form.captures_settled, ← hrel.captures_eq]
    exact List.forall₂_same.2 fun e _ => .refl e

theorem invariant (p : Printer) (cfg : Settings) (ctx : Context) :
    CatalogInvariant cfg ctx p.Reprints where
  refl := .refl p
  trans := .trans
  settle := .settle
  cleaned hclean :=
    ⟨(Reuses.invariant cfg ctx).cleaned hclean, fun hn => hn.cleaned (.of_cleanForm? hclean)⟩
  lowered haccess x :=
    ⟨(Reuses.invariant cfg ctx).lowered haccess x, fun hn => hn.lowered haccess _ x⟩
  hoisted hreceiver x :=
    ⟨(Reuses.invariant cfg ctx).hoisted hreceiver x, fun hn => hn.hoisted hreceiver x⟩

theorem visit {cfg : Settings} {ctx : Context} {rules : List Rule} (hrules : rules ⊆ cfg.catalog)
    (revisits : Nat) (n : Node) (names : NameSupply) :
    p.Reprints n (Pass.visit rules ctx revisits n names).value :=
  (invariant p cfg ctx).visit hrules revisits n names

end Reprints

end Printer

/-- The printer that copies source text agrees with the one that regenerates everything. If every
node, argument, parameter and capture with a span stands in the source as it would be regenerated
at its depth, and no list of the tree ends in a comma, then the result of a run with any selection
of the rules of the catalog, in any session, is printed with the source as it is printed
without. -/
theorem print_run_eq_toSource (cfg : Settings) (s : Session) (hrules : s.rules ⊆ cfg.catalog)
    (file : FileId) (tree : Node) (source : String) (tokens : List Token)
    (htree : tree.AllAt (Node.FormattedAt source tokens) 0) :
    let out := (s.run file tree tokens).tree
    (Printer.withSource source tokens).print out = out.toSource := by
  intro out
  have hcanonical : (Printer.withSource source tokens).Canonical 0 tree :=
    htree.mono fun _ _ h => .of_formattedAt h
  have hout : (Printer.withSource source tokens).Canonical 0 out :=
    (Printer.Reprints.visit hrules _ _ _).canonical hcanonical
  exact hout.render_eq

/-- In a closure, a hoisted object and a lowered access: the two statements are regenerated on the
level of the body, and the closure among the arguments is still copied with its own body. -/
theorem print_run_eq_toSource_of_nested_closure :
    let source := "$f = function () \x7b\n    (new A())->m($b?->c, function ($x) \x7b\n" ++
      "        return $x;\n    \x7d);\n\x7d;"
    let tokens : List Token := [.startingAt 42 .comma ",", .startingAt 56 .closeParen ")",
      .startingAt 83 .closeBrace "\x7d", .startingAt 84 .closeParen ")",
      .startingAt 85 .semicolon ";"]
    let object : Node := ⟨.new ⟨.name "A", some ⟨28, 29⟩, {}⟩ [], some ⟨24, 31⟩, {}⟩
    let fetch : Node :=
      ⟨.nullsafePropertyFetch ⟨.var "b", some ⟨36, 38⟩, {}⟩ "c", some ⟨36, 42⟩, {}⟩
    let inner : Node := ⟨.closure [{ name := "x", span := some ⟨54, 56⟩ }] []
      [⟨.ret (some ⟨.var "x", some ⟨75, 77⟩, {}⟩), some ⟨68, 78⟩, {}⟩] false, some ⟨44, 84⟩, {}⟩
    let call : Node := ⟨.methodCall object "m" [{ value := fetch, span := some ⟨36, 42⟩ },
      { value := inner, span := some ⟨44, 84⟩ }], some ⟨23, 85⟩, {}⟩
    let outer : Node :=
      ⟨.closure [] [] [⟨.expression call, some ⟨23, 86⟩, {}⟩] false, some ⟨5, 88⟩, {}⟩
    let tree : Node := ⟨.program [⟨.expression
      ⟨.assign ⟨.var "f", some ⟨0, 2⟩, {}⟩ outer, some ⟨0, 88⟩, {}⟩, some ⟨0, 89⟩, {}⟩],
      some ⟨0, 89⟩, {}⟩
    let cfg : Settings := {}
    let out := (({ rules := cfg.catalog } : Session).run "a.php" tree tokens).tree
    cfg.catalog ⊆ cfg.catalog ∧ tree.AllAt (Node.FormattedAt source tokens) 0 ∧
      (∃ n ∈ out.preorder, n.span = some ⟨44, 84⟩ ∧ n.isStale = false) ∧
      (Printer.withSource source tokens).print out = out.toSource ∧
      out.toSource = "$f = function () \x7b\n    $object1 = new A();\n    $object1->m(" ++
        "($nullsafeVariable1 = $b) ? $nullsafeVariable1->c : null, function ($x) \x7b\n" ++
        "        return $x;\n    \x7d);\n\x7d;" := by
  intro source tokens object fetch inner call outer tree cfg out
  have hsub : cfg.catalog ⊆ cfg.catalog := List.Subset.refl _
  have htree : tree.AllAt (Node.FormattedAt source tokens) 0 := by decide +kernel
  exact ⟨hsub, htree, by decide +kernel,
    print_run_eq_toSource cfg { rules := cfg.catalog } hsub "a.php" tree source tokens htree,
    by decide +kernel⟩

end SyntaxLowering
