import SyntaxLowering.Proofs.DetachedRuns
import SyntaxLowering.Proofs.Erasure
import SyntaxLowering.Proofs.SessionHistories
import SyntaxLowering.Proofs.TidyLists

/-!
# What the rule for commas changes

With the rule for commas alone a run gives back the tree with its groups spliced, and with other
marks. `CommaOutcome` says of a node and of what became of it which marks those are: which elements
of its lists forbid a comma afterwards, and what may still be copied from the source.

Apart from the groups that are spliced, the nodes of a tree (`Node.survivors`) and those of the
result correspond one to one in preorder.
-/

namespace SyntaxLowering

variable {α β : Type}

/-- A tree with the statements of its groups in the place of the groups, wherever these stand in
statement lists. -/
def Node.flattened (n : Node) : Node :=
  n.fold fun layer span marks => ⟨layer.spliced, span, marks⟩

theorem Node.flattened_mk (form : Form Node) (span : Option Span) (marks : Marks) :
    Node.flattened ⟨form, span, marks⟩ = ⟨(form.map Node.flattened).spliced, span, marks⟩ :=
  Node.fold_mk _ form span marks

theorem splice_eq (statements : List Node) :
    splice statements =
      statements.flatMap fun n => if n.form.isGroup then n.form.statements else [n] := by
  induction statements with
  | nil => rfl
  | cons n rest ih => rw [splice_cons, ih, List.flatMap_cons]

namespace TrailingComma

variable {ctx : Context}

section Lists

variable {ε : Type} [Listed ε] [LawfulListed ε]

theorem map_clean?_getD (ctx : Context) (es : List ε) (f : ε → β)
    (hf : ∀ {e e' : ε}, SameButComma e e' → f e' = f e) :
    ((clean? ctx es).getD es).map f = es.map f :=
  forall₂_map_eq (clean?_getD ctx es).1 f hf

end Lists

theorem cleanBoth?_getD {ε ζ : Type} [Listed ε] [Listed ζ] (ctx : Context) (es : List ε)
    (zs : List ζ) :
    (cleanBoth? ctx es zs).getD (es, zs) = ((clean? ctx es).getD es, (clean? ctx zs).getD zs) := by
  unfold cleanBoth?
  split
  · next hes hzs => rw [hes, hzs]; rfl
  · rfl

/-- Cleaning a layer cleans each of its lists, except for the arguments of a nullsafe call. -/
theorem cleanForm?_getD (ctx : Context) (form : Form Node) :
    (cleanForm? ctx form).getD form =
      match form with
      | .functionCall function args => .functionCall function ((clean? ctx args).getD args)
      | .methodCall object method args => .methodCall object method ((clean? ctx args).getD args)
      | .staticCall scope method args => .staticCall scope method ((clean? ctx args).getD args)
      | .new scope args => .new scope ((clean? ctx args).getD args)
      | .closure params captures body isStatic =>
        .closure ((clean? ctx params).getD params) ((clean? ctx captures).getD captures) body
          isStatic
      | .functionDecl name params body =>
        .functionDecl name ((clean? ctx params).getD params) body
      | .methodDecl name modifiers params body =>
        .methodDecl name modifiers ((clean? ctx params).getD params) body
      | form => form := by
  cases form with
  | functionCall | methodCall | staticCall | new | functionDecl | methodDecl =>
    exact Option.getD_map ..
  | closure params captures body isStatic =>
    let rebuilt (lists : List (Param Node) × List Capture) : Form Node :=
      .closure lists.1 lists.2 body isStatic
    exact (Option.getD_map rebuilt (params, captures) _).trans
      (congrArg rebuilt (cleanBoth?_getD ctx params captures))
  | _ => rfl

theorem erase_cleanForm? (ctx : Context) (form : Form Node) :
    (((cleanForm? ctx form).getD form).map (·.erase .marks)).erase .marks =
      (form.map (·.erase .marks)).erase .marks := by
  have hargs (as : List (Arg Node)) :
      ((clean? ctx as).getD as).map (fun a => (a.map (·.erase .marks)).erase .marks) =
        as.map fun a => (a.map (·.erase .marks)).erase .marks :=
    map_clean?_getD ctx as _ fun h => by obtain ⟨_, rfl⟩ := h; rfl
  have hparams (ps : List (Param Node)) :
      ((clean? ctx ps).getD ps).map (fun p => (p.map (·.erase .marks)).erase .marks) =
        ps.map fun p => (p.map (·.erase .marks)).erase .marks :=
    map_clean?_getD ctx ps _ fun h => by obtain ⟨_, rfl⟩ := h; rfl
  have hcaptures (cs : List Capture) :
      ((clean? ctx cs).getD cs).map (·.erase .marks) = cs.map (·.erase .marks) :=
    map_clean?_getD ctx cs _ fun h => by obtain ⟨_, rfl⟩ := h; rfl
  rw [cleanForm?_getD]
  cases form <;>
    simp [Form.erase, Form.rebuild, Form.map, Function.comp_def, hargs, hparams, hcaptures]

theorem form_cleaned (ctx : Context) (n : Node) :
    (cleaned ctx n).form = (cleanForm? ctx n.form).getD n.form := by
  unfold cleaned
  split
  · next hclean => rw [hclean]; rfl
  · next form hclean => rw [hclean]; rfl

theorem span_cleaned (ctx : Context) (n : Node) : (cleaned ctx n).span = n.span := by
  unfold cleaned
  split <;> rfl

/-- A cleaned node is the same up to the comma marks of the elements of its lists. -/
theorem Cleaned.cleaned (ctx : Context) (n : Node) : Cleaned n.form (cleaned ctx n).form := by
  rw [form_cleaned]
  cases hclean : cleanForm? ctx n.form with
  | none => exact ⟨rfl, List.forall₂_same.2 fun e _ => .refl e,
      List.forall₂_same.2 fun e _ => .refl e, List.forall₂_same.2 fun e _ => .refl e, rfl, rfl, rfl⟩
  | some form => exact .of_cleanForm? hclean

end TrailingComma

/-- What becomes of a node of a tree in which only the rule for commas is called. -/
def Node.withCleanLists (ctx : Context) (n : Node) : Node :=
  n.settleWith (TrailingComma.cleaned ctx)

namespace Node

variable {ctx : Context}

theorem withCleanLists_mk (ctx : Context) (form : Form Node) (span : Option Span) (marks : Marks) :
    withCleanLists ctx ⟨form, span, marks⟩ =
      TrailingComma.cleaned ctx (settle (form.map (withCleanLists ctx)) span marks) :=
  settleWith_mk _ form span marks

theorem erase_withCleanLists (ctx : Context) (n : Node) :
    (n.withCleanLists ctx).erase .marks = n.flattened.erase .marks := by
  induction n using Node.inductionOn with
  | step form span marks ih =>
    rw [withCleanLists_mk, flattened_mk]
    generalize hm : settle (form.map (withCleanLists ctx)) span marks = m
    have hform : ((TrailingComma.cleaned ctx m).form.map (·.erase .marks)).erase .marks =
        (form.map fun c => c.flattened.erase .marks).spliced.erase .marks := by
      rw [TrailingComma.form_cleaned, TrailingComma.erase_cleanForm?, ← hm]
      show ((Form.settled _).map (·.erase .marks)).erase .marks = _
      rw [Form.erase_settled Erasure.forgetsValidity_marks, Form.map_map, Form.map_congr ih]
    have hspan : (TrailingComma.cleaned ctx m).span = span := by
      rw [TrailingComma.span_cleaned, ← hm]
      rfl
    rw [erase_mk, Form.map_erase_spliced, Form.map_map, ← hform, ← hspan]
    exact erase_eq _ _

/-! ### The nodes that are left -/

/-- The nodes of a tree in preorder, without the groups that stand in statement lists. -/
def survivors (n : Node) : List Node :=
  (n.fold fun layer span marks =>
    let node : Node := ⟨layer.map (·.1), span, marks⟩
    (node, node :: (layer.inline.flatMap (·.2) ++
      layer.statements.flatMap fun c => if c.1.form.isGroup then c.2.tail else c.2)) :
    Node × List Node).2

theorem survivors_mk (form : Form Node) (span : Option Span) (marks : Marks) :
    survivors ⟨form, span, marks⟩ = ⟨form, span, marks⟩ :: (form.inline.flatMap survivors ++
      form.statements.flatMap fun c =>
        if c.form.isGroup then c.survivors.tail else c.survivors) := by
  simp only [survivors, fold_mk, Form.map_map, Form.inline_map, Form.statements_map,
    List.flatMap_map]
  rw [Form.map_congr fun c _ => fold_rebuilt _ c, Form.map_id]
  simp only [fold_rebuilt]
  rfl

theorem preorder_eq (n : Node) : n.preorder = n :: n.form.children.flatMap preorder := by
  obtain ⟨form, span, marks⟩ := n
  exact preorder_mk form span marks

theorem isGroup_withCleanLists (ctx : Context) (n : Node) :
    (n.withCleanLists ctx).form.isGroup = n.form.isGroup := by
  obtain ⟨form, span, marks⟩ := n
  rw [withCleanLists_mk, Form.isGroup_eq, (TrailingComma.Cleaned.cleaned ctx _).kind]
  show ((Form.settled _).kind == _) = _
  rw [Form.kind_settled, Form.kind_map, Form.isGroup_eq]

theorem children_withCleanLists (ctx : Context) (form : Form Node) (span : Option Span)
    (marks : Marks) :
    (withCleanLists ctx ⟨form, span, marks⟩).form.children =
      form.inline.map (withCleanLists ctx) ++
        splice (form.statements.map (withCleanLists ctx)) := by
  rw [withCleanLists_mk, (TrailingComma.Cleaned.cleaned ctx _).children_eq]
  show (Form.settled _).children = _
  rw [Form.children_settled, Form.inline_map, Form.statements_map]

/-- The result consists of what became of the nodes that are left, in their order. -/
theorem preorder_withCleanLists (ctx : Context) (n : Node) :
    (n.withCleanLists ctx).preorder = n.survivors.map (withCleanLists ctx) := by
  induction n using Node.inductionOn with
  | step form span marks ih =>
    have hinline : (form.inline.map (withCleanLists ctx)).flatMap preorder =
        form.inline.flatMap fun c => c.survivors.map (withCleanLists ctx) := by
      rw [List.flatMap_map]
      exact List.flatMap_congr fun c hc => ih c (Form.mem_children_of_mem_inline hc)
    -- of a group only the statements are left
    have hstatement (c : Node) (hc : c ∈ form.statements) :
        (if (c.withCleanLists ctx).form.isGroup then (c.withCleanLists ctx).form.statements
          else [c.withCleanLists ctx]).flatMap preorder =
          (if c.form.isGroup then c.survivors.tail else c.survivors).map (withCleanLists ctx) := by
      have ih := ih c (Form.mem_children.2 (.inr (.inr (.inr hc))))
      have hgroup := isGroup_withCleanLists ctx c
      by_cases h : c.form.isGroup = true
      · rw [hgroup, if_pos h, if_pos h, List.map_tail, ← ih, preorder_eq, List.tail_cons,
          Form.children_of_isGroup (hgroup.trans h)]
      · rw [hgroup, if_neg h, if_neg h, ← ih, List.flatMap_singleton]
    have hstatements : (splice (form.statements.map (withCleanLists ctx))).flatMap preorder =
        (form.statements.flatMap fun c =>
          if c.form.isGroup then c.survivors.tail else c.survivors).map (withCleanLists ctx) := by
      rw [List.map_flatMap, ← List.flatMap_congr hstatement, splice_eq, List.flatMap_map,
        List.flatMap_assoc]
    rw [preorder_eq, children_withCleanLists, List.flatMap_append, survivors_mk, List.map_cons,
      List.map_append, List.map_flatMap, hinline, hstatements]

end Node

/-! ### The elements of lists -/

section Lists

variable {ε : Type} [Listed ε]

/-- What the rule makes of the marks of a list, element by element. In a list that it claims, the
last element forbids a comma afterwards if one follows it. Some elements lose their text. -/
structure ListOutcome (tokens : Option (List Token)) (isClaimed : Prop) (losesText : ε → Prop)
    (es es' : List ε) : Prop where
  length : es'.length = es.length
  comma : ∀ (i : Nat) (e e' : ε), es[i]? = some e → es'[i]? = some e' →
    ((Listed.marks e').commaSuppressed = true ↔
      (Listed.marks e).commaSuppressed = true ∨
        isClaimed ∧ i + 1 = es.length ∧ followedBySeparator tokens (Listed.span e) = true)
  text : ∀ (i : Nat) (e e' : ε), es[i]? = some e → es'[i]? = some e' →
    ((Listed.marks e').textValid = true ↔ (Listed.marks e).textValid = true ∧ ¬losesText e')

/-- Whether an element of a list forbids a comma that did not before. -/
def gainsMark (es es' : List ε) : Bool :=
  (es.zip es').any fun p =>
    !(Listed.marks p.1).commaSuppressed && (Listed.marks p.2).commaSuppressed

theorem gainsMark_eq_false_iff {es es' : List ε} :
    gainsMark es es' = false ↔ ∀ (i : Nat) (e e' : ε), es[i]? = some e → es'[i]? = some e' →
      (Listed.marks e').commaSuppressed = true → (Listed.marks e).commaSuppressed = true := by
  simp only [gainsMark, List.any_eq_false, List.mem_iff_getElem?, List.getElem?_zip_eq_some]
  constructor
  · intro h i e e' he he' hmark
    have := h (e, e') ⟨i, he, he'⟩
    simpa [hmark] using this
  · rintro h ⟨e, e'⟩ ⟨i, he, he'⟩
    have := h i e e' he he'
    revert this
    cases (Listed.marks e).commaSuppressed <;> cases (Listed.marks e').commaSuppressed <;> simp

/-- Nothing is gained exactly if the rule does not claim the list, or the list ended as it
should. -/
theorem ListOutcome.gainsMark_eq_false_iff {tokens : Option (List Token)} {isClaimed : Prop}
    {losesText : ε → Prop} {es es' : List ε} (h : ListOutcome tokens isClaimed losesText es es') :
    gainsMark es es' = false ↔ (isClaimed → TidyEnd tokens es) := by
  rw [SyntaxLowering.gainsMark_eq_false_iff]
  constructor
  · intro hold hclaimed e he
    have he : es[es.length - 1]? = some e := by rwa [← List.getLast?_eq_getElem?]
    have hpos : es.length - 1 < es.length := (List.getElem?_eq_some_iff.1 he).1
    obtain ⟨e', he'⟩ : ∃ e', es'[es.length - 1]? = some e' :=
      ⟨_, List.getElem?_eq_getElem (h.length.symm ▸ hpos)⟩
    by_cases hfollowed : followedBySeparator tokens (Listed.span e) = true
    · have hmark := (h.comma _ e e' he he').2 (.inr ⟨hclaimed, by omega, hfollowed⟩)
      exact .inl (hold _ e e' he he' hmark)
    · exact .inr (Bool.eq_false_iff.2 hfollowed)
  · intro hends i e e' he he' hmark
    rcases (h.comma i e e' he he').1 hmark with hold | ⟨hclaimed, hlast, hfollowed⟩
    · exact hold
    · have he : e ∈ es.getLast? := by
        rw [Option.mem_def, List.getLast?_eq_getElem?, ← he]
        congr 1
        omega
      rcases hends hclaimed e he with hold | hnot
      · exact hold
      · exact absurd (hfollowed.symm.trans hnot) (by decide)

variable [LawfulListed ε]

theorem TrailingComma.getElem?_clean?_getD (ctx : Context) (es : List ε) (i : Nat) :
    ((clean? ctx es).getD es)[i]? = es[i]?.map fun e =>
      if i + 1 = es.length ∧ followedBySeparator ctx.tokens (Listed.span e) = true then
        Listed.withMarks e (Listed.marks e).suppressComma
      else e := by
  fun_induction clean? ctx es generalizing i with
  | case1 => rfl
  | case2 e hdue =>
    simp only [isDue, Context.followedBySeparator, Bool.and_eq_true] at hdue
    cases i with
    | zero => simp [hdue.2]
    | succ i => rfl
  | case3 e hdue =>
    cases i with
    | zero =>
      by_cases hfollowed : followedBySeparator ctx.tokens (Listed.span e) = true
      · -- the mark is there already
        have hmark : (Listed.marks e).suppressComma = Listed.marks e := by
          have : (Listed.marks e).commaSuppressed = true := by
            simpa [isDue, Context.followedBySeparator, hfollowed] using hdue
          rw [Marks.suppressComma, ← this]
        simp [hmark, LawfulListed.withMarks_marks]
      · simp [hfollowed]
    | succ i => rfl
  | case4 e rest hrest ih =>
    have hcons : ((clean? ctx rest).map (e :: ·)).getD (e :: rest) =
        e :: (clean? ctx rest).getD rest := Option.getD_map ..
    rw [hcons]
    cases i with
    | zero =>
      have hne : rest ≠ [] := hrest
      simp [hne]
    | succ i => simpa using ih i

/-- Settling and cleaning a list has the outcome that the rule is meant to have. -/
theorem ListOutcome.of_cleaned {ctx : Context} {es : List ε} {g : ε → ε} {isClaimed : Prop}
    [Decidable isClaimed] {losesText : ε → Prop}
    (hspan : ∀ e, Listed.span (g e) = Listed.span e)
    (hcomma : ∀ e, (Listed.marks (g e)).commaSuppressed = (Listed.marks e).commaSuppressed)
    (htext : ∀ e, (Listed.marks (g e)).textValid = true ↔
      (Listed.marks e).textValid = true ∧ ¬losesText (g e))
    (hloses : ∀ e m, losesText (Listed.withMarks e m) ↔ losesText e) :
    ListOutcome ctx.tokens isClaimed losesText es
      (if isClaimed then (TrailingComma.clean? ctx (es.map g)).getD (es.map g)
        else es.map g) := by
  have hget (i : Nat) : (if isClaimed then
      (TrailingComma.clean? ctx (es.map g)).getD (es.map g) else es.map g)[i]? =
      es[i]?.map fun e =>
        if isClaimed ∧ i + 1 = es.length ∧
            followedBySeparator ctx.tokens (Listed.span e) = true then
          Listed.withMarks (g e) (Listed.marks (g e)).suppressComma
        else g e := by
    by_cases hclaimed : isClaimed
    · simp [hclaimed, TrailingComma.getElem?_clean?_getD, hspan, Function.comp_def]
    · simp [hclaimed]
  refine ⟨?_, fun i e e' he he' => ?_, fun i e e' he he' => ?_⟩
  · split_ifs
    · rw [(TrailingComma.clean?_getD ctx (es.map g)).1.length_eq.symm, List.length_map]
    · exact List.length_map _
  · rw [hget, he, Option.map_some, Option.some.injEq] at he'
    rw [← he']
    split_ifs with hdue
    · rw [LawfulListed.marks_withMarks]
      exact iff_of_true rfl (.inr hdue)
    · rw [hcomma]
      exact (or_iff_left hdue).symm
  · rw [hget, he, Option.map_some, Option.some.injEq] at he'
    rw [← he']
    split_ifs with hdue
    · rw [LawfulListed.marks_withMarks, hloses]
      exact htext e
    · exact htext e

end Lists

/-! ### One node -/

namespace TrailingComma

variable (ctx : Context) (n : Node)

theorem args_cleaned : (cleaned ctx n).form.args =
    if n.kind ∈ [.functionCall, .methodCall, .staticCall, .new] then
      (clean? ctx n.form.args).getD n.form.args
    else n.form.args := by
  obtain ⟨form, span, marks⟩ := n
  rw [form_cleaned, cleanForm?_getD]
  cases form <;> simp [Node.kind, Form.kind, Form.args]

theorem params_cleaned : (cleaned ctx n).form.params =
    if n.kind ∈ [.functionDecl, .methodDecl, .closure] then
      (clean? ctx n.form.params).getD n.form.params
    else n.form.params := by
  obtain ⟨form, span, marks⟩ := n
  rw [form_cleaned, cleanForm?_getD]
  cases form <;> simp [Node.kind, Form.kind, Form.params]

theorem captures_cleaned : (cleaned ctx n).form.captures =
    if n.kind = .closure then (clean? ctx n.form.captures).getD n.form.captures
    else n.form.captures := by
  obtain ⟨form, span, marks⟩ := n
  rw [form_cleaned, cleanForm?_getD]
  cases form <;> simp [Node.kind, Form.kind, Form.captures]

variable {ctx n}

theorem cleanForm?_eq_none_iff_of_kinds :
    cleanForm? ctx n.form = none ↔
      (n.kind ∈ [.functionCall, .methodCall, .staticCall, .new] →
        TidyEnd ctx.tokens n.form.args) ∧
      (n.kind ∈ [.functionDecl, .methodDecl, .closure] → TidyEnd ctx.tokens n.form.params) ∧
      (n.kind = .closure → TidyEnd ctx.tokens n.form.captures) := by
  simp only [← clean?_eq_none_iff, cleanForm?_eq_none_iff]
  obtain ⟨form, span, marks⟩ := n
  cases form <;> simp [rule, Node.kind, Form.kind, Form.args, Form.params, Form.captures, clean?]

end TrailingComma

/-- Whatever stands in a node may still be copied. -/
structure FreshBelow (n : Node) : Prop where
  children : ∀ c ∈ n.form.children, c.isStale = false
  args : ∀ a ∈ n.form.args, isStale a.span a.marks = false
  params : ∀ p ∈ n.form.params, isStale p.span p.marks = false

/-- Whether an element of one of the lists of a node forbids a comma that did not before. -/
def Node.gainsMark (n m : Node) : Bool :=
  SyntaxLowering.gainsMark n.form.args m.form.args ||
    SyntaxLowering.gainsMark n.form.params m.form.params ||
    SyntaxLowering.gainsMark n.form.captures m.form.captures

/-- What the rule for commas makes of a node. -/
structure CommaOutcome (tokens : Option (List Token)) (n m : Node) : Prop where
  same : m.erase .marks = n.flattened.erase .marks
  comma : m.marks.commaSuppressed = n.marks.commaSuppressed
  text : m.marks.textValid = true ↔ n.marks.textValid = true ∧ n.gainsMark m = false ∧
    (n.span = none ∨ FreshBelow m ∧ ∀ c ∈ n.form.statements, c.form.isGroup = false)
  args : ListOutcome tokens (n.kind ∈ [.functionCall, .methodCall, .staticCall, .new])
    (fun a => a.value.isStale = true ∧ a.span.isSome = true) n.form.args m.form.args
  params : ListOutcome tokens (n.kind ∈ [.functionDecl, .methodDecl, .closure])
    (fun p => (∃ d ∈ p.default, d.isStale = true) ∧ p.span.isSome = true) n.form.params
    m.form.params
  captures : ListOutcome tokens (n.kind = .closure) (fun _ => False) n.form.captures m.form.captures

theorem Marks.textValid_ite_outdated (b : Bool) (m : Marks) :
    (if b then m.outdated else m).textValid = true ↔ m.textValid = true ∧ b = false := by
  cases b <;> simp [Marks.outdated]

theorem Marks.commaSuppressed_ite_outdated (b : Bool) (m : Marks) :
    (if b then m.outdated else m).commaSuppressed = m.commaSuppressed := by
  cases b <;> rfl

theorem Arg.marks_settled (a : Arg Node) : a.settled.marks =
    if a.value.isStale && a.span.isSome then a.marks.outdated else a.marks := by
  unfold Arg.settled
  split <;> rfl

theorem Param.marks_settled (p : Param Node) : p.settled.marks =
    if p.default.any (·.isStale) && p.span.isSome then p.marks.outdated else p.marks := by
  unfold Param.settled
  split <;> rfl

theorem Arg.commaSuppressed_settled (a : Arg Node) :
    a.settled.marks.commaSuppressed = a.marks.commaSuppressed := by
  rw [Arg.marks_settled, Marks.commaSuppressed_ite_outdated]

theorem Param.commaSuppressed_settled (p : Param Node) :
    p.settled.marks.commaSuppressed = p.marks.commaSuppressed := by
  rw [Param.marks_settled, Marks.commaSuppressed_ite_outdated]

theorem tidyEnd_map_iff {ε : Type} [Listed ε] {tokens : Option (List Token)} {g : ε → ε}
    (hspan : ∀ e, Listed.span (g e) = Listed.span e)
    (hcomma : ∀ e, (Listed.marks (g e)).commaSuppressed = (Listed.marks e).commaSuppressed)
    (es : List ε) : TidyEnd tokens (es.map g) ↔ TidyEnd tokens es := by
  simp [TidyEnd, List.getLast?_map, hspan, hcomma]

namespace Node

variable (ctx : Context) (form : Form Node) (span : Option Span) (marks : Marks)

theorem args_withCleanLists :
    ListOutcome ctx.tokens (form.kind ∈ [.functionCall, .methodCall, .staticCall, .new])
      (fun a => a.value.isStale = true ∧ a.span.isSome = true) form.args
      (withCleanLists ctx ⟨form, span, marks⟩).form.args := by
  have hargs : (form.map (withCleanLists ctx)).settled.args =
      form.args.map fun a => (a.map (withCleanLists ctx)).settled := by
    simp [Function.comp_def]
  rw [withCleanLists_mk, TrailingComma.args_cleaned]
  simp only [settle, kind, Form.kind_settled, Form.kind_map, hargs]
  refine .of_cleaned (fun a => Arg.span_settled _) (fun a => Arg.commaSuppressed_settled (a.map _))
    (fun a => ?_) (fun _ _ => Iff.rfl)
  show (Arg.settled _).marks.textValid = true ↔ a.marks.textValid = true ∧ _
  rw [Arg.marks_settled, Marks.textValid_ite_outdated, Arg.span_settled, Arg.value_settled,
    ← Bool.not_eq_true, Bool.and_eq_true]
  rfl

theorem params_withCleanLists :
    ListOutcome ctx.tokens (form.kind ∈ [.functionDecl, .methodDecl, .closure])
      (fun p => (∃ d ∈ p.default, d.isStale = true) ∧ p.span.isSome = true) form.params
      (withCleanLists ctx ⟨form, span, marks⟩).form.params := by
  have hparams : (form.map (withCleanLists ctx)).settled.params =
      form.params.map fun p => (p.map (withCleanLists ctx)).settled := by
    simp [Function.comp_def]
  rw [withCleanLists_mk, TrailingComma.params_cleaned]
  simp only [settle, kind, Form.kind_settled, Form.kind_map, hparams]
  refine .of_cleaned (fun p => Param.span_settled _)
    (fun p => Param.commaSuppressed_settled (p.map _)) (fun p => ?_) (fun _ _ => Iff.rfl)
  show (Param.settled _).marks.textValid = true ↔ p.marks.textValid = true ∧ _
  rw [Param.marks_settled, Marks.textValid_ite_outdated, Param.span_settled,
    Param.default_settled, ← Bool.not_eq_true, Bool.and_eq_true, Option.any_eq_true]
  rfl

theorem captures_withCleanLists :
    ListOutcome ctx.tokens (form.kind = .closure) (fun _ => False) form.captures
      (withCleanLists ctx ⟨form, span, marks⟩).form.captures := by
  rw [withCleanLists_mk, TrailingComma.captures_cleaned]
  simp only [settle, kind, Form.kind_settled, Form.kind_map, Form.captures_settled,
    Form.captures_map]
  have hcaptures : ListOutcome ctx.tokens (form.kind = .closure) (fun _ => False) form.captures
      (if form.kind = .closure then
        (TrailingComma.clean? ctx (form.captures.map id)).getD (form.captures.map id)
      else form.captures.map id) :=
    .of_cleaned (fun _ => rfl) (fun _ => rfl) (fun _ => by simp) (fun _ _ => Iff.rfl)
  rwa [List.map_id] at hcaptures

/-- The rule has something to do on a node exactly if an element of its lists gains a mark. -/
theorem gainsMark_withCleanLists :
    gainsMark ⟨form, span, marks⟩ (withCleanLists ctx ⟨form, span, marks⟩) = false ↔
      TrailingComma.cleanForm? ctx (settle (form.map (withCleanLists ctx)) span marks).form =
        none := by
  have hargs : TidyEnd ctx.tokens (form.map (withCleanLists ctx)).settled.args ↔
      TidyEnd ctx.tokens form.args := by
    rw [Form.args_settled, Form.args_map, List.map_map]
    exact tidyEnd_map_iff (fun a => Arg.span_settled _)
      (fun a => Arg.commaSuppressed_settled (a.map _)) _
  have hparams : TidyEnd ctx.tokens (form.map (withCleanLists ctx)).settled.params ↔
      TidyEnd ctx.tokens form.params := by
    rw [Form.params_settled, Form.params_map, List.map_map]
    exact tidyEnd_map_iff (fun p => Param.span_settled _)
      (fun p => Param.commaSuppressed_settled (p.map _)) _
  rw [TrailingComma.cleanForm?_eq_none_iff_of_kinds]
  simp only [gainsMark, Bool.or_eq_false_iff, and_assoc, settle, kind, Form.kind_settled,
    Form.kind_map, Form.captures_settled, Form.captures_map, hargs, hparams,
    (args_withCleanLists ctx form span marks).gainsMark_eq_false_iff,
    (params_withCleanLists ctx form span marks).gainsMark_eq_false_iff,
    (captures_withCleanLists ctx form span marks).gainsMark_eq_false_iff]

/-- A layer gives its node no reason to lose its text exactly if all that is in the result may be
copied and no group was spliced. -/
theorem outdatesText_withCleanLists :
    (form.map (withCleanLists ctx)).outdatesText = false ↔
      FreshBelow (withCleanLists ctx ⟨form, span, marks⟩) ∧
        ∀ c ∈ form.statements, c.form.isGroup = false := by
  have hcleaned : TrailingComma.Cleaned (form.map (withCleanLists ctx)).settled
      (withCleanLists ctx ⟨form, span, marks⟩).form := by
    rw [withCleanLists_mk]
    exact .cleaned ctx (settle (form.map (withCleanLists ctx)) span marks)
  have hgroups : (∀ c ∈ (form.map (withCleanLists ctx)).statements, c.form.isGroup = false) ↔
      ∀ c ∈ form.statements, c.form.isGroup = false := by
    simp [isGroup_withCleanLists]
  generalize withCleanLists ctx ⟨form, span, marks⟩ = m at hcleaned ⊢
  generalize form.map (withCleanLists ctx) = g at hcleaned hgroups ⊢
  rw [← hgroups]
  constructor
  · intro h
    have hsettled := Form.settled_of_fresh h
    obtain ⟨hchildren, hargs, hparams, hflat⟩ := Form.outdatesText_eq_false.1 h
    rw [hsettled] at hcleaned
    refine ⟨⟨hcleaned.children_eq ▸ hchildren, fun b hb => ?_, fun q hq => ?_⟩, hflat⟩
    · obtain ⟨a, ha, hsame⟩ := exists_left_of_forall₂ hcleaned.args hb
      exact hsame.isStale_eq.trans (hargs a ha)
    · obtain ⟨p, hp, hsame⟩ := exists_left_of_forall₂ hcleaned.params hq
      exact hsame.isStale_eq.trans (hparams p hp)
  · rintro ⟨hfresh, hflat⟩
    have hchildren : ∀ c ∈ g.children, c.isStale = false := by
      have heq : m.form.children = g.children := by
        rw [hcleaned.children_eq, Form.children_settled, splice_eq_self hflat, Form.children_eq]
      exact heq ▸ hfresh.children
    -- over fresh children the elements of the lists are settled as they are
    refine Form.outdatesText_eq_false.2 ⟨hchildren, fun a ha => ?_, fun p hp => ?_, hflat⟩
    · have hsettled : a.settled = a :=
        Arg.settled_eq_self (hchildren _ (Form.mem_children.2 (.inr (.inl ⟨a, ha, rfl⟩))))
      have hmem : a ∈ g.settled.args := by
        rw [Form.args_settled, ← hsettled]
        exact List.mem_map_of_mem ha
      obtain ⟨b, hb, hsame⟩ := exists_left_of_forall₂ hcleaned.args.flip hmem
      exact (SameButComma.isStale_eq hsame).symm.trans (hfresh.args b hb)
    · have hsettled : p.settled = p := Param.settled_eq_self fun d hd =>
        hchildren d (Form.mem_children.2 (.inr (.inr (.inl ⟨p, hp, hd⟩))))
      have hmem : p ∈ g.settled.params := by
        rw [Form.params_settled, ← hsettled]
        exact List.mem_map_of_mem hp
      obtain ⟨q, hq, hsame⟩ := exists_left_of_forall₂ hcleaned.params.flip hmem
      exact (SameButComma.isStale_eq hsame).symm.trans (hfresh.params q hq)

end Node

namespace TrailingComma

theorem commaSuppressed_cleaned (ctx : Context) (n : Node) :
    (cleaned ctx n).marks.commaSuppressed = n.marks.commaSuppressed := by
  unfold cleaned
  split <;> rfl

theorem textValid_cleaned (ctx : Context) (n : Node) :
    (cleaned ctx n).marks.textValid = true ↔
      n.marks.textValid = true ∧ cleanForm? ctx n.form = none := by
  unfold cleaned
  cases cleanForm? ctx n.form with
  | none => simp
  | some form => simp [Marks.outdated]

end TrailingComma

/-- The rule for commas does to every node what it is meant to do. -/
theorem CommaOutcome.withCleanLists (ctx : Context) (n : Node) :
    CommaOutcome ctx.tokens n (n.withCleanLists ctx) := by
  have hsame := Node.erase_withCleanLists ctx n
  obtain ⟨form, span, marks⟩ := n
  refine ⟨hsame, ?_, ?_, Node.args_withCleanLists ctx form span marks,
    Node.params_withCleanLists ctx form span marks,
    Node.captures_withCleanLists ctx form span marks⟩
  · rw [Node.withCleanLists_mk, TrailingComma.commaSuppressed_cleaned, Node.settle,
      Marks.commaSuppressed_ite_outdated]
  · rw [Node.gainsMark_withCleanLists, ← Node.outdatesText_withCleanLists, Node.withCleanLists_mk,
      TrailingComma.textValid_cleaned]
    show (if _ then marks.outdated else marks).textValid = true ∧ _ ↔ _
    rw [Marks.textValid_ite_outdated, Bool.and_eq_false_iff, Option.isSome_eq_false_iff,
      Option.isNone_iff_eq_none, or_comm, and_right_comm, and_assoc]

/-! ### Calls -/

theorem Node.gainsMark_of_isGroup {n : Node} (h : n.form.isGroup = true) (m : Node) :
    n.gainsMark m = false := by
  obtain ⟨form, span, marks⟩ := n
  cases form <;> first | rfl | simp [Form.isGroup] at h

/-- The groups that are spliced gain no marks, so each child counts with all its survivors. -/
theorem Node.countP_survivors (ctx : Context) (form : Form Node) (span : Option Span)
    (marks : Marks) :
    let gains (k : Node) : Bool := k.gainsMark (k.withCleanLists ctx)
    (survivors ⟨form, span, marks⟩).countP gains =
      (form.children.map fun c => c.survivors.countP gains).sum +
        if gains ⟨form, span, marks⟩ then 1 else 0 := by
  intro gains
  have hstatement (c : Node) :
      (if c.form.isGroup then c.survivors.tail else c.survivors).countP gains =
        c.survivors.countP gains := by
    split
    · next hgroup =>
      obtain ⟨form, span, marks⟩ := c
      rw [survivors_mk, List.tail_cons, List.countP_cons_of_neg]
      simp [gains, gainsMark_of_isGroup hgroup]
    · rfl
  rw [survivors_mk, List.countP_cons, List.countP_append, List.countP_flatMap, List.countP_flatMap,
    Form.children_eq, List.map_append, List.sum_append]
  congr 2
  exact congrArg List.sum (List.map_congr_left fun c _ => hstatement c)

namespace Pass

variable {revisit : Node → Pass Node} {ctx : Context}

theorem mutations_of_sweep {count : Node → Nat} {cs : List Node} {names : NameSupply}
    {p : Progress (List Node)}
    (h : Sweep (fun n _ q => q.calls.countP (·.outcome == .mutated) = count n) cs names p) :
    p.calls.countP (·.outcome == .mutated) = (cs.map count).sum := by
  induction h with
  | nil => rfl
  | cons head _ ih => rw [List.countP_append, head, ih, List.map_cons, List.sum_cons]

theorem mutations_applyRules (n : Node) (names : NameSupply) :
    (applyRules revisit ctx n.kind [TrailingComma.rule] n names).calls.countP
        (·.outcome == .mutated) =
      if TrailingComma.cleanForm? ctx n.form = none then 0 else 1 := by
  by_cases hclaims : TrailingComma.rule.claims n.kind = true
  · rw [applyRules_of_claims hclaims, TrailingComma.call_eq]
    cases TrailingComma.cleanForm? ctx n.form <;> rfl
  · have hclean : TrailingComma.cleanForm? ctx n.form = none :=
      TrailingComma.cleanForm?_eq_none_iff.2 fun hkind =>
        absurd (List.contains_iff_mem.2 hkind) hclaims
    rw [applyRules_of_not_claims hclaims, hclean]
    rfl

/-- One call changes something for each node that gains a mark. -/
theorem mutations_visitWith (n : Node) (names : NameSupply) :
    (visitWith revisit [TrailingComma.rule] ctx n names).calls.countP (·.outcome == .mutated) =
      n.survivors.countP fun k => k.gainsMark (k.withCleanLists ctx) := by
  induction n using Node.inductionOn generalizing names with
  | step form span marks ih =>
    have hvalue : (form.mapM (visitWith revisit [TrailingComma.rule] ctx) names).value =
        form.map (Node.withCleanLists ctx) :=
      (Finishes.mapM (fun c _ names => visitWith_comma revisit ctx c names) names).1
    have hsweep := Sweep.of_mapM (P := fun n _ q => q.calls.countP (·.outcome == .mutated) =
      n.survivors.countP fun k => k.gainsMark (k.withCleanLists ctx)) ih names
    rw [(mapM_form (visitWith revisit [TrailingComma.rule] ctx) form names).2] at hsweep
    have hbelow : (form.mapM (visitWith revisit [TrailingComma.rule] ctx) names).calls.countP
        (·.outcome == .mutated) = _ := mutations_of_sweep hsweep
    rw [visitWith_apply, Node.countP_survivors]
    show List.countP _ (_ ++ _) = _
    rw [List.countP_append, hbelow, mutations_applyRules, hvalue]
    congr 1
    have hgains := Node.gainsMark_withCleanLists ctx form span marks
    by_cases hclean : TrailingComma.cleanForm? ctx
        (Node.settle (form.map (Node.withCleanLists ctx)) span marks).form = none
    · rw [if_pos hclean]
      exact (if_neg (Bool.eq_false_iff.1 (hgains.2 hclean))).symm
    · have hnew := mt hgains.1 hclean
      rw [Bool.not_eq_false] at hnew
      rw [if_neg hclean]
      exact (if_pos hnew).symm

theorem mutations_visit (revisits : Nat) (n : Node) (names : NameSupply) :
    (visit [TrailingComma.rule] ctx revisits n names).calls.countP (·.outcome == .mutated) =
      n.survivors.countP fun k => k.gainsMark (k.withCleanLists ctx) := by
  cases revisits <;> exact mutations_visitWith n names

end Pass

/-- The tally of the only rule grows by all the mutations of a run. -/
theorem Session.Tallied.mutations_tallyOf {s : Session} (h : s.Tallied) {rule : Rule}
    (hrules : s.rules = [rule]) (file : Option FileId) (tree : Node)
    (tokens : Option (List Token)) :
    ((s.transform file tree tokens).session.tallyOf rule.name).mutations =
      (s.tallyOf rule.name).mutations +
        (s.transform file tree tokens).calls.countP (·.outcome == .mutated) := by
  have hmem : rule ∈ s.rules := hrules ▸ List.mem_singleton_self rule
  have hown : (s.transform file tree tokens).calls.filter (·.rule.name == rule.name) =
      (s.transform file tree tokens).calls := by
    refine List.filter_eq_self.2 fun c hc => ?_
    have hrule := Pass.rule_mem_of_visit _ _ _ _ _ c hc
    rw [hrules, List.mem_singleton] at hrule
    simp [hrule]
  rw [h.tallyOf_transform hmem, Tally.count, s.rule_tallyOf, hown]

/-- The rule for commas changes what it is meant to change and nothing else. Without marks, the
result is the tree with its groups spliced. Node by node, apart from the groups that are spliced,
the marks are those that `CommaOutcome` gives, and one call counts as a mutation for each node that
has an element with a new mark. -/
theorem transform_changes_commas_exactly (s : Session) (hrules : s.rules = [TrailingComma.rule])
    (file : Option FileId) (tree : Node) (tokens : Option (List Token)) :
    let run := s.transform file tree tokens
    let gains := (tree.survivors.zip run.tree.preorder).countP fun p => p.1.gainsMark p.2
    run.tree.erase .marks = tree.flattened.erase .marks ∧
      List.Forall₂ (CommaOutcome tokens) tree.survivors run.tree.preorder ∧
      run.calls.countP (·.outcome == .mutated) = gains ∧
      (s.Reachable → (run.session.tallyOf TrailingComma.rule.name).mutations =
        (s.tallyOf TrailingComma.rule.name).mutations + gains) := by
  intro run gains
  let ctx : Context := ⟨file, tokens, tree.variableNames⟩
  have htree : run.tree = tree.withCleanLists ctx := by
    show (Pass.visit s.rules ctx s.maxRevisits tree s.names).value = _
    rw [hrules]
    exact (Pass.visit_comma ctx s.maxRevisits tree s.names).value
  have hpreorder : run.tree.preorder = tree.survivors.map (Node.withCleanLists ctx) := by
    rw [htree, Node.preorder_withCleanLists]
  have hgains : gains = tree.survivors.countP fun k => k.gainsMark (k.withCleanLists ctx) := by
    show List.countP _ (tree.survivors.zip run.tree.preorder) = _
    rw [hpreorder, ← List.map_prod_left_eq_zip, List.countP_map]
    rfl
  have hcalls : run.calls.countP (·.outcome == .mutated) = gains := by
    show (Pass.visit s.rules ctx s.maxRevisits tree s.names).calls.countP _ = _
    rw [hrules, hgains]
    exact Pass.mutations_visit s.maxRevisits tree s.names
  refine ⟨htree ▸ Node.erase_withCleanLists ctx tree, ?_, hcalls, fun hreachable => ?_⟩
  · rw [hpreorder, List.forall₂_map_right_iff]
    exact List.forall₂_same.2 fun n _ => .withCleanLists ctx n
  · rw [hreachable.tallied.mutations_tallyOf hrules, ← hcalls]

/-- Three lists end in a comma, two of them in one node. The group around the statement is
spliced. -/
theorem transform_changes_commas_exactly_of_nested_lists :
    let source := "f(1, function ($a,) use ($b,) \x7b\x7d,);"
    let tokens := scan source
    let closure : Node := ⟨.closure [{ name := "a", span := some ⟨15, 17⟩ }]
      [{ name := "b", span := some ⟨25, 27⟩ }] [] false, some ⟨5, 32⟩, {}⟩
    let call : Node := ⟨.functionCall ⟨.name "f", some ⟨0, 1⟩, {}⟩
      [{ value := ⟨.int 1, some ⟨2, 3⟩, {}⟩, span := some ⟨2, 3⟩ },
        { value := closure, span := some ⟨5, 32⟩ }], some ⟨0, 34⟩, {}⟩
    let tree := Node.synthesized (.program [Node.synthesized (.group
      [⟨.expression call, some ⟨0, 35⟩, {}⟩])])
    let s : Session := ({} : Session).add TrailingComma.rule
    let run := s.transform none tree (some tokens)
    s.rules = [TrailingComma.rule] ∧ s.Reachable ∧
      run.tree.erase .marks = tree.flattened.erase .marks ∧
      List.Forall₂ (CommaOutcome (some tokens)) tree.survivors run.tree.preorder ∧
      (run.session.tallyOf TrailingComma.rule.name).mutations = 2 ∧
      (Printer.withSource source tokens).print run.tree =
        "f(1, function ($a) use ($b) \x7b\n\x7d);" := by
  intro source tokens closure call tree s run
  have hrules : s.rules = [TrailingComma.rule] := rfl
  have hreachable : s.Reachable := .add TrailingComma.rule .new
  obtain ⟨hsame, hnodes, -, htally⟩ :=
    transform_changes_commas_exactly s hrules none tree (some tokens)
  exact ⟨hrules, hreachable, hsame, hnodes, (htally hreachable).trans (by decide +kernel),
    by decide +kernel⟩

end SyntaxLowering
