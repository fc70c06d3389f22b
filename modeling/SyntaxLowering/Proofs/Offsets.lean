import SyntaxLowering.Proofs.HoistPath
import SyntaxLowering.Proofs.Tiling
import SyntaxLowering.Proofs.UnitRoundTrip

/-!
# Offsets fit in 64 bits

Spans are read as numbers of 64 bits (`SourceUnit.offsetsFit_of_ofFile`), lowering makes no spans
(`Node.ownSpansAre_invariant`), and those of scanned tokens are within the source text. So the
offsets of a unit that was read and lowered fit in 64 bits (`Workbench.offsetsFit_process`), as they
must to be written.
-/

namespace SyntaxLowering

open Json

/-! ### Spans of lowered trees -/

theorem filterMap_eq_of_map_eq {α β : Type} {f : α → Option β} {as bs : List α}
    (h : as.map f = bs.map f) : as.filterMap f = bs.filterMap f := by
  have hid := congrArg (List.filterMap id) h
  rwa [List.filterMap_map, List.filterMap_map] at hid

theorem Form.Rel.ownSpans_eq {R : Node → Node → Prop} {n : Node} {form : Form Node}
    (h : Form.Rel R n.form form) (marks : Marks) :
    Node.ownSpans ⟨form, n.span, marks⟩ = n.ownSpans := by
  have hargs := congrArg (List.filterMap Arg.span) h.args_shape
  have hparams := congrArg (List.filterMap Param.span) h.params_shape
  rw [List.filterMap_map, List.filterMap_map] at hargs hparams
  simp only [Node.ownSpans, ← h.captures_eq]
  exact congrArg₂ (_ ++ · ++ · ++ _) hargs.symm hparams.symm

theorem Node.ownSpans_settle (form : Form Node) (span : Option Span) (marks : Marks) :
    (Node.settle form span marks).ownSpans = Node.ownSpans ⟨form, span, marks⟩ := by
  simp [Node.ownSpans, Node.settle, List.filterMap_map]

theorem TrailingComma.Cleaned.ownSpans_eq {n : Node} {form : Form Node} (h : Cleaned n.form form)
    (marks : Marks) : Node.ownSpans ⟨form, n.span, marks⟩ = n.ownSpans := by
  have hspan {ε : Type} [Listed ε] [LawfulListed ε] {e e' : ε} (h : SameButComma e e') :
      Listed.span e' = Listed.span e := by
    obtain ⟨suppressed, rfl⟩ := h
    exact LawfulListed.span_withMarks e _
  have hargs := filterMap_eq_of_map_eq (forall₂_map_eq h.args (·.span) hspan)
  have hparams := filterMap_eq_of_map_eq (forall₂_map_eq h.params (·.span) hspan)
  have hcaptures := filterMap_eq_of_map_eq (forall₂_map_eq h.captures (·.span) hspan)
  simp only [Node.ownSpans, hargs, hparams, hcaptures]

theorem Hoist.Refilled.ownSpans_eq {c x : Node} {form form' : Form Node}
    (h : Refilled c x form form') (span : Option Span) (marks marks' : Marks) :
    Node.ownSpans ⟨form', span, marks'⟩ = Node.ownSpans ⟨form, span, marks⟩ := by
  have hargs := filterMap_eq_of_map_eq (forall₂_map_eq h.args (·.span) (by
    rintro a b (rfl | ⟨-, rfl⟩) <;> rfl))
  simp only [Node.ownSpans, hargs, h.params, h.captures]

section Spans

variable {p : Span → Prop}

/-- A property of all spans that are written in a node itself. -/
def Node.OwnSpansAre (p : Span → Prop) (n : Node) : Prop :=
  ∀ s ∈ n.ownSpans, p s

theorem Node.ownSpansAre_synthesized {form : Form Node} (hargs : form.args = [])
    (hparams : form.params = []) (hcaptures : form.captures = []) :
    (Node.synthesized form).OwnSpansAre p := by
  simp [OwnSpansAre, ownSpans, Node.synthesized, hargs, hparams, hcaptures]

theorem Node.ownSpansAre_var (x : String) : (Node.var x).All (OwnSpansAre p) :=
  all_iff.2 ⟨ownSpansAre_synthesized rfl rfl rfl, fun _ hc => absurd hc List.not_mem_nil⟩

theorem Nullsafe.ownSpansAre_lowered {n object : Node} {plain : Node → Form Node}
    (h : access? n.form = some (object, plain)) (hn : n.All (Node.OwnSpansAre p)) (strict : Bool)
    (x : String) : (lowered strict (Node.var x) object plain).All (Node.OwnSpansAre p) := by
  obtain ⟨form, span, marks⟩ := n
  refine all_lowered (Node.layered_all _) h (fun c hc => hn.child hc) (Node.ownSpansAre_var x)
    (Node.ownSpansAre_synthesized rfl rfl rfl) (Node.ownSpansAre_synthesized rfl rfl rfl) ?_ ?_
    (Node.ownSpansAre_synthesized rfl rfl rfl)
  · cases strict <;> exact Node.ownSpansAre_synthesized rfl rfl rfl
  · -- the plain access has the arguments of the nullsafe one
    intro s hs
    refine hn.self s ?_
    cases Access.of_access? h <;>
      simp_all [Node.ownSpans, Node.synthesized, Form.args, Form.params, Form.captures]

theorem Hoist.ownSpansAre_hoisted {n : Node} {hole : Hole Node}
    (h : receiverInStatement? n = some hole) (hn : n.All (Node.OwnSpansAre p)) (x : String) :
    (hoisted (Node.var x) hole).All (Node.OwnSpansAre p) := by
  refine all_of_receiverInStatement? (Node.layered_all _) (fun hrefilled hlayer s hs => ?_) h hn
    (Node.ownSpansAre_var x) (Node.ownSpansAre_synthesized rfl rfl rfl)
    (Node.ownSpansAre_synthesized rfl rfl rfl) (Node.ownSpansAre_synthesized rfl rfl rfl)
  rw [hrefilled.ownSpans_eq] at hs
  exact hlayer s hs

/-- Lowering makes no spans: what holds of all spans of a tree holds of those of the visited
tree. -/
theorem Node.ownSpansAre_invariant (p : Span → Prop) (cfg : Settings) (ctx : Context) :
    CatalogInvariant cfg ctx fun n m =>
      n.All (Node.OwnSpansAre p) → m.All (Node.OwnSpansAre p) where
  refl _ hn := hn
  trans hnm hmk hn := hmk (hnm hn)
  settle {n g} hrel hn := by
    refine Node.all_settle (fun d hd => ?_) fun s hs => ?_
    · obtain ⟨c, hc, hcd⟩ := exists_left_of_forall₂ hrel.children hd
      exact hcd (hn.child hc)
    · rw [Node.ownSpans_settle, hrel.ownSpans_eq] at hs
      exact hn.self s hs
  cleaned {n form} hclean hn := by
    have hcleaned := TrailingComma.Cleaned.of_cleanForm? hclean
    refine Node.all_iff.2 ⟨fun s hs => hn.self s ?_, fun c hc => hn.child ?_⟩
    · exact hcleaned.ownSpans_eq n.marks.outdated ▸ hs
    · rwa [← hcleaned.children_eq]
  lowered haccess x hn := Nullsafe.ownSpansAre_lowered haccess hn _ x
  hoisted hreceiver x hn := Hoist.ownSpansAre_hoisted hreceiver hn x

end Spans

/-! ### Offsets that were read -/

namespace Json.Decode

variable {α β : Type} {P : α → Prop} {Q : β → Prop}

/-- Whatever is read has a property. -/
def Yields (P : α → Prop) (x : Option α) : Prop :=
  ∀ a ∈ x, P a

theorem Yields.none : Yields P none := by
  intro a ha
  cases ha

theorem Yields.some {a : α} (h : P a) : Yields P (some a) := by
  rintro _ ⟨⟩
  exact h

theorem Yields.any (x : Option α) : Yields (fun _ => True) x :=
  fun _ _ => trivial

theorem Yields.bind {x : Option α} {f : α → Option β} (hx : Yields P x)
    (hf : ∀ a, P a → Yields Q (f a)) : Yields Q (x >>= f) := by
  intro b hb
  obtain ⟨a, ha, hb⟩ := Option.bind_eq_some_iff.mp hb
  exact hf a (hx a ha) b hb

theorem Yields.map {x : Option α} {f : α → β} (hx : Yields P x) (hf : ∀ a, P a → Q (f a)) :
    Yields Q (x.map f) := by
  intro b hb
  obtain ⟨a, ha, rfl⟩ := Option.map_eq_some_iff.mp hb
  exact hf a (hx a ha)

theorem Yields.required {decode : Json → Option α} (h : ∀ json, Yields P (decode json))
    (field : Option Json) : Yields P (required decode field) := by
  cases field with
  | none => exact .none
  | some json => exact h json

theorem Yields.withDefault {decode : Json → Option α} {default : α} (hdefault : P default)
    (h : ∀ json, Yields P (decode json)) (field : Option Json) :
    Yields P (withDefault default decode field) := by
  cases field with
  | none => exact .some hdefault
  | some json => exact h json

theorem Yields.nullable {decode : Json → Option α} (h : ∀ json, Yields P (decode json))
    (json : Json) : Yields (fun o => ∀ a ∈ o, P a) (nullable decode json) := by
  unfold Decode.nullable
  split
  · exact .some Yields.none
  · exact (h _).map fun a ha b hb => Option.some.inj hb ▸ ha

theorem Yields.list {decode : Nat → Json → Option α} {limit : Nat}
    (h : ∀ smaller < limit, ∀ json, Yields P (decode smaller json)) (json : Json) :
    Yields (fun as => ∀ a ∈ as, P a) (list decode limit json) := by
  unfold Decode.list
  split
  · rename_i limit items
    intro as has a ha
    obtain ⟨item, -, hitem⟩ := exists_left_of_forall₂ (mapM_eq_some.mp has) ha
    exact h limit limit.lt_succ_self item a hitem
  · exact .none

end Json.Decode

open Json.Decode

theorem Span.yields_decode (limit : Nat) (json : Json) :
    Yields Span.Fits (Span.decode limit json) := by
  have hnat (json : Json) : Yields (· < 2 ^ 64) (Decode.nat json) := by
    unfold Decode.nat
    split
    · split
      · exact .some (by omega)
      · exact .none
    · exact .none
  unfold Span.decode
  split
  · split
    · exact .bind (.required hnat _) fun _ hstart => .bind (.required hnat _) fun _ hstop =>
        .some ⟨hstart, hstop⟩
    · exact .none
  · exact .none

theorem yields_decodeSpanField (limit : Nat) (field : Option Json) :
    Yields (fun span => ∀ s ∈ span, s.Fits) (decodeSpanField limit field) :=
  .withDefault Yields.none (.nullable (Span.yields_decode limit)) field

theorem Capture.yields_decode (limit : Nat) (json : Json) :
    Yields (fun c => ∀ s ∈ c.span, s.Fits) (Capture.decode limit json) := by
  unfold Capture.decode
  split
  · split
    · exact .bind (.any _) fun _ _ => .bind (.any _) fun _ _ =>
        .bind (yields_decodeSpanField _ _) fun _ hspan => .bind (.any _) fun _ _ => .some hspan
    · exact .none
  · exact .none

/-- All offsets in an argument fit in 64 bits. -/
def Arg.OffsetsFit (a : Arg Node) : Prop :=
  a.value.OffsetsFit ∧ ∀ s ∈ a.span, s.Fits

/-- All offsets in a parameter fit in 64 bits. -/
def Param.OffsetsFit (p : Param Node) : Prop :=
  (∀ d ∈ p.default, d.OffsetsFit) ∧ ∀ s ∈ p.span, s.Fits

/-- All offsets below a layer fit in 64 bits. -/
def Form.OffsetsFit (form : Form Node) : Prop :=
  (∀ c ∈ form.heads, c.OffsetsFit) ∧ (∀ a ∈ form.args, a.OffsetsFit) ∧
    (∀ p ∈ form.params, p.OffsetsFit) ∧ (∀ c ∈ form.captures, ∀ s ∈ c.span, s.Fits) ∧
    ∀ c ∈ form.statements, c.OffsetsFit

theorem Form.OffsetsFit.of_heads {form : Form Node} (hheads : ∀ c ∈ form.heads, c.OffsetsFit)
    (hargs : form.args = []) (hparams : form.params = []) (hcaptures : form.captures = [])
    (hstatements : form.statements = []) : form.OffsetsFit := by
  refine ⟨hheads, ?_⟩
  simp [hargs, hparams, hcaptures, hstatements]

theorem Node.OffsetsFit.of_form {form : Form Node} {span : Option Span} (hform : form.OffsetsFit)
    (hspan : ∀ s ∈ span, s.Fits) (marks : Marks) : Node.OffsetsFit ⟨form, span, marks⟩ := by
  obtain ⟨hheads, hargs, hparams, hcaptures, hstatements⟩ := hform
  refine Node.all_iff.mpr ⟨?_, fun c hc => ?_⟩
  · intro s hs
    simp only [Node.ownSpans, List.mem_append, Option.mem_toList, List.mem_filterMap] at hs
    rcases hs with ((hs | ⟨a, ha, hs⟩) | ⟨p, hp, hs⟩) | ⟨c, hc, hs⟩
    · exact hspan s hs
    · exact (hargs a ha).2 s hs
    · exact (hparams p hp).2 s hs
    · exact hcaptures c hc s hs
  · rcases Form.mem_children.mp hc with hc | ⟨a, ha, rfl⟩ | ⟨p, hp, hd⟩ | hc
    · exact hheads c hc
    · exact (hargs a ha).1
    · exact (hparams p hp).1 c hd
    · exact hstatements c hc

section Trees

variable {limit : Nat}

theorem Arg.yields_decode
    (ih : ∀ smaller < limit, ∀ json, Yields Node.OffsetsFit (Node.decode smaller json))
    (json : Json) : Yields Arg.OffsetsFit (Arg.decode limit json) := by
  unfold Arg.decode
  split
  · split
    · exact .bind (.required (ih _ (Nat.lt_succ_self _)) _) fun _ hvalue =>
        .bind (.any _) fun _ _ => .bind (.any _) fun _ _ => .bind (.any _) fun _ _ =>
        .bind (yields_decodeSpanField _ _) fun _ hspan => .bind (.any _) fun _ _ =>
        .some ⟨hvalue, hspan⟩
    · exact .none
  · exact .none

theorem Param.yields_decode
    (ih : ∀ smaller < limit, ∀ json, Yields Node.OffsetsFit (Node.decode smaller json))
    (json : Json) : Yields Param.OffsetsFit (Param.decode limit json) := by
  unfold Param.decode
  split
  · split
    · exact .bind (.any _) fun _ _ => .bind (.any _) fun _ _ =>
        .bind (.withDefault Yields.none (.nullable (ih _ (Nat.lt_succ_self _))) _) fun _ hdefault =>
        .bind (.any _) fun _ _ => .bind (.any _) fun _ _ =>
        .bind (yields_decodeSpanField _ _) fun _ hspan => .bind (.any _) fun _ _ =>
        .some ⟨hdefault, hspan⟩
    · exact .none
  · exact .none

theorem Form.yields_decodeRecord
    (ih : ∀ smaller ≤ limit, ∀ json, Yields Node.OffsetsFit (Node.decode smaller json))
    (kind : Kind) (content : Json) :
    Yields Form.OffsetsFit (Form.decodeRecord kind limit content) := by
  have nil {ε : Type} {P : ε → Prop} : ∀ a ∈ ([] : List ε), P a := List.forall_mem_nil P
  have node := Yields.required (ih limit le_rfl)
  have nodes (field : Option Json) : Yields (fun ns => ∀ n ∈ ns, n.OffsetsFit)
      (required (Node.decodeList limit) field) := by
    rw [Node.decodeList_eq]
    exact .required (.list fun smaller h => ih smaller h.le) field
  have args (field : Option Json) : Yields (fun as => ∀ a ∈ as, a.OffsetsFit)
      (required (Arg.decodeList limit) field) := by
    rw [Arg.decodeList_eq]
    exact .required (.list fun smaller h => Arg.yields_decode fun k hk => ih k (hk.trans h).le)
      field
  have params (field : Option Json) : Yields (fun ps => ∀ p ∈ ps, p.OffsetsFit)
      (required (Param.decodeList limit) field) := by
    rw [Param.decodeList_eq]
    exact .required (.list fun smaller h => Param.yields_decode fun k hk => ih k (hk.trans h).le)
      field
  have captures (field : Option Json) : Yields (fun cs => ∀ c ∈ cs, ∀ s ∈ c.span, s.Fits)
      (required (list Capture.decode limit) field) :=
    .required (.list fun smaller _ => Capture.yields_decode smaller) field
  cases kind with
  | assign | notIdentical =>
    simp only [Form.decodeRecord]
    split
    · exact .bind (node _) fun _ hleft => .bind (node _) fun _ hright =>
        .some (.of_heads (by simp [Form.heads, hleft, hright]) rfl rfl rfl rfl)
    · exact .none
  | ternary =>
    simp only [Form.decodeRecord]
    split
    · exact .bind (node _) fun _ hcondition => .bind (node _) fun _ htrue =>
        .bind (node _) fun _ hfalse =>
        .some (.of_heads (by simp [Form.heads, hcondition, htrue, hfalse]) rfl rfl rfl rfl)
    · exact .none
  | propertyFetch | nullsafePropertyFetch =>
    simp only [Form.decodeRecord]
    split
    · exact .bind (node _) fun _ hobject => .bind (.any _) fun _ _ =>
        .some (.of_heads (List.forall_mem_singleton.2 hobject) rfl rfl rfl rfl)
    · exact .none
  | clone =>
    simp only [Form.decodeRecord]
    split
    · exact .bind (node _) fun _ hobject =>
        .some (.of_heads (List.forall_mem_singleton.2 hobject) rfl rfl rfl rfl)
    · exact .none
  | methodCall | nullsafeMethodCall | staticCall =>
    simp only [Form.decodeRecord]
    split
    · exact .bind (node _) fun _ hobject => .bind (.any _) fun _ _ => .bind (args _) fun _ hargs =>
        .some ⟨List.forall_mem_singleton.2 hobject, hargs, nil, nil, nil⟩
    · exact .none
  | functionCall | new =>
    simp only [Form.decodeRecord]
    split
    · exact .bind (node _) fun _ hobject => .bind (args _) fun _ hargs =>
        .some ⟨List.forall_mem_singleton.2 hobject, hargs, nil, nil, nil⟩
    · exact .none
  | closure =>
    simp only [Form.decodeRecord]
    split
    · exact .bind (params _) fun _ hparams => .bind (captures _) fun _ hcaptures =>
        .bind (nodes _) fun _ hbody => .bind (.any _) fun _ _ =>
        .some ⟨nil, nil, hparams, hcaptures, hbody⟩
    · exact .none
  | functionDecl =>
    simp only [Form.decodeRecord]
    split
    · exact .bind (.any _) fun _ _ => .bind (params _) fun _ hparams =>
        .bind (nodes _) fun _ hbody => .some ⟨nil, nil, hparams, nil, hbody⟩
    · exact .none
  | classDecl =>
    simp only [Form.decodeRecord]
    split
    · exact .bind (.any _) fun _ _ => .bind (nodes _) fun _ hmembers =>
        .some ⟨nil, nil, nil, nil, hmembers⟩
    · exact .none
  | methodDecl =>
    simp only [Form.decodeRecord]
    split
    · exact .bind (.any _) fun _ _ => .bind (.any _) fun _ _ => .bind (params _) fun _ hparams =>
        .bind (nodes _) fun _ hbody => .some ⟨nil, nil, hparams, nil, hbody⟩
    · exact .none
  | _ =>
    simp only [Form.decodeRecord]
    exact .none

theorem Form.yields_decodeContent
    (ih : ∀ smaller ≤ limit, ∀ json, Yields Node.OffsetsFit (Node.decode smaller json))
    (kind : Kind) (content : Json) :
    Yields Form.OffsetsFit (Form.decodeContent kind limit content) := by
  have nil {ε : Type} {P : ε → Prop} : ∀ a ∈ ([] : List ε), P a := List.forall_mem_nil P
  have nodes : Yields (fun ns => ∀ n ∈ ns, n.OffsetsFit) (Node.decodeList limit content) := by
    rw [Node.decodeList_eq]
    exact .list (fun smaller h => ih smaller h.le) content
  by_cases hrecord : kind.isRecord
  · rw [Form.decodeContent_of_isRecord hrecord]
    cases limit with
    | zero => exact .none
    | succ limit => exact Form.yields_decodeRecord (fun k hk => ih k (by omega)) kind content
  cases kind with
  | null =>
    unfold Form.decodeContent
    split
    · exact .some (.of_heads nil rfl rfl rfl rfl)
    · exact .none
  | bool | int | str | var | name =>
    simp only [Form.decodeContent]
    exact (Yields.any _).map fun _ _ => .of_heads nil rfl rfl rfl rfl
  | expression =>
    simp only [Form.decodeContent]
    exact (ih limit le_rfl content).map fun _ hvalue =>
      .of_heads (List.forall_mem_singleton.2 hvalue) rfl rfl rfl rfl
  | ret =>
    simp only [Form.decodeContent]
    refine (Yields.nullable (ih limit le_rfl) content).map fun value hvalue => ?_
    cases value with
    | none => exact .of_heads nil rfl rfl rfl rfl
    | some c => exact .of_heads (List.forall_mem_singleton.2 (hvalue c rfl)) rfl rfl rfl rfl
  | group | program =>
    simp only [Form.decodeContent]
    exact nodes.map fun _ hstatements => ⟨nil, nil, nil, nil, hstatements⟩
  | _ => exact absurd rfl hrecord

theorem Form.yields_decode
    (ih : ∀ smaller < limit, ∀ json, Yields Node.OffsetsFit (Node.decode smaller json))
    (json : Json) : Yields Form.OffsetsFit (Form.decode limit json) := by
  unfold Form.decode
  split
  · split
    · exact .some (.of_heads (List.forall_mem_nil _) rfl rfl rfl rfl)
    · exact .none
  · exact .bind (.any _) fun kind _ =>
      Form.yields_decodeContent (fun k hk => ih k (Nat.lt_succ_of_le hk)) kind _
  · exact .none

theorem Node.yields_decode (limit : Nat) (json : Json) :
    Yields Node.OffsetsFit (Node.decode limit json) := by
  induction limit using Nat.strong_induction_on generalizing json with
  | _ limit ih =>
    unfold Node.decode
    split
    · exact .bind (.required (Form.yields_decode fun k hk => ih k (by omega)) _) fun _ hform =>
        .bind (yields_decodeSpanField _ _) fun _ hspan => .bind (.any _) fun _ _ =>
        .some (.of_form hform hspan _)
    · exact .none

end Trees

/-! ### Units -/

theorem Token.yields_decode (limit : Nat) (json : Json) :
    Yields (fun t => t.span.Fits) (Token.decode limit json) := by
  unfold Token.decode
  split
  · split
    · exact .bind (.any _) fun _ _ => .bind (.any _) fun _ _ =>
        .bind (.required (Span.yields_decode _) _) fun _ hspan => .some hspan
    · exact .none
  · exact .none

theorem SourceUnit.yields_decode (limit : Nat) (json : Json) :
    Yields SourceUnit.OffsetsFit (SourceUnit.decode limit json) := by
  unfold SourceUnit.decode
  split
  · split
    · refine .bind (.any _) fun _ _ => .bind (.any _) fun _ _ =>
        .bind (.withDefault Yields.none (.nullable (.list fun k _ => Token.yields_decode k)) _)
          fun _ htokens => .bind (.required (Node.yields_decode _) _) fun _ htree => .some ?_
      exact ⟨htree, htokens⟩
    · exact .none
  · exact .none

/-- Offsets that were read fit in 64 bits. -/
theorem SourceUnit.offsetsFit_of_ofFile {text : String} {u : SourceUnit}
    (h : ofFile (some text) = .ok u) : u.OffsetsFit := by
  rw [ofFile] at h
  split at h
  · cases h
  · rename_i hdecode
    obtain rfl := Except.ok.inj h
    obtain ⟨json, -, hjson⟩ := Option.bind_eq_some_iff.mp hdecode
    exact SourceUnit.yields_decode nestingLimit json _ hjson

theorem scan_fits {source : String} (h : source.utf8ByteSize < 2 ^ 64) :
    ∀ t ∈ scan source, t.span.Fits := by
  intro t ht
  have htiles : Tiles 0 (scan source) source.toList := scanFrom_tiles 0 source.toList
  have hstop := htiles.stop_le t ht
  have hstart := (htiles.nonempty t ht).2
  rw [utf8ByteSize_eq] at h
  exact ⟨by omega, by omega⟩

/-- The offsets of a lowered unit fit in 64 bits. -/
theorem Workbench.offsetsFit_process {cfg : Settings} {w : Workbench}
    (hrules : w.session.rules ⊆ cfg.catalog) {u : SourceUnit} (hu : u.OffsetsFit)
    (hsize : ∀ s ∈ u.source, s.utf8ByteSize < 2 ^ 64) : (w.process u).1.toUnit.OffsetsFit := by
  refine ⟨(Node.ownSpansAre_invariant Span.Fits cfg _).visit hrules _ _ _ hu.1, ?_⟩
  rintro _ ⟨⟩
  change ∀ t ∈ u.tokenStream, t.span.Fits
  unfold SourceUnit.tokenStream
  split
  · exact hu.2 _ ‹_›
  · exact scan_fits (hsize _ ‹_›)
  · exact List.forall_mem_nil _

end SyntaxLowering
