import SyntaxLowering.Codec.Unit
import SyntaxLowering.Proofs.JsonText
import SyntaxLowering.Proofs.JsonVariants
import SyntaxLowering.Proofs.Settling

/-!
# Units are handed over unchanged

Each record of a unit is read back from the variants of its encoding, once the offsets in it fit in
64 bits. The records are taken from the inside out: spans, marks and list elements, then the
contents of a layer by its kind, trees by induction (`Node.encodes`), and tokens and units. What is
written out for another program and comes back in any layout is then the unit that was written.
-/

namespace SyntaxLowering

open Json

/-! ### Offsets -/

/-- The offsets of a span fit in 64 bits. -/
def Span.Fits (s : Span) : Prop :=
  s.start < 2 ^ 64 ∧ s.stop < 2 ^ 64

/-- The span of a node and the spans of its list elements. -/
def Node.ownSpans (n : Node) : List Span :=
  n.span.toList ++ n.form.args.filterMap (·.span) ++ n.form.params.filterMap (·.span) ++
    n.form.captures.filterMap (·.span)

instance (s : Span) : Decidable s.Fits :=
  inferInstanceAs (Decidable (_ ∧ _))

/-- All offsets in a tree fit in 64 bits. -/
def Node.OffsetsFit (n : Node) : Prop :=
  n.All fun m => ∀ s ∈ m.ownSpans, s.Fits

instance (n : Node) : Decidable n.OffsetsFit :=
  inferInstanceAs (Decidable (n.All _))

/-- All offsets in a unit fit in 64 bits. -/
def SourceUnit.OffsetsFit (u : SourceUnit) : Prop :=
  u.tree.OffsetsFit ∧ ∀ tokens ∈ u.tokens, ∀ t ∈ tokens, t.span.Fits

/-! ### Records of trees -/

theorem Json.encodes_nat {n : Nat} (h : n < 2 ^ 64) :
    Encodes (fun _ => Decode.nat) (Json.nat n) n :=
  .of_scalar trivial rfl fun _ => by
    simp only [Decode.nat, Json.nat]
    rw [if_pos (by omega), Int.toNat_natCast]

theorem Span.encodes {s : Span} (h : s.Fits) : Encodes Span.decode s.toJson s := by
  refine .of_reading ["start", "end"] rfl (by decide) (fun _ => rfl) ?_
  intro limit json start stop hheld
  simp only [Span.decode, hheld]
  exact .cons ((encodes_nat h.1).required rfl) <| .cons ((encodes_nat h.2).required rfl) .nil

theorem Marks.encodes (m : Marks) : Encodes Marks.decode m.toJson m := by
  refine .of_reading ["original_text_valid", "suppress_trailing_separator"] rfl
    (by decide) (fun _ => rfl) ?_
  intro limit json valid suppressed hheld
  simp only [Marks.decode, hheld]
  refine .cons ((encodes_bool m.textValid).withDefault ?_) <|
    .cons (encodesField_flag rfl m.commaSuppressed) .nil
  simp [defaults, List.lookup_cons]

theorem encodesField_span {span : Option Span} (h : ∀ s ∈ span, s.Fits) :
    EncodesField decodeSpanField ("span", .nullable Span.toJson span) span :=
  (Encodes.nullable (fun s hs => Span.encodes (h s hs)) (by simp [Span.toJson, record])).withDefault
    (by cases span <;> simp [defaults, Json.nullable, Span.toJson, record])

theorem encodesField_marks (m : Marks) :
    EncodesField decodeMarksField ("attrs", m.toJson) m := by
  refine m.encodes.withDefault ?_
  obtain ⟨valid, suppressed⟩ := m
  simp [defaults, List.lookup_cons, Marks.toJson, record]

theorem Capture.encodes {c : Capture} (h : ∀ s ∈ c.span, s.Fits) :
    Encodes Capture.decode c.toJson c := by
  refine .of_reading ["name", "by_ref", "span", "attrs"] rfl (by decide) (fun _ => rfl) ?_
  intro limit json name byRef span marks hheld
  simp only [Capture.decode, hheld]
  exact .cons (encodesField_name c.name) <| .cons (encodesField_flag rfl c.byRef) <|
    .cons (encodesField_span h) <| .cons (encodesField_marks c.marks) .nil

/-- An argument from JSON. -/
def Arg.decode : Nat → Json → Option (Arg Node)
  | limit + 1, json =>
    match json.fields? ["value", "name", "unpack", "by_ref", "span", "attrs"] with
    | some [value, name, unpack, byRef, span, marks] => do
      return ⟨← Decode.required (Node.decode limit) value,
        ← Decode.withDefault none (Decode.nullable Decode.text) name,
        ← Decode.withDefault false Decode.bool unpack, ← Decode.withDefault false Decode.bool byRef,
        ← decodeSpanField limit span, ← decodeMarksField limit marks⟩
    | _ => none
  | 0, _ => none

theorem Arg.decodeList_eq : Arg.decodeList = Decode.list Arg.decode := by
  funext limit json
  match limit, json with
  | 1, .arr [] | 1, .arr (_ :: _) => simp [Arg.decodeList, Decode.list, Arg.decode]
  | limit + 2, .arr items =>
    simp only [Arg.decodeList, Decode.list]
    rfl
  | 0, json => cases json <;> simp [Arg.decodeList, Decode.list]
  | _ + 1, .null | _ + 1, .bool _ | _ + 1, .int _ | _ + 1, .real _ | _ + 1, .str _
  | _ + 1, .obj _ => simp [Arg.decodeList, Decode.list]

theorem Arg.encodes {a : Arg Node} (hvalue : Encodes Node.decode a.value.toJson a.value)
    (hspan : ∀ s ∈ a.span, s.Fits) :
    Encodes Arg.decode (a.map Node.toJson).toJson a := by
  refine .of_reading ["value", "name", "unpack", "by_ref", "span", "attrs"] rfl
    (by decide) (fun _ => rfl) ?_
  intro limit json value name unpack byRef span marks hheld
  simp only [Arg.decode, hheld]
  exact .cons (hvalue.required rfl) <| .cons (encodesField_nullable_text rfl a.name) <|
    .cons (encodesField_flag rfl a.unpack) <| .cons (encodesField_flag rfl a.byRef) <|
    .cons (encodesField_span hspan) <| .cons (encodesField_marks a.marks) .nil

/-- A parameter from JSON. -/
def Param.decode : Nat → Json → Option (Param Node)
  | limit + 1, json =>
    match json.fields? ["name", "type_hint", "default", "variadic", "by_ref", "span", "attrs"] with
    | some [name, typeHint, default, variadic, byRef, span, marks] => do
      return ⟨← Decode.required Decode.text name,
        ← Decode.withDefault none (Decode.nullable Decode.text) typeHint,
        ← Decode.withDefault none (Decode.nullable (Node.decode limit)) default,
        ← Decode.withDefault false Decode.bool variadic,
        ← Decode.withDefault false Decode.bool byRef,
        ← decodeSpanField limit span, ← decodeMarksField limit marks⟩
    | _ => none
  | 0, _ => none

theorem Param.decodeList_eq : Param.decodeList = Decode.list Param.decode := by
  funext limit json
  match limit, json with
  | 1, .arr [] | 1, .arr (_ :: _) => simp [Param.decodeList, Decode.list, Param.decode]
  | limit + 2, .arr items =>
    simp only [Param.decodeList, Decode.list]
    rfl
  | 0, json => cases json <;> simp [Param.decodeList, Decode.list]
  | _ + 1, .null | _ + 1, .bool _ | _ + 1, .int _ | _ + 1, .real _ | _ + 1, .str _
  | _ + 1, .obj _ => simp [Param.decodeList, Decode.list]

theorem Node.toJson_mk (form : Form Node) (span : Option Span) (marks : Marks) :
    Node.toJson ⟨form, span, marks⟩ =
      .record (("ast", (form.map Node.toJson).toJson) :: placeToJson span marks) := by
  rw [Node.toJson, Node.fold_mk]
  rfl

theorem Node.toJson_ne_null (n : Node) : n.toJson ≠ .null := by
  obtain ⟨form, span, marks⟩ := n
  rw [Node.toJson_mk]
  intro h
  cases h

theorem Param.encodes {p : Param Node}
    (hdefault : ∀ d ∈ p.default, Encodes Node.decode d.toJson d)
    (hspan : ∀ s ∈ p.span, s.Fits) :
    Encodes Param.decode (p.map Node.toJson).toJson p := by
  have hjson : Json.nullable id (p.default.map Node.toJson) =
      Json.nullable Node.toJson p.default := by
    cases p.default <;> rfl
  have hfield : EncodesField
      (fun limit => Decode.withDefault none (Decode.nullable (Node.decode limit)))
      ("default", Json.nullable id (p.default.map Node.toJson)) p.default := by
    rw [hjson]
    refine (Encodes.nullable hdefault fun d _ => d.toJson_ne_null).withDefault ?_
    cases p.default with
    | none => exact fun _ => rfl
    | some d => simp [defaults, List.lookup_cons, Json.nullable, Ne.symm d.toJson_ne_null]
  refine .of_reading ["name", "type_hint", "default", "variadic", "by_ref", "span", "attrs"] rfl
    (by decide) (fun _ => rfl) ?_
  intro limit json name typeHint default variadic byRef span marks hheld
  simp only [Param.decode, hheld]
  exact .cons (encodesField_name p.name) <| .cons (encodesField_nullable_text rfl p.typeHint) <|
    .cons hfield <| .cons (encodesField_flag rfl p.variadic) <|
    .cons (encodesField_flag rfl p.byRef) <| .cons (encodesField_span hspan) <|
    .cons (encodesField_marks p.marks) .nil

/-! ### Layers and trees -/

theorem Node.decodeList_eq : Node.decodeList = Decode.list Node.decode := by
  funext limit json
  cases limit <;> cases json <;> simp [Node.decodeList, Decode.list]

/-- The kinds whose contents are written as a record. -/
def Kind.isRecord : Kind → Bool
  | null | bool | int | str | var | name | expression | ret | group | program => false
  | _ => true

theorem Form.decodeContent_of_isRecord {kind : Kind} (hkind : kind.isRecord = true) (limit : Nat)
    (json : Json) : Form.decodeContent kind limit json =
      match limit with
      | 0 => none
      | limit + 1 => Form.decodeRecord kind limit json := by
  cases kind <;> first | exact absurd hkind (by decide) | cases limit <;> simp [Form.decodeContent]

theorem Form.encodes_record {kind : Kind} (hkind : kind.isRecord = true) {form : Form Node}
    {fields : List (String × Json)} (keys : List String) (hkeys : fields.map Prod.fst = keys)
    (hrecord : RecordKeys keys)
    (hreading : ∀ limit json, ForHeld keys fun held => json.fields? keys = some held →
      Reading fields limit held (Form.decodeRecord kind limit json) form) :
    Encodes (Form.decodeContent kind) (.record fields) form := by
  refine .of_reading keys hkeys hrecord (fun json => decodeContent_of_isRecord hkind 0 json) ?_
  intro limit json
  rw [decodeContent_of_isRecord hkind]
  exact hreading limit json

theorem encodes_int (n : Int64) : Encodes (fun _ => Decode.int64) (.int n.toInt) n :=
  .of_scalar trivial rfl fun _ => by
    have hle := n.le_toInt
    have hlt := n.toInt_lt
    rw [Decode.int64, if_pos (by omega), Int64.ofInt_toInt]

section Layers

variable {form : Form Node}

/-- The arguments of a layer over trees that are read back are read back. -/
theorem encodes_args {args : List (Arg Node)}
    (hvalues : ∀ a ∈ args, Encodes Node.decode a.value.toJson a.value)
    (hspans : ∀ a ∈ args, ∀ s ∈ a.span, s.Fits) :
    EncodesField (fun limit => Decode.required (Arg.decodeList limit))
      (Form.argsToJson (args.map (·.map Node.toJson))) args := by
  rw [Arg.decodeList_eq, Form.argsToJson, List.map_map]
  exact (Encodes.list fun a ha => Arg.encodes (hvalues a ha) (hspans a ha)).required rfl

theorem encodes_params {params : List (Param Node)}
    (hdefaults : ∀ p ∈ params, ∀ d ∈ p.default, Encodes Node.decode d.toJson d)
    (hspans : ∀ p ∈ params, ∀ s ∈ p.span, s.Fits) :
    EncodesField (fun limit => Decode.required (Param.decodeList limit))
      (Form.paramsToJson (params.map (·.map Node.toJson))) params := by
  rw [Param.decodeList_eq, Form.paramsToJson, List.map_map]
  exact (Encodes.list fun p hp => Param.encodes (hdefaults p hp) (hspans p hp)).required rfl

theorem encodes_nodes {nodes : List Node}
    (h : ∀ n ∈ nodes, Encodes Node.decode n.toJson n) :
    Encodes Node.decodeList (.arr (nodes.map Node.toJson)) nodes := by
  rw [Node.decodeList_eq]
  exact Encodes.list h

/-- The contents of a layer over trees that are read back are read back. -/
theorem Form.encodes_content (hchildren : ∀ c ∈ form.children, Encodes Node.decode c.toJson c)
    (hargs : ∀ a ∈ form.args, ∀ s ∈ a.span, s.Fits)
    (hparams : ∀ p ∈ form.params, ∀ s ∈ p.span, s.Fits)
    (hcaptures : ∀ c ∈ form.captures, ∀ s ∈ c.span, s.Fits) :
    Encodes (Form.decodeContent form.kind) (form.map Node.toJson).contentToJson form := by
  have hhead : ∀ c ∈ form.heads, Encodes Node.decode c.toJson c := fun c hc =>
    hchildren c (Form.mem_children.mpr (.inl hc))
  have hvalue : ∀ a ∈ form.args, Encodes Node.decode a.value.toJson a.value := fun a ha =>
    hchildren _ (Form.mem_children.mpr (.inr (.inl ⟨a, ha, rfl⟩)))
  have hdefault : ∀ p ∈ form.params, ∀ d ∈ p.default, Encodes Node.decode d.toJson d :=
    fun p hp d hd => hchildren d (Form.mem_children.mpr (.inr (.inr (.inl ⟨p, hp, hd⟩))))
  have hstatements : Encodes Node.decodeList (.arr (form.statements.map Node.toJson))
      form.statements := encodes_nodes fun c hc =>
    hchildren c (Form.mem_children.mpr (.inr (.inr (.inr hc))))
  cases form with
  | null =>
    exact .of_scalar trivial rfl fun _ => by
      simp [Form.kind, Form.decodeContent, Form.map, contentToJson]
  | bool b =>
    refine ((encodes_bool b).map Form.bool).congr fun _ _ => ?_
    rw [Form.kind, Form.decodeContent]
  | int n =>
    refine ((encodes_int n).map Form.int).congr fun _ _ => ?_
    rw [Form.kind, Form.decodeContent]
  | str s =>
    refine ((encodes_text s).map Form.str).congr fun _ _ => ?_
    rw [Form.kind, Form.decodeContent]
  | var v =>
    refine ((encodes_text v).map Form.var).congr fun _ _ => ?_
    rw [Form.kind, Form.decodeContent]
  | name n =>
    refine ((encodes_text n).map Form.name).congr fun _ _ => ?_
    rw [Form.kind, Form.decodeContent]
  | expression value =>
    refine ((hhead value (by simp [Form.heads])).map Form.expression).congr fun _ _ => ?_
    rw [Form.kind, Form.decodeContent]
  | ret value =>
    have hvalue : Encodes (fun limit => Decode.nullable (Node.decode limit))
        (Json.nullable Node.toJson value) value :=
      .nullable (fun c hc => hhead c (by simpa [Form.heads] using hc)) fun c _ => c.toJson_ne_null
    have hjson : (map Node.toJson (ret value)).contentToJson = Json.nullable Node.toJson value := by
      cases value <;> rfl
    rw [hjson]
    refine (hvalue.map Form.ret).congr fun _ _ => ?_
    rw [Form.kind, Form.decodeContent]
  | group statements =>
    refine (hstatements.map Form.group).congr fun _ _ => ?_
    rw [Form.kind, Form.decodeContent]
  | program statements =>
    refine (hstatements.map Form.program).congr fun _ _ => ?_
    rw [Form.kind, Form.decodeContent]
  | assign target value =>
    refine Form.encodes_record rfl ["target", "value"] rfl (by decide) ?_
    intro limit json x y hheld
    simp only [Form.kind, Form.decodeRecord, hheld]
    exact .cons ((hhead target (by simp [Form.heads])).required rfl) <|
      .cons ((hhead value (by simp [Form.heads])).required rfl) .nil
  | notIdentical left right =>
    refine Form.encodes_record rfl ["left", "right"] rfl (by decide) ?_
    intro limit json x y hheld
    simp only [Form.kind, Form.decodeRecord, hheld]
    exact .cons ((hhead left (by simp [Form.heads])).required rfl) <|
      .cons ((hhead right (by simp [Form.heads])).required rfl) .nil
  | ternary condition ifTrue ifFalse =>
    refine Form.encodes_record rfl ["condition", "if_true", "if_false"] rfl (by decide) ?_
    intro limit json x y z hheld
    simp only [Form.kind, Form.decodeRecord, hheld]
    exact .cons ((hhead condition (by simp [Form.heads])).required rfl) <|
      .cons ((hhead ifTrue (by simp [Form.heads])).required rfl) <|
      .cons ((hhead ifFalse (by simp [Form.heads])).required rfl) .nil
  | propertyFetch object property | nullsafePropertyFetch object property =>
    refine Form.encodes_record rfl ["object", "property"] rfl (by decide) ?_
    intro limit json x y hheld
    simp only [Form.kind, Form.decodeRecord, hheld]
    exact .cons ((hhead object (by simp [Form.heads])).required rfl) <|
      .cons ((encodes_text property).required rfl) .nil
  | methodCall object method args | nullsafeMethodCall object method args =>
    refine Form.encodes_record rfl ["object", "method", "args"] rfl (by decide) ?_
    intro limit json x y z hheld
    simp only [Form.kind, Form.decodeRecord, hheld]
    exact .cons ((hhead object (by simp [Form.heads])).required rfl) <|
      .cons ((encodes_text method).required rfl) <|
      .cons (encodes_args hvalue hargs) .nil
  | staticCall scope method args =>
    refine Form.encodes_record rfl ["class", "method", "args"] rfl (by decide) ?_
    intro limit json x y z hheld
    simp only [Form.kind, Form.decodeRecord, hheld]
    exact .cons ((hhead scope (by simp [Form.heads])).required rfl) <|
      .cons ((encodes_text method).required rfl) <|
      .cons (encodes_args hvalue hargs) .nil
  | functionCall function args =>
    refine Form.encodes_record rfl ["function", "args"] rfl (by decide) ?_
    intro limit json x y hheld
    simp only [Form.kind, Form.decodeRecord, hheld]
    exact .cons ((hhead function (by simp [Form.heads])).required rfl) <|
      .cons (encodes_args hvalue hargs) .nil
  | new scope args =>
    refine Form.encodes_record rfl ["class", "args"] rfl (by decide) ?_
    intro limit json x y hheld
    simp only [Form.kind, Form.decodeRecord, hheld]
    exact .cons ((hhead scope (by simp [Form.heads])).required rfl) <|
      .cons (encodes_args hvalue hargs) .nil
  | clone object =>
    refine Form.encodes_record rfl ["object"] rfl (by decide) ?_
    intro limit json x hheld
    simp only [Form.kind, Form.decodeRecord, hheld]
    exact .cons ((hhead object (by simp [Form.heads])).required rfl) .nil
  | closure params captures body isStatic =>
    refine Form.encodes_record rfl ["params", "uses", "body", "is_static"] rfl (by decide) ?_
    intro limit json x y z w hheld
    simp only [Form.kind, Form.decodeRecord, hheld]
    exact .cons (encodes_params hdefault hparams) <|
      .cons ((Encodes.list fun c hc => Capture.encodes (hcaptures c hc)).required rfl) <|
      .cons (hstatements.required rfl) <|
      .cons ((encodes_bool isStatic).required rfl) .nil
  | functionDecl n params body =>
    refine Form.encodes_record rfl ["name", "params", "body"] rfl (by decide) ?_
    intro limit json x y z hheld
    simp only [Form.kind, Form.decodeRecord, hheld]
    exact .cons (encodesField_name n) <|
      .cons (encodes_params hdefault hparams) <|
      .cons (hstatements.required rfl) .nil
  | classDecl n members =>
    refine Form.encodes_record rfl ["name", "members"] rfl (by decide) ?_
    intro limit json x y hheld
    simp only [Form.kind, Form.decodeRecord, hheld]
    exact .cons (encodesField_name n) <|
      .cons (hstatements.required rfl) .nil
  | methodDecl n modifiers params body =>
    refine Form.encodes_record rfl ["name", "modifiers", "params", "body"] rfl (by decide) ?_
    intro limit json x y z w hheld
    simp only [Form.kind, Form.decodeRecord, hheld]
    exact .cons (encodesField_name n) <|
      .cons ((Encodes.list fun s _ => encodes_text s).required rfl) <|
      .cons (encodes_params hdefault hparams) <|
      .cons (hstatements.required rfl) .nil

/-- A layer over trees that are read back is read back. -/
theorem Form.encodes (hcontent : Encodes (Form.decodeContent form.kind)
      (form.map Node.toJson).contentToJson form) :
    Encodes Form.decode (form.map Node.toJson).toJson form := by
  by_cases hnull : form = .null
  · subst hnull
    refine .of_scalar trivial rfl fun limit => ?_
    show Form.decode limit (.str (some Kind.null.label)) = _
    rw [Form.decode, Kind.ofLabel?_label]
    rfl
  · have hjson : (form.map Node.toJson).toJson =
        .record [(form.kind.label, (form.map Node.toJson).contentToJson)] := by
      cases form <;> first | rfl | exact absurd rfl hnull
    have hdecode (limit : Nat) (content : Json) :
        Form.decode (limit + 1) (.record [(form.kind.label, content)]) =
          Form.decodeContent form.kind limit content := by
      simp [record, Form.decode]
    rw [hjson]
    refine ⟨isProper_record.mpr (by simpa using hcontent.proper), ?_, ?_⟩
    · intro limit json' hdepth hvariant
      obtain ⟨content', rfl, hcontent'⟩ := hvariant.of_tagged
      cases limit with
      | zero => simp [record, depth] at hdepth
      | succ limit =>
        rw [hdecode]
        exact hcontent.decode_variant (by simpa using depth_record_le.mp hdepth) hcontent'
    · intro limit hsome
      cases limit with
      | zero => simp [record, Form.decode] at hsome
      | succ limit =>
        rw [hdecode] at hsome
        rw [depth_record_le]
        simpa using hcontent.depth_le hsome

end Layers

/-- Trees are read back. -/
theorem Node.encodes {n : Node} (h : n.OffsetsFit) : Encodes Node.decode n.toJson n := by
  induction n using Node.inductionOn with
  | step form span marks ih =>
    have hown : ∀ s ∈ (⟨form, span, marks⟩ : Node).ownSpans, s.Fits := h.self
    simp only [Node.ownSpans, List.mem_append, or_imp, forall_and, List.mem_filterMap,
      forall_exists_index, and_imp] at hown
    obtain ⟨⟨⟨hspan, hargs⟩, hparams⟩, hcaptures⟩ := hown
    have hform : Encodes Form.decode (form.map Node.toJson).toJson form :=
      Form.encodes <| Form.encodes_content (fun c hc => ih c hc (h.child hc))
        (fun a ha s hs => hargs s a ha hs) (fun p hp s hs => hparams s p hp hs)
        (fun c hc s hs => hcaptures s c hc hs)
    rw [Node.toJson_mk]
    refine .of_reading ["ast", "span", "attrs"] rfl (by decide)
      (fun _ => by simp [Node.decode]) ?_
    intro limit json x y z hheld
    unfold Node.decode
    simp only [hheld]
    exact .cons (hform.required rfl) <|
      .cons (encodesField_span fun s hs => hspan s (by simpa using hs)) <|
      .cons (encodesField_marks marks) .nil

/-! ### Units -/

theorem TokenKind.encodes (kind : TokenKind) : Encodes TokenKind.decode kind.toJson kind :=
  .of_scalar trivial rfl fun limit => by
    simp [TokenKind.decode, TokenKind.toJson, Decode.tag, Json.text]

theorem Token.encodes {t : Token} (h : t.span.Fits) : Encodes Token.decode t.toJson t := by
  refine .of_reading ["kind", "text", "span"] rfl (by decide) (fun _ => rfl) ?_
  intro limit json kind content span hheld
  simp only [Token.decode, hheld]
  exact .cons (t.kind.encodes.required rfl) <| .cons ((encodes_text t.text).required rfl) <|
    .cons ((Span.encodes h).required_of_ne (by simp [defaults, Span.toJson, record])) .nil

/-- Units are read back. -/
theorem SourceUnit.encodes {u : SourceUnit} (h : u.OffsetsFit) :
    Encodes SourceUnit.decode u.toJson u := by
  have htokens : Encodes (fun limit => Decode.nullable (decodeTokens limit))
      (.nullable tokensToJson u.tokens) u.tokens :=
    .nullable (fun tokens htokens => Encodes.list fun t ht =>
      Token.encodes (h.2 tokens htokens t ht)) (by simp [tokensToJson])
  refine .of_reading ["path", "source", "tokens", "ast"] rfl (by decide) (fun _ => rfl) ?_
  intro limit json path source tokens tree hheld
  simp only [SourceUnit.decode, hheld]
  refine .cons ((encodes_text u.path).required rfl) <|
    .cons (encodesField_nullable_text rfl u.source) <|
    .cons (htokens.withDefault ?_) <| .cons ((Node.encodes h.1).required rfl) .nil
  cases u.tokens <;> simp [defaults, List.lookup_cons, Json.nullable, tokensToJson]

namespace SourceUnit

theorem decodeText?_of_variant {u : SourceUnit} (hfits : u.OffsetsFit)
    (hdepth : u.toJson.depth ≤ nestingLimit) {json : Json} (hvariant : Variant u.toJson json)
    {text : String} (htext : parse? text = some json) : decodeText? decode text = some u := by
  rw [decodeText?, htext]
  exact (encodes hfits).decode_variant hdepth hvariant

/-- **A unit is handed over unchanged.** If its offsets fit in 64 bits and its encoding is not
nested too deeply, both texts of a unit are read back as the unit, and so is every text of a
variant of its encoding, whatever the layout; a variant has texts unless a field was added whose
value cannot be written. -/
theorem handed_over_unchanged (u : SourceUnit) (hfits : u.OffsetsFit)
    (hdepth : u.toJson.depth ≤ nestingLimit) :
    decodeText? decode u.toJson.compact = some u ∧
    decodeText? decode u.toJson.pretty = some u ∧
    ∀ json, Variant u.toJson json →
      (∀ text, parse? text = some json → decodeText? decode text = some u) ∧
      (json.IsProper →
        decodeText? decode json.compact = some u ∧ decodeText? decode json.pretty = some u) := by
  have hproper : u.toJson.IsProper := (encodes hfits).proper
  have htext {json : Json} (hvariant : Variant u.toJson json) {text : String}
      (h : parse? text = some json) : decodeText? decode text = some u :=
    decodeText?_of_variant hfits hdepth hvariant h
  refine ⟨htext (.same _) (parse?_compact hproper), htext (.same _) (parse?_pretty hproper), ?_⟩
  intro json hvariant
  exact ⟨fun text => htext hvariant, fun hjson =>
    ⟨htext hvariant (parse?_compact hjson), htext hvariant (parse?_pretty hjson)⟩⟩

/-- A closure that captures a variable, without its source text. -/
def capturing : SourceUnit :=
  { path := "a", tree := ⟨.closure [] [{ name := "x" }] [] true, none, { textValid := false }⟩ }

/-- Its encoding with defaults left out, fields in another order, and a field added. -/
def capturingVariant : Json :=
  .record [
    ("note", .arr [.real "1.5e3"]),
    ("ast", .record [
      ("attrs", .record [("original_text_valid", .bool false)]),
      ("ast", .record [("Closure", .record [
        ("is_static", .bool true), ("body", .arr []),
        ("uses", .arr [.record [("name", .text "x")]]), ("params", .arr [])])])]),
    ("path", .text "a")]

theorem variant_capturing : Variant capturing.toJson capturingVariant := by
  have hcapture : Variant (Capture.toJson { name := "x" }) (.record [("name", .text "x")]) :=
    .of_kept (by decide) (.keep (.same _) (.drop rfl (.drop rfl (.drop rfl .nil)))) (.refl _)
  have hmarks : Variant (Marks.toJson { textValid := false })
      (.record [("original_text_valid", .bool false)]) :=
    .of_kept (by decide) (.keep (.same _) (.drop rfl .nil)) (.refl _)
  have hcontent : Variant (capturing.tree.form.map Node.toJson).contentToJson
      (.record [
        ("is_static", .bool true), ("body", .arr []),
        ("uses", .arr [.record [("name", .text "x")]]), ("params", .arr [])]) :=
    .of_kept (by decide)
      (.keep (.same (.arr [])) <| .keep (.arr (.cons hcapture .nil)) <| .keep (.same (.arr [])) <|
        .keep (.same _) .nil)
      (List.reverse_perm [("params", Json.arr []), ("uses", _), ("body", _), ("is_static", _)])
  have htree : Variant capturing.tree.toJson
      (.record [
        ("attrs", .record [("original_text_valid", .bool false)]),
        ("ast", .record [(Kind.closure.label, _)])]) :=
    .of_kept (by decide)
      (.keep (.tagged .closure hcontent) <| .drop rfl <| .keep hmarks .nil)
      (List.reverse_perm [("ast", Json.record [(Kind.closure.label, _)]), ("attrs", _)])
  have hextra : ∀ field ∈ [("note", Json.arr [.real "1.5e3"])],
      field.1 ∉ ["path", "source", "tokens", "ast"] := by simp
  exact .record (by decide)
    (.keep (.same _) <| .drop rfl <| .drop rfl <| .keep htree .nil) hextra
    (List.reverse_perm [("path", Json.text "a"), ("ast", _), ("note", _)])

/-- The variant on one line. -/
def capturingText : String :=
  "\x7b\"note\": [1.5e3], \"ast\": \x7b\"attrs\": \x7b\"original_text_valid\": false\x7d, " ++
  "\"ast\": \x7b\"Closure\": \x7b\"is_static\": true, \"body\": [], " ++
  "\"uses\": [\x7b\"name\": \"x\"\x7d], \"params\": []\x7d\x7d\x7d, \"path\": \"a\"\x7d"

theorem handed_over_unchanged_of_capturing :
    capturing.OffsetsFit ∧ capturing.toJson.depth ≤ nestingLimit ∧
      decodeText? decode capturing.toJson.pretty = some capturing ∧
      decodeText? decode capturingText = some capturing := by
  have hfits : capturing.OffsetsFit := ⟨by decide, by simp [capturing]⟩
  have hdepth : capturing.toJson.depth ≤ nestingLimit := by decide
  obtain ⟨-, hpretty, hvariants⟩ := handed_over_unchanged capturing hfits hdepth
  refine ⟨hfits, hdepth, hpretty, (hvariants _ variant_capturing).1 capturingText ?_⟩
  have htokens : tokens? capturingText = some capturingVariant.toks := by decide +kernel
  rw [parse?, htokens]
  exact ofTokens?_toks capturingVariant

end SourceUnit

end SyntaxLowering
