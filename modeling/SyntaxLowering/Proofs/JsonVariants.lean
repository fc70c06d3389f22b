import Mathlib.Algebra.GroupWithZero.Nat
import SyntaxLowering.Codec.Tree
import SyntaxLowering.Proofs.JsonText
import SyntaxLowering.Proofs.Layer

/-!
# Variants of encoded values

A record is written with all its fields in a fixed order. `Json.Variant` relates what is written
to what is read alike: fields may stand in another order, fields that hold their default may be
missing, and fields that the record does not have may be added.

`Json.Encodes` says that a decoder reads a value from every variant of its encoding as long as the
encoding is not nested deeper than the decoder may go, and from an encoding that is nested deeper
not at all. It is proved here for scalars, lists, and records whose fields have it; how a record is
read field by field is described by `Json.Reading`.
-/

namespace SyntaxLowering.Json

/-! ### Variants -/

/-- The fields of records that may be missing, with the values they then have. -/
def defaults : List (String × Json) :=
  [("span", .null), ("attrs", Marks.toJson {}),
    ("original_text_valid", .bool true), ("suppress_trailing_separator", .bool false),
    ("name", .null), ("unpack", .bool false), ("by_ref", .bool false),
    ("type_hint", .null), ("default", .null), ("variadic", .bool false),
    ("source", .null), ("tokens", .null)]

mutual

/-- `Variant json json'` holds if `json'` differs from `json` only in how records are spelled out.
An object that maps the label of a kind to the contents of a layer is no record: it has exactly
that one field. -/
inductive Variant : Json → Json → Prop
  | same (json : Json) : Variant json json
  | arr {items items' : List Json} (h : List.Forall₂ Variant items items') :
      Variant (.arr items) (.arr items')
  | tagged (kind : Kind) {content content' : Json} (h : Variant content content') :
      Variant (.record [(kind.label, content)]) (.record [(kind.label, content')])
  | record {fields kept extra fields' : List (String × Json)}
      (huntagged : ∀ key ∈ fields.map Prod.fst, Kind.ofLabel? key = none) (hkept : Kept fields kept)
      (hextra : ∀ field ∈ extra, field.1 ∉ fields.map Prod.fst)
      (hperm : fields'.Perm (kept ++ extra)) : Variant (.record fields) (.record fields')

/-- `Kept fields kept` holds if `kept` has variants of the fields, in their order, except for some
that may be missing. -/
inductive Kept : List (String × Json) → List (String × Json) → Prop
  | nil : Kept [] []
  | keep {key : String} {json json' : Json} {fields kept : List (String × Json)}
      (h : Variant json json') (hrest : Kept fields kept) :
      Kept ((key, json) :: fields) ((key, json') :: kept)
  | drop {key : String} {json : Json} {fields kept : List (String × Json)}
      (h : defaults.lookup key = some json) (hrest : Kept fields kept) :
      Kept ((key, json) :: fields) kept

end

/-- What a record may have in the place of a field: a variant of its value, or nothing if it is
the default. -/
inductive Held : String × Json → Option Json → Prop
  | present {key : String} {json json' : Json} (h : Variant json json') :
      Held (key, json) (some json')
  | missing {key : String} {json : Json} (h : defaults.lookup key = some json) :
      Held (key, json) none

theorem record_inj {fields fields' : List (String × Json)} :
    record fields = record fields' ↔ fields = fields' := by
  have hinj : Function.Injective fun field : String × Json => (some field.1, field.2) := by
    rintro ⟨k, v⟩ ⟨k', v'⟩ h
    simpa using h
  rw [record, record, Json.obj.injEq]
  exact ⟨fun h => List.map_injective_iff.mpr hinj h, congrArg _⟩

theorem Kept.same (fields : List (String × Json)) : Kept fields fields := by
  induction fields with
  | nil => exact .nil
  | cons field fields ih => exact .keep (.same field.2) ih

namespace Variant

/-- A record without added fields. -/
theorem of_kept {fields kept fields' : List (String × Json)}
    (huntagged : ∀ key ∈ fields.map Prod.fst, Kind.ofLabel? key = none) (hkept : Kept fields kept)
    (hperm : fields'.Perm kept) : Variant (.record fields) (.record fields') :=
  .record huntagged hkept (fun _ h => absurd h List.not_mem_nil) (by rwa [List.append_nil])

theorem of_scalar {json json' : Json} (h : Variant json json') (hscalar : json.depth = 0) :
    json' = json := by
  cases h with
  | same => rfl
  | _ => simp [Json.record, depth] at hscalar

theorem of_arr {items : List Json} {json' : Json} (h : Variant (.arr items) json') :
    ∃ items', json' = .arr items' ∧ List.Forall₂ Variant items items' := by
  cases h with
  | same => exact ⟨items, rfl, List.forall₂_same.mpr fun item _ => .same item⟩
  | arr h => exact ⟨_, rfl, h⟩

/-- What a variant of a record looks like. -/
theorem of_record {fields : List (String × Json)}
    (huntagged : ∀ key ∈ fields.map Prod.fst, Kind.ofLabel? key = none) {json' : Json}
    (h : Variant (.record fields) json') :
    ∃ kept extra fields', json' = .record fields' ∧ Kept fields kept ∧
      (∀ field ∈ extra, field.1 ∉ fields.map Prod.fst) ∧ fields'.Perm (kept ++ extra) := by
  generalize hjson : Json.record fields = json at h
  cases h with
  | same => exact ⟨fields, [], fields, hjson.symm, .same fields, by simp, by simp⟩
  | arr => simp [Json.record] at hjson
  | tagged kind =>
    obtain rfl := record_inj.mp hjson
    simpa using huntagged kind.label List.mem_cons_self
  | record _ hkept hextra hperm =>
    obtain rfl := record_inj.mp hjson
    exact ⟨_, _, _, rfl, hkept, hextra, hperm⟩

theorem of_tagged {kind : Kind} {content json' : Json}
    (h : Variant (.record [(kind.label, content)]) json') :
    ∃ content', json' = .record [(kind.label, content')] ∧ Variant content content' := by
  generalize hjson : Json.record [(kind.label, content)] = json at h
  cases h with
  | same => exact ⟨content, hjson.symm, .same content⟩
  | arr => simp [Json.record] at hjson
  | tagged kind' h =>
    obtain ⟨hlabel, rfl⟩ : kind.label = kind'.label ∧ content = _ := by
      simpa using record_inj.mp hjson
    exact ⟨_, by rw [hlabel], h⟩
  | record huntagged =>
    obtain rfl := record_inj.mp hjson
    simpa using huntagged kind.label List.mem_cons_self

theorem ne_null {json json' : Json} (h : Variant json json') (hjson : json ≠ .null) :
    json' ≠ .null := by
  cases h with
  | same => exact hjson
  | _ => simp [Json.record]

end Variant

/-! ### The fields of a variant -/

/-- The value of a field in a record, which may have the field at most once. -/
def field? (key : String) (fields : List (String × Json)) : Option (Option Json) :=
  match fields.filter (·.1 == key) with
  | [] => some none
  | [(_, value)] => some (some value)
  | _ => none

theorem fields?_record (keys : List String) (fields : List (String × Json)) :
    (record fields).fields? keys = keys.mapM (field? · fields) := by
  have hrecord : record fields = obj (fields.map fun field => (some field.1, field.2)) := rfl
  have hnone : (fields.map fun field => (some field.1, field.2)).any (·.1.isNone) = false := by
    simp [List.any_eq_false]
  simp only [hrecord, fields?, namedFields?, hnone, Bool.false_eq_true, if_false]
  congr 1
  funext key
  rw [field?, List.filter_map]
  rcases hfields : fields.filter (·.1 == key) with _ | ⟨_, _ | ⟨_, _⟩⟩ <;>
    simp [Function.comp_def, hfields]

theorem filter_key_eq_nil {key : String} {fields : List (String × Json)}
    (h : key ∉ fields.map Prod.fst) : fields.filter (·.1 == key) = [] := by
  simp only [List.filter_eq_nil_iff, beq_iff_eq]
  exact fun field hmem hkey => h (List.mem_map.mpr ⟨field, hmem, hkey⟩)

theorem field?_eq_none {key : String} {fields : List (String × Json)}
    (h : key ∉ fields.map Prod.fst) : field? key fields = some none := by
  rw [field?, filter_key_eq_nil h]

theorem field?_cons_self {key : String} {json : Json} {fields : List (String × Json)}
    (h : key ∉ fields.map Prod.fst) : field? key ((key, json) :: fields) = some (some json) := by
  simp [field?, filter_key_eq_nil h]

theorem field?_cons_ne {key : String} {field : String × Json} {fields : List (String × Json)}
    (h : field.1 ≠ key) : field? key (field :: fields) = field? key fields := by
  simp [field?, h]

/-- Neither the order of the fields nor other fields matter. -/
theorem field?_perm {key : String} {fields kept extra : List (String × Json)}
    (hextra : key ∉ extra.map Prod.fst) (hperm : fields.Perm (kept ++ extra)) :
    field? key fields = field? key kept := by
  have hfilter : (fields.filter (·.1 == key)).Perm (kept.filter (·.1 == key)) := by
    simpa [List.filter_append, filter_key_eq_nil hextra] using hperm.filter (·.1 == key)
  unfold field?
  generalize fields.filter (·.1 == key) = found at hfilter
  generalize kept.filter (·.1 == key) = found' at hfilter
  rcases found' with _ | ⟨x, _ | ⟨y, rest⟩⟩
  · rw [hfilter.eq_nil]
  · rw [List.perm_singleton.mp hfilter]
  · have hlength := hfilter.length_eq
    rcases found with _ | ⟨z, _ | ⟨w, rest'⟩⟩
    · simp at hlength
    · simp at hlength
    · rfl

theorem Kept.subset {fields kept : List (String × Json)} (h : Kept fields kept) :
    kept.map Prod.fst ⊆ fields.map Prod.fst := by
  induction fields generalizing kept with
  | nil =>
    cases h
    exact List.Subset.refl _
  | cons field fields ih =>
    cases h with
    | keep _ hrest => exact List.cons_subset_cons _ (ih hrest)
    | drop _ hrest => exact List.subset_cons_of_subset _ (ih hrest)

/-- Each field of a record is there or holds its default. -/
theorem Kept.field? {fields kept : List (String × Json)} (h : Kept fields kept)
    (hnodup : (fields.map Prod.fst).Nodup) {field : String × Json} (hfield : field ∈ fields) :
    ∃ held, Json.field? field.1 kept = some held ∧ Held field held := by
  induction fields generalizing kept with
  | nil => cases hfield
  | cons first fields ih =>
    obtain ⟨key, json⟩ := first
    obtain ⟨hfirst, hrestNodup⟩ := List.nodup_cons.mp hnodup
    cases h with
    | keep h hrest =>
      rcases List.mem_cons.mp hfield with rfl | hmem
      · exact ⟨_, field?_cons_self fun hmem => hfirst (hrest.subset hmem), .present h⟩
      · have hne : key ≠ field.1 := by
          rintro rfl
          exact hfirst (List.mem_map.mpr ⟨field, hmem, rfl⟩)
        rw [field?_cons_ne hne]
        exact ih hrest hrestNodup hmem
    | drop h hrest =>
      rcases List.mem_cons.mp hfield with rfl | hmem
      · exact ⟨_, field?_eq_none fun hmem => hfirst (hrest.subset hmem), .missing h⟩
      · exact ih hrest hrestNodup hmem

/-- Reading a list item by item succeeds if every item can be read. -/
theorem mapM_eq_some {α β : Type} {f : α → Option β} {as : List α} {bs : List β} :
    as.mapM f = some bs ↔ List.Forall₂ (fun a b => f a = some b) as bs := by
  induction as generalizing bs with
  | nil => simp [eq_comm]
  | cons a as ih =>
    rw [List.forall₂_cons_left_iff]
    simp only [List.mapM_cons, Option.bind_eq_bind, Option.bind_eq_some_iff, Option.pure_def,
      Option.some.injEq, ih]
    constructor
    · rintro ⟨b, hb, bs, hbs, rfl⟩
      exact ⟨b, bs, hb, hbs, rfl⟩
    · rintro ⟨b, bs, hb, hbs, rfl⟩
      exact ⟨b, hb, bs, hbs, rfl⟩

/-- The fields of a record in a variant of it. -/
theorem Variant.fields? {fields : List (String × Json)} (hnodup : (fields.map Prod.fst).Nodup)
    (huntagged : ∀ key ∈ fields.map Prod.fst, Kind.ofLabel? key = none) {json' : Json}
    (h : Variant (.record fields) json') :
    ∃ held, json'.fields? (fields.map Prod.fst) = some held ∧ List.Forall₂ Held fields held := by
  obtain ⟨kept, extra, fields', rfl, hkept, hextra, hperm⟩ := h.of_record huntagged
  have hfield (field : String × Json) (hfield : field ∈ fields) :
      ∃ held, Json.field? field.1 fields' = some held ∧ Held field held := by
    have hother : field.1 ∉ extra.map Prod.fst := by
      intro hmem
      obtain ⟨other, hother, hkey⟩ := List.mem_map.mp hmem
      exact hextra other hother (hkey ▸ List.mem_map_of_mem hfield)
    rw [field?_perm hother hperm]
    exact hkept.field? hnodup hfield
  choose! held hheld hrel using hfield
  refine ⟨fields.map held, ?_, ?_⟩
  · rw [fields?_record, mapM_eq_some, List.forall₂_map_left_iff, List.forall₂_map_right_iff]
    exact List.forall₂_same.mpr hheld
  · rw [List.forall₂_map_right_iff]
    exact List.forall₂_same.mpr hrel

theorem field?_of_mem {fields : List (String × Json)} (hnodup : (fields.map Prod.fst).Nodup)
    {field : String × Json} (hfield : field ∈ fields) :
    Json.field? field.1 fields = some (some field.2) := by
  induction fields with
  | nil => cases hfield
  | cons first fields ih =>
    obtain ⟨hfirst, hnodup⟩ := List.nodup_cons.mp hnodup
    rcases List.mem_cons.mp hfield with rfl | hmem
    · exact field?_cons_self hfirst
    · have hne : first.1 ≠ field.1 := fun heq => hfirst (heq ▸ List.mem_map_of_mem hmem)
      rw [field?_cons_ne hne]
      exact ih hnodup hmem

/-- The fields of a record in the record itself. -/
theorem fields?_self {fields : List (String × Json)} (hnodup : (fields.map Prod.fst).Nodup) :
    (record fields).fields? (fields.map Prod.fst) =
      some (fields.map fun field => some field.2) := by
  rw [fields?_record, mapM_eq_some, List.forall₂_map_left_iff, List.forall₂_map_right_iff]
  exact List.forall₂_same.mpr fun field hfield => field?_of_mem hnodup hfield

/-! ### Depth -/

theorem depth_arr_le {items : List Json} {limit : Nat} :
    (arr items).depth ≤ limit + 1 ↔ ∀ item ∈ items, item.depth ≤ limit := by
  rw [depth, Nat.add_le_add_iff_right]
  induction items with
  | nil => simp [depthItems]
  | cons item items ih => rw [depthItems, Nat.max_le, List.forall_mem_cons, ih]

theorem depth_record_le {fields : List (String × Json)} {limit : Nat} :
    (record fields).depth ≤ limit + 1 ↔ ∀ field ∈ fields, field.2.depth ≤ limit := by
  rw [record, depth, Nat.add_le_add_iff_right]
  induction fields with
  | nil => simp [depthFields]
  | cons field fields ih =>
    rw [List.map_cons, depthFields, Nat.max_le, List.forall_mem_cons, ih]

/-! ### Encodings -/

section Encodings

variable {α : Type}

/-- An encoding of a value: it has a text, and the value is read from its variants as long as it is
not nested too deeply. If it is, nothing is read. -/
structure Encodes (decode : Nat → Json → Option α) (json : Json) (a : α) : Prop where
  proper : json.IsProper
  decode_variant {limit : Nat} {json' : Json} :
    json.depth ≤ limit → Variant json json' → decode limit json' = some a
  depth_le {limit : Nat} : (decode limit json).isSome → json.depth ≤ limit

theorem Encodes.of_scalar {decode : Nat → Json → Option α} {json : Json} {a : α}
    (hproper : json.IsProper) (hscalar : json.depth = 0) (h : ∀ limit, decode limit json = some a) :
    Encodes decode json a where
  proper := hproper
  decode_variant _ hvariant := by rw [hvariant.of_scalar hscalar, h]
  depth_le _ := by omega

theorem Encodes.congr {decode decode' : Nat → Json → Option α} {json : Json} {a : α}
    (h : Encodes decode json a) (heq : ∀ limit json, decode' limit json = decode limit json) :
    Encodes decode' json a := by
  obtain rfl : decode' = decode := by
    funext limit json
    exact heq limit json
  exact h

theorem Encodes.map {β : Type} {decode : Nat → Json → Option α} {json : Json} {a : α}
    (h : Encodes decode json a) (f : α → β) :
    Encodes (fun limit json => (decode limit json).map f) json (f a) where
  proper := h.proper
  decode_variant hdepth hvariant := by rw [h.decode_variant hdepth hvariant]; rfl
  depth_le hsome := h.depth_le (by rwa [Option.isSome_map] at hsome)

theorem encodes_text (s : String) : Encodes (fun _ => Decode.text) (text s) s :=
  .of_scalar trivial rfl fun _ => rfl

theorem encodes_bool (b : Bool) : Encodes (fun _ => Decode.bool) (bool b) b :=
  .of_scalar trivial rfl fun _ => rfl

theorem Encodes.nullable {decode : Nat → Json → Option α} {encode : α → Json} {a : Option α}
    (h : ∀ b ∈ a, Encodes decode (encode b) b) (hnull : ∀ b ∈ a, encode b ≠ .null) :
    Encodes (fun limit => Decode.nullable (decode limit)) (Json.nullable encode a) a := by
  cases a with
  | none => exact .of_scalar trivial rfl fun _ => rfl
  | some b =>
    have heq {json : Json} (hjson : json ≠ .null) (limit : Nat) :
        Decode.nullable (decode limit) json = (decode limit json).map some := by
      cases json <;> first | rfl | exact absurd rfl hjson
    have hb := h b rfl
    refine ⟨hb.proper, ?_, ?_⟩
    · intro limit json' hdepth hvariant
      rw [heq (hvariant.ne_null (hnull b rfl)), hb.decode_variant hdepth hvariant]
      rfl
    · intro limit hsome
      rw [Json.nullable, heq (hnull b rfl), Option.isSome_map] at hsome
      exact hb.depth_le hsome

theorem Encodes.list {decode : Nat → Json → Option α} {encode : α → Json} {as : List α}
    (h : ∀ a ∈ as, Encodes decode (encode a) a) :
    Encodes (Decode.list decode) (.arr (as.map encode)) as := by
  refine ⟨isProper_arr.mpr (List.forall_mem_map.mpr fun a ha => (h a ha).proper), ?_, ?_⟩
  · intro limit json' hdepth hvariant
    obtain ⟨items, rfl, hitems⟩ := hvariant.of_arr
    cases limit with
    | zero => simp [depth] at hdepth
    | succ limit =>
      rw [depth_arr_le, List.forall_mem_map] at hdepth
      rw [List.forall₂_map_left_iff] at hitems
      rw [Decode.list, mapM_eq_some]
      exact forall₂_imp_of_mem hitems.flip fun item a ha hitem =>
        (h a ha).decode_variant (hdepth a ha) hitem
  · intro limit hsome
    cases limit with
    | zero => simp [Decode.list] at hsome
    | succ limit =>
      rw [depth_arr_le, List.forall_mem_map]
      intro a ha
      obtain ⟨bs, hbs⟩ := Option.isSome_iff_exists.mp hsome
      rw [Decode.list, mapM_eq_some, List.forall₂_map_left_iff] at hbs
      obtain ⟨b, -, hb⟩ := exists_left_of_forall₂ hbs.flip ha
      exact (h a ha).depth_le (by rw [hb]; rfl)

/-- What `Encodes` says of a field of a record. -/
structure EncodesField (decode : Nat → Option Json → Option α) (field : String × Json) (a : α) :
    Prop where
  proper : field.2.IsProper
  decode_held {limit : Nat} {held : Option Json} :
    field.2.depth ≤ limit → Held field held → decode limit held = some a
  depth_le {limit : Nat} : (decode limit (some field.2)).isSome → field.2.depth ≤ limit

theorem Encodes.required_of_ne {decode : Nat → Json → Option α} {key : String} {json : Json}
    {a : α} (h : Encodes decode json a) (hkey : defaults.lookup key ≠ some json) :
    EncodesField (fun limit => Decode.required (decode limit)) (key, json) a where
  proper := h.proper
  decode_held hdepth hheld := by
    cases hheld with
    | present hvariant => exact h.decode_variant hdepth hvariant
    | missing hmissing => exact absurd hmissing hkey
  depth_le := h.depth_le

theorem Encodes.required {decode : Nat → Json → Option α} {key : String} {json : Json} {a : α}
    (h : Encodes decode json a) (hkey : defaults.lookup key = none) :
    EncodesField (fun limit => Decode.required (decode limit)) (key, json) a :=
  h.required_of_ne (by simp [hkey])

theorem Encodes.withDefault {decode : Nat → Json → Option α} {key : String} {json : Json}
    {a default : α} (h : Encodes decode json a)
    (hdefault : defaults.lookup key = some json → a = default) :
    EncodesField (fun limit => Decode.withDefault default (decode limit)) (key, json) a where
  proper := h.proper
  decode_held hdepth hheld := by
    cases hheld with
    | present hvariant => exact h.decode_variant hdepth hvariant
    | missing hmissing => rw [hdefault hmissing]; rfl
  depth_le := h.depth_le

theorem encodesField_name (s : String) :
    EncodesField (fun _ => Decode.required Decode.text) ("name", text s) s :=
  (encodes_text s).required_of_ne (by simp [defaults, List.lookup_cons, text])

theorem encodesField_flag {key : String} (hkey : defaults.lookup key = some (.bool false))
    (b : Bool) :
    EncodesField (fun _ => Decode.withDefault false Decode.bool) (key, bool b) b :=
  (encodes_bool b).withDefault (by simp [hkey])

theorem encodesField_nullable_text {key : String} (hkey : defaults.lookup key = some .null)
    (s : Option String) :
    EncodesField (fun _ => Decode.withDefault none (Decode.nullable Decode.text))
      (key, Json.nullable text s) s :=
  (Encodes.nullable (fun s _ => encodes_text s) (by simp [text])).withDefault
    (by cases s <;> simp [hkey, Json.nullable, text])

/-- `Reading fields limit held result a`: a computation that reads the fields of a record from what
is held in their places gives `a` if that is a variant of them, and gives nothing if one of them is
there as it is and nested too deeply. -/
structure Reading (fields : List (String × Json)) (limit : Nat) (held : List (Option Json))
    (result : Option α) (a : α) : Prop where
  proper : ∀ field ∈ fields, field.2.IsProper
  eq_some : (∀ field ∈ fields, field.2.depth ≤ limit) → List.Forall₂ Held fields held →
    result = some a
  depth_le : held = fields.map (fun field => some field.2) → result.isSome →
    ∀ field ∈ fields, field.2.depth ≤ limit

theorem Reading.nil {limit : Nat} {a : α} : Reading [] limit [] (some a) a where
  proper _ hfield := absurd hfield List.not_mem_nil
  eq_some _ _ := rfl
  depth_le _ _ _ hfield := absurd hfield List.not_mem_nil

/-- The fields are read one after the other. -/
theorem Reading.cons {β : Type} {decode : Nat → Option Json → Option β} {field : String × Json}
    {b : β} {fields : List (String × Json)} {limit : Nat} {held : Option Json}
    {rest : List (Option Json)} {next : β → Option α} {a : α} (hfield : EncodesField decode field b)
    (hrest : Reading fields limit rest (next b) a) :
    Reading (field :: fields) limit (held :: rest) (decode limit held >>= next) a where
  proper := List.forall_mem_cons.mpr ⟨hfield.proper, hrest.proper⟩
  eq_some hdepth hheld := by
    rw [List.forall_mem_cons] at hdepth
    rw [List.forall₂_cons] at hheld
    rw [hfield.decode_held hdepth.1 hheld.1]
    exact hrest.eq_some hdepth.2 hheld.2
  depth_le hself hsome := by
    rw [List.map_cons, List.cons.injEq] at hself
    obtain ⟨rfl, hself⟩ := hself
    have hdepth : field.2.depth ≤ limit := by
      refine hfield.depth_le ?_
      by_contra hnone
      rw [Option.not_isSome_iff_eq_none] at hnone
      simp [hnone] at hsome
    rw [hfield.decode_held hdepth (.present (.same field.2))] at hsome
    rw [List.forall_mem_cons]
    exact ⟨hdepth, hrest.depth_le hself hsome⟩

/-- The names of the fields of a record: no name occurs twice, and none is the label of a kind. -/
def RecordKeys (keys : List String) : Prop :=
  keys.Nodup ∧ ∀ key ∈ keys, Kind.ofLabel? key = none

instance (keys : List String) : Decidable (RecordKeys keys) :=
  inferInstanceAs (Decidable (_ ∧ _))

/-- A property of what can be held for some keys, as a statement on the field of each key. -/
def ForHeld : List String → (List (Option Json) → Prop) → Prop
  | [], P => P []
  | _ :: keys, P => ∀ field, ForHeld keys fun held => P (field :: held)

theorem ForHeld.of_length_eq {keys : List String} {P : List (Option Json) → Prop}
    (h : ForHeld keys P) {held : List (Option Json)} (hlength : held.length = keys.length) :
    P held := by
  induction keys generalizing P held with
  | nil =>
    rw [List.length_eq_zero_iff.mp hlength]
    exact h
  | cons key keys ih =>
    obtain ⟨field, rest, rfl⟩ := List.exists_of_length_succ held hlength
    exact ih (h field) (Nat.succ.inj hlength)

/-- A record is read field by field. -/
theorem Encodes.of_reading {decode : Nat → Json → Option α} {fields : List (String × Json)} {a : α}
    (keys : List String) (hkeys : fields.map Prod.fst = keys) (hrecord : RecordKeys keys)
    (hzero : ∀ json, decode 0 json = none)
    (hreading : ∀ limit json, ForHeld keys fun held => json.fields? keys = some held →
      Reading fields limit held (decode (limit + 1) json) a) :
    Encodes decode (.record fields) a := by
  obtain ⟨hnodup, huntagged⟩ := hrecord
  subst hkeys
  have hself (limit : Nat) := (hreading limit _).of_length_eq (by simp) (fields?_self hnodup)
  refine ⟨isProper_record.mpr (hself 0).proper, ?_, ?_⟩
  · intro limit json' hdepth hvariant
    cases limit with
    | zero => simp [record, depth] at hdepth
    | succ limit =>
      obtain ⟨held, hheld, hrel⟩ := hvariant.fields? hnodup huntagged
      have hlength : held.length = (fields.map Prod.fst).length := by
        rw [List.length_map, hrel.length_eq]
      exact ((hreading limit json').of_length_eq hlength hheld).eq_some
        (depth_record_le.mp hdepth) hrel
  · intro limit hsome
    cases limit with
    | zero => simp [hzero] at hsome
    | succ limit =>
      rw [depth_record_le]
      exact (hself limit).depth_le rfl hsome

end Encodings

end SyntaxLowering.Json
