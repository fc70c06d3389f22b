import Mathlib.Order.Basic
import SyntaxLowering.Proofs.HoistPath
import SyntaxLowering.Proofs.UnitRoundTrip
import SyntaxLowering.Proofs.VisitedTrees

/-!
# How deeply lowered trees are nested

A `Gauge` counts the levels between a node and its children, and `Node.reach` how deep a tree is by
a gauge. By `Gauge.json` this is the depth of its encoding (`Node.depth_toJson`). By
`Gauge.lowering` a nullsafe access counts as what it is lowered to, and a statement that is in no
list as the group that it may become; then no step of a pass makes a tree deeper
(`Node.makesRoom_invariant`). The second gauge counts at most three times as much as the first, so
lowering makes the encoding of a tree at most three times as deep (`Session.depth_transform_le`).
-/

namespace SyntaxLowering

variable {α β : Type}

/-- Where a node stands: among the statements of a list, or in any other place. -/
inductive Place where
  | listed
  | alone

/-- How many levels lie between nodes. -/
structure Gauge where
  /-- From a node to a child that is in no list. -/
  head : Kind → Nat
  /-- From a call to the value of an argument. -/
  arg : Kind → Nat
  /-- Above a node, because of the place where it stands. -/
  extra : Place → Kind → Nat

/-- A step to a child: how many levels lie above it in its parent, and where it stands. -/
structure Step (α : Type) where
  down : Nat
  place : Place
  node : α

/-- How many levels lie above the statements in a node. -/
def Kind.bodyLevels : Kind → Nat
  | group => 0
  | program => 3
  | _ => 4

/-- The levels of a node of some kind without children. -/
def Kind.ownLevels : Kind → Nat
  | group => 0
  | program => 3
  | closure | functionDecl | classDecl | methodDecl => 4
  | _ => 2

namespace Form

/-- The levels of a node without its children. -/
def ownLevels (form : Form α) : Nat :=
  if form.params.isEmpty && form.captures.isEmpty then form.kind.ownLevels else 6

/-- The children of a layer with the levels above them. -/
def steps (g : Gauge) (form : Form α) : List (Step α) :=
  form.heads.map (⟨g.head form.kind, .alone, ·⟩) ++
    (form.args.map (·.value)).map (⟨g.arg form.kind, .alone, ·⟩) ++
    (form.params.filterMap (·.default)).map (⟨5, .alone, ·⟩) ++
    form.statements.map (⟨form.kind.bodyLevels, .listed, ·⟩)

theorem map_node_steps (g : Gauge) (form : Form α) :
    (form.steps g).map (·.node) = form.children := by
  simp [steps, children_eq, inline, Function.comp_def]

theorem node_mem_children {g : Gauge} {form : Form α} {s : Step α} (hs : s ∈ form.steps g) :
    s.node ∈ form.children := by
  rw [← map_node_steps g]
  exact List.mem_map_of_mem hs

theorem forall_steps {g : Gauge} {form : Form α} {P : Step α → Prop} :
    (∀ s ∈ form.steps g, P s) ↔
      (∀ c ∈ form.heads, P ⟨g.head form.kind, .alone, c⟩) ∧
      (∀ a ∈ form.args, P ⟨g.arg form.kind, .alone, a.value⟩) ∧
      (∀ p ∈ form.params, ∀ d ∈ p.default, P ⟨5, .alone, d⟩) ∧
      ∀ c ∈ form.statements, P ⟨form.kind.bodyLevels, .listed, c⟩ := by
  simp only [steps, List.forall_mem_append, List.forall_mem_map, List.forall_mem_filterMap,
    and_assoc, Option.mem_def]

/-- A parameter or a capture takes six levels. -/
theorem add_ownLevels_le {form : Form α} {k b : Nat} :
    k + form.ownLevels ≤ b ↔ k + form.kind.ownLevels ≤ b ∧
      (∀ p ∈ form.params, k + 6 ≤ b) ∧ ∀ c ∈ form.captures, k + 6 ≤ b := by
  have hall {γ : Type} (l : List γ) : (∀ a ∈ l, k + 6 ≤ b) ↔ l.isEmpty = true ∨ k + 6 ≤ b := by
    cases l with
    | nil => simp
    | cons a l =>
      exact ⟨fun h => .inr (h a List.mem_cons_self), fun h _ _ => h.resolve_left (by simp)⟩
  have hkind : form.kind.ownLevels ≤ 6 := by cases form.kind <;> decide
  rw [ownLevels, hall, hall]
  cases form.params.isEmpty <;> cases form.captures.isEmpty <;> simp <;> omega

theorem ownLevels_map (f : α → β) (form : Form α) : (form.map f).ownLevels = form.ownLevels := by
  simp [ownLevels]

theorem steps_map (g : Gauge) (f : α → β) (form : Form α) :
    (form.map f).steps g = (form.steps g).map fun s => ⟨s.down, s.place, f s.node⟩ := by
  simp [steps, Function.comp_def, Arg.map, Param.map, List.filterMap_map, List.map_filterMap]

end Form

/-- How deeply a node is nested, counted from above it. -/
def Node.reach (g : Gauge) (n : Node) : Place → Nat :=
  n.fold fun layer _ _ place =>
    g.extra place layer.kind +
      (layer.steps g).foldr (fun s levels => max (s.down + s.node s.place) levels) layer.ownLevels

theorem add_foldr_max_le {f : α → Nat} {l : List α} {k own b : Nat} :
    k + l.foldr (fun a levels => max (f a) levels) own ≤ b ↔
      k + own ≤ b ∧ ∀ a ∈ l, k + f a ≤ b := by
  induction l with
  | nil => simp
  | cons a l ih =>
    have hmax (x y : Nat) : k + max x y ≤ b ↔ k + x ≤ b ∧ k + y ≤ b := by omega
    rw [List.foldr_cons, hmax, ih, List.forall_mem_cons]
    exact and_left_comm

namespace Node

variable {g : Gauge} {n : Node} {place : Place}

theorem reach_eq (g : Gauge) (n : Node) (place : Place) :
    n.reach g place = g.extra place n.kind +
      (n.form.steps g).foldr (fun s levels => max (s.down + s.node.reach g s.place) levels)
        n.form.ownLevels := by
  obtain ⟨form, span, marks⟩ := n
  rw [reach, Node.fold_mk, Form.kind_map, Form.steps_map, Form.ownLevels_map, List.foldr_map]
  rfl

theorem reach_le_iff {b : Nat} :
    n.reach g place ≤ b ↔ g.extra place n.kind + n.form.ownLevels ≤ b ∧
      ∀ s ∈ n.form.steps g, g.extra place n.kind + (s.down + s.node.reach g s.place) ≤ b := by
  rw [reach_eq, add_foldr_max_le]

theorem ownLevels_le_reach : g.extra place n.kind + n.form.ownLevels ≤ n.reach g place :=
  (reach_le_iff.mp (Nat.le_refl _)).1

theorem step_le_reach {down : Nat} {inner : Place} {c : Node}
    (hs : ⟨down, inner, c⟩ ∈ n.form.steps g) (place : Place) :
    g.extra place n.kind + (down + c.reach g inner) ≤ n.reach g place :=
  (reach_le_iff.mp (Nat.le_refl _)).2 _ hs

/-- A node whose children take no more room than those of another. -/
theorem reach_mono {m : Node} (hkind : m.kind = n.kind)
    (hown : m.form.ownLevels = n.form.ownLevels)
    (hsteps : ∀ s ∈ m.form.steps g, ∃ a, ⟨s.down, s.place, a⟩ ∈ n.form.steps g ∧
      s.node.reach g s.place ≤ a.reach g s.place) : m.reach g place ≤ n.reach g place := by
  refine reach_le_iff.mpr ⟨?_, fun s hs => ?_⟩
  · rw [hkind, hown]
    exact ownLevels_le_reach
  · obtain ⟨a, ha, hle⟩ := hsteps s hs
    have hstep := step_le_reach ha place
    rw [hkind]
    omega

end Node

/-! ### The depth of the encoding -/

/-- Levels of arrays and objects in the encoding of a tree. -/
def Gauge.json : Gauge where
  head kind := if kind = .expression ∨ kind = .ret then 2 else 3
  arg _ := 5
  extra _ kind := if kind = .group then 3 else 0

namespace Json

/-- Below `k` levels, a container is one level deeper than the deepest of its parts. -/
theorem add_depth_le_iff {parts : List α} (part : α → Json) {json : Json} (hjson : 0 < json.depth)
    (h : ∀ limit, json.depth ≤ limit + 1 ↔ ∀ a ∈ parts, (part a).depth ≤ limit) {k b : Nat} :
    k + json.depth ≤ b ↔ k + 1 ≤ b ∧ ∀ a ∈ parts, k + 1 + (part a).depth ≤ b := by
  by_cases hb : k + 1 ≤ b
  · obtain ⟨limit, rfl⟩ := Nat.exists_eq_add_of_le hb
    have hlimit : k + json.depth ≤ k + 1 + limit ↔ json.depth ≤ limit + 1 := by omega
    simp only [hlimit, h, hb, true_and, Nat.add_le_add_iff_left]
  · exact ⟨fun hle => absurd hle (by omega), fun hle => absurd hle.1 hb⟩

theorem add_depth_arr_le (items : List Json) {k b : Nat} :
    k + (arr items).depth ≤ b ↔ k + 1 ≤ b ∧ ∀ item ∈ items, k + 1 + item.depth ≤ b :=
  add_depth_le_iff id (by rw [depth]; omega) fun _ => depth_arr_le

theorem add_depth_record_le {fields : List (String × Json)} {k b : Nat} :
    k + (record fields).depth ≤ b ↔ k + 1 ≤ b ∧ ∀ field ∈ fields, k + 1 + field.2.depth ≤ b :=
  add_depth_le_iff Prod.snd (by rw [record, depth]; omega) fun _ => depth_record_le

@[simp]
theorem depth_null : null.depth = 0 :=
  rfl

@[simp]
theorem depth_bool (b : Bool) : (bool b).depth = 0 :=
  rfl

@[simp]
theorem depth_int (n : Int) : (int n).depth = 0 :=
  rfl

@[simp]
theorem depth_text (s : String) : (text s).depth = 0 :=
  rfl

@[simp]
theorem depth_nullable_text (s : Option String) : (Json.nullable text s).depth = 0 := by
  cases s <;> rfl

end Json

open Json

theorem Span.depth_toJson (s : Span) : s.toJson.depth = 1 :=
  rfl

theorem Marks.depth_toJson (m : Marks) : m.toJson.depth = 1 :=
  rfl

theorem depth_span_le (span : Option Span) : (Json.nullable Span.toJson span).depth ≤ 1 := by
  cases span with
  | none => exact Nat.zero_le 1
  | some s => exact Nat.le_refl 1

/-- Spans and marks add two levels to a record. -/
theorem add_depth_placed_le (fields : List (String × Json)) (span : Option Span) (marks : Marks)
    {k b : Nat} :
    k + (record (fields ++ placeToJson span marks)).depth ≤ b ↔
      k + 2 ≤ b ∧ ∀ field ∈ fields, k + 1 + field.2.depth ≤ b := by
  have hspan := depth_span_le span
  simp only [add_depth_record_le, placeToJson, List.forall_mem_append, List.forall_mem_cons,
    List.not_mem_nil, false_implies, implies_true, and_true, Marks.depth_toJson]
  constructor
  · rintro ⟨-, hfields, -, hmarks⟩
    exact ⟨hmarks, hfields⟩
  · rintro ⟨hmarks, hfields⟩
    exact ⟨by omega, hfields, by omega, hmarks⟩

theorem Arg.add_depth_toJson_le {a : Arg Json} {k b : Nat} :
    k + a.toJson.depth ≤ b ↔ k + 2 ≤ b ∧ k + 1 + a.value.depth ≤ b := by
  rw [Arg.toJson, add_depth_placed_le]
  simp
  omega

theorem Param.add_depth_toJson_le {p : Param Json} {k b : Nat} :
    k + p.toJson.depth ≤ b ↔ k + 2 ≤ b ∧ ∀ d ∈ p.default, k + 1 + d.depth ≤ b := by
  have hnone : (Json.nullable id (none : Option Json)).depth = 0 := rfl
  have hsome (d : Json) : Json.nullable id (some d) = d := rfl
  rw [Param.toJson, add_depth_placed_le]
  cases p.default <;> simp [hnone, hsome] <;> omega

theorem Capture.add_depth_toJson_le {c : Capture} {k b : Nat} :
    k + c.toJson.depth ≤ b ↔ k + 2 ≤ b := by
  rw [Capture.toJson, add_depth_placed_le]
  simp
  omega

/-- The depth of an encoded node, from the depths of its children. -/
theorem Form.depth_le_iff {form : Form Json} (h : ∀ c ∈ form.children, 2 ≤ c.depth)
    (span : Option Span) (marks : Marks) (place : Place) {b : Nat} :
    (record (("ast", form.toJson) :: placeToJson span marks)).depth ≤ b ↔
      Gauge.json.extra place form.kind + form.ownLevels ≤ b ∧
      ∀ s ∈ form.steps .json, Gauge.json.extra place form.kind + (s.down + s.node.depth) ≤ b := by
  have hnode : (record (("ast", form.toJson) :: placeToJson span marks)).depth ≤ b ↔
      2 ≤ b ∧ 1 + form.toJson.depth ≤ b := by
    have := add_depth_placed_le [("ast", form.toJson)] span marks (k := 0) (b := b)
    simpa using this
  rw [hnode, forall_steps, add_ownLevels_le]
  have hheads : ∀ c ∈ form.heads, 2 ≤ c.depth := fun c hc =>
    h c (Form.mem_children.mpr (.inl hc))
  have hvalues : ∀ a ∈ form.args, 2 ≤ a.value.depth := fun a ha =>
    h _ (Form.mem_children.mpr (.inr (.inl ⟨a, ha, rfl⟩)))
  clear h hnode
  cases form with
  | bool | int | str | var | name | expression =>
    simp [Form.toJson, contentToJson, add_depth_record_le, Gauge.json, Form.kind, heads, args,
      params, captures, statements, Kind.ownLevels]
  | ret value =>
    cases value <;>
      simp [Form.toJson, contentToJson, Json.nullable, add_depth_record_le, Gauge.json, Form.kind,
        heads, args, params, captures, statements, Kind.ownLevels]
  | null | assign | notIdentical | ternary | propertyFetch | nullsafePropertyFetch | clone =>
    -- the operands are deeper than what stands beside them
    simp only [heads, List.forall_mem_cons] at hheads
    simp only [Form.toJson, Kind.toJson, contentToJson, add_depth_record_le, List.forall_mem_cons,
      depth_text, Gauge.json, Form.kind, heads, args, params, captures, statements, Kind.ownLevels,
      List.not_mem_nil, false_implies, implies_true, and_true, reduceCtorEq, or_self, if_false]
    omega
  | methodCall | nullsafeMethodCall | staticCall | functionCall | new =>
    -- a list of arguments is not deeper than the object of the call or an argument in it
    simp only [heads, args, List.forall_mem_cons] at hheads hvalues
    simp only [Form.toJson, contentToJson, argsToJson, add_depth_record_le, add_depth_arr_le,
      Arg.add_depth_toJson_le, List.forall_mem_cons, List.forall_mem_map, depth_text, Gauge.json,
      Form.kind, heads, args, params, captures, statements, Kind.ownLevels, List.not_mem_nil,
      false_implies, implies_true, and_true, reduceCtorEq, or_self, if_false]
    grind
  | closure | functionDecl | methodDecl | classDecl | group | program =>
    simp only [Form.toJson, contentToJson, paramsToJson, add_depth_record_le, add_depth_arr_le,
      Param.add_depth_toJson_le, Capture.add_depth_toJson_le, List.forall_mem_cons,
      List.forall_mem_map, depth_text, depth_bool, Gauge.json, Form.kind, heads, args, params,
      captures, statements, Kind.ownLevels, Kind.bodyLevels, List.not_mem_nil, false_implies,
      implies_true, and_true, true_and, reduceCtorEq, or_self, if_false, if_true]
    grind

theorem Node.two_le_depth (n : Node) : 2 ≤ n.toJson.depth := by
  obtain ⟨form, span, marks⟩ := n
  have h := (add_depth_placed_le [("ast", (form.map Node.toJson).toJson)] span marks (k := 0)).mp
    (Nat.le_refl _)
  rw [Node.toJson_mk]
  simpa using h.1

/-- The depth of the encoding of a tree, wherever the tree stands. -/
theorem Node.depth_toJson (n : Node) (place : Place) : n.toJson.depth = n.reach .json place := by
  induction n using Node.inductionOn generalizing place with
  | step form span marks ih =>
    have htwo : ∀ c ∈ (form.map Node.toJson).children, 2 ≤ c.depth := by
      intro c hc
      rw [Form.children_map, List.mem_map] at hc
      obtain ⟨n, -, rfl⟩ := hc
      exact n.two_le_depth
    refine eq_of_forall_ge_iff fun b => ?_
    rw [Node.toJson_mk, Form.depth_le_iff htwo span marks place, reach_le_iff, Form.kind_map,
      Form.ownLevels_map, Form.steps_map, List.forall_mem_map]
    refine and_congr_right fun _ => forall₂_congr fun s hs => ?_
    rw [ih s.node (Form.node_mem_children hs) s.place]
    rfl

/-! ### How far lowering can go -/

/-- How many levels lowering can make from a node of some kind to a child that is in no list. A
nullsafe access becomes a ternary with an assignment in a comparison in its condition. -/
def Kind.loweredHead : Kind → Nat
  | expression | ret => 2
  | nullsafeMethodCall | nullsafePropertyFetch => 9
  | _ => 3

/-- How many levels lowering can make from a call to the value of an argument. -/
def Kind.loweredArg : Kind → Nat
  | nullsafeMethodCall => 8
  | _ => 5

/-- How many levels a group takes. In a list it is spliced. -/
def Place.groupLevels : Place → Nat
  | listed => 0
  | alone => 3

/-- How many levels lowering can make above a node of some kind. A statement may become a group. -/
def Kind.loweredExtra (place : Place) : Kind → Nat
  | group | expression | ret => place.groupLevels
  | _ => 0

/-- Levels of arrays and objects that lowering leaves in the encoding of a tree, or makes there. -/
def Gauge.lowering : Gauge :=
  ⟨Kind.loweredHead, Kind.loweredArg, Kind.loweredExtra⟩

namespace Gauge

/-- All levels in a node of some kind, as two gauges count them. -/
def levels (g h : Gauge) (kind : Kind) : List (Nat × Nat) :=
  [(kind.ownLevels, kind.ownLevels), (6, 6), (g.head kind, h.head kind), (g.arg kind, h.arg kind),
    (5, 5), (kind.bodyLevels, kind.bodyLevels)]

theorem ownLevels_mem_levels (g h : Gauge) (form : Form α) :
    (form.ownLevels, form.ownLevels) ∈ g.levels h form.kind := by
  rw [Form.ownLevels, levels]
  split <;> simp

/-- One gauge counts at most `c` times as much as another around nodes of a kind. -/
def AtMost (c : Nat) (g h : Gauge) (place : Place) (kind : Kind) : Prop :=
  ∀ down ∈ g.levels h kind, g.extra place kind + down.1 ≤ c * (h.extra place kind + down.2)

instance (c : Nat) (g h : Gauge) (place : Place) (kind : Kind) :
    Decidable (AtMost c g h place kind) :=
  inferInstanceAs (Decidable (∀ down ∈ _, _))

end Gauge

theorem Gauge.AtMost.exists_step {c : Nat} {g h : Gauge} {place : Place} {form : Form α}
    (hle : AtMost c g h place form.kind) {s : Step α} (hs : s ∈ form.steps g) :
    ∃ down, ⟨down, s.place, s.node⟩ ∈ form.steps h ∧
      g.extra place form.kind + s.down ≤ c * (h.extra place form.kind + down) := by
  simp only [AtMost, levels, List.forall_mem_cons] at hle
  obtain ⟨-, -, hhead, harg, hparam, hbody, -⟩ := hle
  simp only [Form.steps, List.mem_append, List.mem_map] at hs ⊢
  rcases hs with ((⟨c, hc, rfl⟩ | ⟨c, hc, rfl⟩) | ⟨c, hc, rfl⟩) | ⟨c, hc, rfl⟩
  · exact ⟨_, .inl (.inl (.inl ⟨c, hc, rfl⟩)), hhead⟩
  · exact ⟨_, .inl (.inl (.inr ⟨c, hc, rfl⟩)), harg⟩
  · exact ⟨_, .inl (.inr ⟨c, hc, rfl⟩), hparam⟩
  · exact ⟨_, .inr ⟨c, hc, rfl⟩, hbody⟩

/-- Trees are at most `c` times as deep by one gauge as by another if this is so around all nodes
that can be met. -/
theorem Node.reach_le_mul {c : Nat} {g h : Gauge} (met : Node → Place → Prop)
    (hstep : ∀ {n place}, met n place → ∀ s ∈ n.form.steps g, met s.node s.place)
    (hle : ∀ {n place}, met n place → Gauge.AtMost c g h place n.kind) {n : Node} {place : Place}
    (hn : met n place) : n.reach g place ≤ c * n.reach h place := by
  induction n using Node.inductionOn generalizing place with
  | step form span marks ih =>
    have hatMost := hle hn
    refine reach_le_iff.mpr ⟨?_, fun s hs => ?_⟩
    · exact (hatMost _ (g.ownLevels_mem_levels h form)).trans
        (Nat.mul_le_mul_left c ownLevels_le_reach)
    · obtain ⟨down, hdown, hextra⟩ := hatMost.exists_step hs
      have hbelow := ih s.node (Form.node_mem_children hs) (hstep hn s hs)
      have hreach := step_le_reach (n := ⟨form, span, marks⟩) hdown place
      calc g.extra place form.kind + (s.down + s.node.reach g s.place)
          = g.extra place form.kind + s.down + s.node.reach g s.place := (Nat.add_assoc ..).symm
        _ ≤ c * (h.extra place form.kind + down) + c * s.node.reach h s.place :=
          Nat.add_le_add hextra hbelow
        _ = c * (h.extra place form.kind + (down + s.node.reach h s.place)) := by
          rw [← Nat.mul_add, Nat.add_assoc]
        _ ≤ c * Node.reach h ⟨form, span, marks⟩ place := Nat.mul_le_mul_left c hreach

/-- Lowering can make a tree three times as deep. -/
theorem Node.reach_lowering_le (n : Node) (place : Place) :
    n.reach .lowering place ≤ 3 * n.reach .json place := by
  refine reach_le_mul (fun _ _ => True) (fun _ _ _ => trivial) ?_ trivial
  intro n place _
  cases n.kind <;> cases place <;> decide

/-- A settled tree is not deeper than lowering can make it: there are no groups in lists. -/
theorem Node.reach_json_le {n : Node} (hn : n.All Node.Settled) :
    n.reach .json .alone ≤ n.reach .lowering .alone := by
  let met (n : Node) (place : Place) : Prop :=
    n.All Node.Settled ∧ (place = .listed → n.form.isGroup = false)
  have hplace : Place.alone ≠ .listed := by
    intro h
    cases h
  have hle : n.reach .json .alone ≤ 1 * n.reach .lowering .alone := by
    refine reach_le_mul met ?_ ?_ ⟨hn, fun h => absurd h hplace⟩
    · rintro n place ⟨hn, -⟩ s hs
      refine ⟨hn.child (Form.node_mem_children hs), ?_⟩
      revert s
      exact Form.forall_steps.mpr ⟨fun _ _ h => absurd h hplace, fun _ _ h => absurd h hplace,
        fun _ _ _ _ h => absurd h hplace, fun c hc _ => hn.self.flat c hc⟩
    · rintro n place ⟨-, hgroup⟩
      cases place with
      | alone => cases n.kind <;> decide
      | listed =>
        have hkind : n.kind ≠ .group := by
          obtain ⟨form, span, marks⟩ := n
          have := hgroup rfl
          cases form <;> simp_all [Node.kind, Form.kind, Form.isGroup]
        revert hkind
        cases n.kind <;> decide
  exact hle.trans_eq (Nat.one_mul _)

/-! ### No step of a pass goes further -/

/-- Where a tree may stand, another may stand without more levels than lowering can make. -/
def Node.MakesRoom (n m : Node) : Prop :=
  ∀ place, m.reach .lowering place ≤ n.reach .lowering place

theorem Form.Rel.exists_step {R : α → β → Prop} {f : Form α} {f' : Form β} (h : Form.Rel R f f')
    (g : Gauge) : ∀ s ∈ f'.steps g, ∃ a, ⟨s.down, s.place, a⟩ ∈ f.steps g ∧ R a s.node := by
  obtain ⟨hheads, hargs, hparams, hstatements⟩ := h.parts
  obtain ⟨mheads, margs, mparams, mstatements⟩ :=
    (Form.forall_steps (P := (· ∈ f.steps g))).mp fun _ hs => hs
  refine Form.forall_steps.mpr ⟨fun c hc => ?_, fun a ha => ?_, fun p hp d hd => ?_, fun c hc => ?_⟩
  · obtain ⟨b, hb, hR⟩ := exists_left_of_forall₂ hheads hc
    exact ⟨b, h.kind_eq ▸ mheads b hb, hR⟩
  · obtain ⟨b, hb, -, hR⟩ := exists_left_of_forall₂ hargs ha
    exact ⟨b.value, h.kind_eq ▸ margs b hb, hR⟩
  · obtain ⟨q, hq, hrel⟩ := exists_left_of_forall₂ hparams hp
    obtain ⟨b, hb, hR⟩ := hrel.exists_default hd
    exact ⟨b, mparams q hq b hb, hR⟩
  · obtain ⟨b, hb, hR⟩ := exists_left_of_forall₂ hstatements hc
    exact ⟨b, h.kind_eq ▸ mstatements b hb, hR⟩

theorem Form.Rel.ownLevels_eq {R : α → β → Prop} {f : Form α} {f' : Form β} (h : Form.Rel R f f') :
    f.ownLevels = f'.ownLevels := by
  simpa [Form.shape, Form.ownLevels_map] using congrArg Form.ownLevels h.shape

theorem Form.ownLevels_settled (form : Form Node) : form.settled.ownLevels = form.ownLevels := by
  simp [Form.ownLevels]

/-- The statements of a group take no more room in the list around it than the group. -/
theorem Node.makesRoom_settle {n : Node} {form : Form Node}
    (h : Form.Rel Node.MakesRoom n.form form) :
    n.MakesRoom (Node.settle form n.span n.marks) := by
  intro place
  have hkind : form.settled.kind = n.kind := form.kind_settled.trans h.kind_eq.symm
  have hsteps : ∀ s ∈ form.steps .lowering,
      Gauge.lowering.extra place n.kind + (s.down + s.node.reach .lowering s.place) ≤
        n.reach .lowering place := by
    intro s hs
    obtain ⟨a, ha, hroom⟩ := h.exists_step .lowering s hs
    have hstep := step_le_reach ha place
    have := hroom s.place
    omega
  refine reach_le_iff.mpr ⟨?_, ?_⟩
  · change Gauge.lowering.extra place form.settled.kind + form.settled.ownLevels ≤ _
    rw [hkind, form.ownLevels_settled, ← h.ownLevels_eq]
    exact ownLevels_le_reach
  · change ∀ s ∈ form.settled.steps .lowering,
      Gauge.lowering.extra place form.settled.kind + _ ≤ _
    rw [hkind]
    rw [Form.forall_steps] at hsteps ⊢
    obtain ⟨hheads, hargs, hparams, hstatements⟩ := hsteps
    simp only [Form.heads_settled, Form.args_settled, Form.params_settled, Form.statements_settled,
      Form.kind_settled, List.forall_mem_map, Arg.value_settled, Param.default_settled]
    refine ⟨hheads, hargs, hparams, fun c hc => ?_⟩
    obtain ⟨m, hm, hc⟩ := mem_splice.mp hc
    have hlisted := hstatements m hm
    split at hc
    · have hinner : Gauge.lowering.extra .listed m.kind +
          (m.kind.bodyLevels + c.reach .lowering .listed) ≤ m.reach .lowering .listed :=
        (Form.forall_steps.mp fun _ hs => step_le_reach hs .listed).2.2.2 c hc
      dsimp only at hlisted ⊢
      omega
    · exact hc ▸ hlisted

theorem Node.makesRoom_cleaned {n : Node} {form : Form Node}
    (h : TrailingComma.Cleaned n.form form) (marks : Marks) :
    n.MakesRoom ⟨form, n.span, marks⟩ := by
  have hsteps : form.steps .lowering = n.form.steps .lowering := by
    simp only [Form.steps, h.heads, h.kind, h.statements, h.values_eq, h.defaults_eq]
  have hempty {γ : Type} [Listed γ] {l l' : List γ}
      (h : List.Forall₂ SameButComma l l') : l'.isEmpty = l.isEmpty := by
    cases h <;> rfl
  have hown : form.ownLevels = n.form.ownLevels := by
    simp only [Form.ownLevels, hempty h.params, hempty h.captures, h.kind]
  refine fun place => reach_mono h.kind hown fun t ht => ⟨t.node, ?_, Nat.le_refl _⟩
  exact hsteps ▸ ht

theorem Node.two_le_reach (n : Node) : 2 ≤ n.reach .lowering .alone := by
  have hown : 2 ≤ Gauge.lowering.extra .alone n.kind + n.kind.ownLevels := by
    cases n.kind <;> decide
  exact hown.trans (Form.add_ownLevels_le.mp ownLevels_le_reach).1

/-- The kinds of expressions that rules put in. -/
def Kind.synthesized : List Kind :=
  [.var, .null, .assign, .notIdentical, .ternary, .methodCall, .propertyFetch]

theorem Node.reach_synthesized_le {form : Form Node} (hkind : form.kind ∈ Kind.synthesized)
    {b : Nat} (htwo : 2 ≤ b) (hheads : ∀ c ∈ form.heads, 3 + c.reach .lowering .alone ≤ b)
    (hargs : ∀ a ∈ form.args, 5 + a.value.reach .lowering .alone ≤ b) (place : Place) :
    (Node.synthesized form).reach .lowering place ≤ b := by
  have hlevels : form.ownLevels = 2 ∧ form.kind.loweredExtra place = 0 ∧
      form.kind.loweredHead = 3 ∧ form.kind.loweredArg = 5 := by
    cases form <;> simp [Form.kind, Kind.synthesized] at hkind <;> exact ⟨rfl, rfl, rfl, rfl⟩
  have hlists : form.params = [] ∧ form.statements = [] := by
    cases form <;> simp [Form.kind, Kind.synthesized] at hkind <;> exact ⟨rfl, rfl⟩
  obtain ⟨hown, hextra, hhead, harg⟩ := hlevels
  refine reach_le_iff.mpr ⟨?_, Form.forall_steps.mpr ⟨fun c hc => ?_, fun a ha => ?_, ?_, ?_⟩⟩
  · change form.kind.loweredExtra place + form.ownLevels ≤ b
    omega
  · change form.kind.loweredExtra place + (form.kind.loweredHead + c.reach _ .alone) ≤ b
    have := hheads c hc
    omega
  · change form.kind.loweredExtra place + (form.kind.loweredArg + a.value.reach _ .alone) ≤ b
    have := hargs a ha
    omega
  · change ∀ p ∈ form.params, _
    rw [hlists.1]
    exact List.forall_mem_nil _
  · change ∀ c ∈ form.statements, _
    rw [hlists.2]
    exact List.forall_mem_nil _

theorem Node.reach_var_le (x : String) (place : Place) : (Node.var x).reach .lowering place ≤ 2 :=
  reach_synthesized_le (show Kind.var ∈ _ by decide) (Nat.le_refl 2) (List.forall_mem_nil _)
    (List.forall_mem_nil _) place

theorem Node.reach_null_le (place : Place) : Node.null.reach .lowering place ≤ 2 :=
  reach_synthesized_le (by decide) (Nat.le_refl 2) (List.forall_mem_nil _)
    (List.forall_mem_nil _) place

theorem Node.reach_assign_le (x : String) (value : Node) (place : Place) :
    (Node.synthesized (.assign (Node.var x) value)).reach .lowering place ≤
      3 + value.reach .lowering .alone := by
  have htemp := reach_var_le x .alone
  have htwo := value.two_le_reach
  refine reach_synthesized_le (show Kind.assign ∈ _ by decide) (by omega) ?_
    (List.forall_mem_nil _) place
  exact List.forall_mem_cons.mpr ⟨by omega, List.forall_mem_singleton.mpr (Nat.le_refl _)⟩

theorem Nullsafe.reach_guard_le (strict : Bool) (x : String) (object : Node) :
    (guard strict (Node.var x) object).reach .lowering .alone ≤
      6 + object.reach .lowering .alone := by
  have hassign := Node.reach_assign_le x object .alone
  have hnull := Node.reach_null_le .alone
  cases strict with
  | false => exact hassign.trans (by omega)
  | true =>
    refine Node.reach_synthesized_le (show Kind.notIdentical ∈ _ by decide) (by omega) ?_
      (List.forall_mem_nil _) _
    exact List.forall_mem_cons.mpr ⟨by omega, List.forall_mem_singleton.mpr (by omega)⟩

/-- The object of a nullsafe access ends up in the condition of a ternary, and the arguments of a
call in a branch. -/
theorem Nullsafe.makesRoom_lowered {n object : Node} {plain : Node → Form Node}
    (h : access? n.form = some (object, plain)) (strict : Bool) (x : String) :
    n.MakesRoom (lowered strict (Node.var x) object plain) := by
  obtain ⟨form, span, marks⟩ := n
  intro place
  have htwo := object.two_le_reach
  have hguard := reach_guard_le strict x object
  have htemp := Node.reach_var_le x .alone
  have hnull := Node.reach_null_le .alone
  obtain ⟨hheads, hargs, -⟩ := Form.forall_steps.mp
    (Node.reach_le_iff.mp (Nat.le_refl (Node.reach .lowering ⟨form, span, marks⟩ place))).2
  generalize Node.reach .lowering ⟨form, span, marks⟩ place = b at hheads hargs ⊢
  have hobject : 0 + (9 + object.reach .lowering .alone) ≤ b := by
    cases Access.of_access? h <;> exact hheads object List.mem_cons_self
  have hplain : 3 + (Node.synthesized (plain (Node.var x))).reach .lowering .alone ≤ b := by
    have hle : (Node.synthesized (plain (Node.var x))).reach .lowering .alone ≤ b - 3 := by
      cases Access.of_access? h with
      | @call o m as =>
        refine Node.reach_synthesized_le (show Kind.methodCall ∈ _ by decide) (by omega)
          (List.forall_mem_singleton.mpr (by omega)) (fun a ha => ?_) _
        have harg : 0 + (8 + a.value.reach .lowering .alone) ≤ b := hargs a ha
        omega
      | fetch =>
        exact Node.reach_synthesized_le (show Kind.propertyFetch ∈ _ by decide) (by omega)
          (List.forall_mem_singleton.mpr (by omega)) (List.forall_mem_nil _) _
    omega
  refine Node.reach_synthesized_le (show Kind.ternary ∈ _ by decide) (by omega) ?_
    (List.forall_mem_nil _) place
  exact List.forall_mem_cons.mpr ⟨by omega,
    List.forall_mem_cons.mpr ⟨hplain, List.forall_mem_singleton.mpr (by omega)⟩⟩

namespace Hoist

/-- The search goes into a head or into the value of an argument. -/
theorem Slot.head_or_arg {form : Form Node} {c : Node} {plug : Node → Form Node}
    (h : Slot form c plug) :
    (∃ pre post, form.heads = pre ++ c :: post ∧
      ∀ x, (plug x).heads = pre ++ x :: post ∧ (plug x).args = form.args) ∨
    ∃ pre a post, form.args = pre ++ a :: post ∧ a.value = c ∧
      ∀ x, (plug x).heads = form.heads ∧ (plug x).args = pre ++ a.refill x :: post := by
  cases h with
  | assignTarget | left | condition | fetched | nullsafeFetched | cloned | object | nullsafeObject
    | staticScope | function | newScope => exact .inl ⟨[], _, rfl, fun _ => ⟨rfl, rfl⟩⟩
  | assignValue | right => exact .inl ⟨[_], [], rfl, fun _ => ⟨rfl, rfl⟩⟩
  | methodArg | staticArg | functionArg | newArg =>
    exact .inr ⟨_, _, _, rfl, rfl, fun _ => ⟨rfl, rfl⟩⟩

/-- A place that the search goes into, with the levels above it. -/
theorem Slot.exists_step {form : Form Node} {c : Node} {plug : Node → Form Node}
    (h : Slot form c plug) (g : Gauge) :
    ∃ levels : Kind → Nat, ⟨levels form.kind, .alone, c⟩ ∈ form.steps g ∧
      ∀ x, ∀ s ∈ (plug x).steps g, s = ⟨levels form.kind, .alone, x⟩ ∨ s ∈ form.steps g := by
  obtain ⟨hheads, hargs, hparams, hstatements⟩ :=
    (Form.forall_steps (P := (· ∈ form.steps g))).mp fun _ hs => hs
  rcases h.head_or_arg with ⟨pre, post, hform, hplug⟩ | ⟨pre, a, post, hform, rfl, hplug⟩
  · refine ⟨g.head, hheads c (hform ▸ List.mem_append_right _ List.mem_cons_self), fun x => ?_⟩
    have hrefilled := h.refilled x
    rw [Form.forall_steps, hrefilled.kind, hrefilled.params, hrefilled.statements, (hplug x).1,
      (hplug x).2]
    refine ⟨fun d hd => ?_, fun a ha => .inr (hargs a ha),
      fun p hp d hd => .inr (hparams p hp d hd), fun d hd => .inr (hstatements d hd)⟩
    rcases eq_or_mem_of_mem_middle hd c with rfl | hd
    · exact .inl rfl
    · exact .inr (hheads d (hform ▸ hd))
  · refine ⟨g.arg, hargs a (hform ▸ List.mem_append_right _ List.mem_cons_self), fun x => ?_⟩
    have hrefilled := h.refilled x
    rw [Form.forall_steps, hrefilled.kind, hrefilled.params, hrefilled.statements, (hplug x).1,
      (hplug x).2]
    refine ⟨fun d hd => .inr (hheads d hd), fun b hb => ?_,
      fun p hp d hd => .inr (hparams p hp d hd), fun d hd => .inr (hstatements d hd)⟩
    rcases eq_or_mem_of_mem_middle hb a with rfl | hb
    · exact .inl rfl
    · exact .inr (hargs b (hform ▸ hb))

theorem Refilled.ownLevels_eq {c x : Node} {form form' : Form Node} (h : Refilled c x form form') :
    form'.ownLevels = form.ownLevels := by
  simp only [Form.ownLevels, h.params, h.captures, h.kind]

theorem Slot.reach_le {form : Form Node} {c x : Node} {plug : Node → Form Node}
    (h : Slot form c plug) (hx : x.reach .lowering .alone ≤ c.reach .lowering .alone)
    (span : Option Span) (marks marks' : Marks) (place : Place) :
    Node.reach .lowering ⟨plug x, span, marks'⟩ place ≤
      Node.reach .lowering ⟨form, span, marks⟩ place := by
  obtain ⟨levels, hc, hplug⟩ := h.exists_step .lowering
  refine Node.reach_mono (h.refilled x).kind (h.refilled x).ownLevels_eq fun s hs => ?_
  rcases hplug x s hs with rfl | hs
  · exact ⟨c, hc, hx⟩
  · exact ⟨s.node, hs, Nat.le_refl _⟩

/-- The object on a path is below an access, and a variable in its place takes no more room. -/
theorem Path.room {n : Node} {hole : Hole Node} (h : Path n hole) :
    3 + hole.content.reach .lowering .alone ≤ n.reach .lowering .alone ∧
      ∀ x, x.reach .lowering .alone ≤ hole.content.reach .lowering .alone →
        (hole.fill x).reach .lowering .alone ≤ n.reach .lowering .alone := by
  induction h with
  | @here form span marks o plug hslot _ =>
    refine ⟨?_, fun x hx => hslot.slot.reach_le hx span marks _ _⟩
    have hstep : 0 + (3 + o.reach .lowering .alone) ≤
        Node.reach .lowering ⟨form, span, marks⟩ .alone := by
      have hheads := (Form.forall_steps.mp fun _ hs =>
        Node.step_le_reach (n := ⟨form, span, marks⟩) (g := .lowering) hs .alone).1
      cases hslot <;> exact hheads o List.mem_cons_self
    change 3 + o.reach .lowering .alone ≤ _
    omega
  | @inside form span marks c plug inner hslot _ ih =>
    obtain ⟨hcontent, hfill⟩ := ih
    refine ⟨?_, fun x hx => hslot.reach_le (hfill x hx) span marks _ _⟩
    obtain ⟨levels, hc, -⟩ := hslot.exists_step .lowering
    have hstep := Node.step_le_reach (n := ⟨form, span, marks⟩) hc .alone
    change 3 + inner.content.reach .lowering .alone ≤ _
    omega

theorem StatementSlot.reach_le {n value : Node} {plug : Node → Form Node}
    (h : StatementSlot n.form value plug) :
    n.reach .lowering .listed ≤ 2 + value.reach .lowering .alone := by
  obtain ⟨form, span, marks⟩ := n
  have hown : 0 + 2 ≤ 2 + value.reach .lowering .alone := by omega
  have hvalue : 0 + (2 + value.reach .lowering .alone) ≤ 2 + value.reach .lowering .alone := by
    omega
  cases h <;>
    exact Node.reach_le_iff.mpr ⟨hown, Form.forall_steps.mpr ⟨List.forall_mem_singleton.mpr hvalue,
      List.forall_mem_nil _, List.forall_mem_nil _, List.forall_mem_nil _⟩⟩

theorem StatementSlot.plug {form : Form Node} {value : Node} {plug : Node → Form Node}
    (h : StatementSlot form value plug) (x : Node) : StatementSlot (plug x) x plug := by
  cases h with
  | expression => exact .expression
  | ret => exact .ret

/-- A statement and the group that is made of it take the same room, and so does an assignment of
the object, which was below an access. -/
theorem makesRoom_hoisted {n : Node} {hole : Hole Node} (h : receiverInStatement? n = some hole)
    (x : String) : n.MakesRoom (hoisted (Node.var x) hole) := by
  obtain ⟨value, plug, inner, hslot, hvalue, rfl⟩ := receiverInStatement?_eq_some h
  obtain ⟨form, span, marks⟩ := n
  obtain ⟨hcontent, hfill⟩ := (Path.of_receiver? hvalue).room
  have htemp := Node.reach_var_le x .alone
  have htwo := inner.content.two_le_reach
  intro place
  have hstep : place.groupLevels + (2 + value.reach .lowering .alone) ≤
      Node.reach .lowering ⟨form, span, marks⟩ place := by
    have hheads := (Form.forall_steps.mp fun _ hs =>
      Node.step_le_reach (n := ⟨form, span, marks⟩) (g := .lowering) hs place).1
    cases hslot <;> exact hheads value List.mem_cons_self
  generalize Node.reach .lowering ⟨form, span, marks⟩ place = b at hstep ⊢
  refine Node.reach_le_iff.mpr ⟨?_, Form.forall_steps.mpr ⟨List.forall_mem_nil _,
    List.forall_mem_nil _, List.forall_mem_nil _, ?_⟩⟩
  · change place.groupLevels + 0 ≤ b
    omega
  · have hassign := Node.reach_assign_le x inner.content .alone
    have hfirst := StatementSlot.reach_le (n := Node.synthesized (.expression
      (Node.synthesized (.assign (Node.var x) inner.content)))) .expression
    have hrest := hfill (Node.var x) (htemp.trans htwo)
    have hsecond := StatementSlot.reach_le
      (n := ⟨plug (inner.fill (Node.var x)), span, marks.outdated⟩) (hslot.plug _)
    have hbound {m : Node} (hm : m.reach .lowering .listed ≤ 2 + value.reach .lowering .alone) :
        place.groupLevels + (0 + m.reach .lowering .listed) ≤ b := by
      omega
    exact List.forall_mem_cons.mpr ⟨hbound (hfirst.trans (by omega)),
      List.forall_mem_singleton.mpr (hbound (hsecond.trans (by omega)))⟩

end Hoist

/-- Nothing that a visit does makes a tree deeper than lowering can make it. -/
theorem Node.makesRoom_invariant (cfg : Settings) (ctx : Context) :
    CatalogInvariant cfg ctx Node.MakesRoom where
  refl _ _ := Nat.le_refl _
  trans hnm hmk place := (hmk place).trans (hnm place)
  settle := Node.makesRoom_settle
  cleaned hclean := Node.makesRoom_cleaned (.of_cleanForm? hclean) _
  lowered haccess x := Nullsafe.makesRoom_lowered haccess _ x
  hoisted := Hoist.makesRoom_hoisted

/-- Rules of the catalog make a tree at most three times as deep. -/
theorem Session.depth_transform_le {cfg : Settings} {s : Session} (hrules : s.rules ⊆ cfg.catalog)
    (file : Option FileId) (tree : Node) (tokens : Option (List Token)) :
    (s.transform file tree tokens).tree.toJson.depth ≤ 3 * tree.toJson.depth := by
  have hsettled : (s.transform file tree tokens).tree.All Node.Settled :=
    Pass.visit_settled hrules s.maxRevisits tree s.names
  have hroom : tree.MakesRoom (s.transform file tree tokens).tree :=
    (Node.makesRoom_invariant cfg _).visit hrules s.maxRevisits tree s.names
  calc (s.transform file tree tokens).tree.toJson.depth
      = (s.transform file tree tokens).tree.reach .json .alone := Node.depth_toJson _ _
    _ ≤ (s.transform file tree tokens).tree.reach .lowering .alone := Node.reach_json_le hsettled
    _ ≤ tree.reach .lowering .alone := hroom .alone
    _ ≤ 3 * tree.reach .json .alone := tree.reach_lowering_le .alone
    _ = 3 * tree.toJson.depth := by rw [tree.depth_toJson .alone]

end SyntaxLowering
