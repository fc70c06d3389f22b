import SyntaxLowering.Proofs.Settling

/-!
# Depths of nested blocks

The text of a node depends on how many blocks it stands in. `Node.placed` lists the nodes of a tree
with their depths: the statements of closures and declarations are one level deeper than the node
itself, all other children are on its level. `Node.AllAt` is a property of all nodes at their
depths. Settling keeps depths, since a group is on the level of its statements.
-/

namespace SyntaxLowering

variable {α β : Type}

/-- The depth of the statements of a node at some depth. -/
def Kind.bodyDepth (kind : Kind) (depth : Nat) : Nat :=
  if kind.opensBlock then depth + 1 else depth

namespace Form

/-- The children of a layer at some depth, with their depths. -/
def places (depth : Nat) (form : Form α) : List (Nat × α) :=
  form.inline.map (depth, ·) ++ form.statements.map (form.kind.bodyDepth depth, ·)

theorem places_map (f : α → β) (depth : Nat) (form : Form α) :
    (form.map f).places depth = (form.places depth).map (Prod.map id f) := by
  simp [places, inline_map, Function.comp_def]

theorem map_snd_places (depth : Nat) (form : Form α) :
    (form.places depth).map Prod.snd = form.children := by
  simp [places, children_eq, Function.comp_def]

theorem mem_places {form : Form α} {depth d : Nat} {c : α} :
    (d, c) ∈ form.places depth ↔ d = depth ∧ c ∈ form.inline ∨
      d = form.kind.bodyDepth depth ∧ c ∈ form.statements := by
  simp [places, and_comm, eq_comm]

theorem mem_children_of_mem_places {form : Form α} {depth d : Nat} {c : α}
    (h : (d, c) ∈ form.places depth) : c ∈ form.children := by
  rw [← map_snd_places depth]
  exact List.mem_map_of_mem h

/-- A node that opens no block is on the level of all its children. -/
theorem mem_places_iff {form : Form α} (h : form.kind.opensBlock = false) {depth d : Nat} {c : α} :
    (d, c) ∈ form.places depth ↔ d = depth ∧ c ∈ form.children := by
  have hbody : form.kind.bodyDepth depth = depth := by rw [Kind.bodyDepth, h]; rfl
  rw [mem_places, hbody, ← and_or_left, children_eq, List.mem_append]

/-- Children of related layers are related at their depths. -/
theorem Rel.exists_mem_places {R : α → β → Prop} {f : Form α} {g : Form β} (h : Rel R f g)
    {depth d : Nat} {c : β} (hc : (d, c) ∈ g.places depth) :
    ∃ b, (d, b) ∈ f.places depth ∧ R b c := by
  obtain ⟨-, -, -, hstatements⟩ := h.parts
  rw [mem_places] at hc
  rcases hc with ⟨rfl, hc⟩ | ⟨rfl, hc⟩
  · obtain ⟨b, hb, hR⟩ := exists_left_of_forall₂ h.inline hc
    exact ⟨b, mem_places.2 (.inl ⟨rfl, hb⟩), hR⟩
  · obtain ⟨b, hb, hR⟩ := exists_left_of_forall₂ hstatements hc
    exact ⟨b, mem_places.2 (.inr ⟨by rw [h.kind_eq], hb⟩), hR⟩

end Form

namespace Node

/-- The nodes of a tree at some depth, each with its own depth, in the order of `preorder`. -/
def placed (n : Node) : Nat → List (Nat × Node) :=
  (n.fold fun layer span marks =>
    let node : Node := ⟨layer.map (·.1), span, marks⟩
    (node, fun depth => (depth, node) :: (layer.places depth).flatMap fun e => e.2.2 e.1) :
    Node × (Nat → List (Nat × Node))).2

theorem placed_mk (form : Form Node) (span : Option Span) (marks : Marks) (depth : Nat) :
    placed ⟨form, span, marks⟩ depth =
      (depth, ⟨form, span, marks⟩) :: (form.places depth).flatMap fun e => e.2.placed e.1 := by
  simp only [placed, fold_mk, Form.map_map, Form.places_map, List.flatMap_map]
  rw [Form.map_congr fun c _ => fold_rebuilt _ c, Form.map_id]
  rfl

/-- Forgetting the depths leaves the nodes of the tree. -/
theorem map_snd_placed (n : Node) (depth : Nat) : (n.placed depth).map Prod.snd = n.preorder := by
  induction n using Node.inductionOn generalizing depth with
  | step form span marks ih =>
    rw [placed_mk, preorder_mk, List.map_cons, List.map_flatMap, ← Form.map_snd_places depth,
      List.flatMap_map]
    refine congrArg _ (List.flatMap_congr fun e he => ?_)
    exact ih e.2 (Form.mem_children_of_mem_places he) e.1

/-- Every node of a tree at some depth has a property at its own depth. -/
def AllAt (P : Nat → Node → Prop) (depth : Nat) (n : Node) : Prop :=
  ∀ e ∈ n.placed depth, P e.1 e.2

variable {P Q : Nat → Node → Prop} {depth : Nat} {n : Node}

instance [∀ d n, Decidable (P d n)] : Decidable (AllAt P depth n) :=
  inferInstanceAs (Decidable (∀ e ∈ n.placed depth, P e.1 e.2))

theorem allAt_iff : AllAt P depth n ↔
    P depth n ∧ ∀ d c, (d, c) ∈ n.form.places depth → AllAt P d c := by
  obtain ⟨form, span, marks⟩ := n
  unfold AllAt
  rw [placed_mk, List.forall_mem_cons]
  refine and_congr_right fun _ => ⟨fun h d c hc e he => ?_, fun h e he => ?_⟩
  · exact h e (List.mem_flatMap.2 ⟨(d, c), hc, he⟩)
  · obtain ⟨⟨d, c⟩, hc, he⟩ := List.mem_flatMap.1 he
    exact h d c hc e he

theorem AllAt.mono (h : AllAt P depth n) (hPQ : ∀ d m, P d m → Q d m) : AllAt Q depth n :=
  fun e he => hPQ e.1 e.2 (h e he)

theorem layered_allAt (P : Nat → Node → Prop) (depth : Nat) :
    Layered (P depth) (AllAt P depth) := by
  intro n hblock
  rw [allAt_iff]
  refine and_congr_right fun _ => ⟨fun h c hc => ?_, fun h d c hc => ?_⟩
  · exact h depth c ((Form.mem_places_iff hblock).2 ⟨rfl, hc⟩)
  · rw [Form.mem_places_iff hblock] at hc
    obtain ⟨rfl, hc⟩ := hc
    exact h c hc

/-- A property of all nodes below a layer at their depths holds below the settled layer. -/
theorem allAt_settle {form : Form Node} {span : Option Span} {marks : Marks}
    (h : ∀ d c, (d, c) ∈ form.places depth → AllAt P d c)
    (hself : P depth (settle form span marks)) : AllAt P depth (settle form span marks) := by
  refine allAt_iff.2 ⟨hself, fun d c hc => ?_⟩
  rw [settle, Form.mem_places, Form.kind_settled, Form.inline_settled, Form.statements_settled,
    mem_splice] at hc
  rcases hc with hc | ⟨rfl, m, hm, hc⟩
  · exact h d c (Form.mem_places.2 (.inl hc))
  · have hall := h _ m (Form.mem_places.2 (.inr ⟨rfl, hm⟩))
    by_cases hgroup : m.form.isGroup
    · rw [if_pos hgroup] at hc
      have hblock : m.kind.opensBlock = false := by
        unfold Node.kind
        revert hgroup
        cases m.form <;> simp [Form.isGroup, Form.kind, Kind.opensBlock]
      refine ((layered_allAt P _ m hblock).1 hall).2 c ?_
      rw [Form.children_of_isGroup hgroup]
      exact hc
    · rw [if_neg hgroup] at hc
      exact hc ▸ hall

end Node

end SyntaxLowering
