import SyntaxLowering.Proofs.CommaExactness
import SyntaxLowering.Proofs.DefinedBeforeUse

/-!
# Reading lowered statements back

Lowering leaves a trace of what it did: every variable that the tree did not have before is a
temporary. `Node.restored` reads a tree with its temporaries put back. An assignment of an object to
a temporary is no statement of its own; the object stands in for the temporary in the statement that
follows, and in no later one. A ternary around a temporary is the nullsafe access that it came from.
The brackets of groups are erased, and a tree without temporaries is read as itself without its
brackets, `Node.ungrouped`.

Marks are not read, and neither are the places of nullsafe accesses in the source, which their
lowered forms do not have.
-/

namespace SyntaxLowering

variable {α β γ : Type}

/-! ### Layers with another statement list -/

/-- Whether layers of a kind have a statement list. -/
def Kind.hasStatements : Kind → Bool
  | closure | functionDecl | classDecl | methodDecl | group | program => true
  | _ => false

/-- A layer with another statement list, if it has one, and without the marks of its elements. -/
def Form.relisted (statements : List α) (form : Form α) : Form α :=
  (form.rebuild id id id fun _ => statements).erase .marks

namespace Form

@[simp]
theorem kind_relisted (statements : List α) (form : Form α) :
    (form.relisted statements).kind = form.kind := by
  cases form <;> rfl

theorem relisted_of_kind {form : Form α} (h : form.kind.hasStatements = false)
    (statements : List α) : form.relisted statements = form.erase .marks := by
  revert h
  cases form <;> simp [kind, Kind.hasStatements, relisted, rebuild]

theorem children_relisted (statements : List α) (form : Form α) :
    (form.relisted statements).children =
      form.inline ++ if form.kind.hasStatements then statements else [] := by
  cases form <;> simp [relisted, rebuild, erase, children, inline, heads, args, params, kind,
    Kind.hasStatements, Arg.erase, Param.erase, Function.comp_def, List.filterMap_map]

theorem shape_relisted (f : α → β) (statements : List β) (form : Form α) :
    ((form.map f).relisted statements).shape =
      (form.shape.erase .marks).relisted (statements.map fun _ => ()) := by
  cases form <;> simp [shape, relisted, rebuild, erase, map, Arg.map, Param.map, Arg.erase,
    Param.erase, Capture.erase, Erasure.marks, Function.comp_def, Option.map_map]

theorem kind_of_erase_shape {f : Form α} {g : Form β}
    (h : f.shape.erase .marks = g.shape.erase .marks) : f.kind = g.kind := by
  simpa [shape] using congrArg kind h

/-- A layer with another list depends on its shape, without marks, and on the children outside of
the list. -/
theorem relisted_congr {f : Form α} {g : Form β} {φ : α → γ} {ψ : β → γ}
    (hshape : f.shape.erase .marks = g.shape.erase .marks)
    (hinline : f.inline.map φ = g.inline.map ψ) (statements : List γ) :
    (f.map φ).relisted statements = (g.map ψ).relisted statements := by
  refine Form.eq_of_shape_eq ?_ ?_
  · rw [shape_relisted, shape_relisted, hshape]
  · rw [children_relisted, children_relisted, inline_map, inline_map, hinline, kind_map, kind_map,
      kind_of_erase_shape hshape]

theorem relisted_map_settled (φ : Node → γ) (statements : List γ) (form : Form Node) :
    (form.settled.map φ).relisted statements = (form.map φ).relisted statements := by
  cases form <;> simp [settled, map, relisted, rebuild, erase, Function.comp_def,
    Arg.erase_settled Erasure.forgetsValidity_marks,
    Param.erase_settled Erasure.forgetsValidity_marks]

end Form

/-! ### Trees without brackets -/

/-- Statements as one node: a group, unless it is a single one. -/
def Node.joined : List Node → Node
  | [n] => n
  | ns => synthesized (.group ns)

/-- The node over a layer. A nullsafe access has no place in the source. -/
def Form.placed (span : Option Span) (form : Form Node) : Node :=
  match form.kind with
  | .nullsafeMethodCall | .nullsafePropertyFetch => Node.synthesized form
  | _ => ⟨form, span, {}⟩

/-- The statements of a tree in order, without the brackets of its groups. A group that stands
outside of a list and has a single statement is this statement. -/
def Node.ungrouped (n : Node) : List Node :=
  n.fold fun layer span _ =>
    if layer.isGroup then layer.statements.flatten
    else [((layer.map Node.joined).relisted layer.statements.flatten).placed span]

theorem Form.isGroup_map (f : α → β) (form : Form α) : (form.map f).isGroup = form.isGroup := by
  cases form <;> rfl

theorem Node.ungrouped_mk (form : Form Node) (span : Option Span) (marks : Marks) :
    ungrouped ⟨form, span, marks⟩ =
      if form.isGroup then form.statements.flatMap ungrouped
      else [((form.map fun c => joined c.ungrouped).relisted
        (form.statements.flatMap ungrouped)).placed span] := by
  rw [ungrouped, fold_mk, Form.isGroup_map, Form.statements_map, Form.map_map, List.flatMap_def]
  rfl

/-! ### Temporaries -/

/-- The value that a statement assigns. -/
def Node.assignedValue (n : Node) : Node :=
  match n.form with
  | .expression ⟨.assign _ value, _, _⟩ => value
  | _ => n

section Known

-- the variables that the tree had before it was lowered
variable (known : String → Bool)

/-- The temporary that a statement assigns to. -/
def Form.temporary? (form : Form Node) : Option String :=
  form.assigned?.filter (!known ·)

/-- The temporary that a node assigns to, and what it assigns. -/
def Nullsafe.assignment? (n : Node) : Option (String × Node) :=
  match n.form with
  | .assign target object => (target.varName?.filter (!known ·)).map (·, object)
  | _ => none

/-- The temporary that a condition assigns to, and the object that is tested. -/
def Nullsafe.guarded? (condition : Node) : Option (String × Node) :=
  match condition.form with
  | .notIdentical left ⟨.null, _, _⟩ => assignment? known left
  | _ => assignment? known condition

/-- The nullsafe access to an object in the place of a plain access to a variable. -/
def Nullsafe.accessTo? (x : String) (object : Node) : Form Node → Option (Form Node)
  | .methodCall receiver method args =>
    if receiver.varName? = some x then some (.nullsafeMethodCall object method args) else none
  | .propertyFetch receiver property =>
    if receiver.varName? = some x then some (.nullsafePropertyFetch object property) else none
  | _ => none

/-- The nullsafe access that a ternary came from. -/
def Nullsafe.raised? : Form Node → Option (Form Node)
  | .ternary condition ifTrue ⟨.null, _, _⟩ =>
    (guarded? known condition).bind fun (x, object) => accessTo? x object ifTrue.form
  | _ => none

/-! ### Reading -/

/-- What variables stand for. -/
abbrev Standins := String → Node

/-- A reading of a tree: given what variables stand for, its statements, and what variables stand
for after them. -/
abbrev Reading := Standins → List Node × Standins

/-- What is read as one node. -/
def Reading.node (r : Reading) (σ : Standins) : Node :=
  Node.joined (r σ).1

/-- One reading after another. -/
def Reading.sequence : List Reading → Reading
  | [] => fun σ => ([], σ)
  | r :: rs => fun σ => ((r σ).1 ++ (sequence rs (r σ).2).1, (sequence rs (r σ).2).2)

/-- The node over a layer that has been read. -/
def Form.finished (σ : Standins) (span : Option Span) (form : Form Node) : Node :=
  match form.varName? with
  | some x => if known x then form.placed span else σ x
  | none =>
    match Nullsafe.raised? known form with
    | some access => Node.synthesized access
    | none => form.placed span

/-- A tree with its temporaries put back. -/
def Node.restored (n : Node) : Reading :=
  (n.fold fun layer span marks =>
    let node : Node := ⟨layer.map (·.1), span, marks⟩
    let statements := Reading.sequence (layer.statements.map (·.2))
    (node, fun σ =>
      if node.form.isGroup then statements σ
      else
        let line := ((layer.map fun c => Reading.node c.2 σ).relisted
          (statements Node.var).1).finished known σ span
        match node.form.temporary? known with
        | some x => ([], Function.update σ x line.assignedValue)
        | none => ([line], Node.var)) : Node × Reading).2

/-- The line that is read for a node that is no group. -/
def Form.line (form : Form Node) (span : Option Span) (σ : Standins) : Node :=
  ((form.map fun c => Reading.node (c.restored known) σ).relisted
    (Reading.sequence (form.statements.map (Node.restored known)) Node.var).1).finished known σ span

theorem Node.restored_mk (form : Form Node) (span : Option Span) (marks : Marks) (σ : Standins) :
    restored known ⟨form, span, marks⟩ σ =
      if form.isGroup then Reading.sequence (form.statements.map (restored known)) σ
      else match form.temporary? known with
        | some x => ([], Function.update σ x (form.line known span σ).assignedValue)
        | none => ([form.line known span σ], Node.var) := by
  simp only [restored, Form.line, fold_mk, Form.map_map, Form.statements_map, List.map_map]
  rw [Form.map_congr fun c _ => fold_rebuilt _ c, Form.map_id]
  rfl

end Known

/-! ### Sequences -/

namespace Reading

theorem sequence_append (rs ss : List Reading) (σ : Standins) :
    sequence (rs ++ ss) σ = ((sequence rs σ).1 ++ (sequence ss (sequence rs σ).2).1,
      (sequence ss (sequence rs σ).2).2) := by
  induction rs generalizing σ with
  | nil => rfl
  | cons r rs ih => simp only [List.cons_append, sequence, ih, List.append_assoc]

/-- A reading that depends on what some variables stand for only. -/
def Local (names : List String) (r : Reading) : Prop :=
  ∀ σ τ : Standins, (∀ x ∈ names, σ x = τ x) →
    (r σ).1 = (r τ).1 ∧ ∀ x, σ x = τ x → (r σ).2 x = (r τ).2 x

theorem Local.mono {names names' : List String} {r : Reading} (h : Local names r)
    (hsubset : names ⊆ names') : Local names' r :=
  fun σ τ hστ => h σ τ fun x hx => hστ x (hsubset hx)

theorem Local.node_eq {names : List String} {r : Reading} (h : Local names r) {σ τ : Standins}
    (hστ : ∀ x ∈ names, σ x = τ x) : node r σ = node r τ :=
  congrArg Node.joined (h σ τ hστ).1

theorem Local.sequence {names : List String} {rs : List Reading} (h : ∀ r ∈ rs, Local names r) :
    Local names (sequence rs) := by
  induction rs with
  | nil => exact fun σ τ _ => ⟨rfl, fun _ hx => hx⟩
  | cons r rs ih =>
    rw [List.forall_mem_cons] at h
    intro σ τ hστ
    obtain ⟨hhead, hafter⟩ := h.1 σ τ hστ
    obtain ⟨htail, hafter'⟩ := ih h.2 (r σ).2 (r τ).2 fun x hx => hafter x (hστ x hx)
    exact ⟨congrArg₂ (· ++ ·) hhead htail, fun x hx => hafter' x (hafter x hx)⟩

/-- A reading after which a variable stands for what it did before, or for itself. -/
def Spares (x : String) (r : Reading) : Prop :=
  ∀ σ, (r σ).2 x = σ x ∨ (r σ).2 x = Node.var x

theorem Spares.sequence {x : String} {rs : List Reading} (h : ∀ r ∈ rs, Spares x r) :
    Spares x (sequence rs) := by
  induction rs with
  | nil => exact fun σ => .inl rfl
  | cons r rs ih =>
    rw [List.forall_mem_cons] at h
    intro σ
    rcases ih h.2 (r σ).2 with hrest | hrest
    · rcases h.1 σ with hfirst | hfirst
      · exact .inl (hrest.trans hfirst)
      · exact .inr (hrest.trans hfirst)
    · exact .inr hrest

end Reading

namespace Node

variable {known : String → Bool}

theorem variableNames_eq (n : Node) :
    n.variableNames = n.form.ownVariables ++ n.form.children.flatMap variableNames := by
  obtain ⟨form, span, marks⟩ := n
  exact variableNames_mk form span marks

theorem variableNames_subset {n c : Node} (hc : c ∈ n.form.children) :
    c.variableNames ⊆ n.variableNames := by
  intro x hx
  rw [n.variableNames_eq]
  exact List.mem_append_right _ (List.mem_flatMap.2 ⟨c, hc, hx⟩)

theorem mem_variableNames_of_varName? {n : Node} {x : String} (h : n.varName? = some x) :
    x ∈ n.variableNames := by
  rw [n.variableNames_eq]
  refine List.mem_append_left _ ?_
  rw [varName?, Form.varName?.eq_def] at h
  revert h
  cases n.form <;> simp [Form.ownVariables, eq_comm]

theorem mem_variableNames_of_targetName? {n : Node} {x : String} (h : n.targetName? = some x) :
    x ∈ n.variableNames := by
  obtain ⟨target, htarget, hx⟩ := Option.bind_eq_some_iff.1 h
  refine variableNames_subset ?_ (mem_variableNames_of_varName? hx)
  rw [Form.target?.eq_def] at htarget
  revert htarget
  cases n.form <;> simp [Form.children, eq_comm]
  exact Or.inl

end Node

section Known

variable {known : String → Bool}

theorem Form.temporary?_eq_some {form : Form Node} {x : String}
    (h : form.temporary? known = some x) :
    ∃ value, form = .expression value ∧ value.targetName? = some x ∧ known x = false := by
  obtain ⟨hassigned, hx⟩ := Option.filter_eq_some_iff.1 h
  cases form with
  | expression value => exact ⟨value, rfl, hassigned, by simpa using hx⟩
  | _ => cases hassigned

theorem Form.temporary?_mem {form : Form Node} {x : String} (h : form.temporary? known = some x)
    (span : Option Span) (marks : Marks) :
    x ∈ Node.variableNames ⟨form, span, marks⟩ ∧ known x = false := by
  obtain ⟨value, rfl, hvalue, hx⟩ := Form.temporary?_eq_some h
  exact ⟨Node.variableNames_subset (n := ⟨.expression value, span, marks⟩) List.mem_cons_self
    (Node.mem_variableNames_of_targetName? hvalue), hx⟩

theorem Form.varName?_relisted {α : Type} (statements : List α) (form : Form α) :
    (form.relisted statements).varName? = form.varName? := by
  cases form <;> rfl

theorem Form.finished_congr {form : Form Node} {σ τ : Standins}
    (h : ∀ x ∈ form.varName?, σ x = τ x) (span : Option Span) :
    form.finished known σ span = form.finished known τ span := by
  unfold finished
  cases hx : form.varName? with
  | none => rfl
  | some x => simp only [h x hx]

/-- Layers of one shape are read alike if their children are. -/
theorem Form.line_congr {f g : Form Node} {σ τ : Standins}
    (hshape : f.shape.erase .marks = g.shape.erase .marks) (hvar : ∀ x ∈ g.varName?, σ x = τ x)
    (hinline : f.inline.map (fun c => Reading.node (c.restored known) σ) =
      g.inline.map fun c => Reading.node (c.restored known) τ)
    (hstatements : (Reading.sequence (f.statements.map (Node.restored known)) Node.var).1 =
      (Reading.sequence (g.statements.map (Node.restored known)) Node.var).1)
    (span : Option Span) : f.line known span σ = g.line known span τ := by
  rw [line, line, relisted_congr hshape hinline, hstatements]
  refine finished_congr (fun x hx => hvar x ?_) span
  rwa [varName?_relisted, varName?_map] at hx

/-- The reading of a tree depends on its own variables. -/
theorem Node.restored_local (n : Node) : Reading.Local n.variableNames (n.restored known) := by
  induction n using Node.inductionOn with
  | step form span marks ih =>
    have hchild {c : Node} (hc : c ∈ form.children) :
        Reading.Local (variableNames ⟨form, span, marks⟩) (c.restored known) :=
      (ih c hc).mono (variableNames_subset (n := ⟨form, span, marks⟩) hc)
    intro σ τ hστ
    rw [restored_mk, restored_mk]
    by_cases hgroup : form.isGroup = true
    · rw [if_pos hgroup, if_pos hgroup]
      refine Reading.Local.sequence (fun r hr => ?_) σ τ hστ
      obtain ⟨c, hc, rfl⟩ := List.mem_map.1 hr
      exact hchild (Form.mem_children_of_mem_statements hc)
    · rw [if_neg hgroup, if_neg hgroup]
      have hline : form.line known span σ = form.line known span τ := by
        refine Form.line_congr rfl (fun x hx => hστ x ?_) (List.map_congr_left fun c hc => ?_) rfl
          span
        · exact mem_variableNames_of_varName? (n := ⟨form, span, marks⟩) hx
        · exact (hchild (Form.mem_children_of_mem_inline hc)).node_eq hστ
      rw [hline]
      cases form.temporary? known with
      | none => exact ⟨rfl, fun _ _ => rfl⟩
      | some x =>
        refine ⟨rfl, fun y hy => ?_⟩
        by_cases hyx : y = x
        · simp [hyx]
        · simp [hyx, hy]

/-- Reading a tree leaves alone what it does not mention. -/
theorem Node.restored_spares (n : Node) {x : String} (hx : x ∉ n.variableNames) :
    Reading.Spares x (n.restored known) := by
  induction n using Node.inductionOn with
  | step form span marks ih =>
    intro σ
    rw [restored_mk]
    by_cases hgroup : form.isGroup = true
    · rw [if_pos hgroup]
      refine Reading.Spares.sequence (fun r hr => ?_) σ
      obtain ⟨c, hc, rfl⟩ := List.mem_map.1 hr
      have hc : c ∈ form.children := Form.mem_children_of_mem_statements hc
      exact ih c hc fun h => hx (variableNames_subset (n := ⟨form, span, marks⟩) hc h)
    · rw [if_neg hgroup]
      cases htemporary : form.temporary? known with
      | none => exact .inr rfl
      | some y =>
        have hne : x ≠ y := fun h => hx (h ▸ (Form.temporary?_mem htemporary span marks).1)
        exact .inl (Function.update_of_ne hne _ _)

theorem Reading.sequence_splice (statements : List Node) :
    sequence ((splice statements).map (Node.restored known)) =
      sequence (statements.map (Node.restored known)) := by
  funext σ
  induction statements generalizing σ with
  | nil => rfl
  | cons n rest ih =>
    rw [splice_cons, List.map_append, sequence_append, ih, List.map_cons]
    have hfirst : sequence ((if n.form.isGroup then n.form.statements else [n]).map
        (Node.restored known)) σ = n.restored known σ := by
      by_cases hgroup : n.form.isGroup = true
      · obtain ⟨form, span, marks⟩ := n
        rw [if_pos hgroup, Node.restored_mk, if_pos hgroup]
      · rw [if_neg hgroup]
        simp [sequence]
    rw [hfirst]
    rfl

/-! ### Trees without temporaries -/

theorem Node.variableNames_joined (ns : List Node) :
    (joined ns).variableNames = ns.flatMap variableNames := by
  have hgroup : (synthesized (.group ns)).variableNames = ns.flatMap variableNames :=
    variableNames_eq _
  unfold joined
  split
  · simp
  · exact hgroup

theorem Form.variableNames_placed (span : Option Span) (form : Form Node) :
    (form.placed span).variableNames =
      form.ownVariables ++ form.children.flatMap Node.variableNames := by
  unfold placed
  split <;> exact Node.variableNames_eq _

theorem Form.ownVariables_relisted {α : Type} (statements : List α) (form : Form α) :
    (form.relisted statements).ownVariables = form.ownVariables := by
  cases form <;> simp [relisted, rebuild, erase, ownVariables, Param.erase, Capture.erase,
    Function.comp_def]

theorem Form.statements_of_kind {α : Type} {form : Form α} (h : form.kind.hasStatements = false) :
    form.statements = [] := by
  revert h
  cases form <;> simp [kind, Kind.hasStatements, statements]

/-- A tree without brackets has the same variables. -/
theorem Node.variableNames_ungrouped (n : Node) :
    n.ungrouped.flatMap variableNames = n.variableNames := by
  induction n using Node.inductionOn with
  | step form span marks ih =>
    have hlist : (form.statements.flatMap ungrouped).flatMap variableNames =
        form.statements.flatMap variableNames := by
      rw [List.flatMap_assoc]
      exact List.flatMap_congr fun c hc =>
        ih c (Form.mem_children_of_mem_statements hc)
    rw [ungrouped_mk, variableNames_mk]
    by_cases hgroup : form.isGroup = true
    · rw [if_pos hgroup, hlist, Form.children_of_isGroup hgroup]
      revert hgroup
      cases form <;> simp [Form.isGroup, Form.ownVariables]
    · rw [if_neg hgroup, List.flatMap_singleton, Form.variableNames_placed,
        Form.ownVariables_relisted, Form.ownVariables_map, Form.children_relisted, Form.inline_map,
        Form.kind_map, Form.children_eq, List.flatMap_append, List.flatMap_append]
      congr 2
      · rw [List.flatMap_map]
        refine List.flatMap_congr fun c hc => ?_
        rw [variableNames_joined]
        exact ih c (Form.mem_children_of_mem_inline hc)
      · split
        · exact hlist
        · next hkind => rw [Form.statements_of_kind (Bool.eq_false_iff.2 hkind)]

theorem Nullsafe.assignment?_eq_some {n object : Node} {x : String}
    (h : assignment? known n = some (x, object)) : x ∈ n.variableNames ∧ known x = false := by
  obtain ⟨form, span, marks⟩ := n
  cases form with
  | assign target value =>
    obtain ⟨y, hy, hpair⟩ := Option.map_eq_some_iff.1 h
    obtain ⟨rfl, -⟩ := Prod.mk.inj hpair
    obtain ⟨htarget, hknown⟩ := Option.filter_eq_some_iff.1 hy
    exact ⟨Node.mem_variableNames_of_targetName? (n := ⟨.assign target value, span, marks⟩) htarget,
      by simpa using hknown⟩
  | _ => cases h

theorem Nullsafe.guarded?_eq_some {n object : Node} {x : String}
    (h : guarded? known n = some (x, object)) : x ∈ n.variableNames ∧ known x = false := by
  unfold guarded? at h
  split at h
  · next left _ _ hform =>
    obtain ⟨hx, hknown⟩ := assignment?_eq_some h
    refine ⟨Node.variableNames_subset ?_ hx, hknown⟩
    rw [hform]
    exact List.mem_cons_self
  · exact assignment?_eq_some h

theorem Nullsafe.raised?_eq_some {form access : Form Node} (h : raised? known form = some access) :
    ∃ x ∈ form.children.flatMap Node.variableNames, known x = false := by
  unfold raised? at h
  split at h
  · next condition ifTrue _ _ =>
    obtain ⟨⟨x, object⟩, hguarded, -⟩ := Option.bind_eq_some_iff.1 h
    obtain ⟨hx, hknown⟩ := guarded?_eq_some hguarded
    exact ⟨x, List.mem_flatMap.2 ⟨condition, List.mem_cons_self, hx⟩, hknown⟩
  · cases h

theorem Reading.sequence_of_known {statements : List Node}
    (h : ∀ c ∈ statements, ∀ σ, (c.restored known σ).1 = c.ungrouped) (σ : Standins) :
    (sequence (statements.map (Node.restored known)) σ).1 = statements.flatMap Node.ungrouped := by
  induction statements generalizing σ with
  | nil => rfl
  | cons c statements ih =>
    rw [List.forall_mem_cons] at h
    rw [List.flatMap_cons, List.map_cons]
    exact congrArg₂ (· ++ ·) (h.1 σ) (ih h.2 _)

/-- A tree all of whose variables were there before is read as itself, without its brackets. -/
theorem Node.restored_of_known {n : Node} (h : ∀ x ∈ n.variableNames, known x = true)
    (σ : Standins) : (n.restored known σ).1 = n.ungrouped := by
  induction n using Node.inductionOn generalizing σ with
  | step form span marks ih =>
    have hread (c : Node) (hc : c ∈ form.children) (σ : Standins) :
        (c.restored known σ).1 = c.ungrouped :=
      ih c hc (fun x hx => h x (variableNames_subset (n := ⟨form, span, marks⟩) hc hx)) σ
    have hlist (σ : Standins) :
        (Reading.sequence (form.statements.map (restored known)) σ).1 =
          form.statements.flatMap ungrouped :=
      Reading.sequence_of_known (fun c hc => hread c
        (Form.mem_children_of_mem_statements hc)) σ
    rw [restored_mk]
    by_cases hgroup : form.isGroup = true
    · rw [if_pos hgroup, hlist, ungrouped_mk, if_pos hgroup]
    · have htemporary : form.temporary? known = none := by
        rw [Option.eq_none_iff_forall_not_mem]
        intro x hx
        obtain ⟨hmem, hknown⟩ := Form.temporary?_mem hx span marks
        rw [h x hmem] at hknown
        cases hknown
      -- the layer that is read is the layer without brackets, and nothing in it is raised
      have hlayer : (form.map fun c => Reading.node (c.restored known) σ).relisted
            (Reading.sequence (form.statements.map (restored known)) Node.var).1 =
          (form.map fun c => joined c.ungrouped).relisted (form.statements.flatMap ungrouped) := by
        rw [hlist]
        exact congrArg _ (Form.map_congr fun c hc => congrArg joined (hread c hc σ))
      have hvariables := variableNames_ungrouped ⟨form, span, marks⟩
      rw [ungrouped_mk, if_neg hgroup, List.flatMap_singleton] at hvariables
      rw [if_neg hgroup, htemporary, ungrouped_mk, if_neg hgroup, Form.line, hlayer]
      generalize (form.map fun c => joined c.ungrouped).relisted
        (form.statements.flatMap ungrouped) = layer at hvariables ⊢
      show [layer.finished known σ span] = [layer.placed span]
      congr 1
      rw [Form.variableNames_placed] at hvariables
      unfold Form.finished
      split
      · next x hx =>
        have hknown : known x = true := by
          refine h x (hvariables ▸ List.mem_append_left _ ?_)
          rw [Form.varName?.eq_def] at hx
          revert hx
          cases layer <;> simp [Form.ownVariables, eq_comm]
        rw [if_pos hknown]
      · split
        · next hraised =>
          obtain ⟨x, hx, hknown⟩ := Nullsafe.raised?_eq_some hraised
          rw [h x (hvariables ▸ List.mem_append_right _ hx)] at hknown
          cases hknown
        · rfl

end Known

end SyntaxLowering
