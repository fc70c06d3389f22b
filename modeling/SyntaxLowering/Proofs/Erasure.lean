import SyntaxLowering.Proofs.Settling

/-!
# Trees up to spans and marks

Trees often agree in all but the spans or some of the marks of their nodes and list elements. An
`Erasure` says what is kept of these, and `Node.erase` applies it all over a tree, so that two trees
are compared by what is left. Where the validity of source text is not kept, settling a layer only
splices its groups (`Node.erase_settle`).
-/

namespace SyntaxLowering

variable {α β : Type}

/-! ### Rebuilding a layer -/

namespace Form

/-- Rebuilds the elements of the lists of a layer, and its statement list. -/
def rebuild (onArg : Arg α → Arg α) (onParam : Param α → Param α) (onCapture : Capture → Capture)
    (onStatements : List α → List α) : Form α → Form α
  | methodCall object method args => methodCall object method (args.map onArg)
  | nullsafeMethodCall object method args => nullsafeMethodCall object method (args.map onArg)
  | staticCall scope method args => staticCall scope method (args.map onArg)
  | functionCall function args => functionCall function (args.map onArg)
  | new scope args => new scope (args.map onArg)
  | closure params captures body isStatic =>
    closure (params.map onParam) (captures.map onCapture) (onStatements body) isStatic
  | functionDecl n params body => functionDecl n (params.map onParam) (onStatements body)
  | classDecl n members => classDecl n (onStatements members)
  | methodDecl n modifiers params body =>
    methodDecl n modifiers (params.map onParam) (onStatements body)
  | group statements => group (onStatements statements)
  | program statements => program (onStatements statements)
  | form => form

variable (onArg : Arg α → Arg α) (onParam : Param α → Param α) (onCapture : Capture → Capture)
  (onStatements : List α → List α) (form : Form α)

@[simp]
theorem kind_rebuild : (form.rebuild onArg onParam onCapture onStatements).kind = form.kind := by
  cases form <;> rfl

@[simp]
theorem varName?_rebuild :
    (form.rebuild onArg onParam onCapture onStatements).varName? = form.varName? := by
  cases form <;> rfl

@[simp]
theorem statements_rebuild :
    (form.rebuild onArg onParam onCapture id).statements = form.statements := by
  cases form <;> rfl

variable {onArg onParam onCapture onStatements form}

/-- Of two ways to rebuild a layer before its children are mapped, a later rebuilding sees no
difference if it sees none in the parts. -/
theorem rebuild_map_rebuild {φ : α → β} {onArg' : Arg β → Arg β} {onParam' : Param β → Param β}
    {onCapture' : Capture → Capture} {onStatements' onStatements'' : List β → List β}
    (harg : ∀ a, onArg' ((onArg a).map φ) = onArg' (a.map φ))
    (hparam : ∀ p, onParam' ((onParam p).map φ) = onParam' (p.map φ))
    (hcapture : ∀ c, onCapture' (onCapture c) = onCapture' c)
    (hstatements : ∀ l, onStatements' ((onStatements l).map φ) = onStatements'' (l.map φ))
    (form : Form α) :
    ((form.rebuild onArg onParam onCapture onStatements).map φ).rebuild onArg' onParam' onCapture'
        onStatements' =
      (form.map φ).rebuild onArg' onParam' onCapture' onStatements'' := by
  cases form <;> simp [rebuild, map, Function.comp_def, harg, hparam, hcapture, hstatements]

/-- A layer with the statements of its groups in the place of the groups. -/
def spliced (form : Form Node) : Form Node :=
  form.rebuild id id id splice

theorem settled_eq_rebuild (form : Form Node) :
    form.settled = form.rebuild Arg.settled Param.settled id splice := by
  cases form <;> simp [settled, rebuild]

end Form

/-- Splicing goes with a function that keeps groups and acts on their statements. -/
theorem splice_map {φ : Node → Node} (hgroup : ∀ n, (φ n).form.isGroup = n.form.isGroup)
    (hstatements : ∀ n, (φ n).form.statements = n.form.statements.map φ)
    (statements : List Node) : (splice statements).map φ = splice (statements.map φ) := by
  induction statements with
  | nil => rfl
  | cons n rest ih =>
    rw [List.map_cons, splice_cons, splice_cons, List.map_append, ih, hgroup, hstatements]
    split <;> rfl

/-! ### Erasures -/

/-- What is kept of spans and marks. The marks of captured variables are a case of their own. -/
structure Erasure where
  onSpan : Option Span → Option Span := id
  onMarks : Marks → Marks
  onCapture : Marks → Marks := onMarks

namespace Erasure

/-- Erases all marks. -/
def marks : Erasure where
  onMarks _ := {}

/-- Erases all spans and marks. -/
def places : Erasure where
  onSpan _ := none
  onMarks _ := {}

/-- Takes the source text of nodes, arguments and parameters for valid. -/
def textValidity : Erasure where
  onMarks m := { m with textValid := true }
  onCapture := id

/-- Whether source text is valid is not kept. -/
def ForgetsValidity (e : Erasure) : Prop :=
  ∀ m : Marks, e.onMarks m.outdated = e.onMarks m

theorem forgetsValidity_marks : marks.ForgetsValidity :=
  fun _ => rfl

theorem forgetsValidity_textValidity : textValidity.ForgetsValidity :=
  fun _ => rfl

end Erasure

def Arg.erase (a : Arg α) (e : Erasure) : Arg α :=
  { a with span := e.onSpan a.span, marks := e.onMarks a.marks }

def Param.erase (p : Param α) (e : Erasure) : Param α :=
  { p with span := e.onSpan p.span, marks := e.onMarks p.marks }

def Capture.erase (c : Capture) (e : Erasure) : Capture :=
  { c with span := e.onSpan c.span, marks := e.onCapture c.marks }

/-- A layer with only what is kept of the spans and marks of its list elements. -/
def Form.erase (form : Form α) (e : Erasure) : Form α :=
  form.rebuild (·.erase e) (·.erase e) (·.erase e) id

/-- A tree with only what is kept of its spans and marks. -/
def Node.erase (n : Node) (e : Erasure) : Node :=
  n.fold fun layer span marks => ⟨layer.erase e, e.onSpan span, e.onMarks marks⟩

section

variable (e : Erasure)

namespace Form

@[simp]
theorem kind_erase (form : Form α) : (form.erase e).kind = form.kind :=
  kind_rebuild ..

@[simp]
theorem statements_erase (form : Form α) : (form.erase e).statements = form.statements :=
  statements_rebuild ..

/-- Erasing leaves the children alone. -/
theorem map_erase (f : α → β) (form : Form α) : (form.erase e).map f = (form.map f).erase e := by
  cases form <;>
    simp [erase, rebuild, map, Arg.map, Param.map, Arg.erase, Param.erase, Function.comp_def]

theorem shape_erase (form : Form α) : (form.erase e).shape = form.shape.erase e :=
  map_erase e _ form

end Form

theorem Node.erase_mk (form : Form Node) (span : Option Span) (marks : Marks) :
    erase ⟨form, span, marks⟩ e =
      ⟨(form.map (·.erase e)).erase e, e.onSpan span, e.onMarks marks⟩ :=
  fold_mk _ form span marks

theorem Node.erase_eq (n : Node) :
    n.erase e = ⟨(n.form.map (·.erase e)).erase e, e.onSpan n.span, e.onMarks n.marks⟩ := by
  obtain ⟨form, span, marks⟩ := n
  exact erase_mk e form span marks

theorem Node.kind_erase (n : Node) : (n.erase e).kind = n.kind := by
  rw [erase_eq]
  exact (Form.kind_erase e _).trans (Form.kind_map _ _)

theorem splice_map_erase (statements : List Node) :
    (splice statements).map (·.erase e) = splice (statements.map (·.erase e)) := by
  refine splice_map (fun n => ?_) (fun n => ?_) statements
  · rw [Form.isGroup_eq, Form.isGroup_eq]
    exact congrArg (· == Kind.group) (n.kind_erase e)
  · rw [Node.erase_eq, Form.statements_erase, Form.statements_map]

theorem Form.map_erase_spliced (form : Form Node) :
    form.spliced.map (·.erase e) = (form.map (·.erase e)).spliced := by
  cases form <;> simp [spliced, rebuild, map, splice_map_erase]

end

section

variable {e : Erasure} (he : e.ForgetsValidity)

include he

theorem Arg.erase_settled (φ : Node → β) (a : Arg Node) :
    (a.settled.map φ).erase e = (a.map φ).erase e := by
  unfold settled
  split
  · exact congrArg (fun marks => { (a.map φ).erase e with marks }) (he a.marks)
  · rfl

theorem Param.erase_settled (φ : Node → β) (p : Param Node) :
    (p.settled.map φ).erase e = (p.map φ).erase e := by
  unfold settled
  split
  · exact congrArg (fun marks => { (p.map φ).erase e with marks }) (he p.marks)
  · rfl

/-- Up to the validity of source text, settling a layer splices its groups. -/
theorem Form.erase_settled (form : Form Node) :
    (form.settled.map (·.erase e)).erase e = (form.map (·.erase e)).spliced.erase e := by
  rw [settled_eq_rebuild, ← map_erase_spliced]
  have hsplice := splice_map_erase e
  exact (rebuild_map_rebuild (Arg.erase_settled he _) (Param.erase_settled he _) (fun _ => rfl)
    hsplice form).trans
    (rebuild_map_rebuild (fun _ => rfl) (fun _ => rfl) (fun _ => rfl) hsplice form).symm

theorem Node.erase_settle (form : Form Node) (span : Option Span) (marks : Marks) :
    (settle form span marks).erase e = erase ⟨form.spliced, span, marks⟩ e := by
  rw [settle, erase_mk, erase_mk, Form.erase_settled he, Form.map_erase_spliced]
  congr 1
  split
  · exact he marks
  · rfl

end

end SyntaxLowering
