import SyntaxLowering.Proofs.NullsafeLowering

/-!
# Addresses in a tree

An address lists the indices of the children on the way from a tree to one of its nodes.
`Node.addressed` pairs every node with its address. `Node.editAt` changes the node at an address,
and gives up the source text of all that stands on the way there. An edit that puts a new variable
into a tree is undone by substituting for the variable what was there before.
-/

namespace SyntaxLowering

variable {α β : Type}

/-! ### Layers with numbered children -/

/-- Pairs a child with the number of children before it. -/
def number (c : α) : StateM Nat (α × Nat) :=
  fun k => ((c, k), k + 1)

theorem mapM_number (cs : List α) (k : Nat) : cs.mapM number k = (cs.zipIdx k, k + cs.length) := by
  induction cs generalizing k with
  | nil => rfl
  | cons c cs ih =>
    have hcons : (c :: cs).mapM number k =
        ((c, k) :: (cs.mapM number (k + 1)).1, (cs.mapM number (k + 1)).2) := by
      rw [List.mapM_cons]
      rfl
    rw [hcons, ih, List.zipIdx_cons, List.length_cons, Nat.add_right_comm, Nat.add_assoc]

theorem mapM_number_args (args : List (Arg α)) (k : Nat) :
    args.mapM (·.mapM number) k =
      ((args.zipIdx k).map fun p => p.1.map (·, p.2), k + args.length) := by
  induction args generalizing k with
  | nil => rfl
  | cons a args ih =>
    have hcons : (a :: args).mapM (·.mapM number) k =
        (a.map (·, k) :: (args.mapM (·.mapM number) (k + 1)).1,
          (args.mapM (·.mapM number) (k + 1)).2) := by
      rw [List.mapM_cons]
      rfl
    rw [hcons, ih, List.zipIdx_cons, List.length_cons, Nat.add_right_comm, Nat.add_assoc]
    rfl

namespace Form

/-- A layer with its children numbered in the order of `Form.children`. -/
def numbered (form : Form α) : Form (α × Nat) :=
  (form.mapM number 0).1

theorem shape_numbered (form : Form α) : form.numbered.shape = form.shape :=
  congrArg (·.1.1) (congrFun (mapM_bind number form fun shape cs => pure (shape, cs)) 0)

theorem children_numbered (form : Form α) : form.numbered.children = form.children.zipIdx := by
  have hmapM : form.numbered.children = (form.children.mapM number 0).1 :=
    congrArg (·.1.2) (congrFun (mapM_bind number form fun shape cs => pure (shape, cs)) 0)
  rw [hmapM, mapM_number]

theorem map_numbered (f : α → β) (form : Form α) :
    (form.numbered.map fun c => f c.1) = form.map f := by
  apply eq_of_shape_eq
  · have hshape := shape_numbered form
    simp only [shape, map_map] at hshape ⊢
    exact hshape
  · have hchildren : form.children.zipIdx.map (f ∘ Prod.fst) = form.children.map f := by
      rw [← List.map_map, List.zipIdx_map_fst]
    rw [children_map, children_map, children_numbered]
    exact hchildren

theorem varName?_numbered (form : Form α) : form.numbered.varName? = form.varName? := by
  have hshape := congrArg varName? (shape_numbered form)
  rwa [shape, shape, varName?_map, varName?_map] at hshape

theorem children_rebuild {onArg : Arg α → Arg α} (h : ∀ a, (onArg a).value = a.value)
    (form : Form α) : (form.rebuild onArg id id id).children = form.children := by
  cases form <;> simp [rebuild, children, Function.comp_def, h]

/-- A layer in which the argument that holds the child at an index has given up its source text. -/
def markArgAt (i : Nat) (form : Form (α × Nat)) : Form (α × Nat) :=
  form.rebuild (fun a => if a.value.2 = i then { a with marks := a.marks.outdated } else a) id id id

theorem children_markArgAt (i : Nat) (form : Form (α × Nat)) :
    (form.markArgAt i).children = form.children := by
  refine children_rebuild (fun a => ?_) form
  split <;> rfl

/-- A layer with the child at an index changed. An argument that holds the child gives up its
source text. -/
def modifyChild (f : α → α) (i : Nat) (form : Form α) : Form α :=
  (form.numbered.markArgAt i).map fun c => if c.2 = i then f c.1 else c.1

theorem varName?_modifyChild (f : α → α) (i : Nat) (form : Form α) :
    (form.modifyChild f i).varName? = form.varName? := by
  rw [modifyChild, varName?_map, markArgAt, varName?_rebuild, varName?_numbered]

/-- The arguments of a changed layer are numbered after the children in places of their own. -/
theorem args_modifyChild (f : α → α) (i : Nat) (form : Form α) :
    (form.modifyChild f i).args = (form.args.zipIdx form.heads.length).map fun p =>
      if p.2 = i then { p.1 with value := f p.1.value, marks := p.1.marks.outdated }
      else p.1 := by
  have hargs (as : List (Arg α)) (k : Nat) :
      (((as.mapM (·.mapM number) k).1.map fun a =>
        if a.value.2 = i then { a with marks := a.marks.outdated } else a).map fun a =>
          a.map fun c => if c.2 = i then f c.1 else c.1) =
        (as.zipIdx k).map fun p =>
          if p.2 = i then { p.1 with value := f p.1.value, marks := p.1.marks.outdated }
          else p.1 := by
    rw [mapM_number_args, List.map_map, List.map_map]
    refine List.map_congr_left fun p _ => ?_
    by_cases hp : p.2 = i <;> simp [Arg.map, hp]
  cases form with
  | methodCall | nullsafeMethodCall | staticCall | functionCall | new => exact hargs _ 1
  | _ => rfl

/-- Mapping a changed layer depends on what happens to the child at the index, and on what happens
to the others. -/
theorem map_modifyChild_congr {f g : α → α} {φ ψ : α → β} {i : Nat} {form : Form α}
    (hat : ∀ c, form.children[i]? = some c → φ (f c) = ψ (g c))
    (helse : ∀ c ∈ form.children, φ c = ψ c) :
    (form.modifyChild f i).map φ = (form.modifyChild g i).map ψ := by
  rw [modifyChild, modifyChild, map_map, map_map]
  refine map_congr fun c hc => ?_
  rw [children_markArgAt, children_numbered] at hc
  have hget : form.children[c.2]? = some c.1 := List.mem_zipIdx_iff_getElem?.1 hc
  by_cases hi : c.2 = i
  · rw [if_pos hi, if_pos hi]
    exact hat c.1 (hi ▸ hget)
  · rw [if_neg hi, if_neg hi]
    exact helse c.1 (List.mem_of_getElem? hget)

theorem modifyChild_congr {f g : α → α} {i : Nat} {form : Form α}
    (h : ∀ c, form.children[i]? = some c → f c = g c) :
    form.modifyChild f i = form.modifyChild g i := by
  have hmap : (form.modifyChild f i).map (fun c => c) = (form.modifyChild g i).map (fun c => c) :=
    map_modifyChild_congr h fun _ _ => rfl
  rwa [map_id, map_id] at hmap

end Form

namespace Node

/-! ### Addresses -/

/-- The nodes of a tree in preorder, each with its address. -/
def addressed (n : Node) : List (List Nat × Node) :=
  (n.fold fun layer span marks =>
    let node : Node := ⟨layer.map (·.1), span, marks⟩
    (node, ([], node) :: layer.children.zipIdx.flatMap fun c =>
      c.1.2.map fun p => (c.2 :: p.1, p.2)) : Node × List (List Nat × Node)).2

theorem addressed_mk (form : Form Node) (span : Option Span) (marks : Marks) :
    addressed ⟨form, span, marks⟩ = ([], ⟨form, span, marks⟩) ::
      form.children.zipIdx.flatMap fun c => c.1.addressed.map fun p => (c.2 :: p.1, p.2) := by
  simp only [addressed, fold_mk, Form.map_map, Form.children_map, List.zipIdx_map,
    List.flatMap_map]
  rw [Form.map_congr fun c _ => fold_rebuilt _ c, Form.map_id]
  rfl

/-- Forgetting the addresses leaves the preorder. -/
theorem map_snd_addressed (n : Node) : n.addressed.map (·.2) = n.preorder := by
  induction n using Node.inductionOn with
  | step form span marks ih =>
    have hchildren : form.children.zipIdx.flatMap (fun c => c.1.addressed.map (·.2)) =
        form.children.flatMap preorder := by
      rw [List.flatMap_congr fun c hc => ih c.1 (List.fst_mem_of_mem_zipIdx hc)]
      conv_rhs => rw [← List.zipIdx_map_fst 0 form.children, List.flatMap_map]
    rw [addressed_mk, preorder_mk, List.map_cons, List.map_flatMap, ← hchildren]
    simp only [List.map_map, Function.comp_def]

/-! ### Edits -/

/-- A tree with the node at an address changed. All nodes on the way there, and the arguments that
hold them, give up their source text. -/
def editAt (f : Node → Node) : List Nat → Node → Node
  | [], n => f n
  | i :: address, n => ⟨n.form.modifyChild (editAt f address) i, n.span, n.marks.outdated⟩

/-- A tree in which the nodes on the way to an address, the one at the address included, and the
arguments that hold them have given up their source text. -/
def outdatedAlong : List Nat → Node → Node :=
  editAt fun n => ⟨n.form, n.span, n.marks.outdated⟩

/-- An edit that changes nothing but the validity of source text changes nothing else in the whole
tree. -/
theorem erase_editAt {e : Erasure} (he : e.ForgetsValidity) {f : Node → Node}
    (hf : ∀ n, (f n).erase e = n.erase e) (address : List Nat) (n : Node) :
    (n.editAt f address).erase e = n.erase e := by
  induction address generalizing n with
  | nil => exact hf n
  | cons i address ih =>
    obtain ⟨form, span, marks⟩ := n
    have hmap : (form.modifyChild (editAt f address) i).map (·.erase e) =
        (form.numbered.markArgAt i).map fun c => c.1.erase e := by
      rw [Form.modifyChild, Form.map_map]
      refine Form.map_congr fun c _ => ?_
      split
      · exact ih c.1
      · rfl
    rw [editAt, erase_mk, erase_mk, hmap, ← Form.map_numbered (·.erase e) form, he marks]
    congr 1
    refine Form.rebuild_map_rebuild (fun a => ?_) (fun _ => rfl) (fun _ => rfl) (fun _ => rfl)
      form.numbered
    split
    · exact congrArg (fun marks => { (a.map fun c => c.1.erase e).erase e with marks }) (he a.marks)
    · rfl

theorem erase_outdatedAlong {e : Erasure} (he : e.ForgetsValidity) (address : List Nat) (n : Node) :
    (n.outdatedAlong address).erase e = n.erase e := by
  refine erase_editAt he (fun n => ?_) address n
  rw [erase_eq, erase_eq e n, he n.marks]

/-! ### Substitution -/

/-- A tree with another one in the place of every mention of a variable. -/
def substitute (n : Node) (x : String) (r : Node) : Node :=
  n.fold fun layer span marks => if layer.varName? = some x then r else ⟨layer, span, marks⟩

theorem substitute_mk (form : Form Node) (span : Option Span) (marks : Marks) (x : String)
    (r : Node) :
    substitute ⟨form, span, marks⟩ x r =
      if form.varName? = some x then r else ⟨form.map (·.substitute x r), span, marks⟩ := by
  rw [substitute, fold_mk, Form.varName?_map]
  rfl

theorem not_mem_variableNames_child {x : String} {form : Form Node} {span : Option Span}
    {marks : Marks} (h : x ∉ variableNames ⟨form, span, marks⟩) :
    form.varName? ≠ some x ∧ ∀ c ∈ form.children, x ∉ c.variableNames := by
  rw [variableNames_mk, List.mem_append, List.mem_flatMap, not_or] at h
  refine ⟨fun hvar => h.1 ?_, fun c hc hx => h.2 ⟨c, hc, hx⟩⟩
  cases form <;> simp [Form.varName?, Form.ownVariables] at hvar ⊢
  exact hvar.symm

theorem substitute_of_not_mem {x : String} {r n : Node} (h : x ∉ n.variableNames) :
    n.substitute x r = n := by
  induction n using Node.inductionOn with
  | step form span marks ih =>
    obtain ⟨hvar, hchildren⟩ := not_mem_variableNames_child h
    have hmap : form.map (·.substitute x r) = form.map fun c => c :=
      Form.map_congr fun c hc => ih c hc (hchildren c hc)
    rw [substitute_mk, if_neg hvar, hmap, Form.map_id]

/-- Substituting for a variable that was put in the place of a node is putting something else there,
if the tree does not use the variable. -/
theorem substitute_editAt_var {x : String} (r : Node) {n : Node} (h : x ∉ n.variableNames)
    (address : List Nat) :
    (n.editAt (fun _ => Node.var x) address).substitute x r = n.editAt (fun _ => r) address := by
  induction address generalizing n with
  | nil =>
    show substitute ⟨.var x, none, {}⟩ x r = r
    rw [substitute_mk]
    exact if_pos rfl
  | cons i address ih =>
    obtain ⟨form, span, marks⟩ := n
    obtain ⟨hvar, hchildren⟩ := not_mem_variableNames_child h
    have hmap : (form.modifyChild (editAt (fun _ => Node.var x) address) i).map
          (·.substitute x r) =
        (form.modifyChild (editAt (fun _ => r) address) i).map fun c => c :=
      Form.map_modifyChild_congr (fun c hc => ih (hchildren c (List.mem_of_getElem? hc)))
        fun c hc => substitute_of_not_mem (hchildren c hc)
    rw [editAt, substitute_mk, Form.varName?_modifyChild, if_neg hvar, hmap, Form.map_id]
    rfl

end Node

end SyntaxLowering
