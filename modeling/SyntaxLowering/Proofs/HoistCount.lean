import Mathlib.Algebra.GroupWithZero.Nat
import SyntaxLowering.Proofs.HoistPath

/-!
# How many objects are left to hoist

`Hoist.accesses` counts the member accesses to instantiations that the search of the hoisting rule
can reach in an expression. The search fails exactly where there are none, taking one object out
makes the count one less, shared among the two pieces, and all that happens to an expression
between two hoistings leaves the count alone. A statement with few accesses is therefore finished
after few revisits.
-/

namespace SyntaxLowering.Hoist

variable {α β : Type}

/-- The number of member accesses to instantiations, in the places of an expression that the search
reaches. -/
def accesses (n : Node) : Nat :=
  (n.fold fun layer _ _ =>
    (layer.kind == .new || layer.kind == .clone,
      (if layer.object?.any (·.1) then 1 else 0) + ((searched layer).map (·.2)).sum) :
    Bool × Nat).2

/-- The number of accesses in a statement from which objects are hoisted. -/
def hoistable (n : Node) : Nat :=
  match n.form with
  | .expression value | .ret (some value) => accesses value
  | _ => 0

theorem isInstantiation_eq (n : Node) :
    isInstantiation n = (n.form.kind == .new || n.form.kind == .clone) := by
  unfold isInstantiation
  cases n.form <;> rfl

theorem searched_map (f : α → β) (form : Form α) :
    searched (form.map f) = (searched form).map f := by
  cases form <;> simp [searched, Form.map, Arg.map, Function.comp_def]

theorem accesses_mk (form : Form Node) (span : Option Span) (marks : Marks) :
    accesses ⟨form, span, marks⟩ =
      (if form.object?.any isInstantiation then 1 else 0) +
        ((searched form).map accesses).sum := by
  have hfirst (n : Node) : (n.fold fun layer _ _ =>
      (layer.kind == .new || layer.kind == .clone,
        (if layer.object?.any (·.1) then 1 else 0) + ((searched layer).map (·.2)).sum) :
      Bool × Nat).1 = isInstantiation n := by
    cases n with
    | mk form span marks => rw [Node.fold_mk, isInstantiation_eq, Form.kind_map]
  rw [accesses, Node.fold_mk, Form.object?_map, searched_map]
  simp only [List.map_map, Option.any_map, Function.comp_def, hfirst]
  rfl

/-! ### The search fails where there is nothing to count -/

theorem receiverInArgs?_eq_none {args : List (Arg Node)} :
    receiverInArgs? args = none ↔ ∀ a ∈ args, receiver? a.value = none := by
  induction args with
  | nil => simp [receiverInArgs?]
  | cons a rest ih =>
    obtain ⟨value, name, unpack, byRef, span, marks⟩ := a
    simp only [receiverInArgs?, Option.orElse_eq_orElse, Option.orElse_eq_or, Option.or_eq_none_iff,
      Option.map_eq_none_iff, ih, List.forall_mem_cons]

theorem receiverInForm?_eq_none {form : Form Node} :
    receiverInForm? form = none ↔
      form.object?.any isInstantiation = false ∧ ∀ c ∈ searched form, receiver? c = none := by
  cases form <;>
    simp only [receiverInForm?, searched, Form.object?, Option.orElse_eq_orElse,
      Option.orElse_eq_or, Option.or_eq_none_iff, Option.map_eq_none_iff, direct?_eq_none,
      receiverInArgs?_eq_none, List.forall_mem_cons, List.forall_mem_map, List.not_mem_nil,
      false_implies, implies_true, and_true, true_and, Option.any_none, Option.any_some, and_assoc]

/-- The search finds nothing exactly where there are no accesses to instantiations. -/
theorem receiver?_eq_none_iff (n : Node) : receiver? n = none ↔ accesses n = 0 := by
  induction n using Node.inductionOn with
  | step form span marks ih =>
    have hsum : (∀ c ∈ searched form, receiver? c = none) ↔
        ((searched form).map accesses).sum = 0 := by
      rw [List.sum_eq_zero_iff_forall_eq_nat, List.forall_mem_map]
      exact forall₂_congr fun c hc => ih c (searched_subset form hc)
    rw [receiver?, Option.map_eq_none_iff, receiverInForm?_eq_none, accesses_mk, hsum,
      Nat.add_eq_zero_iff]
    cases form.object?.any isInstantiation <;> simp

/-! ### Taking an object out -/

theorem Slot.searched_eq {form : Form Node} {c : Node} {plug : Node → Form Node}
    (h : Slot form c plug) :
    ∃ pre post, searched form = pre ++ c :: post ∧ ∀ x, searched (plug x) = pre ++ x :: post := by
  cases h with
  | assignTarget | left | condition | fetched | nullsafeFetched | cloned | object
    | nullsafeObject | staticScope | function | newScope => exact ⟨[], _, rfl, fun _ => rfl⟩
  | assignValue | right => exact ⟨[_], [], rfl, fun _ => rfl⟩
  | @methodArg o _ pre post _ | @staticArg o _ pre post _ | @functionArg o pre post _
    | @newArg o pre post _ =>
    refine ⟨o :: pre.map (·.value), post.map (·.value), ?_, fun x => ?_⟩ <;>
      simp [searched, Arg.refill]

theorem Slot.object?_any_eq {form : Form Node} {c : Node} {plug : Node → Form Node}
    (h : Slot form c plug) {x : Node} (hx : isInstantiation x = isInstantiation c) :
    (plug x).object?.any isInstantiation = form.object?.any isInstantiation := by
  cases h <;> first | rfl | exact hx

theorem AccessSlot.object?_eq {form : Form Node} {o : Node} {plug : Node → Form Node}
    (h : AccessSlot form o plug) : form.object? = some o ∧ ∀ x, (plug x).object? = some x := by
  cases h <;> exact ⟨rfl, fun _ => rfl⟩

theorem accesses_var (x : String) : accesses (Node.var x) = 0 := by
  rw [Node.var, Node.synthesized, accesses_mk]
  rfl

/-- Taking an object out of an expression removes one access and shares the others. -/
theorem Path.accesses_add {n : Node} {hole : Hole Node} (h : Path n hole) (x : String) :
    accesses hole.content + accesses (hole.fill (Node.var x)) + 1 = accesses n := by
  induction h with
  | @here form span marks o plug hslot hinst =>
    obtain ⟨pre, post, hform, hplug⟩ := hslot.slot.searched_eq
    obtain ⟨hobject, hvar⟩ := hslot.object?_eq
    change accesses o + accesses ⟨plug (Node.var x), span, marks.outdated⟩ + 1 = _
    rw [accesses_mk, accesses_mk, hform, hplug, hobject, hvar]
    have hnot : isInstantiation (Node.var x) = false := rfl
    simp only [Option.any_some, hinst, hnot, List.map_append, List.map_cons, List.sum_append,
      List.sum_cons, accesses_var, if_true, Bool.false_eq_true, if_false]
    omega
  | @inside form span marks c plug inner hslot hpath ih =>
    obtain ⟨pre, post, hform, hplug⟩ := hslot.searched_eq
    -- the child keeps its kind, so the layer is an access to an instantiation or not as before
    have hinst : isInstantiation (inner.fill (Node.var x)) = isInstantiation c := by
      rw [isInstantiation_eq, isInstantiation_eq, hpath.kind_fill]
    have hobject := hslot.object?_any_eq hinst
    change accesses inner.content +
      accesses ⟨plug (inner.fill (Node.var x)), span, marks.outdated⟩ + 1 = _
    rw [accesses_mk, accesses_mk, hform, hplug, hobject]
    simp only [List.map_append, List.map_cons, List.sum_append, List.sum_cons]
    omega

/-! ### What leaves the count alone -/

/-- One node counts as much as another, wherever it stands. -/
structure CountsAs (n m : Node) : Prop where
  count : accesses m = accesses n
  instantiation : isInstantiation m = isInstantiation n

/-- The search goes into the heads of a layer and its arguments, with a few exceptions. -/
theorem searched_eq (form : Form α) :
    searched form = match form.kind with
      | .expression | .ret => []
      | .ternary => form.heads.take 1
      | .nullsafeMethodCall => form.heads
      | _ => form.heads ++ form.args.map (·.value) := by
  cases form <;> rfl

theorem accesses_congr {form g : Form Node} {span span' : Option Span} {marks marks' : Marks}
    (hsearched : List.Forall₂ CountsAs (searched form) (searched g))
    (hobject : g.object?.any isInstantiation = form.object?.any isInstantiation) :
    accesses ⟨g, span', marks'⟩ = accesses ⟨form, span, marks⟩ := by
  rw [accesses_mk, accesses_mk, hobject, forall₂_map_eq hsearched accesses CountsAs.count]

namespace CountsAs

theorem refl (n : Node) : CountsAs n n :=
  ⟨rfl, rfl⟩

theorem trans {n m k : Node} (h : CountsAs n m) (h' : CountsAs m k) : CountsAs n k :=
  ⟨h'.count.trans h.count, h'.instantiation.trans h.instantiation⟩

theorem settle {n : Node} {g : Form Node} (h : Form.Rel CountsAs n.form g) :
    CountsAs n (Node.settle g n.span n.marks) := by
  obtain ⟨form, span, marks⟩ := n
  obtain ⟨hheads, hargs, -, -⟩ := h.parts
  have hkind : form.kind = g.kind := h.kind_eq
  have hvalues : List.Forall₂ CountsAs (form.args.map (·.value))
      (g.settled.args.map (·.value)) := by
    rw [Form.args_settled, List.map_map, List.forall₂_map_left_iff, List.forall₂_map_right_iff]
    exact hargs.imp fun a b hab => by simpa using hab.2
  refine ⟨accesses_congr ?_ ?_, ?_⟩
  · rw [searched_eq, searched_eq, Form.kind_settled, hkind, Form.heads_settled]
    split
    · exact .nil
    · exact .nil
    · exact List.forall₂_take 1 hheads
    · exact hheads
    · exact List.rel_append hheads hvalues
  · rw [Form.object?_eq, Form.object?_eq, Form.kind_settled, hkind, Form.heads_settled]
    have hhead : g.heads.head?.any isInstantiation = form.heads.head?.any isInstantiation := by
      revert hheads
      generalize form.heads = cs
      generalize g.heads = ds
      rintro (_ | ⟨hcd, _⟩)
      · rfl
      · exact hcd.instantiation
    split
    · exact hhead
    · exact hhead
    · rfl
  · rw [isInstantiation_eq, isInstantiation_eq]
    change (g.settled.kind == _ || g.settled.kind == _) = _
    rw [Form.kind_settled, ← hkind]

theorem cleaned {n : Node} {form : Form Node} (h : TrailingComma.Cleaned n.form form)
    (span : Option Span) (marks : Marks) : CountsAs n ⟨form, span, marks⟩ := by
  obtain ⟨form', span', marks'⟩ := n
  have hvalues : form.args.map (·.value) = form'.args.map (·.value) :=
    forall₂_map_eq h.args (·.value) SameButComma.arg_value
  have hsearched : searched form = searched form' := by
    rw [searched_eq, searched_eq, h.kind, h.heads, hvalues]
  refine ⟨accesses_congr ?_ ?_, ?_⟩
  · rw [hsearched]
    exact List.forall₂_same.2 fun c _ => .refl c
  · rw [Form.object?_eq, Form.object?_eq, h.kind, h.heads]
  · rw [isInstantiation_eq, isInstantiation_eq]
    exact congrArg (fun k => k == Kind.new || k == Kind.clone) h.kind

/-- A nullsafe access counts as its object, before lowering and after it: the plain access stands
in a branch that is not searched. -/
theorem lowered {n object : Node} {plain : Node → Form Node}
    (h : Nullsafe.access? n.form = some (object, plain)) (strict : Bool) (x : String) :
    CountsAs n (Nullsafe.lowered strict (Node.var x) object plain) := by
  have hassign : accesses (Node.synthesized (.assign (Node.var x) object)) = accesses object := by
    rw [Node.synthesized, accesses_mk]
    simp [Form.object?, searched, accesses_var]
  have hnull : accesses Node.null = 0 := by
    rw [Node.null, Node.synthesized, accesses_mk]
    rfl
  have hguard : accesses (Nullsafe.guard strict (Node.var x) object) = accesses object := by
    cases strict with
    | false => exact hassign
    | true =>
      rw [Nullsafe.guard, if_pos rfl, Node.synthesized, accesses_mk]
      simp [Form.object?, searched, hassign, hnull]
  have hlowered : accesses (Nullsafe.lowered strict (Node.var x) object plain) =
      accesses object := by
    rw [Nullsafe.lowered, Node.synthesized, accesses_mk]
    simp [Form.object?, searched, hguard]
  obtain ⟨form, span, marks⟩ := n
  cases form with
  | nullsafeMethodCall | nullsafePropertyFetch =>
    obtain ⟨rfl, rfl⟩ : _ ∧ _ := by simpa [Nullsafe.access?] using h
    refine ⟨hlowered.trans ?_, rfl⟩
    rw [accesses_mk]
    simp [Form.object?, searched]
  | _ => simp [Nullsafe.access?] at h

/-- Statements count for nothing themselves. -/
theorem hoisted {n : Node} {hole : Hole Node} (h : receiverInStatement? n = some hole)
    (temp : Node) : CountsAs n (Hoist.hoisted temp hole) := by
  obtain ⟨_, _, _, hslot, -, -⟩ := receiverInStatement?_eq_some h
  obtain ⟨form, span, marks⟩ := n
  have hgroup : accesses (Hoist.hoisted temp hole) = 0 := by
    rw [Hoist.hoisted, Node.synthesized, accesses_mk]
    rfl
  cases hslot with
  | expression | ret =>
    refine ⟨hgroup.trans ?_, rfl⟩
    rw [accesses_mk]
    rfl

theorem invariant (cfg : Settings) (ctx : Context) : CatalogInvariant cfg ctx CountsAs where
  refl := .refl
  trans := .trans
  settle := .settle
  cleaned hclean := .cleaned (.of_cleanForm? hclean) _ _
  lowered haccess x := .lowered haccess _ x
  hoisted hreceiver _ := .hoisted hreceiver _

/-- Rewriting an expression does not change how many objects are left to hoist out of it. Objects
are hoisted out of whole statements only. -/
theorem visit {cfg : Settings} {ctx : Context} {rules : List Rule} (hrules : rules ⊆ cfg.catalog)
    (revisits : Nat) (n : Node) (names : NameSupply) :
    CountsAs n (Pass.visit rules ctx revisits n names).value :=
  (invariant cfg ctx).visit hrules revisits n names

end CountsAs

/-! ### Statements under nullsafe lowering -/

theorem hoistable_eq (n : Node) :
    hoistable n = match n.form.kind with
      | .expression | .ret => (n.form.heads.head?.map accesses).getD 0
      | _ => 0 := by
  unfold hoistable
  cases n.form with
  | ret value => cases value <;> rfl
  | _ => rfl

theorem hoistable_settle {n : Node} {g : Form Node} (h : Form.Rel CountsAs n.form g) :
    hoistable (Node.settle g n.span n.marks) = hoistable n := by
  rw [hoistable_eq, hoistable_eq]
  change (match g.settled.kind with
    | .expression | .ret => (g.settled.heads.head?.map accesses).getD 0
    | _ => 0) = _
  have hheads := h.parts.1
  have hhead : (g.heads.head?.map accesses).getD 0 = (n.form.heads.head?.map accesses).getD 0 := by
    revert hheads
    generalize n.form.heads = cs
    generalize g.heads = ds
    rintro (_ | ⟨hcd, _⟩)
    · rfl
    · exact hcd.count
  rw [Form.kind_settled, Form.heads_settled, h.kind_eq, hhead]

/-- What holds of all nodes of a settled layer holds of all nodes below the layer but the groups
that were spliced. -/
theorem all_of_settle {p : Node → Prop} (hp : ∀ n, n.form.isGroup = true → p n) {g : Form Node}
    {span : Option Span} {marks : Marks} (h : (Node.settle g span marks).All p) :
    ∀ d ∈ g.children, d.All p := by
  intro d hd
  have hchild {c : Node} (hc : c ∈ g.settled.children) : c.All p := h.child hc
  rw [Form.children_eq, List.mem_append] at hd
  rcases hd with hd | hd
  · apply hchild
    rw [Form.children_settled]
    exact List.mem_append_left _ hd
  · have hsplice {c : Node} (hc : c ∈ splice g.statements) : c.All p := by
      apply hchild
      rw [Form.children_settled]
      exact List.mem_append_right _ hc
    by_cases hgroup : d.form.isGroup = true
    · refine Node.all_iff.2 ⟨hp d hgroup, fun c hc => hsplice (mem_splice.2 ⟨d, hd, ?_⟩)⟩
      rw [if_pos hgroup, ← Form.children_of_isGroup hgroup]
      exact hc
    · exact hsplice (mem_splice.2 ⟨d, hd, by rw [if_neg hgroup]⟩)

/-- All parts of a nullsafe access are still there when it is lowered. -/
theorem all_of_lowered {p : Node → Prop} {n object temp : Node} {plain : Node → Form Node}
    (haccess : Nullsafe.access? n.form = some (object, plain)) {strict : Bool}
    (h : (Nullsafe.lowered strict temp object plain).All p) : ∀ c ∈ n.form.children, c.All p := by
  have hobject : object.All p := by
    have hguard : (Nullsafe.guard strict temp object).All p := h.child List.mem_cons_self
    cases strict with
    | false => exact hguard.child (List.mem_cons_of_mem _ List.mem_cons_self)
    | true =>
      have hassign := hguard.child List.mem_cons_self
      exact hassign.child (List.mem_cons_of_mem _ List.mem_cons_self)
  have hplain : (Node.synthesized (plain temp)).All p :=
    h.child (List.mem_cons_of_mem _ List.mem_cons_self)
  intro c hc
  obtain ⟨form, span, marks⟩ := n
  cases form with
  | nullsafeMethodCall | nullsafePropertyFetch =>
    obtain ⟨rfl, rfl⟩ : _ ∧ _ := by simpa [Nullsafe.access?] using haccess
    rcases List.mem_cons.1 hc with rfl | hc
    · exact hobject
    · exact hplain.child (List.mem_cons_of_mem _ hc)
  | _ => simp [Nullsafe.access?] at haccess

/-- A statement has as much to hoist after nullsafe lowering as before, so a bound on the lowered
tree is a bound on the tree. -/
theorem hoistable_le_of_nullsafe {ctx : Context} {file : FileId} (hfile : ctx.file = some file)
    {stem : String} {strict : Bool} {bound : Nat} (revisits : Nat) (n : Node) (names : NameSupply)
    (h : (Pass.visit [Nullsafe.rule stem strict] ctx revisits n names).value.All
      (hoistable · ≤ bound)) : n.All (hoistable · ≤ bound) := by
  -- settling needs the count of the children to carry the bound back to a statement
  let R (n m : Node) : Prop :=
    CountsAs n m ∧ (m.All (hoistable · ≤ bound) → n.All (hoistable · ≤ bound))
  have hgroup (n : Node) (hn : n.form.isGroup = true) : hoistable n ≤ bound := by
    unfold hoistable
    cases hform : n.form <;> simp_all [Form.isGroup]
  have hvisit : R n (Pass.visit [Nullsafe.rule stem strict] ctx revisits n names).value := by
    refine Pass.visit_of_node_steps (fun n => ⟨.refl n, id⟩)
      (fun h h' => ⟨h.1.trans h'.1, fun hall => h.2 (h'.2 hall)⟩) ?_ ?_ revisits n names
    · intro n g hrel
      have hcounts : Form.Rel CountsAs n.form g :=
        ⟨hrel.shape, hrel.children.imp fun _ _ hcd => hcd.1⟩
      refine ⟨.settle hcounts, fun hall => Node.all_iff.2 ⟨?_, fun c hc => ?_⟩⟩
      · rw [← hoistable_settle hcounts]
        exact hall.self
      · obtain ⟨d, hd, -, hcd⟩ := exists_left_of_forall₂ hrel.children.flip hc
        exact hcd (all_of_settle hgroup hall d hd)
    · intro rule hrule kind n names
      obtain rfl := List.mem_singleton.1 hrule
      rw [Nullsafe.call_eq hfile]
      cases haccess : Nullsafe.access? n.form with
      | none => exact ⟨.refl n, id⟩
      | some access =>
        refine ⟨.lowered haccess strict _, fun hall => ?_⟩
        refine Node.all_iff.2 ⟨?_, all_of_lowered haccess hall⟩
        unfold hoistable
        cases hform : n.form <;> simp_all [Nullsafe.access?]
  exact hvisit.2 h

end SyntaxLowering.Hoist
