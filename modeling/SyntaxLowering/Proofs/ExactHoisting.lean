import SyntaxLowering.Proofs.Addresses

/-!
# What one hoisting does

The hoisting rule searches a statement layer by layer. Here its effect is said without the search:
it takes the object of the first member access to an instantiation, in preorder, among those that
are evaluated whenever the statement is, and puts a variable there. All that changes besides is that
the source text on the way to the access is given up.
-/

namespace SyntaxLowering.Hoist

variable {α : Type}

/-- Whether the child at an index of a layer is evaluated whenever the layer is. -/
def isUnconditional (form : Form α) (i : Nat) : Bool :=
  match form.kind with
  | .assign | .notIdentical | .propertyFetch | .nullsafePropertyFetch | .clone | .methodCall
  | .staticCall | .functionCall | .new => true
  | .nullsafeMethodCall | .ternary => i == 0
  | _ => false

/-- Whether an address leads from a tree only through children that are evaluated whenever their
parents are. -/
def isAlwaysReached (n : Node) : List Nat → Bool
  | [] => true
  | i :: address =>
    isUnconditional n.form i && n.form.children[i]?.any fun c => isAlwaysReached c address

/-- Whether a node is a member access to an instantiation. -/
def isAccess (n : Node) : Bool :=
  n.form.object?.any isInstantiation

/-- The first member access to an instantiation in preorder, among those that are evaluated whenever
the tree is, with its address. -/
def firstAccess? (n : Node) : Option (List Nat × Node) :=
  n.addressed.find? fun p => isAlwaysReached n p.1 && isAccess p.2

/-! ### The search goes in preorder -/

theorem isUnconditional_iff {form : Form α} {i : Nat} (h : i < form.children.length) :
    isUnconditional form i = true ↔ i < (searched form).length := by
  cases form <;> simp_all [isUnconditional, Form.kind, Form.children, searched]

theorem searched_prefix_children (form : Form α) : searched form <+: form.children := by
  cases form with
  | ternary condition ifTrue ifFalse => exact ⟨[ifTrue, ifFalse], rfl⟩
  | nullsafeMethodCall object method args => exact ⟨args.map (·.value), rfl⟩
  | null | bool | int | str | var | name | closure | expression | ret | functionDecl | classDecl
    | methodDecl | group | program => exact List.nil_prefix
  | _ => exact List.prefix_refl _

/-- The search goes into the children that are evaluated whenever the layer is. -/
theorem getElem?_searched {form : Form α} {i : Nat} {c : α} :
    (searched form)[i]? = some c ↔
      form.children[i]? = some c ∧ isUnconditional form i = true := by
  obtain ⟨rest, hrest⟩ := searched_prefix_children form
  constructor
  · intro h
    have hlt : i < (searched form).length := (List.getElem?_eq_some_iff.1 h).1
    have hget : form.children[i]? = some c := by
      rw [← hrest, List.getElem?_append_left hlt, h]
    exact ⟨hget, (isUnconditional_iff (List.getElem?_eq_some_iff.1 hget).1).2 hlt⟩
  · rintro ⟨h, hi⟩
    have hlt : i < (searched form).length :=
      (isUnconditional_iff (List.getElem?_eq_some_iff.1 h).1).1 hi
    rwa [← hrest, List.getElem?_append_left hlt] at h

theorem firstAccess?_mk (form : Form Node) (span : Option Span) (marks : Marks) :
    firstAccess? ⟨form, span, marks⟩ =
      if isAccess ⟨form, span, marks⟩ then some ([], ⟨form, span, marks⟩)
      else form.children.zipIdx.findSome? fun c =>
        if isUnconditional form c.2 then (firstAccess? c.1).map fun p => (c.2 :: p.1, p.2)
        else none := by
  have hbelow : ∀ c ∈ form.children.zipIdx,
      (c.1.addressed.map fun p => (c.2 :: p.1, p.2)).find? (fun p =>
        isAlwaysReached ⟨form, span, marks⟩ p.1 && isAccess p.2) =
      if isUnconditional form c.2 then (firstAccess? c.1).map fun p => (c.2 :: p.1, p.2)
      else none := by
    intro c hc
    have hget : form.children[c.2]? = some c.1 := List.mem_zipIdx_iff_getElem?.1 hc
    rw [List.find?_map, firstAccess?]
    show (c.1.addressed.find? fun p => isAlwaysReached ⟨form, span, marks⟩ (c.2 :: p.1) &&
      isAccess p.2).map _ = _
    cases hi : isUnconditional form c.2 with
    | true => simp [isAlwaysReached, hi, hget]
    | false => simp [isAlwaysReached, hi]
  have hself : (isAlwaysReached ⟨form, span, marks⟩ [] && isAccess ⟨form, span, marks⟩) =
      isAccess ⟨form, span, marks⟩ := Bool.true_and _
  rw [firstAccess?, Node.addressed_mk]
  split
  · rw [List.find?_cons_of_pos (by simpa only [hself])]
  · rw [List.find?_cons_of_neg (by simpa only [hself]), List.find?_flatMap]
    rw [← List.head?_filterMap, List.filterMap_congr hbelow, List.head?_filterMap]

/-! ### Filling a place is editing at an address -/

theorem args_zipIdx_of_lt (x : Node) {i k : Nat} (h : i < k) (as : List (Arg Node)) :
    ((as.zipIdx k).map fun p => if p.2 = i then p.1.refill x else p.1) = as := by
  have hkeep : ((as.zipIdx k).map fun p => if p.2 = i then p.1.refill x else p.1) =
      (as.zipIdx k).map Prod.fst := by
    refine List.map_congr_left fun p hp => if_neg ?_
    have hle : k ≤ p.2 := List.le_snd_of_mem_zipIdx hp
    omega
  rw [hkeep, List.zipIdx_map_fst]

theorem args_zipIdx_append (x : Node) (k : Nat) (pre post : List (Arg Node)) (a : Arg Node) :
    (((pre ++ a :: post).zipIdx k).map fun p =>
      if p.2 = k + pre.length then p.1.refill x else p.1) = pre ++ a.refill x :: post := by
  have hpre : ((pre.zipIdx k).map fun p => if p.2 = k + pre.length then p.1.refill x else p.1) =
      (pre.zipIdx k).map Prod.fst := by
    refine List.map_congr_left fun p hp => if_neg ?_
    have hlt : p.2 < k + pre.length := List.snd_lt_add_of_mem_zipIdx hp
    omega
  rw [List.zipIdx_append, List.zipIdx_cons, List.map_append, List.map_cons, hpre,
    List.zipIdx_map_fst, if_pos rfl, args_zipIdx_of_lt x (Nat.lt_succ_self _) post]

theorem Slot.exists_modifyChild_eq {form : Form Node} {c : Node} {plug : Node → Form Node}
    (h : Slot form c plug) :
    ∃ pre post, (∀ x, searched (plug x) = pre ++ x :: post) ∧
      ∀ x, form.modifyChild (fun _ => x) pre.length = plug x := by
  -- the callee of a call has the number 0, and its arguments the numbers from 1 on
  have hhead (x : Node) (form : Form Node) (hheads : form.heads.length = 1) :
      (form.modifyChild (fun _ => x) 0).args = form.args := by
    rw [Form.args_modifyChild, hheads]
    exact args_zipIdx_of_lt x Nat.one_pos form.args
  have harg (x : Node) (form : Form Node) (hheads : form.heads.length = 1)
      {pre post : List (Arg Node)} {a : Arg Node} (hargs : form.args = pre ++ a :: post) :
      (form.modifyChild (fun _ => x) (pre.length + 1)).args = pre ++ a.refill x :: post := by
    rw [Form.args_modifyChild, hheads, hargs, Nat.add_comm]
    exact args_zipIdx_append x 1 pre post a
  have hsearched (x o : Node) (pre post : List (Arg Node)) (a : Arg Node) :
      o :: (pre ++ a.refill x :: post).map (·.value) =
        (o :: pre.map (·.value)) ++ x :: post.map (·.value) := by
    simp [Arg.refill]
  cases h with
  | assignTarget | left | condition | fetched | nullsafeFetched | cloned =>
    exact ⟨[], _, fun _ => rfl, fun _ => rfl⟩
  | assignValue | right => exact ⟨[_], [], fun _ => rfl, fun _ => rfl⟩
  | @object _ m as =>
    exact ⟨[], _, fun _ => rfl, fun x =>
      congrArg (Form.methodCall x m) (hhead x (.methodCall c m as) rfl)⟩
  | @nullsafeObject _ m as =>
    exact ⟨[], _, fun _ => rfl, fun x =>
      congrArg (Form.nullsafeMethodCall x m) (hhead x (.nullsafeMethodCall c m as) rfl)⟩
  | @staticScope _ m as =>
    exact ⟨[], _, fun _ => rfl, fun x =>
      congrArg (Form.staticCall x m) (hhead x (.staticCall c m as) rfl)⟩
  | @function _ as =>
    exact ⟨[], _, fun _ => rfl, fun x =>
      congrArg (Form.functionCall x) (hhead x (.functionCall c as) rfl)⟩
  | @newScope _ as =>
    exact ⟨[], _, fun _ => rfl, fun x => congrArg (Form.new x) (hhead x (.new c as) rfl)⟩
  | @methodArg o m pre post a =>
    refine ⟨_, _, fun x => hsearched x o pre post a, fun x => ?_⟩
    rw [List.length_cons, List.length_map]
    exact congrArg (Form.methodCall o m) (harg x (.methodCall o m (pre ++ a :: post)) rfl rfl)
  | @staticArg s m pre post a =>
    refine ⟨_, _, fun x => hsearched x s pre post a, fun x => ?_⟩
    rw [List.length_cons, List.length_map]
    exact congrArg (Form.staticCall s m) (harg x (.staticCall s m (pre ++ a :: post)) rfl rfl)
  | @functionArg f pre post a =>
    refine ⟨_, _, fun x => hsearched x f pre post a, fun x => ?_⟩
    rw [List.length_cons, List.length_map]
    exact congrArg (Form.functionCall f) (harg x (.functionCall f (pre ++ a :: post)) rfl rfl)
  | @newArg s pre post a =>
    refine ⟨_, _, fun x => hsearched x s pre post a, fun x => ?_⟩
    rw [List.length_cons, List.length_map]
    exact congrArg (Form.new s) (harg x (.new s (pre ++ a :: post)) rfl rfl)

theorem length_le_of_append_cons {pre pre' post post' : List Node}
    (h : ∀ x, pre ++ x :: post = pre' ++ x :: post') : pre'.length ≤ pre.length := by
  by_contra hlt
  -- the node at the place of `x` on the left would stand among those before `x` on the right
  have hget (x : Node) : pre'[pre.length]? = some x := by
    rw [← List.getElem?_append_left (Nat.lt_of_not_le hlt), ← h x,
      List.getElem?_append_right (Nat.le_refl _), Nat.sub_self]
    rfl
  have hsame : Node.null = Node.var "" := Option.some.inj ((hget _).symm.trans (hget _))
  exact absurd hsame (by decide)

/-- A place is known by what stands before it. -/
theorem eq_of_append_cons {pre pre' post post' : List Node}
    (h : ∀ x, pre ++ x :: post = pre' ++ x :: post') : pre = pre' := by
  have hlength : pre.length = pre'.length :=
    Nat.le_antisymm (length_le_of_append_cons fun x => (h x).symm) (length_le_of_append_cons h)
  exact (List.append_inj (h Node.null) hlength).1

/-- Filling a place of a layer is changing the child with the number of that place. -/
theorem Slot.modifyChild_eq {form : Form Node} {c : Node} {plug : Node → Form Node}
    (h : Slot form c plug) {pre post : List Node}
    (hplug : ∀ x, searched (plug x) = pre ++ x :: post) (x : Node) :
    form.modifyChild (fun _ => x) pre.length = plug x := by
  obtain ⟨pre', post', hplug', hmodify⟩ := h.exists_modifyChild_eq
  obtain rfl : pre = pre' := eq_of_append_cons fun x => (hplug x).symm.trans (hplug' x)
  exact hmodify x

theorem AccessSlot.modifyChild_eq {form : Form Node} {o : Node} {plug : Node → Form Node}
    (h : AccessSlot form o plug) (x : Node) : form.modifyChild (fun _ => x) 0 = plug x := by
  have hfirst : ∃ post, ∀ x, searched (plug x) = [] ++ x :: post := by
    cases h <;> exact ⟨_, fun _ => rfl⟩
  obtain ⟨post, hplug⟩ := hfirst
  exact h.slot.modifyChild_eq hplug x

/-! ### What the search finds -/

/-- A hole of a tree is the object of the first access, and filling it is an edit of the tree. -/
structure Locates (n : Node) (hole : Hole Node) (address : List Nat) (access : Node) : Prop where
  first : firstAccess? n = some (address, access)
  object : access.form.object? = some hole.content
  fill : ∀ x, hole.fill x = n.editAt (fun _ => x) (address ++ [0])
  restored : hole.fill hole.content = n.outdatedAlong address

theorem firstAccess?_eq_none_iff (n : Node) : firstAccess? n = none ↔ receiver? n = none := by
  induction n using Node.inductionOn with
  | step form span marks ih =>
    rw [firstAccess?_mk, receiver?, Option.map_eq_none_iff, receiverInForm?_eq_none]
    cases haccess : isAccess ⟨form, span, marks⟩ with
    | true =>
      refine iff_of_false (Option.some_ne_none _) fun h => ?_
      exact Bool.false_ne_true (h.1.symm.trans haccess)
    | false =>
      rw [if_neg Bool.false_ne_true, List.findSome?_eq_none_iff]
      refine ⟨fun h => ⟨haccess, fun c hc => ?_⟩, fun h c hc => ?_⟩
      · obtain ⟨i, hi⟩ := List.mem_iff_getElem?.1 hc
        obtain ⟨hget, huncond⟩ := getElem?_searched.1 hi
        have hnone := h (c, i) (List.mem_zipIdx_iff_getElem?.2 hget)
        rw [if_pos huncond, Option.map_eq_none_iff] at hnone
        exact (ih c (List.mem_of_getElem? hget)).1 hnone
      · have hget : form.children[c.2]? = some c.1 := List.mem_zipIdx_iff_getElem?.1 hc
        split
        · next huncond =>
          have hmem := List.mem_of_getElem? (getElem?_searched.2 ⟨hget, huncond⟩)
          rw [(ih c.1 (List.mem_of_getElem? hget)).2 (h.2 c.1 hmem)]
          rfl
        · rfl

theorem Leads.getElem?_searched {form : Form Node} {layer : Hole (Form Node)} {c : Node}
    {before : List Node} (h : Leads form layer c before) :
    (searched form)[before.length]? = some c := by
  obtain ⟨_, _, after, _, _, _, hform, _⟩ := h.found
  rw [hform, List.getElem?_append_right (Nat.le_refl _), Nat.sub_self]
  rfl

/-- The search ends at the first access, if it goes on in a child and finds nothing in the children
before it. -/
theorem Leads.firstAccess?_eq {form : Form Node} {layer : Hole (Form Node)} {c : Node}
    {before : List Node} (h : Leads form layer c before) {address : List Nat} {access : Node}
    (hc : firstAccess? c = some (address, access)) (span : Option Span) (marks : Marks) :
    firstAccess? ⟨form, span, marks⟩ = some (before.length :: address, access) := by
  obtain ⟨_, _, after, _, _, _, hform, _⟩ := h.found
  obtain ⟨rest, hrest⟩ := searched_prefix_children form
  have hself : ¬isAccess ⟨form, span, marks⟩ = true := Bool.eq_false_iff.1 h.noObject
  rw [firstAccess?_mk, if_neg hself, List.findSome?_eq_some_iff]
  refine ⟨before.zipIdx, (c, before.length), (after ++ rest).zipIdx (before.length + 1), ?_, ?_, ?_⟩
  · rw [← hrest, hform, List.append_assoc, List.zipIdx_append, List.cons_append,
      List.zipIdx_cons, Nat.zero_add]
  · rw [if_pos (Hoist.getElem?_searched.1 h.getElem?_searched).2, hc]
    rfl
  · intro d hd
    have hnone := (firstAccess?_eq_none_iff d.1).2 (h.nothing d.1 (List.fst_mem_of_mem_zipIdx hd))
    rw [hnone, Option.map_none, ite_self]

/-- The search finds the first access. -/
theorem Locates.exists_of_receiver? {n : Node} {hole : Hole Node} (h : receiver? n = some hole) :
    ∃ address access, Locates n hole address access := by
  induction n using Node.inductionOn generalizing hole with
  | step form span marks ih =>
    rw [receiver?, Option.map_eq_some_iff] at h
    obtain ⟨layer, h, rfl⟩ := h
    rcases receiverInForm?_eq_some h with ⟨o, plug, hslot, hinst, rfl⟩ | ⟨c, before, hleads⟩
    · have hobject := hslot.object?_eq.1
      have haccess : isAccess ⟨form, span, marks⟩ = true := by
        rw [isAccess, hobject]
        exact hinst
      refine ⟨[], ⟨form, span, marks⟩, ?_, hobject, fun x => ?_, ?_⟩
      · rw [firstAccess?_mk, if_pos haccess]
      · exact congrArg (Node.mk · span marks.outdated) (hslot.modifyChild_eq x).symm
      · exact congrArg (Node.mk · span marks.outdated) hslot.plug_eq
    · obtain ⟨plug, inner, after, hslot, hc, rfl, -, hplug⟩ := hleads.found
      have hget : form.children[before.length]? = some c :=
        (getElem?_searched.1 hleads.getElem?_searched).1
      obtain ⟨address, access, hinner⟩ := ih c (List.mem_of_getElem? hget) hc
      -- to put what the child becomes into its place is to change the child
      have hchange {f : Node → Node} {y : Node} (hy : y = f c) :
          plug y = form.modifyChild f before.length := by
        rw [← hslot.modifyChild_eq hplug]
        refine Form.modifyChild_congr fun d hd => ?_
        obtain rfl : c = d := Option.some.inj (hget.symm.trans hd)
        exact hy
      refine ⟨before.length :: address, access, hleads.firstAccess?_eq hinner.first span marks,
        hinner.object, fun x => ?_, ?_⟩
      · exact congrArg (Node.mk · span marks.outdated) (hchange (hinner.fill x))
      · exact congrArg (Node.mk · span marks.outdated) (hchange hinner.restored)

/-! ### The name in its place -/

/-- In a layer that does not use a name, filling a place brings in as many uses as the filling
has. -/
theorem Refilled.count_variableNames {c y : Node} {form form' : Form Node}
    (h : Refilled c y form form') {x : String} {span span' : Option Span} {marks marks' : Marks}
    (hx : x ∉ Node.variableNames ⟨form, span, marks⟩) :
    (Node.variableNames ⟨form', span', marks'⟩).count x = y.variableNames.count x := by
  obtain ⟨pre, post, hform, hform'⟩ := h.children
  rw [Node.variableNames_mk, hform, ← List.count_eq_zero] at hx
  rw [Node.variableNames_mk, hform', h.ownVariables]
  simp only [List.flatMap_append, List.flatMap_cons, List.count_append] at hx ⊢
  omega

theorem Path.count_variableNames {n : Node} {hole : Hole Node} (h : Path n hole) {x : String}
    (hx : x ∉ n.variableNames) : (hole.fill (Node.var x)).variableNames.count x = 1 := by
  have hvar : (Node.var x).variableNames.count x = 1 := by
    rw [Node.var, Node.synthesized, Node.variableNames_mk]
    simp [Form.ownVariables, Form.children]
  induction h with
  | here hslot _ => exact ((hslot.slot.refilled (Node.var x)).count_variableNames hx).trans hvar
  | @inside _ _ _ c _ inner hslot _ ih =>
    have hrefilled := hslot.refilled (inner.fill (Node.var x))
    have hc : x ∉ c.variableNames :=
      (Node.not_mem_variableNames_child hx).2 c hrefilled.mem_children
    exact (hrefilled.count_variableNames hx).trans (ih hc)

/-! ### Statements -/

theorem StatementSlot.modifyChild_eq {form : Form Node} {value : Node} {plug : Node → Form Node}
    (h : StatementSlot form value plug) (f : Node → Node) :
    form.modifyChild f 0 = plug (f value) := by
  cases h <;> rfl

/-- In a statement, the search looks at its expression. -/
theorem receiverInStatement?_eq {n value : Node}
    (hn : n.form = .expression value ∨ n.form = .ret (some value)) :
    ∃ plug, StatementSlot n.form value plug ∧
      receiverInStatement? n =
        (receiver? value).map fun inner => Hole.under n.span n.marks (inner.map plug) := by
  obtain ⟨form, span, marks⟩ := n
  rcases hn with hform | hform
  · obtain rfl : form = .expression value := hform
    exact ⟨_, .expression, rfl⟩
  · obtain rfl : form = .ret (some value) := hform
    exact ⟨_, .ret, rfl⟩

section Statement

variable {ctx : Context} {file : FileId} (hfile : ctx.file = some file) {n value : Node}
  (hn : n.form = .expression value ∨ n.form = .ret (some value)) (stem : String)
  (names : NameSupply)

include hfile hn

theorem call_eq_none (h : firstAccess? value = none) :
    (rule stem).call ctx n names = .none n names := by
  obtain ⟨plug, -, hstatement⟩ := receiverInStatement?_eq hn
  rw [call_eq hfile, hstatement, (firstAccess?_eq_none_iff value).1 h]
  rfl

theorem call_eq_replace {address : List Nat} {access : Node}
    (h : firstAccess? value = some (address, access)) :
    ∃ hole : Hole Node,
      (rule stem).call ctx n names =
        .replace (hoisted (Node.var (names.allocate file stem ctx.reserved).1) hole)
          (names.allocate file stem ctx.reserved).2 ∧
      access.form.object? = some hole.content ∧
      (∀ x, hole.fill x = n.editAt (fun _ => x) (0 :: address ++ [0])) ∧
      hole.fill hole.content = n.outdatedAlong (0 :: address) ∧
      ∀ x, x ∉ n.variableNames → (hole.fill (Node.var x)).variableNames.count x = 1 := by
  obtain ⟨plug, hslot, hstatement⟩ := receiverInStatement?_eq hn
  cases hvalue : receiver? value with
  | none =>
    rw [(firstAccess?_eq_none_iff value).2 hvalue] at h
    exact absurd h.symm (Option.some_ne_none _)
  | some inner =>
    obtain ⟨address', access', hlocates⟩ := Locates.exists_of_receiver? hvalue
    obtain ⟨rfl, rfl⟩ := Prod.mk.inj (Option.some.inj (hlocates.first.symm.trans h))
    obtain ⟨form, span, marks⟩ := n
    have hedit {f : Node → Node} {y : Node} (hy : y = f value) :
        (⟨plug y, span, marks.outdated⟩ : Node) = ⟨form.modifyChild f 0, span, marks.outdated⟩ := by
      rw [hslot.modifyChild_eq, hy]
    refine ⟨Hole.under span marks (inner.map plug), ?_, hlocates.object,
      fun x => hedit (hlocates.fill x), hedit hlocates.restored, fun x hx => ?_⟩
    · rw [call_eq hfile, hstatement, hvalue]
      rfl
    · have hrefilled := hslot.refilled (inner.fill (Node.var x))
      have hvalue' : x ∉ value.variableNames :=
        (Node.not_mem_variableNames_child hx).2 value hrefilled.mem_children
      exact (hrefilled.count_variableNames hx).trans
        ((Path.of_receiver? hvalue).count_variableNames hvalue')

end Statement

/-- Hoisting one object is exact and can be undone. In a file the rule acts on a statement if and
only if there is a member access to an instantiation that is evaluated whenever the statement is.
Of these it takes the first in preorder. The receiver is assigned to a new variable in front, which
stands in the place of the receiver; with the receiver there, the statement is as before except that
it and the nodes and arguments from its expression to the access have given up their source text. If
the statement does not use the new variable, which is so if all its variables are reserved or were
issued before in the file, the variable then occurs once and it is enough to substitute the receiver
for it. -/
theorem call_hoists_first_access (stem : String) {ctx : Context} {file : FileId}
    (hfile : ctx.file = some file) {n value : Node}
    (hn : n.form = .expression value ∨ n.form = .ret (some value)) (names : NameSupply) :
    let effect := (rule stem).call ctx n names
    let drawn := names.allocate file stem ctx.reserved
    let temp := Node.var drawn.1
    ((∃ m, effect.verdict = .replaced m) ↔
      ∃ p ∈ value.addressed, isAlwaysReached value p.1 = true ∧ isAccess p.2 = true) ∧
    (firstAccess? value = none → effect = .none n names) ∧
    ((∀ x ∈ n.variableNames, x ∈ ctx.reserved ∨ x ∈ (names.enter file).issued) →
      drawn.1 ∉ n.variableNames) ∧
    ∀ address access, firstAccess? value = some (address, access) →
      ∃ receiver, access.form.object? = some receiver ∧
        let statement := n.editAt (fun _ => temp) (0 :: address ++ [0])
        effect = .replace (Node.synthesized (.group [
          Node.synthesized (.expression (Node.synthesized (.assign temp receiver))),
          statement])) drawn.2 ∧
        n.editAt (fun _ => receiver) (0 :: address ++ [0]) = n.outdatedAlong (0 :: address) ∧
        (n.outdatedAlong (0 :: address)).erase .textValidity = n.erase .textValidity ∧
        (drawn.1 ∉ n.variableNames →
          statement.variableNames.count drawn.1 = 1 ∧
          statement.substitute drawn.1 receiver = n.outdatedAlong (0 :: address)) := by
  intro effect drawn temp
  refine ⟨?_, call_eq_none hfile hn stem names, fun hknown hmem => ?_, fun address access h => ?_⟩
  · cases h : firstAccess? value with
    | none =>
      have hverdict : effect.verdict = .unchanged :=
        congrArg Effect.verdict (call_eq_none hfile hn stem names h)
      refine iff_of_false ?_ ?_
      · rintro ⟨m, hm⟩
        rw [hverdict] at hm
        cases hm
      · rintro ⟨p, hp, hreached, haccess⟩
        have hnot := List.find?_eq_none.1 h p hp
        simp [hreached, haccess] at hnot
    | some p =>
      obtain ⟨hole, hcall, -⟩ := call_eq_replace hfile hn stem names h
      have hfound := List.find?_some h
      rw [Bool.and_eq_true] at hfound
      exact iff_of_true ⟨_, congrArg Effect.verdict hcall⟩ ⟨p, List.mem_of_find?_eq_some h, hfound⟩
  · rcases hknown _ hmem with hreserved | hissued
    · exact names.allocate_not_mem_reserved file stem ctx.reserved hreserved
    · exact names.allocate_not_mem_issued file stem ctx.reserved hissued
  · obtain ⟨⟨receiver, fill⟩, hcall, hobject, hfill, hrestored, hcount⟩ :=
      call_eq_replace hfile hn stem names h
    refine ⟨receiver, hobject, ?_⟩
    intro statement
    have hstatement : fill temp = statement := hfill temp
    have hback : n.editAt (fun _ => receiver) (0 :: address ++ [0]) =
        n.outdatedAlong (0 :: address) := (hfill receiver).symm.trans hrestored
    have hsame := Node.erase_outdatedAlong Erasure.forgetsValidity_textValidity (0 :: address) n
    refine ⟨?_, hback, hsame, fun hfresh => ⟨?_, ?_⟩⟩
    · rw [← hstatement]
      exact hcall
    · rw [← hstatement]
      exact hcount _ hfresh
    · rw [← hback]
      exact Node.substitute_editAt_var receiver hfresh _

/-- Of `return f($b ? (new A)->x : 0, (new B)->g((clone $c)->y));` the second argument is hoisted:
the first stands in a branch, and the third comes later in preorder. -/
theorem call_hoists_first_access_of_arguments :
    let ctx : Context := ⟨some "a.php", none, ["b", "c", "object1"]⟩
    let name (x : String) := Node.synthesized (.name x)
    let x := Node.synthesized (.propertyFetch (Node.synthesized (.new (name "A") [])) "x")
    let y := Node.synthesized (.propertyFetch (Node.synthesized (.clone (Node.var "c"))) "y")
    let receiver := Node.synthesized (.new (name "B") [])
    let access := Node.synthesized (.methodCall receiver "g" [{ value := y }])
    let value := Node.synthesized (.functionCall (name "f")
      [{ value := Node.synthesized (.ternary (Node.var "b") x (Node.synthesized (.int 0))) },
        { value := access }])
    let n : Node := ⟨.ret (some value), some ⟨0, 56⟩, {}⟩
    let effect := (rule defaultStem).call ctx n {}
    let statement := n.editAt (fun _ => Node.var "object2") [0, 2, 0]
    ctx.file = some "a.php" ∧ n.form = .ret (some value) ∧
      firstAccess? value = some ([2], access) ∧
      (∀ x ∈ n.variableNames, x ∈ ctx.reserved) ∧
      effect.verdict = .replaced (Node.synthesized (.group [Node.synthesized (.expression
        (Node.synthesized (.assign (Node.var "object2") receiver))), statement])) ∧
      statement.toSource = "return f($b ? (new A())->x : 0, $object2->g((clone $c)->y));" ∧
      statement.variableNames.count "object2" = 1 ∧
      statement.substitute "object2" receiver = n.outdatedAlong [0, 2] := by
  intro ctx name x y receiver access value n effect statement
  have hfile : ctx.file = some "a.php" := rfl
  have hform : n.form = .ret (some value) := rfl
  have hfirst : firstAccess? value = some ([2], access) := by decide +kernel
  have hreserved : ∀ x ∈ n.variableNames, x ∈ ctx.reserved := by decide +kernel
  have hdrawn : (NameSupply.allocate {} "a.php" defaultStem ctx.reserved).1 = "object2" := by
    decide +kernel
  obtain ⟨-, -, hfresh, hreplace⟩ := call_hoists_first_access defaultStem hfile (.inr hform) {}
  obtain ⟨receiver', hobject, hcall, -, -, hback⟩ := hreplace _ _ hfirst
  obtain rfl : receiver = receiver' := Option.some.inj hobject
  obtain ⟨hcount, hback⟩ := hback (hfresh fun x hx => .inl (hreserved x hx))
  rw [hdrawn] at hcall hcount hback
  exact ⟨hfile, hform, hfirst, hreserved, congrArg Effect.verdict hcall, by decide +kernel, hcount,
    hback⟩

/-- A variable of the statement that is not reserved may have the new name: from
`$object1->f((new A())->x);` comes `$object1->f($object1->x);`, which has lost what `$object1` was,
and the receiver can no longer be substituted back. -/
theorem unreserved_variable_clashes :
    let ctx : Context := ⟨some "a.php", none, []⟩
    let receiver := Node.synthesized (.new (Node.synthesized (.name "A")) [])
    let access := Node.synthesized (.propertyFetch receiver "x")
    let n := Node.synthesized (.expression (Node.synthesized
      (.methodCall (Node.var "object1") "f" [{ value := access }])))
    ∃ statement, ((rule defaultStem).call ctx n {}).verdict = .replaced (Node.synthesized (.group [
        Node.synthesized (.expression (Node.synthesized (.assign (Node.var "object1") receiver))),
        statement])) ∧
      statement.variableNames.count "object1" = 2 ∧
      (statement.substitute "object1" receiver).erase .textValidity ≠ n.erase .textValidity := by
  intro ctx receiver access n
  exact ⟨n.editAt (fun _ => Node.var "object1") [0, 1, 0], by decide +kernel, by decide +kernel,
    by decide +kernel⟩

end SyntaxLowering.Hoist
