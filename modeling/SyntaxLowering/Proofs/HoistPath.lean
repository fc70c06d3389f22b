import SyntaxLowering.Proofs.CommaMarks

/-!
# The path to a hoisted object

`Hoist.receiver?` goes down from layer to layer until it meets a member access to an instantiation.
`Hoist.Slot` says which places of a layer it goes into and what becomes of the layer when something
else is put there; `Hoist.Path` chains these places. What hoisting does to a tree is then proved by
induction on the path.
-/

namespace SyntaxLowering

/-- An argument with another value, whose source text is given up. -/
def Arg.refill (a : Arg Node) (value : Node) : Arg Node :=
  { a with value := value, marks := a.marks.outdated }

namespace Hoist

variable {α : Type}

/-- The search goes from a layer into its child `c`; `plug` puts another node in its place. -/
inductive Slot : Form Node → Node → (Node → Form Node) → Prop
  | assignTarget {t v : Node} : Slot (.assign t v) t (fun x => .assign x v)
  | assignValue {t v : Node} : Slot (.assign t v) v (fun x => .assign t x)
  | left {l r : Node} : Slot (.notIdentical l r) l (fun x => .notIdentical x r)
  | right {l r : Node} : Slot (.notIdentical l r) r (fun x => .notIdentical l x)
  | condition {c t f : Node} : Slot (.ternary c t f) c (fun x => .ternary x t f)
  | fetched {o : Node} {p : String} : Slot (.propertyFetch o p) o (fun x => .propertyFetch x p)
  | nullsafeFetched {o : Node} {p : String} :
      Slot (.nullsafePropertyFetch o p) o (fun x => .nullsafePropertyFetch x p)
  | cloned {o : Node} : Slot (.clone o) o (fun x => .clone x)
  | object {o : Node} {m : String} {as : List (Arg Node)} :
      Slot (.methodCall o m as) o (fun x => .methodCall x m as)
  | nullsafeObject {o : Node} {m : String} {as : List (Arg Node)} :
      Slot (.nullsafeMethodCall o m as) o (fun x => .nullsafeMethodCall x m as)
  | staticScope {s : Node} {m : String} {as : List (Arg Node)} :
      Slot (.staticCall s m as) s (fun x => .staticCall x m as)
  | function {f : Node} {as : List (Arg Node)} :
      Slot (.functionCall f as) f (fun x => .functionCall x as)
  | newScope {s : Node} {as : List (Arg Node)} : Slot (.new s as) s (fun x => .new x as)
  | methodArg {o : Node} {m : String} {pre post : List (Arg Node)} {a : Arg Node} :
      Slot (.methodCall o m (pre ++ a :: post)) a.value
        (fun x => .methodCall o m (pre ++ a.refill x :: post))
  | staticArg {s : Node} {m : String} {pre post : List (Arg Node)} {a : Arg Node} :
      Slot (.staticCall s m (pre ++ a :: post)) a.value
        (fun x => .staticCall s m (pre ++ a.refill x :: post))
  | functionArg {f : Node} {pre post : List (Arg Node)} {a : Arg Node} :
      Slot (.functionCall f (pre ++ a :: post)) a.value
        (fun x => .functionCall f (pre ++ a.refill x :: post))
  | newArg {s : Node} {pre post : List (Arg Node)} {a : Arg Node} :
      Slot (.new s (pre ++ a :: post)) a.value (fun x => .new s (pre ++ a.refill x :: post))

/-- The place of the object in a member access. -/
inductive AccessSlot : Form Node → Node → (Node → Form Node) → Prop
  | call {o : Node} {m : String} {as : List (Arg Node)} :
      AccessSlot (.methodCall o m as) o (fun x => .methodCall x m as)
  | fetch {o : Node} {p : String} : AccessSlot (.propertyFetch o p) o (fun x => .propertyFetch x p)

/-- The place of the expression in a statement that is searched. -/
inductive StatementSlot : Form Node → Node → (Node → Form Node) → Prop
  | expression {v : Node} : StatementSlot (.expression v) v .expression
  | ret {v : Node} : StatementSlot (.ret (some v)) v (fun x => .ret (some x))

/-- The hole in a node over a layer with a hole. The node loses its source text. -/
def Hole.under (span : Option Span) (marks : Marks) (hole : Hole (Form Node)) : Hole Node :=
  hole.map fun form => ⟨form, span, marks.outdated⟩

/-- The way from an expression to the object of a member access below it, as the expression with a
hole in the place of the object. -/
inductive Path : Node → Hole Node → Prop
  | here {form : Form Node} {span : Option Span} {marks : Marks} {o : Node}
      {plug : Node → Form Node} (hslot : AccessSlot form o plug)
      (hinst : isInstantiation o = true) :
      Path ⟨form, span, marks⟩ (Hole.under span marks ⟨o, plug⟩)
  | inside {form : Form Node} {span : Option Span} {marks : Marks} {c : Node}
      {plug : Node → Form Node} {inner : Hole Node} (hslot : Slot form c plug)
      (hpath : Path c inner) : Path ⟨form, span, marks⟩ (Hole.under span marks (inner.map plug))

/-! ### The search finds a path -/

theorem receiverInArgs?_eq_some {as : List (Arg Node)} {hole : Hole (List (Arg Node))}
    (h : receiverInArgs? as = some hole) :
    ∃ pre a post inner, as = pre ++ a :: post ∧ (∀ b ∈ pre, receiver? b.value = none) ∧
      receiver? a.value = some inner ∧ hole = inner.map fun x => pre ++ a.refill x :: post := by
  induction as generalizing hole with
  | nil => simp [receiverInArgs?] at h
  | cons a rest ih =>
    obtain ⟨value, name, unpack, byRef, span, marks⟩ := a
    simp only [receiverInArgs?, Option.orElse_eq_orElse, Option.orElse_eq_or,
      Option.or_eq_some_iff, Option.map_eq_some_iff, Option.map_eq_none_iff] at h
    rcases h with ⟨inner, hinner, rfl⟩ | ⟨hnone, inner, hinner, rfl⟩
    · exact ⟨[], _, rest, inner, rfl, by simp, hinner, rfl⟩
    · obtain ⟨pre, a, post, inner', rfl, hpre, ha, rfl⟩ := ih hinner
      exact ⟨_ :: pre, a, post, inner', rfl, List.forall_mem_cons.2 ⟨hnone, hpre⟩, ha, rfl⟩

theorem direct?_eq_some {object : Node} {hole : Hole Node} (h : direct? object = some hole) :
    isInstantiation object = true ∧ hole = ⟨object, id⟩ := by
  unfold direct? at h
  split at h
  · exact ⟨‹_›, (Option.some.inj h).symm⟩
  · simp at h

theorem direct?_eq_none {object : Node} :
    direct? object = none ↔ isInstantiation object = false := by
  unfold direct?
  split <;> simp_all

/-- The children of a layer that the search goes into. -/
def searched : Form α → List α
  | .assign target value => [target, value]
  | .notIdentical left right => [left, right]
  | .ternary condition _ _ => [condition]
  | .propertyFetch object _ | .nullsafePropertyFetch object _ | .clone object => [object]
  | .nullsafeMethodCall object _ _ => [object]
  | .methodCall object _ args => object :: args.map (·.value)
  | .staticCall scope _ args | .new scope args => scope :: args.map (·.value)
  | .functionCall function args => function :: args.map (·.value)
  | _ => []

theorem searched_subset (form : Form α) : searched form ⊆ form.children := by
  cases form <;> simp [searched, Form.children]

/-- The search goes on in a searched child, and finds nothing in those before it. -/
structure Leads (form : Form Node) (layer : Hole (Form Node)) (c : Node) (pre : List Node) :
    Prop where
  noObject : form.object?.any isInstantiation = false
  nothing : ∀ d ∈ pre, receiver? d = none
  found : ∃ plug inner post, Slot form c plug ∧ receiver? c = some inner ∧ layer = inner.map plug ∧
    searched form = pre ++ c :: post ∧ ∀ x, searched (plug x) = pre ++ x :: post

/-- One step of the search: it ends at the object of a member access, or goes on in a child. -/
theorem receiverInForm?_eq_some {form : Form Node} {layer : Hole (Form Node)}
    (h : receiverInForm? form = some layer) :
    (∃ o plug, AccessSlot form o plug ∧ isInstantiation o = true ∧ layer = ⟨o, plug⟩) ∨
      ∃ c pre, Leads form layer c pre := by
  have first {c : Node} {plug : Node → Form Node} {inner : Hole Node} {post : List Node}
      (hslot : Slot form c plug) (hc : receiver? c = some inner)
      (hform : searched form = c :: post) (hplug : ∀ x, searched (plug x) = x :: post)
      (hobject : form.object?.any isInstantiation = false) :
      ∃ d pre, Leads form (inner.map plug) d pre :=
    ⟨c, [], hobject, by simp, plug, inner, post, hslot, hc, rfl, hform, hplug⟩
  have argument {o : Node} {pre post : List (Arg Node)} {a : Arg Node} {plug : Node → Form Node}
      {inner : Hole Node} (hslot : Slot form a.value plug) (ha : receiver? a.value = some inner)
      (ho : receiver? o = none) (hpre : ∀ b ∈ pre, receiver? b.value = none)
      (hform : searched form = o :: (pre ++ a :: post).map (·.value))
      (hplug : ∀ x, searched (plug x) = o :: (pre ++ a.refill x :: post).map (·.value))
      (hobject : form.object?.any isInstantiation = false) :
      ∃ d pre, Leads form (inner.map plug) d pre := by
    refine ⟨a.value, o :: pre.map (·.value), hobject, ?_, plug, inner, post.map (·.value), hslot,
      ha, rfl, ?_, fun x => ?_⟩
    · simpa [ho] using hpre
    · simp [hform]
    · simp [hplug, Arg.refill]
  -- one alternative of the search for each place that it goes into
  cases form <;> simp only [receiverInForm?, Option.orElse_eq_orElse, Option.orElse_eq_or,
    Option.or_eq_some_iff, Option.or_eq_none_iff, Option.map_eq_some_iff, Option.map_eq_none_iff,
    reduceCtorEq] at h
  case methodCall object method args =>
    rcases h with ⟨inner, ho | ⟨hdirect, ho⟩, rfl⟩ | ⟨⟨hdirect, ho⟩, inner, has, rfl⟩
    · obtain ⟨hinst, rfl⟩ := direct?_eq_some ho
      exact .inl ⟨_, _, .call, hinst, rfl⟩
    · exact .inr (first .object ho rfl (fun _ => rfl) (direct?_eq_none.1 hdirect))
    · obtain ⟨pre, a, post, inner, rfl, hpre, ha, rfl⟩ := receiverInArgs?_eq_some has
      exact .inr (argument .methodArg ha ho hpre rfl (fun _ => rfl) (direct?_eq_none.1 hdirect))
  case propertyFetch object property =>
    obtain ⟨inner, ho | ⟨hdirect, ho⟩, rfl⟩ := h
    · obtain ⟨hinst, rfl⟩ := direct?_eq_some ho
      exact .inl ⟨_, _, .fetch, hinst, rfl⟩
    · exact .inr (first .fetched ho rfl (fun _ => rfl) (direct?_eq_none.1 hdirect))
  case nullsafeMethodCall object method args =>
    obtain ⟨inner, ho, rfl⟩ := h
    exact .inr (first .nullsafeObject ho rfl (fun _ => rfl) rfl)
  case nullsafePropertyFetch object property =>
    obtain ⟨inner, ho, rfl⟩ := h
    exact .inr (first .nullsafeFetched ho rfl (fun _ => rfl) rfl)
  case clone object =>
    obtain ⟨inner, ho, rfl⟩ := h
    exact .inr (first .cloned ho rfl (fun _ => rfl) rfl)
  case ternary condition ifTrue ifFalse =>
    obtain ⟨inner, hc, rfl⟩ := h
    exact .inr (first .condition hc rfl (fun _ => rfl) rfl)
  case staticCall scope method args =>
    rcases h with ⟨inner, hs, rfl⟩ | ⟨hs, inner, has, rfl⟩
    · exact .inr (first .staticScope hs rfl (fun _ => rfl) rfl)
    · obtain ⟨pre, a, post, inner, rfl, hpre, ha, rfl⟩ := receiverInArgs?_eq_some has
      exact .inr (argument .staticArg ha hs hpre rfl (fun _ => rfl) rfl)
  case new scope args =>
    rcases h with ⟨inner, hs, rfl⟩ | ⟨hs, inner, has, rfl⟩
    · exact .inr (first .newScope hs rfl (fun _ => rfl) rfl)
    · obtain ⟨pre, a, post, inner, rfl, hpre, ha, rfl⟩ := receiverInArgs?_eq_some has
      exact .inr (argument .newArg ha hs hpre rfl (fun _ => rfl) rfl)
  case functionCall function args =>
    rcases h with ⟨inner, hf, rfl⟩ | ⟨hf, inner, has, rfl⟩
    · exact .inr (first .function hf rfl (fun _ => rfl) rfl)
    · obtain ⟨pre, a, post, inner, rfl, hpre, ha, rfl⟩ := receiverInArgs?_eq_some has
      exact .inr (argument .functionArg ha hf hpre rfl (fun _ => rfl) rfl)
  case assign target value =>
    rcases h with ⟨inner, ht, rfl⟩ | ⟨ht, inner, hv, rfl⟩
    · exact .inr (first .assignTarget ht rfl (fun _ => rfl) rfl)
    · exact .inr ⟨value, [target], rfl, by simpa using ht, _, inner, [], .assignValue, hv, rfl, rfl,
        fun _ => rfl⟩
  case notIdentical left right =>
    rcases h with ⟨inner, hl, rfl⟩ | ⟨hl, inner, hr, rfl⟩
    · exact .inr (first .left hl rfl (fun _ => rfl) rfl)
    · exact .inr ⟨right, [left], rfl, by simpa using hl, _, inner, [], .right, hr, rfl, rfl,
        fun _ => rfl⟩

/-- The search leads along a path. -/
theorem Path.of_receiver? {n : Node} {hole : Hole Node} (h : receiver? n = some hole) :
    Path n hole := by
  induction n using Node.inductionOn generalizing hole with
  | step form span marks ih =>
    rw [receiver?, Option.map_eq_some_iff] at h
    obtain ⟨layer, h, rfl⟩ := h
    rcases receiverInForm?_eq_some h with ⟨o, plug, hslot, hinst, rfl⟩ | ⟨c, pre, hleads⟩
    · exact .here hslot hinst
    · obtain ⟨plug, inner, post, hslot, hc, rfl, hform, -⟩ := hleads.found
      have hmem : c ∈ searched form := by simp [hform]
      exact .inside hslot (ih c (searched_subset form hmem) hc)

theorem receiverInStatement?_eq_some {n : Node} {hole : Hole Node}
    (h : receiverInStatement? n = some hole) :
    ∃ value plug inner, StatementSlot n.form value plug ∧ receiver? value = some inner ∧
      hole = Hole.under n.span n.marks (inner.map plug) := by
  obtain ⟨form, span, marks⟩ := n
  cases form with
  | expression value =>
    obtain ⟨inner, hv, rfl⟩ := Option.map_eq_some_iff.1 h
    exact ⟨value, _, inner, .expression, hv, rfl⟩
  | ret value =>
    cases value with
    | none => simp [receiverInStatement?] at h
    | some value =>
      obtain ⟨inner, hv, rfl⟩ := Option.map_eq_some_iff.1 h
      exact ⟨value, _, inner, .ret, hv, rfl⟩
  | _ => simp [receiverInStatement?] at h

/-! ### What filling a place changes -/

theorem AccessSlot.slot {form : Form Node} {c : Node} {plug : Node → Form Node}
    (h : AccessSlot form c plug) : Slot form c plug := by
  cases h with
  | call => exact .object
  | fetch => exact .fetched

/-- What becomes of a layer when another node is put into one of its places: the other children
stay, and an argument that holds the place loses its source text. -/
structure Refilled (c x : Node) (form form' : Form Node) : Prop where
  children : ∃ pre post, form.children = pre ++ c :: post ∧ form'.children = pre ++ x :: post
  args : List.Forall₂ (fun a b => b = a ∨ a.value = c ∧ b = a.refill x) form.args form'.args
  params : form'.params = form.params
  captures : form'.captures = form.captures
  statements : form'.statements = form.statements
  kind : form'.kind = form.kind
  ownVariables : form'.ownVariables = form.ownVariables
  /-- The place is not in a block of its own. -/
  opensBlock : form.kind.opensBlock = false

theorem forall₂_refill (c x : Node) {pre post : List (Arg Node)} {a : Arg Node} (h : a.value = c) :
    List.Forall₂ (fun a b => b = a ∨ a.value = c ∧ b = a.refill x)
      (pre ++ a :: post) (pre ++ a.refill x :: post) := by
  induction pre with
  | nil => exact .cons (.inr ⟨h, rfl⟩) (List.forall₂_same.2 fun _ _ => .inl rfl)
  | cons b pre ih => exact .cons (.inl rfl) ih

/-- The search goes into expressions only. -/
theorem Slot.kind_not_mem {form : Form Node} {c : Node} {plug : Node → Form Node}
    (h : Slot form c plug) : form.kind ∉ [.var, .expression, .ret] := by
  cases h <;> simp [Form.kind]

theorem Slot.statements_eq_nil {form : Form Node} {c : Node} {plug : Node → Form Node}
    (h : Slot form c plug) : form.statements = [] := by
  cases h <;> rfl

theorem Slot.refilled {form : Form Node} {c : Node} {plug : Node → Form Node}
    (h : Slot form c plug) (x : Node) : Refilled c x form (plug x) := by
  have kept (as : List (Arg Node)) :
      List.Forall₂ (fun a b => b = a ∨ a.value = c ∧ b = a.refill x) as as :=
    List.forall₂_same.2 fun _ _ => .inl rfl
  cases h with
  | assignTarget => exact ⟨⟨[], _, rfl, rfl⟩, .nil, rfl, rfl, rfl, rfl, rfl, rfl⟩
  | assignValue => exact ⟨⟨[_], [], rfl, rfl⟩, .nil, rfl, rfl, rfl, rfl, rfl, rfl⟩
  | left => exact ⟨⟨[], _, rfl, rfl⟩, .nil, rfl, rfl, rfl, rfl, rfl, rfl⟩
  | right => exact ⟨⟨[_], [], rfl, rfl⟩, .nil, rfl, rfl, rfl, rfl, rfl, rfl⟩
  | condition => exact ⟨⟨[], _, rfl, rfl⟩, .nil, rfl, rfl, rfl, rfl, rfl, rfl⟩
  | fetched => exact ⟨⟨[], [], rfl, rfl⟩, .nil, rfl, rfl, rfl, rfl, rfl, rfl⟩
  | nullsafeFetched => exact ⟨⟨[], [], rfl, rfl⟩, .nil, rfl, rfl, rfl, rfl, rfl, rfl⟩
  | cloned => exact ⟨⟨[], [], rfl, rfl⟩, .nil, rfl, rfl, rfl, rfl, rfl, rfl⟩
  | object | nullsafeObject | staticScope | function | newScope =>
    exact ⟨⟨[], _, rfl, rfl⟩, kept _, rfl, rfl, rfl, rfl, rfl, rfl⟩
  | @methodArg o _ pre post _ | @staticArg o _ pre post _ | @functionArg o pre post _
    | @newArg o pre post _ =>
    refine ⟨⟨o :: pre.map (·.value), post.map (·.value), ?_, ?_⟩, forall₂_refill _ x rfl,
      rfl, rfl, rfl, rfl, rfl, rfl⟩
    · simp [Form.children]
    · simp [Form.children, Arg.refill]

/-- Filling a hole keeps the kind of the expression around it. -/
theorem Path.kind_fill {n : Node} {hole : Hole Node} (h : Path n hole) (x : Node) :
    (hole.fill x).form.kind = n.form.kind := by
  cases h with
  | here hslot _ => exact (hslot.slot.refilled x).kind
  | @inside _ _ _ _ _ inner hslot _ => exact (hslot.refilled (inner.fill x)).kind

theorem StatementSlot.refilled {form : Form Node} {c : Node} {plug : Node → Form Node}
    (h : StatementSlot form c plug) (x : Node) : Refilled c x form (plug x) := by
  cases h with
  | expression => exact ⟨⟨[], [], rfl, rfl⟩, .nil, rfl, rfl, rfl, rfl, rfl, rfl⟩
  | ret => exact ⟨⟨[], [], rfl, rfl⟩, .nil, rfl, rfl, rfl, rfl, rfl, rfl⟩

theorem eq_or_mem_of_mem_middle {pre post : List α} {c d : α} (h : d ∈ pre ++ c :: post) (x : α) :
    d = c ∨ d ∈ pre ++ x :: post := by
  rw [List.mem_append, List.mem_cons] at h ⊢
  rcases h with h | h | h
  · exact .inr (.inl h)
  · exact .inl h
  · exact .inr (.inr (.inr h))

namespace Refilled

variable {c x : Node} {form form' : Form Node} (h : Refilled c x form form')

include h

theorem mem_children : c ∈ form.children := by
  obtain ⟨pre, post, hform, -⟩ := h.children
  rw [hform]
  exact List.mem_append_right _ List.mem_cons_self

/-- What is put into a place is there. -/
theorem mem_refilled : x ∈ form'.children := by
  obtain ⟨pre, post, -, hform'⟩ := h.children
  rw [hform']
  exact List.mem_append_right _ List.mem_cons_self

/-- The children of the refilled layer are the node put in and children that were there. -/
theorem eq_or_mem_of_mem {d : Node} (hd : d ∈ form'.children) : d = x ∨ d ∈ form.children := by
  obtain ⟨pre, post, hform, hform'⟩ := h.children
  rw [hform]
  rw [hform'] at hd
  exact eq_or_mem_of_mem_middle hd c

/-- The children that were there are the node taken out and children of the refilled layer. -/
theorem eq_or_mem_refilled {d : Node} (hd : d ∈ form.children) : d = c ∨ d ∈ form'.children := by
  obtain ⟨pre, post, hform, hform'⟩ := h.children
  rw [hform']
  rw [hform] at hd
  exact eq_or_mem_of_mem_middle hd x

theorem all {q H : Node → Prop} (hH : Layered q H) {span span' : Option Span}
    {marks marks' : Marks} (hn : H ⟨form, span, marks⟩) (hx : H x)
    (hself : q ⟨form', span', marks'⟩) : H ⟨form', span', marks'⟩ := by
  have hblock : form'.kind.opensBlock = false := h.kind ▸ h.opensBlock
  refine (hH ⟨form', span', marks'⟩ hblock).2 ⟨hself, fun d hd => ?_⟩
  rcases h.eq_or_mem_of_mem hd with rfl | hd
  · exact hx
  · exact ((hH ⟨form, span, marks⟩ h.opensBlock).1 hn).2 d hd

end Refilled

section Layers

variable {q H : Node → Prop} (hH : Layered q H)

include hH

/-- A property that layers keep when a place is filled holds of what is taken out, and of the rest
when something with the property is put in. -/
theorem Path.all
    (hq : ∀ {form : Form Node} {c : Node} {plug : Node → Form Node} {span : Option Span}
      {marks : Marks}, Slot form c plug → q ⟨form, span, marks⟩ →
      ∀ x, q ⟨plug x, span, marks.outdated⟩)
    {n : Node} {hole : Hole Node} (h : Path n hole) (hn : H n) :
    H hole.content ∧ ∀ x, H x → H (hole.fill x) := by
  induction h with
  | @here form span marks _ _ hslot _ =>
    have hrefilled := hslot.slot.refilled
    obtain ⟨hself, hchildren⟩ := (hH ⟨form, span, marks⟩ (hrefilled Node.null).opensBlock).1 hn
    refine ⟨hchildren _ (hrefilled Node.null).mem_children, fun x hx => ?_⟩
    exact (hrefilled x).all hH hn hx (hq hslot.slot hself x)
  | @inside form span marks c plug inner hslot _ ih =>
    have hrefilled := hslot.refilled
    obtain ⟨hself, hchildren⟩ := (hH ⟨form, span, marks⟩ (hrefilled Node.null).opensBlock).1 hn
    obtain ⟨hcontent, hfill⟩ := ih (hchildren _ (hrefilled Node.null).mem_children)
    refine ⟨hcontent, fun x hx => ?_⟩
    exact (hrefilled (inner.fill x)).all hH hn (hfill x hx) (hq hslot hself _)

/-- A property that layers keep when a place is filled, and that the new nodes have, holds of the
two statements that hoisting makes of one. -/
theorem all_of_receiverInStatement?
    (hq : ∀ {c x : Node} {form form' : Form Node} {span : Option Span} {marks : Marks},
      Refilled c x form form' → q ⟨form, span, marks⟩ → q ⟨form', span, marks.outdated⟩)
    {n temp : Node} {hole : Hole Node} (h : receiverInStatement? n = some hole) (hn : H n)
    (htemp : H temp) (hassign : q (Node.synthesized (.assign temp hole.content)))
    (hstatement : q (Node.synthesized
      (.expression (Node.synthesized (.assign temp hole.content)))))
    (hself : q (hoisted temp hole)) : H (hoisted temp hole) := by
  obtain ⟨value, plug, inner, hslot, hvalue, rfl⟩ := receiverInStatement?_eq_some h
  obtain ⟨form, span, marks⟩ := n
  have hrefilled := hslot.refilled
  obtain ⟨hlayer, hchildren⟩ := (hH ⟨form, span, marks⟩ (hrefilled Node.null).opensBlock).1 hn
  obtain ⟨hcontent, hfill⟩ := (Path.of_receiver? hvalue).all hH
    (fun hslot hlayer x => hq (hslot.refilled x) hlayer)
    (hchildren value (hrefilled Node.null).mem_children)
  refine all_hoisted hH htemp hcontent ?_ hassign hstatement hself
  exact (hrefilled _).all hH hn (hfill _ htemp) (hq (hrefilled _) hlayer)

end Layers

end Hoist

end SyntaxLowering
