import SyntaxLowering.Proofs.HoistPath
import SyntaxLowering.Proofs.Simulation

/-!
# Hoisting and the order of evaluation

A hoisted object is evaluated before the whole statement, whatever the statement evaluated before
it. `Hoist.earlier` lists these parts. If they make no event happen, and neither they nor the object
assign variables that the other mentions, the order makes no difference (`Hoist.eval_hoisted`): on
the way down to the object, each layer evaluates some children, then the one with the object, then
concludes, and the assignment of the object moves in front of the first of them.

If they do make an event happen, the object overtakes it (`hoisting_overtakes_call`).
-/

namespace SyntaxLowering

variable {V : Type}

/-! ### Statements -/

namespace Semantics

variable (S : Semantics V)

/-- The execution of a statement, to the value that it returns if it does. -/
def exec (n : Node) : Evaluation V (Option V) :=
  match n.form with
  | .expression value => S.eval value >>= fun _ => pure none
  | .ret (some value) => S.eval value >>= fun v => pure (some v)
  | .ret none => pure (some S.null)
  | _ => failure

/-- The execution of statements one after another, up to the first that returns. -/
def execAll : List Node → Evaluation V (Option V)
  | [] => pure none
  | n :: rest => S.exec n >>= fun returned => returned.elim (execAll rest) fun v => pure (some v)

theorem execAll_singleton (n : Node) : S.execAll [n] = S.exec n := by
  have hreturned (r : Option V) :
      (r.elim (pure none) fun v => pure (some v) : Evaluation V (Option V)) = pure r := by
    cases r <;> rfl
  simp only [execAll, hreturned, bind_pure]

/-- An expression statement before another one is evaluated for its effects. -/
theorem execAll_expression (e n : Node) :
    S.execAll [Node.synthesized (.expression e), n] = S.eval e >>= fun _ => S.exec n := by
  have hexec : S.exec (Node.synthesized (.expression e)) = S.eval e >>= fun _ => pure none := rfl
  rw [execAll, hexec, bind_assoc]
  simp only [pure_bind, Option.elim_none, execAll_singleton]

end Semantics

/-! ### What comes before the object -/

namespace Hoist

/-- What is evaluated before the object that the search finds in some operands, given for each
operand what comes before in it. -/
def before : List (Node × List Node) → List Node
  | [] => []
  | (n, parts) :: rest => if (receiver? n).isSome then parts else n :: before rest

/-- The parts of an expression that are evaluated before the object that the search finds. -/
def earlier (n : Node) : List Node :=
  (n.fold fun layer span marks =>
    let form := layer.map Prod.fst
    ((⟨form, span, marks⟩ : Node),
      if form.object?.any isInstantiation then [] else before layer.evaluated)).2

theorem earlier_mk (form : Form Node) (span : Option Span) (marks : Marks) :
    earlier ⟨form, span, marks⟩ =
      if form.object?.any isInstantiation then []
      else before (form.evaluated.map fun c => (c, earlier c)) := by
  have hpair (c : Node) : (c.fold fun layer span marks =>
      ((⟨layer.map Prod.fst, span, marks⟩ : Node),
        if (layer.map Prod.fst).object?.any isInstantiation then []
        else before layer.evaluated)) = (c, earlier c) :=
    Prod.ext (Node.fold_rebuilt _ c) rfl
  rw [earlier, Node.fold_mk]
  simp only [Form.map_map, Form.evaluated_map, hpair, Form.map_id]

theorem before_append {pre post : List Node} {c : Node} {inner : Hole Node}
    (hpre : ∀ d ∈ pre, receiver? d = none) (hc : receiver? c = some inner) :
    before ((pre ++ c :: post).map fun d => (d, earlier d)) = pre ++ earlier c := by
  induction pre with
  | nil => simp [before, hc]
  | cons d pre ih =>
    rw [List.forall_mem_cons] at hpre
    simp only [List.cons_append, List.map_cons, before, hpre.1, Option.isSome_none,
      Bool.false_eq_true, if_false, ih hpre.2]

end Hoist

namespace Semantics

open Evaluation

variable {S : Semantics V} {accepts : V → Bool}

variable (S accepts) in
/-- The rest of the evaluation of a layer, after a child `v` and those before it. -/
def rest (form : Form Node) (post : List Node) (vs : List V) (v : V) : Evaluation V V :=
  post.mapM (S.evalWhere accepts) >>= fun ws =>
    S.conclude accepts (form.map (S.denote accepts)) (vs ++ v :: ws)

theorem evalWhere_split {form : Form Node} {pre post : List Node} {c : Node}
    (h : form.evaluated = pre ++ c :: post) (span : Option Span) (marks : Marks) :
    S.evalWhere accepts ⟨form, span, marks⟩ = pre.mapM (S.evalWhere accepts) >>= fun vs =>
      S.evalWhere accepts c >>= S.rest accepts form post vs := by
  rw [evalWhere_eq, h, List.mapM_append]
  simp only [List.mapM_cons, bind_assoc, pure_bind]
  rfl

end Semantics

namespace Hoist

open Evaluation

variable {S : Semantics V} {accepts : V → Bool}

theorem passed_refill (pre post : List (Arg Node)) (a : Arg Node) (y : Node) (vs : List V) :
    passed (pre ++ a.refill y :: post) vs = passed (pre ++ a :: post) vs := by
  induction pre generalizing vs with
  | nil => cases vs <;> rfl
  | cons b pre ih =>
    cases vs with
    | nil => rfl
    | cons v vs => exact congrArg _ (ih vs)

/-- What a layer concludes does not depend on what stands in a place, unless it is assigned. -/
theorem Slot.conclude_eq {form : Form Node} {c : Node} {plug : Node → Form Node}
    (h : Slot form c plug) {y : Node} (htarget : (plug y).target? = form.target?)
    (f : Node → Meaning V) :
    S.conclude accepts ((plug y).map f) = S.conclude accepts (form.map f) := by
  cases h with
  | assignTarget =>
    obtain rfl : y = c := Option.some.inj htarget
    rfl
  | methodArg | staticArg | functionArg | newArg =>
    funext vs
    cases vs with
    | nil => rfl
    | cons v vs => simp only [Form.map, Semantics.conclude, passed_map, passed_refill]
  | _ =>
    funext vs
    rcases vs with _ | ⟨v, _ | ⟨w, vs⟩⟩ <;> rfl

theorem receiver?_of_varName? {n : Node} (h : n.varName?.isSome = true) : receiver? n = none := by
  obtain ⟨form, span, marks⟩ := n
  cases form with
  | var x => rfl
  | _ => cases h

/-- In an expression the search goes on in a child that is evaluated first, and finds nothing in
those that are evaluated before it. -/
theorem Leads.evaluated {form : Form Node} {layer : Hole (Form Node)} {c : Node} {pre : List Node}
    (h : Leads form layer c pre) (hform : form.isExpression = true) :
    ∃ plug inner pre post, Slot form c plug ∧ receiver? c = some inner ∧ layer = inner.map plug ∧
      (∀ d ∈ pre, receiver? d = none) ∧ form.evaluated = pre ++ c :: post ∧
      ∀ y, (plug y).evaluated = pre ++ y :: post ∧ (plug y).target? = form.target? := by
  obtain ⟨plug, inner, post, hslot, hc, rfl, hsearched, hplug⟩ := h.found
  have hnothing := h.nothing
  cases hslot with
  | assignTarget => rw [receiver?_of_varName? hform] at hc; cases hc
  | assignValue =>
    exact ⟨_, inner, [], [], .assignValue, hc, rfl, by simp, rfl, fun _ => ⟨rfl, rfl⟩⟩
  | _ =>
    refine ⟨_, inner, pre, post, ?_, hc, rfl, hnothing, hsearched, fun y => ⟨hplug y, rfl⟩⟩
    constructor

end Hoist

/-- Neither of two expressions assigns a variable that the other mentions. -/
def Node.Independent (n m : Node) : Prop :=
  (∀ x ∈ n.assigned, x ∉ m.variableNames) ∧ ∀ x ∈ m.assigned, x ∉ n.variableNames

instance (n m : Node) : Decidable (n.Independent m) :=
  inferInstanceAs (Decidable (_ ∧ _))

namespace Hoist

open Evaluation

variable {S : Semantics V} {accepts : V → Bool}

/-- The assignment of an object to a variable. -/
def assignment (x : String) (object : Node) : Node :=
  Node.synthesized (.assign (Node.var x) object)

theorem rest_simulates {form : Form Node} {pre post : List Node} {c : Node}
    (h : form.evaluated = pre ++ c :: post) {G : Set String} (span : Option Span) (marks : Marks)
    (hform : ∀ x ∈ (⟨form, span, marks⟩ : Node).variableNames, x ∉ G) (vs : List V) (v : V) :
    Simulates G (S.rest accepts form post vs v) (S.rest accepts form post vs v) := by
  rw [Node.variableNames_mk, List.forall_mem_append] at hform
  have hchild : ∀ d ∈ form.children,
      Simulates G (S.evalWhere accepts d) (S.evalWhere accepts d) := fun d hd =>
    Semantics.evalWhere_frame (fun _ hv => hv) fun x hx =>
      hform.2 x (List.mem_flatMap.2 ⟨d, hd, hx⟩)
  have hpost : ∀ d ∈ post, d ∈ form.children := fun d hd =>
    form.evaluated_subset (by simp [h, hd])
  refine ((Simulates.parametric S G).mapM ?_).bind fun ws =>
    (Simulates.parametric S G).conclude (fun _ hv => hv) ?_ ?_ (fun _ _ => trivial) _
  · exact List.forall₂_same.2 fun d hd => hchild d (hpost d hd)
  · exact Semantics.Parametric.denoted (Form.rel_self fun d hd => ⟨rfl, hchild d hd⟩)
  · rw [Form.ownVariables_map]
    exact hform.1

/-- What expressions evaluated one after another touch. -/
theorem footprint_mapM (ns : List Node) :
    Footprint {x | ∃ n ∈ ns, x ∈ n.variableNames} {x | ∃ n ∈ ns, x ∈ n.assigned}
      (ns.mapM (S.evalWhere accepts)) :=
  (Footprint.parametric S _ _).mapM (g := S.evalWhere accepts) <| List.forall₂_same.2 fun n hn =>
    (Footprint.parametric S _ _).evalWhere_self (fun _ hv => hv) (fun _ hx => ⟨n, hn, hx⟩)
      fun _ hx => ⟨n, hn, hx⟩

theorem footprint_assignment (x : String) (object : Node) :
    Footprint {y | y = x ∨ y ∈ object.variableNames} {y | y = x ∨ y ∈ object.assigned}
      (S.evalWhere accepts (assignment x object)) := by
  refine (Footprint.parametric S _ _).evalWhere_self (fun _ hv => hv) (fun y hy => ?_)
    fun y hy => ?_
  · rw [assignment, Node.synthesized, Node.variableNames_mk] at hy
    simpa [Form.ownVariables, Form.children, Node.var, Node.synthesized, Node.variableNames_mk]
      using hy
  · rw [assignment, Node.synthesized, Node.assigned_mk] at hy
    simpa [Form.target?, Form.children, Node.var, Node.synthesized, Node.assigned_mk, Node.varName?,
      Form.varName?] using hy

/-- Expressions that make no event happen may be evaluated after the assignment of an object that
is independent of them. -/
theorem assignment_commute {ns : List Node} {x : String} {object : Node}
    (hx : ∀ n ∈ ns, x ∉ n.variableNames) (hindependent : ∀ n ∈ ns, n.Independent object)
    {m l k : Machine V} {vs : List V} {w : V} (hl : ns.mapM (S.evalWhere accepts) m = some (vs, l))
    (hsilent : l.trace = m.trace)
    (hk : S.evalWhere accepts (assignment x object) l = some (w, k)) :
    ∃ j, S.evalWhere accepts (assignment x object) m = some (w, j) ∧
      ns.mapM (S.evalWhere accepts) j = some (vs, k) := by
  refine (footprint_mapM ns).commute (footprint_assignment x object) ?_ ?_ ?_ hl hsilent hk
  · rintro y ⟨n, hn, hy⟩
    exact ⟨n, hn, n.assigned_subset hy⟩
  · rintro y ⟨n, hn, hy⟩ (rfl | hobject)
    · exact hx n hn (n.assigned_subset hy)
    · exact (hindependent n hn).1 y hy hobject
  · rintro y ⟨n, hn, hy⟩ (rfl | hobject)
    · exact hx n hn hy
    · exact (hindependent n hn).2 y hobject hy

/-- The rest of the evaluation does not depend on what stands in a place. -/
theorem Slot.rest_eq {form : Form Node} {c : Node} {plug : Node → Form Node}
    (h : Slot form c plug) {y : Node} (htarget : (plug y).target? = form.target?)
    (post : List Node) : S.rest accepts (plug y) post = S.rest accepts form post := by
  unfold Semantics.rest
  rw [h.conclude_eq htarget]

/-- Next to the access itself, the object is assigned to the variable and read back from it. -/
theorem AccessSlot.simulates {form : Form Node} {o : Node} {plug : Node → Form Node}
    (h : AccessSlot form o plug) (span : Option Span) (marks : Marks) {x : String}
    (hx : x ∉ (⟨form, span, marks⟩ : Node).variableNames) :
    Simulates {x} (S.evalWhere accepts ⟨form, span, marks⟩)
      (S.evalWhere accepts (assignment x o) >>= fun _ =>
        S.evalWhere accepts ⟨plug (Node.var x), span, marks.outdated⟩) := by
  obtain ⟨post, hform, hplug⟩ : ∃ post, form.evaluated = [] ++ o :: post ∧
      ∀ y, (plug y).evaluated = [] ++ y :: post ∧ (plug y).target? = form.target? := by
    cases h <;> exact ⟨_, rfl, fun _ => ⟨rfl, rfl⟩⟩
  have hframe : ∀ y ∈ (⟨form, span, marks⟩ : Node).variableNames, y ∉ ({x} : Set String) := by
    rintro y hy rfl
    exact hx hy
  have hobject : Simulates {x} (S.evalWhere accepts o) (S.evalWhere accepts o) := by
    refine Semantics.evalWhere_frame (fun _ hv => hv) fun y hy => hframe y ?_
    rw [Node.variableNames_mk]
    exact List.mem_append_right _ (List.mem_flatMap.2
      ⟨o, form.evaluated_subset (by simp [hform]), hy⟩)
  rw [Semantics.evalWhere_split hform, Semantics.evalWhere_split (hplug _).1,
    h.slot.rest_eq (hplug _).2, assignment, Semantics.evalWhere_assign_var, Semantics.evalWhere_var]
  simp only [List.mapM_nil, pure_bind, bind_assoc, assign_lookup]
  exact hobject.bind fun w => (rest_simulates hform span marks hframe [] w).assign_then

/-- The object may be evaluated before the parts of the expression that come before it, if these
make no event happen and are independent of the object. -/
theorem eval_hoisted {n : Node} {hole : Hole Node} (h : receiver? n = some hole)
    (hn : n.IsExpression) {x : String} (hx : x ∉ n.variableNames)
    (hindependent : ∀ part ∈ earlier n, part.Independent hole.content) {m m' k : Machine V} {v : V}
    (hagree : AgreeOff {x} m m') (hrun : S.evalWhere accepts n m = some (v, k))
    (hquiet : ∃ vs l, (earlier n).mapM (S.evalWhere accepts) m = some (vs, l) ∧
      l.trace = m.trace) :
    ∃ k', (S.evalWhere accepts (assignment x hole.content) >>= fun _ =>
        S.evalWhere accepts (hole.fill (Node.var x))) m' = some (v, k') ∧ AgreeOff {x} k k' := by
  induction n using Node.inductionOn generalizing hole m m' k v with
  | step form span marks ih =>
    rw [receiver?, Option.map_eq_some_iff] at h
    obtain ⟨layer, h, rfl⟩ := h
    rcases receiverInForm?_eq_some h with ⟨o, plug, hslot, -, rfl⟩ | ⟨c, pre, hleads⟩
    · exact hslot.simulates span marks hx m m' v k hagree hrun
    · obtain ⟨plug, inner, pre, post, hslot, hc, rfl, hpre, hform, hplug⟩ :=
        hleads.evaluated hn.self
      have hmem : ∀ d ∈ pre ++ c :: post, d ∈ form.children := fun d hd =>
        form.evaluated_subset (hform ▸ hd)
      have hfresh : ∀ d ∈ pre ++ c :: post, x ∉ d.variableNames := by
        intro d hd hxd
        rw [Node.variableNames_mk] at hx
        exact hx (List.mem_append_right _ (List.mem_flatMap.2 ⟨d, hmem d hd, hxd⟩))
      have hearlier : earlier ⟨form, span, marks⟩ = pre ++ earlier c := by
        rw [earlier_mk, if_neg (by simp [hleads.noObject]), hform, before_append hpre hc]
      rw [hearlier, List.forall_mem_append] at hindependent
      rw [hearlier, List.mapM_append] at hquiet
      -- the evaluation of what comes before, of the child, and of the rest
      rw [Semantics.evalWhere_split hform] at hrun
      obtain ⟨⟨vs, l⟩, hvs, hrun⟩ := Option.bind_eq_some_iff.1 hrun
      obtain ⟨⟨u, k₁⟩, hu, hrun⟩ := Option.bind_eq_some_iff.1 hrun
      obtain ⟨_, l₁, hparts, hsilent⟩ := hquiet
      obtain ⟨⟨vs', l'⟩, hvs', hparts⟩ := Option.bind_eq_some_iff.1 hparts
      obtain ⟨rfl, rfl⟩ : vs = vs' ∧ l = l' := by simpa using hvs.symm.trans hvs'
      obtain ⟨⟨ws, l₂⟩, hws, hparts⟩ := Option.bind_eq_some_iff.1 hparts
      obtain rfl : l₂ = l₁ := congrArg Prod.snd (Option.some.inj hparts)
      -- the events only grow, so neither half of the earlier parts adds any
      have hgrows := (footprint_mapM (earlier c)).grows hws
      rw [hsilent] at hgrows
      have hsilent' : l.trace = m.trace :=
        hgrows.eq_of_length_le ((footprint_mapM pre).grows hvs).length_le
      have hbefore : Simulates {x} (pre.mapM (S.evalWhere accepts))
          (pre.mapM (S.evalWhere accepts)) := by
        refine (footprint_mapM pre).frame ?_
        rintro _ ⟨d, hd, hy⟩ rfl
        exact hfresh d (List.mem_append_left _ hd) hy
      obtain ⟨l', hl', hagree'⟩ := hbefore m m' vs l hagree hvs
      obtain ⟨k₁', hk₁', hagree₁⟩ := ih c (hmem c (by simp)) hc (hn.child (hmem c (by simp)))
        (hfresh c (by simp)) hindependent.2 hagree' hu ⟨ws, l₂, hws, hsilent.trans hsilent'.symm⟩
      -- so the object may be assigned before what comes before the child
      obtain ⟨⟨w, j⟩, hw, hfill⟩ := Option.bind_eq_some_iff.1 hk₁'
      obtain ⟨j', hj', hj⟩ := assignment_commute
        (fun d hd => hfresh d (List.mem_append_left _ hd)) hindependent.1 hl'
        (hagree'.trace.trans (hsilent'.trans hagree.trace.symm)) hw
      have hframe : ∀ y ∈ (⟨form, span, marks⟩ : Node).variableNames, y ∉ ({x} : Set String) := by
        rintro y hy rfl
        exact hx hy
      obtain ⟨k', hk', hagree''⟩ :=
        rest_simulates hform span marks hframe vs u k₁ k₁' v k hagree₁ hrun
      refine ⟨k', Option.bind_eq_some_iff.2 ⟨(w, j'), hj', ?_⟩, hagree''⟩
      change S.evalWhere accepts ⟨plug (inner.fill (Node.var x)), span, marks.outdated⟩ j' = _
      rw [Semantics.evalWhere_split (hplug _).1, hslot.rest_eq (hplug _).2]
      exact Option.bind_eq_some_iff.2 ⟨(vs, j), hj,
        Option.bind_eq_some_iff.2 ⟨(u, k₁'), hfill, hk'⟩⟩

/-- The parts of a statement that are evaluated before the object that is hoisted. -/
def earlierInStatement (n : Node) : List Node :=
  match n.form with
  | .expression value | .ret (some value) => earlier value
  | _ => []

/-- What a statement returns depends on the value of its expression only. -/
theorem StatementSlot.exec_eq (S : Semantics V) {form : Form Node} {c : Node}
    {plug : Node → Form Node} (h : StatementSlot form c plug) (span : Option Span) (marks : Marks) :
    ∃ result : V → Option V,
      S.exec ⟨form, span, marks⟩ = (S.eval c >>= fun v => pure (result v)) ∧
      ∀ y, S.exec ⟨plug y, span, marks.outdated⟩ = (S.eval y >>= fun v => pure (result v)) := by
  cases h with
  | expression => exact ⟨fun _ => none, rfl, fun _ => rfl⟩
  | ret => exact ⟨some, rfl, fun _ => rfl⟩

theorem StatementSlot.earlierInStatement_eq {form : Form Node} {c : Node}
    {plug : Node → Form Node} (h : StatementSlot form c plug) (span : Option Span) (marks : Marks) :
    earlierInStatement ⟨form, span, marks⟩ = earlier c := by
  cases h <;> rfl

end Hoist

/-- Hoisting an object preserves what a statement does, if nothing that is evaluated before the
object makes an event happen or has to do with the object's variables. Then the assignment and the
statement after it make the same events happen in the same order, return the same value and leave
the same variables as the statement did, but for the new one. -/
theorem hoisting_preserves_order (S : Semantics V) (stem : String) (ctx : Context) (file : FileId)
    (hfile : ctx.file = some file) (n : Node) (hn : ∀ c ∈ n.form.children, c.IsExpression)
    (names : NameSupply) (replacement : Node)
    (hcall : ((Hoist.rule stem).call ctx n names).verdict = .replaced replacement) (m : Machine V)
    (hquiet : ∃ vs l, (Hoist.earlierInStatement n).mapM S.eval m = some (vs, l) ∧
      l.trace = m.trace)
    (hindependent : ∀ hole ∈ Hoist.receiverInStatement? n, ∀ part ∈ Hoist.earlierInStatement n,
      part.Independent hole.content)
    (hfresh : (names.allocate file stem ctx.reserved).1 ∉ n.variableNames) :
    ∃ first second, replacement = Node.synthesized (.group [first, second]) ∧
      ∃ r k k', S.exec n m = some (r, k) ∧ S.execAll [first, second] m = some (r, k') ∧
        k'.trace = k.trace ∧
        ∀ x ≠ (names.allocate file stem ctx.reserved).1, k'.store x = k.store x := by
  obtain ⟨form, span, marks⟩ := n
  generalize hx : (names.allocate file stem ctx.reserved).1 = x at *
  rw [Hoist.call_eq hfile, hx] at hcall
  cases hreceiver : Hoist.receiverInStatement? ⟨form, span, marks⟩ with
  | none =>
    rw [hreceiver] at hcall
    cases hcall
  | some hole =>
    rw [hreceiver] at hcall
    obtain rfl : Hoist.hoisted (Node.var x) hole = replacement := Verdict.replaced.inj hcall
    obtain ⟨value, plug, inner, hslot, hvalue, rfl⟩ := Hoist.receiverInStatement?_eq_some hreceiver
    obtain ⟨result, hexec, hplug⟩ := hslot.exec_eq S span marks
    have hmem : value ∈ form.children := (hslot.refilled Node.null).mem_children
    have hexpr : value.IsExpression := hn value hmem
    have hxvalue : x ∉ value.variableNames := by
      rw [Node.variableNames_mk] at hfresh
      exact fun hmem' => hfresh (List.mem_append_right _ (List.mem_flatMap.2 ⟨value, hmem, hmem'⟩))
    rw [hslot.earlierInStatement_eq] at hquiet hindependent
    obtain ⟨v, k, hrun⟩ := S.eval_total hexpr m
    have hagree : AgreeOff {x} m m := ⟨rfl, fun _ _ => rfl⟩
    have hobject : ∀ part ∈ Hoist.earlier value, part.Independent inner.content :=
      hindependent (Hoist.Hole.under span marks (inner.map plug)) hreceiver
    obtain ⟨k', hrun', hagree'⟩ :=
      Hoist.eval_hoisted hvalue hexpr hxvalue hobject hagree hrun hquiet
    refine ⟨_, _, rfl, result v, k, k', ?_, ?_, hagree'.trace, hagree'.store⟩
    · rw [hexec]
      exact Option.bind_eq_some_iff.2 ⟨(v, k), hrun, rfl⟩
    · rw [Semantics.execAll_expression]
      simp only [Hoist.Hole.under, Hoist.Hole.map, hplug]
      rw [← bind_assoc]
      exact Option.bind_eq_some_iff.2 ⟨(v, k'), hrun', rfl⟩

/-- In `return f($a?->g(), $b = 1, (new A($c))->x);` the call before the object is left out where
`$a` is null, and the assignment is of another variable. -/
theorem hoisting_preserves_order_of_null_argument :
    let S := Semantics.ofNat fun trace _ => some (trace.length + 7)
    let g := Node.synthesized (.nullsafeMethodCall (Node.var "a") "g" [])
    let b := Node.synthesized (.assign (Node.var "b") (Node.synthesized (.int 1)))
    let object := Node.synthesized
      (.new (Node.synthesized (.name "A")) [{ value := Node.var "c" }])
    let n := Node.synthesized (.ret (some (Node.synthesized
      (.functionCall (Node.synthesized (.name "f")) [{ value := g }, { value := b },
        { value := Node.synthesized (.propertyFetch object "x") }]))))
    let ctx : Context := ⟨some "a.php", none, n.variableNames⟩
    let m : Machine (Option Nat) := ⟨fun x => if x = "a" then none else some 5, []⟩
    (∀ c ∈ n.form.children, c.IsExpression) ∧
      (Hoist.earlierInStatement n).length = 3 ∧
      (∀ hole ∈ Hoist.receiverInStatement? n, ∀ part ∈ Hoist.earlierInStatement n,
        part.Independent hole.content) ∧
      ∃ first second, ((Hoist.rule "object").call ctx n {}).verdict =
          .replaced (Node.synthesized (.group [first, second])) ∧
        ∃ k k', S.exec n m = some (some (some 9), k) ∧
          S.execAll [first, second] m = some (some (some 9), k') ∧ k'.trace = k.trace ∧
          k.trace.length = 3 ∧ ∀ x ≠ "object1", k'.store x = k.store x := by
  intro S g b object n ctx m
  have hn : ∀ c ∈ n.form.children, c.IsExpression := by decide
  have hquiet : ∃ vs l, (Hoist.earlierInStatement n).mapM S.eval m = some (vs, l) ∧
      l.trace = m.trace := ⟨[some 1, none, some 1], _, rfl, rfl⟩
  have hindependent : ∀ hole ∈ Hoist.receiverInStatement? n, ∀ part ∈ Hoist.earlierInStatement n,
      part.Independent hole.content := by
    rintro hole ⟨⟩
    decide +kernel
  have hfresh : (NameSupply.allocate {} "a.php" "object" ctx.reserved).1 ∉ n.variableNames := by
    decide +kernel
  obtain ⟨first, second, hreplacement, r, k, k', hrun, hrun', htrace, hstore⟩ :=
    hoisting_preserves_order S "object" ctx "a.php" rfl n hn {} _ rfl m hquiet hindependent hfresh
  have hvalue : (S.exec n m).map (fun r => (r.1, r.2.trace.length)) = some (some (some 9), 3) := by
    decide +kernel
  rw [hrun] at hvalue
  obtain ⟨rfl, hlength⟩ := Prod.mk.inj (Option.some.inj hvalue)
  have hname : (NameSupply.allocate {} "a.php" "object" ctx.reserved).1 = "object1" := by
    decide +kernel
  rw [hname] at hstore
  exact ⟨hn, by decide +kernel, hindependent, first, second, congrArg _ hreplacement, k, k', hrun,
    hrun', htrace, hlength, hstore⟩

/-- In `f(g(), (new A)->x);` the object overtakes the call of `g`. -/
theorem hoisting_overtakes_call :
    let S := Semantics.ofNat fun trace _ => some trace.length
    let call (f : String) (args : List (Arg Node)) :=
      Node.synthesized (.functionCall (Node.synthesized (.name f)) args)
    let object := Node.synthesized (.new (Node.synthesized (.name "A")) [])
    let n := Node.synthesized (.expression (call "f" [{ value := call "g" [] },
      { value := Node.synthesized (.propertyFetch object "x") }]))
    let ctx : Context := ⟨some "a.php", none, n.variableNames⟩
    let m : Machine (Option Nat) := ⟨fun _ => none, []⟩
    ∃ first second, ((Hoist.rule "object").call ctx n {}).verdict =
        .replaced (Node.synthesized (.group [first, second])) ∧
      (S.exec n m).map (·.2.trace.getLast?) = some (some (.callFunction (some 1) [])) ∧
      (S.execAll [first, second] m).map (·.2.trace.getLast?) =
        some (some (.instantiate (some 1) [])) := by
  intro S call object n ctx m
  exact ⟨_, _, rfl, by decide +kernel, by decide +kernel⟩

end SyntaxLowering
