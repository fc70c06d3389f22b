import Mathlib.Order.BooleanAlgebra.Set
import SyntaxLowering.Proofs.Hygiene
import SyntaxLowering.Proofs.Simulation

/-!
# Lowering nullsafe accesses preserves meaning

The ternary that stands for a nullsafe access evaluates the object once, into a variable that
nothing else mentions, and makes the access under the same condition. `Nullsafe.lowered_simulates`
is this fact about one access; a run composes it with the steps that leave nodes alone
(`Refines`), the sets of ignored variables growing with the names drawn.
-/

namespace SyntaxLowering

variable {V : Type}

/-! ### One access -/

section Access

open Evaluation

variable {S : Semantics V} {accepts : V → Bool}

/-- A nullsafe access is simulated by a test of its object, kept in a variable that the rest of the
access does not read. -/
theorem Semantics.unlessNull_simulated {x : String} {object : Evaluation V V}
    {rest : V → Evaluation V V} {test : V → Bool} (hobject : Simulates {x} object object)
    (hrest : ∀ v, Simulates {x} (rest v) (rest v))
    (htest : ∀ v, accepts v = true → (test v = true ↔ v ≠ S.null)) :
    Simulates {x} (object >>= fun v => S.unlessNull accepts v (rest v))
      (object >>= fun v => assign x v >>= fun _ =>
        if test v then lookup x >>= rest else pure S.null) := by
  refine hobject.bind fun v => ?_
  unfold Semantics.unlessNull
  by_cases haccepts : accepts v = true
  · rw [if_pos haccepts]
    by_cases hnull : v = S.null
    · have hidentical := (S.identical_null v).2 hnull
      have : test v = false := by
        rw [Bool.eq_false_iff]
        exact fun htrue => (htest v haccepts).1 htrue hnull
      simp only [hidentical, this, if_true, Bool.false_eq_true, if_false]
      exact (Simulates.pure S.null).assign_then
    · have hidentical : S.identical v S.null = false := by
        rw [Bool.eq_false_iff]
        exact fun htrue => hnull ((S.identical_null v).1 htrue)
      simp only [hidentical, (htest v haccepts).2 hnull, if_true, Bool.false_eq_true, if_false]
      rw [assign_lookup]
      exact (hrest v).assign_then
  · rw [if_neg haccepts]
    exact .failure

/-- The test that a lowered access makes of its object. -/
def Semantics.guardTest (S : Semantics V) (strict : Bool) (v : V) : Bool :=
  S.truthy (if strict then S.bool (!S.identical v S.null) else v)

theorem Semantics.evalWhere_guard (strict : Bool) (x : String) (object : Node) :
    S.evalWhere accepts (Nullsafe.guard strict (Node.var x) object) = (do
      let v ← S.evalWhere accepts object
      assign x v
      return if strict then S.bool (!S.identical v S.null) else v) := by
  cases strict with
  | false => exact evalWhere_assign_var x object
  | true =>
    rw [Nullsafe.guard, if_pos rfl, Node.synthesized, evalWhere_mk]
    simp only [Form.map, layer, denote_eq, evalWhere_assign_var, evalWhere_null, bind_assoc,
      pure_bind, if_true]

theorem Semantics.evalWhere_lowered (strict : Bool) (x : String) (object : Node)
    (plain : Node → Form Node) :
    S.evalWhere accepts (Nullsafe.lowered strict (Node.var x) object plain) = (do
      let v ← S.evalWhere accepts object
      assign x v
      if S.guardTest strict v then S.evalWhere accepts (Node.synthesized (plain (Node.var x)))
      else pure S.null) := by
  rw [Nullsafe.lowered, Node.synthesized, evalWhere_mk]
  simp only [Form.map, layer, denote_eq, evalWhere_guard, evalWhere_null, bind_assoc, pure_bind]
  rfl

variable (S accepts) in
/-- The two accesses are the same computation on the object's value. -/
theorem Nullsafe.evalWhere_access {n object : Node} {plain : Node → Form Node}
    (h : access? n.form = some (object, plain)) {G : Set String}
    (hn : ∀ x ∈ n.variableNames, x ∉ G) :
    ∃ rest : V → Evaluation V V,
      S.evalWhere accepts n =
        (S.evalWhere accepts object >>= fun v => S.unlessNull accepts v (rest v)) ∧
      (∀ x, S.evalWhere accepts (Node.synthesized (plain (Node.var x))) = (lookup x >>= rest)) ∧
      Simulates G (S.evalWhere accepts object) (S.evalWhere accepts object) ∧
      ∀ v, Simulates G (rest v) (rest v) := by
  obtain ⟨form, span, marks⟩ := n
  have hchild : ∀ c ∈ form.children,
      Simulates G (S.evalWhere accepts c) (S.evalWhere accepts c) := by
    intro c hc
    refine Semantics.evalWhere_frame (fun _ hv => hv) fun x hx => hn x ?_
    rw [Node.variableNames_mk]
    exact List.mem_append_right _ (List.mem_flatMap.2 ⟨c, hc, hx⟩)
  cases form with
  | nullsafeMethodCall object' method args =>
    obtain ⟨rfl, rfl⟩ : _ ∧ _ := by simpa [access?] using h
    refine ⟨fun v => do
      S.perform (.callMethod v method (← operands (args.map (·.map (S.denote accepts))))),
      ?_, fun x => ?_, hchild object' (by simp [Form.children]), fun v => ?_⟩
    · rw [Semantics.evalWhere_mk]
      rfl
    · rw [Node.synthesized, Semantics.evalWhere_mk]
      simp only [Form.map, Semantics.layer, Semantics.denote_eq, Semantics.evalWhere_var]
    · have hargs : ∀ a ∈ args.map (·.map (S.denote accepts)),
          Arg.Rel (Meaning.Rel (Simulates G)) a a := by
        intro b hb
        obtain ⟨a, ha, rfl⟩ := List.mem_map.1 hb
        exact ⟨rfl, rfl, hchild a.value (List.mem_cons_of_mem _ (List.mem_map_of_mem ha))⟩
      exact ((Simulates.parametric S G).operands (List.forall₂_same.2 hargs)).bind
        fun vs => .perform S _
  | nullsafePropertyFetch object' property =>
    obtain ⟨rfl, rfl⟩ : _ ∧ _ := by simpa [access?] using h
    refine ⟨fun v => S.perform (.read v property), ?_, fun x => ?_,
      hchild object' (by simp [Form.children]), fun v => .perform S _⟩
    · rw [Semantics.evalWhere_mk]
      rfl
    · rw [Node.synthesized, Semantics.evalWhere_mk]
      simp only [Form.map, Semantics.layer, Semantics.denote_eq, Semantics.evalWhere_var]
  | _ => simp [access?] at h

/-- A test that recognizes null among the values it is made of. -/
def Semantics.TestsNull (S : Semantics V) (strict : Bool) (v : V) : Prop :=
  strict = true ∨ (S.truthy v = true ↔ v ≠ S.null)

theorem Semantics.TestsNull.guardTest_iff {strict : Bool} {v : V} (h : S.TestsNull strict v) :
    S.guardTest strict v = true ↔ v ≠ S.null := by
  cases strict with
  | false => exact h.resolve_left (by decide)
  | true =>
    rw [guardTest, if_pos rfl, ← not_iff_not, not_not, ← S.identical_null v]
    cases S.identical v S.null with
    | false => simp [S.truthy_true]
    | true => simp [S.truthy_false]

/-- The lowered access simulates the nullsafe one. -/
theorem Nullsafe.lowered_simulates {n object : Node} {plain : Node → Form Node}
    (h : access? n.form = some (object, plain)) {strict : Bool} {x : String}
    (hx : x ∉ n.variableNames) (htest : ∀ v, accepts v = true → S.TestsNull strict v) :
    Simulates {x} (S.evalWhere accepts n)
      (S.evalWhere accepts (lowered strict (Node.var x) object plain)) := by
  have hn : ∀ y ∈ n.variableNames, y ∉ ({x} : Set String) := by
    rintro y hy rfl
    exact hx hy
  obtain ⟨rest, haccess, hplain, hobject, hrest⟩ := evalWhere_access S accepts h hn
  rw [haccess, Semantics.evalWhere_lowered]
  simp only [hplain]
  exact Semantics.unlessNull_simulated hobject hrest fun v hv => (htest v hv).guardTest_iff

/-- The lowered access is an expression again. -/
theorem Nullsafe.lowered_isExpression {n object : Node} {plain : Node → Form Node}
    (h : access? n.form = some (object, plain)) (hn : n.IsExpression) (strict : Bool) (x : String) :
    (lowered strict (Node.var x) object plain).IsExpression := by
  obtain ⟨form, span, marks⟩ := n
  refine all_lowered (Node.layered_all _) h (fun c hc => hn.child hc) ?_ rfl rfl ?_ ?_ rfl
  · exact Node.all_iff.2 ⟨rfl, fun _ hc => absurd hc List.not_mem_nil⟩
  · cases strict <;> rfl
  · cases Access.of_access? h <;> rfl

end Access

/-! ### A whole run -/

/-- The names that an allocation in a file avoids. -/
def avoided (file : FileId) (reserved : List String) (names : NameSupply) : Set String :=
  {x | x ∈ reserved ∨ x ∈ (names.enter file).issued}

/-- A step that introduces temporaries and preserves the meaning of an expression whose variables
are all avoided: the rewritten expression simulates it outside the names drawn. -/
structure Refines (S : Semantics V) (accepts : V → Bool) (cfg : Settings) (file : FileId)
    (reserved : List String) (n : Node) (names : NameSupply) (p : Progress Node) : Prop where
  hygienic : Hygienic cfg file reserved n names p
  meaning : n.IsExpression → (∀ x ∈ n.variableNames, x ∈ avoided file reserved names) →
    p.value.IsExpression ∧
      Simulates (avoided file reserved p.names \ avoided file reserved names)
        (S.evalWhere accepts n) (S.evalWhere accepts p.value)

namespace Hygienic

variable {cfg : Settings} {file : FileId} {reserved : List String} {n : Node} {names : NameSupply}
  {p : Progress Node}

theorem avoided_subset (h : Hygienic cfg file reserved n names p) :
    avoided file reserved names ⊆ avoided file reserved p.names := by
  obtain ⟨-, drawn, hdrawn⟩ := h
  exact fun x hx => hx.imp_right fun hx => hdrawn.draws.mem_issued.2 (.inr hx)

theorem variableNames_avoided (h : Hygienic cfg file reserved n names p)
    (hn : ∀ x ∈ n.variableNames, x ∈ avoided file reserved names) :
    ∀ x ∈ p.value.variableNames, x ∈ avoided file reserved p.names := by
  intro x hx
  obtain ⟨-, drawn, hdrawn⟩ := id h
  rcases hdrawn.mem_variableNames.1 hx with hx | hx
  · exact h.avoided_subset (hn x hx)
  · exact .inr (hdrawn.draws.mem_issued.2 (.inl hx))

end Hygienic

namespace Refines

variable {S : Semantics V} {accepts : V → Bool} {cfg : Settings} {file : FileId}
  {reserved : List String}

theorem compositional : Pass.Compositional (Refines S accepts cfg file reserved) where
  refl n names := by
    refine ⟨Hygienic.compositional.refl n names, fun hn _ => ⟨hn, ?_⟩⟩
    exact Semantics.evalWhere_frame (fun _ hv => hv) fun x _ hx => hx.2 hx.1
  trans := by
    intro n names p q hp hq
    refine ⟨Hygienic.compositional.trans hp.hygienic hq.hygienic, fun hn hnames => ?_⟩
    obtain ⟨hexpr, hsim⟩ := hp.meaning hn hnames
    obtain ⟨hexpr', hsim'⟩ := hq.meaning hexpr (hp.hygienic.variableNames_avoided hnames)
    refine ⟨hexpr', ?_⟩
    -- what the two steps draw is what is drawn in all
    have hunion := hsim.trans hsim'
    have hsub := hp.hygienic.avoided_subset
    have hsub' := hq.hygienic.avoided_subset
    rw [Set.union_comm, Set.sdiff_union_sdiff_cancel hsub' hsub] at hunion
    exact hunion

/-- The children of a layer are visited one after another, but each is simulated outside all names
drawn for the layer. -/
theorem sweep {cs : List Node} {names first last : NameSupply} {p : Progress (List Node)}
    (h : Sweep (Refines S accepts cfg file reserved) cs names p)
    (hfirst : avoided file reserved first ⊆ avoided file reserved names)
    (hcs : ∀ c ∈ cs, c.IsExpression ∧ ∀ x ∈ c.variableNames, x ∈ avoided file reserved first) :
    avoided file reserved names ⊆ avoided file reserved p.names ∧
      (avoided file reserved p.names ⊆ avoided file reserved last →
        List.Forall₂ (fun c d => (c.varName? = d.varName? ∧
          Simulates (avoided file reserved last \ avoided file reserved first)
            (S.evalWhere accepts c) (S.evalWhere accepts d)) ∧ d.IsExpression) cs p.value) := by
  induction h with
  | nil names => exact ⟨subset_rfl, fun _ => .nil⟩
  | @cons c cs names p q head _ ih =>
    rw [List.forall_mem_cons] at hcs
    obtain ⟨⟨hexpr, hnames⟩, hcs⟩ := hcs
    have hstep := head.hygienic.avoided_subset
    obtain ⟨hrest, hforall⟩ := ih (hfirst.trans hstep) hcs
    refine ⟨hstep.trans hrest, fun hlast => .cons ⟨⟨head.hygienic.1.symm, ?_⟩, ?_⟩ (hforall hlast)⟩
    · refine Semantics.simulates_mono ?_ (fun x hx hmem => hmem.2 (hnames x hx))
        (head.meaning hexpr fun x hx => hfirst (hnames x hx)).2
      exact Set.sdiff_subset_sdiff (hrest.trans hlast) hfirst
    · exact (head.meaning hexpr fun x hx => hfirst (hnames x hx)).1

theorem settle {n : Node} {names names' : NameSupply} {g : Form Node} {calls : List Call}
    (hshape : n.form.shape = g.shape)
    (h : Sweep (Refines S accepts cfg file reserved) n.form.children names
      ⟨g.children, names', calls⟩) :
    Refines S accepts cfg file reserved n names
      ⟨Node.settle g n.span n.marks, names', calls⟩ := by
  refine ⟨.settle hshape (h.mono fun _ _ _ hstep => hstep.hygienic), fun hn hnames => ?_⟩
  obtain ⟨form, span, marks⟩ := n
  rw [Node.variableNames_mk, List.forall_mem_append] at hnames
  obtain ⟨hown, hnames⟩ := hnames
  have hchild : ∀ c ∈ form.children, c.IsExpression ∧
      ∀ x ∈ c.variableNames, x ∈ avoided file reserved names :=
    fun c hc => ⟨hn.child hc, fun x hx => hnames x (List.mem_flatMap.2 ⟨c, hc, hx⟩)⟩
  obtain ⟨-, hforall⟩ := sweep h subset_rfl hchild
  have hforall := hforall subset_rfl
  have hrel : Form.Rel (fun c d => c.varName? = d.varName?) form g :=
    ⟨hshape, hforall.imp fun _ _ hcd => hcd.1.1⟩
  constructor
  · refine Node.all_settle (fun d hd => ?_) ?_
    · obtain ⟨c, -, hcd⟩ := exists_left_of_forall₂ hforall hd
      exact hcd.2
    · change g.settled.isExpression = true
      rw [Form.isExpression_settled, ← hrel.isExpression_eq]
      exact hn.self
  · -- the layer's own variables were avoided from the start, so none of them was drawn
    rw [Semantics.evalWhere_settle]
    exact Semantics.evalWhere_simulates (fun _ hv => hv)
      ⟨hshape, hforall.imp fun _ _ hcd => hcd.1⟩ fun x hx hmem => hmem.2 (hown x hx)

theorem called {ctx : Context} (hfile : ctx.file = some file)
    (htest : ∀ v, accepts v = true → S.TestsNull cfg.strictNullCheck v) (kind : Kind) (n : Node)
    (names : NameSupply) :
    let rule := Nullsafe.rule cfg.nullsafeStem cfg.strictNullCheck
    Refines S accepts cfg file ctx.reserved n names
      (Pass.called rule kind (rule.call ctx n names)) := by
  intro rule
  refine ⟨.called hfile (by simp [Settings.catalog, rule]) kind n names, fun hn hnames => ?_⟩
  rw [Nullsafe.call_eq hfile]
  cases haccess : Nullsafe.access? n.form with
  | none =>
    refine ⟨hn, Semantics.evalWhere_frame (fun _ hv => hv) fun x _ hx => ?_⟩
    exact hx.2 hx.1
  | some access =>
    obtain ⟨object, plain⟩ := access
    let x := (names.allocate file cfg.nullsafeStem ctx.reserved).1
    -- an allocated name is not avoided, so the access does not mention it
    have hx : x ∉ avoided file ctx.reserved names := by
      rintro (hx | hx)
      · exact NameSupply.allocate_not_mem_reserved _ _ _ _ hx
      · exact NameSupply.allocate_not_mem_issued _ _ _ _ hx
    refine ⟨Nullsafe.lowered_isExpression haccess hn _ x, ?_⟩
    refine Semantics.simulates_mono ?_ (fun y hy hmem => hmem.2 (hnames y hy))
      (Nullsafe.lowered_simulates haccess (fun hmem => hx (hnames x hmem)) htest)
    rintro y rfl
    refine ⟨.inr ?_, hx⟩
    change x ∈ ((names.allocate file cfg.nullsafeStem ctx.reserved).2.enter file).issued
    rw [NameSupply.enter_allocate]
    exact List.mem_cons_self

theorem visit {ctx : Context} (hfile : ctx.file = some file)
    (htest : ∀ v, accepts v = true → S.TestsNull cfg.strictNullCheck v) (revisits : Nat) (n : Node)
    (names : NameSupply) :
    Refines S accepts cfg file ctx.reserved n names
      (Pass.visit [Nullsafe.rule cfg.nullsafeStem cfg.strictNullCheck] ctx revisits n names) :=
  Pass.visit_of_steps compositional (fun _ _ _ _ _ hshape h => settle hshape h)
    (fun _ hrule kind n names => List.mem_singleton.1 hrule ▸ called hfile htest kind n names)
    revisits n names

end Refines

/-- A value that a truth test tells from null is truthy exactly if it is not null. If every value
but null is truthy, that is every value: then `false` can only be null itself. -/
theorem Semantics.testsNull_of_truthy {S : Semantics V}
    (h : ∀ v, v ≠ S.null → S.truthy v = true) (strict : Bool) (v : V) : S.TestsNull strict v := by
  refine .inr ⟨fun htruthy hnull => ?_, h v⟩
  by_cases hfalse : S.bool false = S.null
  · rw [hnull, ← hfalse, S.truthy_false] at htruthy
    exact absurd htruthy (by decide)
  · exact absurd (h _ hfalse) (by rw [S.truthy_false]; decide)

/-- Lowering the nullsafe accesses of an expression preserves its meaning. From every machine, the
expression and the result of the run end with the same value, the same events, and the same
variables but for those that the run introduced. Either the test is strict, or every value but null
is truthy, or at least those values that nullsafe accesses meet are truthy exactly if they are not
null. -/
theorem run_preserves_meaning (S : Semantics V) (stem : String) (strict : Bool) (s : Session)
    (hrules : s.rules = [Nullsafe.rule stem strict]) (file : FileId) (tokens : List Token)
    (e : Node) (he : e.IsExpression) (m : Machine V)
    (htest : strict = true ∨ (∀ v, v ≠ S.null → S.truthy v = true) ∨
      (S.evalWhere (fun v => S.truthy v == !S.identical v S.null) e m).isSome = true) :
    let lowered := (s.run file e tokens).tree
    ∃ v k k', S.eval e m = some (v, k) ∧ S.eval lowered m = some (v, k') ∧ k'.trace = k.trace ∧
      ∀ x, (x ∈ lowered.variableNames → x ∈ e.variableNames) → k'.store x = k.store x := by
  intro lowered
  -- the objects to accept are those whose test is right
  obtain ⟨accepts, haccepts, v, k, hrun⟩ : ∃ accepts : V → Bool,
      (∀ v, accepts v = true → S.TestsNull strict v) ∧
        ∃ v k, S.evalWhere accepts e m = some (v, k) := by
    rcases htest with hstrict | htruthy | hsome
    · exact ⟨fun _ => true, fun _ _ => .inl hstrict, S.eval_total he m⟩
    · exact ⟨fun _ => true, fun v _ => S.testsNull_of_truthy htruthy strict v, S.eval_total he m⟩
    · obtain ⟨⟨v, k⟩, hrun⟩ := Option.isSome_iff_exists.1 hsome
      refine ⟨_, fun v hv => .inr ?_, v, k, hrun⟩
      rw [beq_iff_eq.1 hv, Bool.not_eq_true', Bool.eq_false_iff, Ne, S.identical_null]
  let cfg : Settings := { nullsafeStem := stem, strictNullCheck := strict }
  let ctx : Context := ⟨some file, some tokens, e.variableNames⟩
  have hrefines : Refines S accepts cfg file e.variableNames e s.names
      (Pass.visit s.rules ctx s.maxRevisits e s.names) := by
    rw [hrules]
    change Refines S accepts cfg file ctx.reserved e s.names (Pass.visit
      [Nullsafe.rule cfg.nullsafeStem cfg.strictNullCheck] ctx s.maxRevisits e s.names)
    exact .visit rfl haccepts _ _ _
  obtain ⟨-, hsim⟩ := hrefines.meaning he fun x hx => .inl hx
  obtain ⟨-, drawn, hdrawn⟩ := hrefines.hygienic
  obtain ⟨k', hrun', htrace, hstore⟩ := hsim m m v k ⟨rfl, fun _ _ => rfl⟩ hrun
  refine ⟨v, k, k', S.eval_of_evalWhere hrun, S.eval_of_evalWhere hrun', htrace, fun x hx => ?_⟩
  refine hstore x fun hmem => hmem.2 (.inl (hx ?_))
  rcases hmem.1 with hold | hissued
  · exact absurd (.inl hold) hmem.2
  · refine hdrawn.mem_variableNames.2 (.inr ?_)
    exact (hdrawn.draws.mem_issued.1 hissued).resolve_right fun hold => hmem.2 (.inr hold)

/-- Where `g` answers with null, `$a?->f()?->g($b)?->h` makes two calls and reads nothing, before
lowering and after it. -/
theorem run_preserves_meaning_of_chain :
    let S : Semantics (Option Nat) := {
      null := none
      bool b := some b.toNat
      int _ := some 2
      str _ := some 3
      name _ := some 4
      identical v w := v == w
      identical_null _ := beq_iff_eq
      truthy v := v != none && v != some 0
      truthy_true := rfl
      truthy_false := rfl
      answer trace _ := if trace.length = 1 then none else some (trace.length + 1) }
    let f := Node.synthesized (.nullsafeMethodCall (Node.var "a") "f" [])
    let g := Node.synthesized (.nullsafeMethodCall f "g" [{ value := Node.var "b" }])
    let e := Node.synthesized (.nullsafePropertyFetch g "h")
    let m : Machine (Option Nat) := ⟨fun _ => some 1, []⟩
    let s : Session := { rules := [Nullsafe.rule "a" false], maxRevisits := 0 }
    let lowered := (s.run "a.php" e []).tree
    (S.evalWhere (fun v => S.truthy v == !S.identical v S.null) e m).isSome = true ∧
      ∃ k k', S.eval e m = some (none, k) ∧ S.eval lowered m = some (none, k') ∧
        k'.trace = k.trace ∧ k.trace = [.callMethod (some 1) "g" [⟨some 1, none, false, false⟩],
          .callMethod (some 1) "f" []] ∧
        ∀ x, (x ∈ lowered.variableNames → x ∈ e.variableNames) → k'.store x = k.store x := by
  intro S f g e m s lowered
  have he : e.IsExpression := by decide
  have hsome : (S.evalWhere (fun v => S.truthy v == !S.identical v S.null) e m).isSome = true := by
    decide
  obtain ⟨v, k, k', hrun, hrun', htrace, hstore⟩ :=
    run_preserves_meaning S "a" false s rfl "a.php" [] e he m (.inr (.inr hsome))
  have hvalue : (S.eval e m).map (fun r => (r.1, r.2.trace)) = some (none,
      [.callMethod (some 1) "g" [⟨some 1, none, false, false⟩], .callMethod (some 1) "f" []]) := by
    decide
  rw [hrun] at hvalue
  obtain ⟨rfl, hevents⟩ := Prod.mk.inj (Option.some.inj hvalue)
  exact ⟨hsome, k, k', hrun, hrun', htrace, hevents, hstore⟩

end SyntaxLowering
