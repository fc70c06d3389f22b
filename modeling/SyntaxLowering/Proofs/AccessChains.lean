import SyntaxLowering.Proofs.NullsafeMeaning

/-!
# Access chains that are cut short

In a chain of accesses, a nullsafe link to null cuts the whole chain short: the links that follow
are left out, plain ones too. `Semantics.evalChain` evaluates expressions in this way, up to what
becomes of plain links in a chain that was cut short. Lowering treats each link by itself, so the
result follows the rule where no plain link is left out, and where one is, it still makes the access
to null (`Semantics.trace_eq_iff_of_cut`).
-/

namespace SyntaxLowering

variable {V α β : Type}

/-! ### Links -/

/-- The object of a link of an access chain, and whether the link is nullsafe. -/
def Form.link? : Form α → Option (α × Bool)
  | propertyFetch object _ | methodCall object _ _ => some (object, false)
  | nullsafePropertyFetch object _ | nullsafeMethodCall object _ _ => some (object, true)
  | _ => none

theorem Form.link?_map (f : α → β) (form : Form α) :
    (form.map f).link? = form.link?.map fun l => (f l.1, l.2) := by
  cases form <;> rfl

theorem Form.mem_children_of_link? {form : Form α} {object : α} {nullsafe : Bool}
    (h : form.link? = some (object, nullsafe)) : object ∈ form.children := by
  revert h
  cases form <;> simp +contextual [Form.link?, Form.children]

/-- What a child means as the object of a link: `none` if its chain was cut short. -/
structure ChainMeaning (V : Type) where
  varName? : Option String
  link : Evaluation V (Option V)

namespace Semantics

open Evaluation

variable (S : Semantics V)

/-- The access that a link makes to an object. -/
def access : Form (Meaning V) → V → Evaluation V V
  | .propertyFetch _ property, v | .nullsafePropertyFetch _ property, v =>
    S.perform (.read v property)
  | .methodCall _ method args, v | .nullsafeMethodCall _ method args, v => do
    S.perform (.callMethod v method (← operands args))
  | _, _ => failure

/-- The value of a chain that was not cut short. -/
def uncut (p : Evaluation V V) : Evaluation V (Option V) :=
  p >>= fun v => pure (some v)

/-- A chain that was cut short has the value null. -/
def chained (p : Evaluation V (Option V)) : Evaluation V V :=
  p >>= fun r => pure (r.getD S.null)

def asMeaning (d : ChainMeaning V) : Meaning V :=
  ⟨d.varName?, S.chained d.link⟩

/-- The evaluation of a layer as part of a chain. A nullsafe link to null cuts the chain short, and
nullsafe links to a chain that was cut short are left out; `onCut` says what becomes of the access
that a plain link would make. -/
def chainLayer (onCut : Evaluation V V → Evaluation V (Option V)) (form : Form (ChainMeaning V)) :
    Evaluation V (Option V) :=
  let meanings := form.map S.asMeaning
  match form.link? with
  | none => uncut (S.layer (fun _ => true) meanings)
  | some (object, nullsafe) => object.link >>= fun
    | none => if nullsafe then pure none else onCut (S.access meanings S.null)
    | some v =>
      if nullsafe && S.identical v S.null then pure none
      else uncut (S.access meanings v)

def denoteChain (onCut : Evaluation V V → Evaluation V (Option V)) (n : Node) : ChainMeaning V :=
  n.fold fun form _ _ => ⟨form.varName?, S.chainLayer onCut form⟩

def evalChain (onCut : Evaluation V V → Evaluation V (Option V)) (n : Node) :
    Evaluation V (Option V) :=
  (S.denoteChain onCut n).link

/-- The evaluation in which a chain that was cut short yields null, whatever links follow. -/
def evalShort (n : Node) : Evaluation V (Option V) :=
  S.evalChain (fun _ => pure none) n

/-- The same, failing if a plain link follows in a chain that was cut short. -/
def evalUnskipped (n : Node) : Evaluation V (Option V) :=
  S.evalChain (fun _ => failure) n

variable {S} {onCut : Evaluation V V → Evaluation V (Option V)}

theorem denoteChain_eq (n : Node) :
    S.denoteChain onCut n = ⟨n.varName?, S.evalChain onCut n⟩ := by
  cases n with
  | mk form span marks =>
    rw [evalChain, denoteChain, Node.fold_mk, Form.varName?_map]
    rfl

theorem evalChain_mk (form : Form Node) (span : Option Span) (marks : Marks) :
    S.evalChain onCut ⟨form, span, marks⟩ =
      S.chainLayer onCut (form.map (S.denoteChain onCut)) := by
  rw [evalChain, denoteChain, Node.fold_mk]
  rfl

theorem chained_uncut (p : Evaluation V V) : S.chained (uncut p) = p := by
  simp [chained, uncut]

theorem chained_pure_none : S.chained (pure none) = pure S.null :=
  pure_bind _ _

theorem chained_bind (p : Evaluation V (Option V)) (f : Option V → Evaluation V (Option V)) :
    S.chained (p >>= f) = p >>= fun r => S.chained (f r) :=
  bind_assoc _ _ _

/-- A link evaluates its object, and makes the access unless it is nullsafe and the object null. -/
theorem layer_link {form : Form (Meaning V)} {object : Meaning V} {nullsafe : Bool}
    (h : form.link? = some (object, nullsafe)) :
    S.layer (fun _ => true) form = object.run >>= fun v =>
      if nullsafe && S.identical v S.null then pure S.null else S.access form v := by
  cases form <;> simp only [Form.link?, reduceCtorEq, Option.some.injEq, Prod.mk.injEq] at h
  all_goals
    obtain ⟨rfl, rfl⟩ := h
    rfl

/-- If the access is made to null where a plain link follows, each link is evaluated by itself. -/
theorem eval_eq_chained (n : Node) :
    S.eval n = S.chained (S.evalChain uncut n) := by
  induction n using Node.inductionOn with
  | step form span marks ih =>
    have hmeanings : (form.map (S.denoteChain uncut)).map S.asMeaning =
        form.map (S.denote fun _ => true) := by
      rw [Form.map_map]
      refine Form.map_congr fun c hc => ?_
      rw [denote_eq, denoteChain_eq, asMeaning, ← ih c hc]
      rfl
    have hnull : S.identical S.null S.null = true := (S.identical_null S.null).2 rfl
    rw [eval, evalWhere_mk, evalChain_mk, chainLayer, hmeanings, Form.link?_map]
    cases hlink : form.link? with
    | none => exact (chained_uncut _).symm
    | some link =>
      obtain ⟨object, nullsafe⟩ := link
      have hobject : object ∈ form.children := Form.mem_children_of_link? hlink
      have hform : (form.map (S.denote fun _ => true)).link? =
          some (S.denote (fun _ => true) object, nullsafe) := by
        rw [Form.link?_map, hlink]
        rfl
      rw [layer_link hform, denote_eq]
      change S.eval object >>= _ = _
      rw [ih object hobject]
      simp only [Option.map_some, denoteChain_eq, chained_bind]
      rw [chained, bind_assoc]
      congr 1
      funext r
      cases r with
      | none =>
        cases nullsafe <;> simp [hnull, chained_uncut, chained_pure_none]
      | some v =>
        simp only [pure_bind, Option.getD_some]
        split <;> simp [chained_uncut, chained_pure_none]

theorem Parametric.access {R W : Set String}
    {Q : {α : Type} → Evaluation V α → Evaluation V α → Prop} (hQ : S.Parametric R W Q)
    {form : Form α} {f g : α → Meaning V}
    (h : ∀ c ∈ form.children, Meaning.Rel Q (f c) (g c)) (v : V) :
    Q (S.access (form.map f) v) (S.access (form.map g) v) := by
  cases form with
  | propertyFetch | nullsafePropertyFetch => exact hQ.perform _
  | methodCall object method args | nullsafeMethodCall object method args =>
    refine hQ.bind (hQ.operands ?_) fun vs => hQ.perform _
    rw [List.forall₂_map_left_iff, List.forall₂_map_right_iff]
    exact List.forall₂_same.2 fun a ha =>
      ⟨rfl, h a.value (List.mem_cons_of_mem _ (List.mem_map_of_mem ha))⟩
  | _ => exact hQ.failure _

theorem Extends.uncut {p q : Evaluation V V} (h : Extends p q) :
    Extends (Semantics.uncut p) (Semantics.uncut q) :=
  h.bind fun _ _ _ hr => hr

/-- Where no plain link is skipped, it does not matter what would become of it. -/
theorem evalUnskipped_extends (onCut : Evaluation V V → Evaluation V (Option V)) (n : Node) :
    Extends (S.evalUnskipped n) (S.evalChain onCut n) := by
  induction n using Node.inductionOn with
  | step form span marks ih =>
    have hchild : ∀ c ∈ form.children, Meaning.Rel (V := V) Extends
        (S.asMeaning (S.denoteChain (fun _ => failure) c))
        (S.asMeaning (S.denoteChain onCut c)) := by
      intro c hc
      rw [denoteChain_eq, denoteChain_eq]
      exact ⟨rfl, (ih c hc).bind fun _ _ _ hr => hr⟩
    rw [evalUnskipped, evalChain_mk, evalChain_mk, chainLayer, chainLayer, Form.link?_map,
      Form.link?_map, Form.map_map, Form.map_map]
    cases hlink : form.link? with
    | none =>
      exact Extends.uncut ((Extends.parametric S).layer (fun _ hv => hv) (Form.rel_map hchild)
        (fun _ _ => trivial) fun _ _ => trivial)
    | some link =>
      obtain ⟨object, nullsafe⟩ := link
      have hobject : object ∈ form.children := Form.mem_children_of_link? hlink
      have haccess := (Extends.parametric S).access hchild
      simp only [Option.map_some]
      refine (ih object hobject).bind fun r => ?_
      cases r with
      | none =>
        cases nullsafe with
        | true => exact fun _ _ hr => hr
        | false => exact .failure _
      | some v =>
        dsimp only
        split
        · exact fun _ _ hr => hr
        · exact Extends.uncut (haccess v)

end Semantics

/-! ### Chains -/

/-- A link of an access chain, to a property or, with arguments, to a method. -/
structure Link where
  member : String
  args : Option (List (Arg Node)) := none
  nullsafe : Bool := false
  span : Option Span := none
  marks : Marks := {}

/-- The access that a link makes to an object. -/
def Link.form (l : Link) (object : Node) : Form Node :=
  match l.args, l.nullsafe with
  | none, false => .propertyFetch object l.member
  | none, true => .nullsafePropertyFetch object l.member
  | some args, false => .methodCall object l.member args
  | some args, true => .nullsafeMethodCall object l.member args

/-- The chain of a base and links. -/
def Node.chain (base : Node) (links : List Link) : Node :=
  links.foldl (fun object l => ⟨l.form object, l.span, l.marks⟩) base

theorem Node.chain_cons (base : Node) (l : Link) (links : List Link) :
    base.chain (l :: links) = (base.chain [l]).chain links :=
  rfl

theorem Node.chain_append (base : Node) (before after : List Link) :
    base.chain (before ++ after) = (base.chain before).chain after :=
  List.foldl_append

theorem Link.link?_form (l : Link) (object : Node) :
    (l.form object).link? = some (object, l.nullsafe) := by
  unfold form
  cases l.args <;> cases l.nullsafe <;> rfl

namespace Semantics

open Evaluation

variable {S : Semantics V} {onCut : Evaluation V V → Evaluation V (Option V)}

/-- A chain that was cut short stays so, if its links are nullsafe or plain ones are skipped. -/
theorem evalChain_of_cut {object : Node} {links : List Link} {m k : Machine V}
    (h : S.evalChain onCut object m = some (none, k))
    (hlinks : ∀ l ∈ links, l.nullsafe = true ∨ ∀ p, onCut p = pure none) :
    S.evalChain onCut (object.chain links) m = some (none, k) := by
  induction links generalizing object with
  | nil => exact h
  | cons l links ih =>
    rw [List.forall_mem_cons] at hlinks
    rw [Node.chain_cons]
    refine ih ?_ hlinks.2
    change S.evalChain onCut ⟨l.form object, l.span, l.marks⟩ m = _
    rw [evalChain_mk, chainLayer, Form.link?_map, l.link?_form]
    simp only [Option.map_some, denoteChain_eq]
    refine Option.bind_eq_some_iff.2 ⟨(none, k), h, ?_⟩
    rcases hlinks.1 with hnullsafe | hskip
    · simp [hnullsafe]
      rfl
    · simp [hskip]
      rfl

theorem eval_link (l : Link) (object : Node) :
    S.eval (object.chain [l]) = S.eval object >>= fun v =>
      if l.nullsafe && S.identical v S.null then pure S.null
      else S.access ((l.form object).map (S.denote fun _ => true)) v := by
  have hlink : ((l.form object).map (S.denote fun _ => true)).link? =
      some (S.denote (fun _ => true) object, l.nullsafe) := by
    rw [Form.link?_map, l.link?_form]
    rfl
  change S.evalWhere _ ⟨l.form object, l.span, l.marks⟩ = _
  rw [evalWhere_mk, layer_link hlink, denote_eq]
  rfl

/-- Evaluations only add events. -/
theorem eval_grows (n : Node) : Footprint Set.univ Set.univ (S.eval n) :=
  (Footprint.parametric S _ _).evalWhere_self (fun _ hv => hv) (fun _ _ => trivial)
    fun _ _ => trivial

/-- An access is an event. -/
theorem access_lt {form : Form Node} {v w : V} {m k : Machine V}
    (h : S.access (form.map (S.denote fun _ => true)) v m = some (w, k)) :
    m.trace.length < k.trace.length := by
  cases form with
  | propertyFetch | nullsafePropertyFetch =>
    obtain ⟨⟩ := h
    exact Nat.lt_succ_self _
  | methodCall object method args | nullsafeMethodCall object method args =>
    obtain ⟨⟨vs, l⟩, hvs, h⟩ := Option.bind_eq_some_iff.1 h
    obtain ⟨⟩ := h
    have hoperands : Footprint Set.univ Set.univ
        (operands (args.map (·.map (S.denote fun _ => true)))) := by
      refine (Footprint.parametric S _ _).operands (List.forall₂_same.2 fun b hb => ?_)
      obtain ⟨a, -, rfl⟩ := List.mem_map.1 hb
      exact ⟨rfl, rfl, eval_grows a.value⟩
    exact Nat.lt_succ_of_le (hoperands.grows hvs).length_le
  | _ => cases h

/-- What a chain does begins with what its base does. -/
theorem eval_chain_le {base : Node} {links : List Link} {m k : Machine V} {v : V}
    (h : S.eval (base.chain links) m = some (v, k)) :
    ∃ w l, S.eval base m = some (w, l) ∧ l.trace.length ≤ k.trace.length := by
  induction links generalizing base with
  | nil => exact ⟨v, k, h, Nat.le_refl _⟩
  | cons link links ih =>
    rw [Node.chain_cons] at h
    obtain ⟨w, l, hl, hle⟩ := ih h
    rw [eval_link] at hl
    obtain ⟨⟨u, l'⟩, hu, hl⟩ := Option.bind_eq_some_iff.1 hl
    refine ⟨u, l', hu, Nat.le_trans ?_ hle⟩
    dsimp only at hl
    split at hl
    · obtain ⟨⟩ := hl
      exact Nat.le_refl _
    · exact Nat.le_of_lt (access_lt hl)

theorem eval_of_evalUnskipped {n : Node} {m k : Machine V} {r : Option V}
    (h : S.evalUnskipped n m = some (r, k)) : S.eval n m = some (r.getD S.null, k) := by
  rw [eval_eq_chained]
  exact Option.bind_eq_some_iff.2 ⟨(r, k), evalUnskipped_extends uncut n m _ h, rfl⟩

/-- Evaluated link by link, a chain that was cut short adds no event exactly if only nullsafe links
follow. -/
theorem trace_eq_iff_of_cut {object : Node} {links : List Link} {m k k' : Machine V} {v : V}
    (h : S.evalUnskipped object m = some (none, k))
    (hrun : S.eval (object.chain links) m = some (v, k')) :
    k'.trace = k.trace ↔ ∀ l ∈ links, l.nullsafe = true := by
  induction links generalizing object with
  | nil =>
    have hobject := eval_of_evalUnskipped h
    obtain ⟨-, rfl⟩ : S.null = v ∧ k = k' := by simpa using hobject.symm.trans hrun
    simp
  | cons l links ih =>
    rw [Node.chain_cons] at hrun
    rw [List.forall_mem_cons]
    cases hl : l.nullsafe with
    | true =>
      have hcut : S.evalUnskipped (object.chain [l]) m = some (none, k) :=
        evalChain_of_cut h fun l' hl' => .inl (List.mem_singleton.1 hl' ▸ hl)
      simpa using ih hcut hrun
    | false =>
      -- the plain link makes its access to null, and nothing takes the event back
      obtain ⟨w, k₁, hlink, hle⟩ := eval_chain_le hrun
      rw [eval_link, hl] at hlink
      obtain ⟨⟨u, k₀⟩, hu, hlink⟩ := Option.bind_eq_some_iff.1 hlink
      obtain ⟨rfl, rfl⟩ : S.null = u ∧ k = k₀ := by
        simpa using (eval_of_evalUnskipped h).symm.trans hu
      have hlt := access_lt hlink
      refine ⟨fun htrace => ?_, fun hlinks => absurd hlinks.1 (by simp)⟩
      rw [htrace] at hle
      omega

end Semantics

/-- The result of a run with strict tests makes the events of the expression, evaluated link by
link, and has its value. -/
theorem eval_run_of_strict (S : Semantics V) {stem : String} {s : Session}
    (hrules : s.rules = [Nullsafe.rule stem true]) (file : FileId) (tokens : List Token) {e : Node}
    (he : e.IsExpression) {m k : Machine V} {v : V} (hrun : S.eval e m = some (v, k)) :
    ∃ k', S.eval (s.run file e tokens).tree m = some (v, k') ∧ k'.trace = k.trace := by
  let cfg : Settings := { nullsafeStem := stem, strictNullCheck := true }
  let ctx : Context := ⟨some file, some tokens, e.variableNames⟩
  have hrefines : Refines S (fun _ => true) cfg file e.variableNames e s.names
      (Pass.visit s.rules ctx s.maxRevisits e s.names) := by
    rw [hrules]
    change Refines S _ cfg file ctx.reserved e s.names (Pass.visit
      [Nullsafe.rule cfg.nullsafeStem cfg.strictNullCheck] ctx s.maxRevisits e s.names)
    exact .visit rfl (fun _ _ => .inl rfl) _ _ _
  obtain ⟨-, hsim⟩ := hrefines.meaning he fun x hx => .inl hx
  obtain ⟨k', hrun', htrace, -⟩ := hsim m m v k ⟨rfl, fun _ _ => rfl⟩ hrun
  exact ⟨k', hrun', htrace⟩

/-- Lowering keeps to the rule that a chain that was cut short yields null, as long as no plain link
follows in it. -/
theorem lowered_chain_stops (S : Semantics V) (stem : String) (s : Session)
    (hrules : s.rules = [Nullsafe.rule stem true]) (file : FileId) (tokens : List Token)
    (base : Node) (links : List Link) (he : (base.chain links).IsExpression) (m : Machine V) :
    let lowered := (s.run file (base.chain links) tokens).tree
    (∀ r k, S.evalUnskipped (base.chain links) m = some (r, k) →
      S.evalShort (base.chain links) m = some (r, k) ∧
        ∃ k', S.eval lowered m = some (r.getD S.null, k') ∧ k'.trace = k.trace) ∧
      ∀ before after k, links = before ++ after →
        S.evalUnskipped (base.chain before) m = some (none, k) →
          S.evalShort (base.chain links) m = some (none, k) ∧
            ∃ v k', S.eval lowered m = some (v, k') ∧
              (k'.trace = k.trace ↔ ∀ l ∈ after, l.nullsafe = true) := by
  intro lowered
  refine ⟨fun r k hrun => ⟨S.evalUnskipped_extends _ _ m _ hrun, ?_⟩, ?_⟩
  · exact eval_run_of_strict S hrules file tokens he (S.eval_of_evalUnskipped hrun)
  · rintro before after k rfl hcut
    have hshort : S.evalShort (base.chain before) m = some (none, k) :=
      S.evalUnskipped_extends _ _ m _ hcut
    obtain ⟨v, l, hrun⟩ := S.eval_total he m
    obtain ⟨k', hrun', htrace⟩ := eval_run_of_strict S hrules file tokens he hrun
    rw [Node.chain_append] at hrun ⊢
    refine ⟨Semantics.evalChain_of_cut hshort fun _ _ => .inr fun _ => rfl, v, k', hrun', ?_⟩
    rw [htrace]
    exact Semantics.trace_eq_iff_of_cut hcut hrun

/-- In `$a?->b?->c($y)->d` nothing is left out where `$a` is an object. Where it is null, the links
`?->c($y)` and `->d` are left out, but the lowered chain still reads `d`. -/
theorem lowered_chain_stops_of_plain_end :
    let S := Semantics.ofNat fun trace _ => some (trace.length + 7)
    let links : List Link := [{ member := "b", nullsafe := true },
      { member := "c", args := some [{ value := Node.var "y" }], nullsafe := true },
      { member := "d" }]
    let e := (Node.var "a").chain links
    let s : Session := { rules := [Nullsafe.rule "t" true] }
    let lowered := (s.run "a.php" e []).tree
    let object : Machine (Option Nat) := ⟨fun _ => some 5, []⟩
    let null : Machine (Option Nat) := ⟨fun x => if x = "a" then none else some 5, []⟩
    e.IsExpression ∧
      (∃ k k', S.evalShort e object = some (some (some 9), k) ∧
        S.eval lowered object = some (some 9, k') ∧ k'.trace = k.trace ∧ k.trace.length = 3) ∧
      ∃ k v k', S.evalShort e null = some (none, k) ∧ k.trace = [] ∧
        S.eval lowered null = some (v, k') ∧ k'.trace ≠ k.trace := by
  intro S links e s lowered object null
  have he : e.IsExpression := by decide
  obtain ⟨hwhole, -⟩ := lowered_chain_stops S "t" s rfl "a.php" [] (Node.var "a") links he object
  obtain ⟨-, hcut⟩ := lowered_chain_stops S "t" s rfl "a.php" [] (Node.var "a") links he null
  have hrun : (S.evalUnskipped e object).map (fun r => (r.1, r.2.trace.length)) =
      some (some (some 9), 3) := by decide +kernel
  obtain ⟨⟨r, k⟩, hk, hvalue⟩ := Option.map_eq_some_iff.1 hrun
  obtain ⟨rfl, hlength⟩ := Prod.mk.inj hvalue
  obtain ⟨hshort, k', hrun', htrace⟩ := hwhole _ _ hk
  obtain ⟨hshort', v, k'', hrun'', htrace'⟩ := hcut (links.take 1) (links.drop 1) null rfl rfl
  refine ⟨he, ⟨k, k', hshort, hrun', htrace, hlength⟩, null, v, k'', hshort', rfl, hrun'', ?_⟩
  rw [Ne, htrace']
  decide

/-- In `$a?->b->c` the lowered chain reads `c` of null. -/
theorem lowered_chain_reads_null :
    let S := Semantics.ofNat fun _ _ => some 1
    let e := (Node.var "a").chain [{ member := "b", nullsafe := true }, { member := "c" }]
    let s : Session := { rules := [Nullsafe.rule Nullsafe.defaultStem true] }
    let lowered := (s.run "a.php" e []).tree
    let m : Machine (Option Nat) := ⟨fun _ => none, []⟩
    (S.evalShort e m).map (fun r => (r.1, r.2.trace)) = some (none, []) ∧
      (S.eval lowered m).map (fun r => (r.1, r.2.trace)) = some (some 1, [.read none "c"]) := by
  decide +kernel

end SyntaxLowering
