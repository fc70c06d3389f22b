import SyntaxLowering.Proofs.CommaMarks

/-!
# Rules report what they did

A rule may work in place: it writes marks while it still searches, draws a name before it takes the
node apart, and cleans one list before it looks at the next. Each early exit then leaves what was
written so far. The first part runs the rules of the catalog in this way, write by write
(`Settings.callsInPlace`), and finds the same effects as those of `Rule.call`.

The second part says what an honest report is (`Honest`), for every node, whether or not the rule
claims its kind, with and without a file and tokens.
-/

namespace SyntaxLowering

variable {β γ : Type}

/-! ### Hoisting in place -/

namespace Hoist

/-- How a search ends that writes while it goes: with the piece as it has left it, or with a place
that it holds on to. -/
inductive Search (β : Type) where
  | lost (piece : β)
  | held (hole : Hole β)

namespace Search

/-- The search in a larger piece. -/
def map (f : β → γ) : Search β → Search γ
  | lost piece => lost (f piece)
  | held hole => held (hole.map f)

/-- The search in a larger piece that goes on elsewhere if nothing was found, with what the search
so far has left. -/
def orElse (search : Search β) (f : β → γ) (next : β → Search γ) : Search γ :=
  match search with
  | lost piece => next piece
  | held hole => held (hole.map f)

/-- The end of a search that writes nothing unless it finds a place. -/
def ofOption (piece : β) : Option (Hole β) → Search β
  | none => lost piece
  | some hole => held hole

theorem map_ofOption (f : β → γ) (piece : β) (found : Option (Hole β)) :
    (ofOption piece found).map f = ofOption (f piece) (found.map (·.map f)) := by
  cases found <;> rfl

theorem orElse_ofOption {δ : Type} (f : β → δ → γ) (piece : β) (piece' : δ)
    (found : Option (Hole β)) (found' : Option (Hole δ)) :
    (ofOption piece found).orElse (fun b => f b piece')
        (fun b => (ofOption piece' found').map (f b)) =
      ofOption (f piece piece')
        (found.map (·.map fun b => f b piece') <|> found'.map (·.map (f piece))) := by
  cases found <;> cases found' <;> rfl

end Search

mutual

/-- Searches a node like `receiver?`. The source text of a node is given up when the search comes
back to it with a place. -/
def seek : Node → Search Node
  | ⟨form, span, marks⟩ =>
    match seekInForm form with
    | .lost form => .lost ⟨form, span, marks⟩
    | .held hole => .held (hole.map fun form => ⟨form, span, marks.outdated⟩)

/-- Searches one layer like `receiverInForm?`. -/
def seekInForm : Form Node → Search (Form Node)
  | .methodCall object method args =>
    if isInstantiation object then .held ⟨object, fun o => .methodCall o method args⟩
    else (seek object).orElse (fun o => .methodCall o method args) fun object =>
      (seekInArgs args).map fun as => .methodCall object method as
  | .propertyFetch object property =>
    if isInstantiation object then .held ⟨object, fun o => .propertyFetch o property⟩
    else (seek object).map fun o => .propertyFetch o property
  | .nullsafeMethodCall object method args =>
    (seek object).map fun o => .nullsafeMethodCall o method args
  | .nullsafePropertyFetch object property =>
    (seek object).map fun o => .nullsafePropertyFetch o property
  | .clone object => (seek object).map fun o => .clone o
  | .staticCall scope method args =>
    (seek scope).orElse (fun s => .staticCall s method args) fun scope =>
      (seekInArgs args).map fun as => .staticCall scope method as
  | .new scope args =>
    (seek scope).orElse (fun s => .new s args) fun scope =>
      (seekInArgs args).map fun as => .new scope as
  | .functionCall function args =>
    (seek function).orElse (fun f => .functionCall f args) fun function =>
      (seekInArgs args).map fun as => .functionCall function as
  | .assign target value =>
    (seek target).orElse (fun t => .assign t value) fun target =>
      (seek value).map fun v => .assign target v
  | .notIdentical left right =>
    (seek left).orElse (fun l => .notIdentical l right) fun left =>
      (seek right).map fun r => .notIdentical left r
  | .ternary condition ifTrue ifFalse =>
    (seek condition).map fun c => .ternary c ifTrue ifFalse
  | form => .lost form

/-- Searches arguments from left to right like `receiverInArgs?`. -/
def seekInArgs : List (Arg Node) → Search (List (Arg Node))
  | [] => .lost []
  | ⟨value, name, unpack, byRef, span, marks⟩ :: rest =>
    match seek value with
    | .held hole => .held (hole.map fun v =>
        ⟨v, name, unpack, byRef, span, marks.outdated⟩ :: rest)
    | .lost value => (seekInArgs rest).map fun as =>
        ⟨value, name, unpack, byRef, span, marks⟩ :: as

end

/-- Searches a statement. Its own source text is not given up yet. -/
def seekInStatement : Node → Search Node
  | ⟨.expression value, span, marks⟩ => (seek value).map fun v => ⟨.expression v, span, marks⟩
  | ⟨.ret (some value), span, marks⟩ => (seek value).map fun v => ⟨.ret (some v), span, marks⟩
  | n => .lost n

/-- The call of the rule in place. A search that has found a place has written marks by then, and
they stay if no name can be had. -/
def callInPlace (stem : String) (ctx : Context) (n : Node) (names : NameSupply) : Effect :=
  if ctx.file.isNone then ⟨.unchanged, n, names⟩
  else
    match seekInStatement n with
    | .lost n => ⟨.unchanged, n, names⟩
    | .held hole =>
      match ctx.freshVariable names stem with
      | none => ⟨.unchanged, hole.fill hole.content, names⟩
      | some (temp, names) =>
        let assignment := Node.synthesized (.expression
          (Node.synthesized (.assign temp hole.content)))
        .replace (Node.synthesized (.group [assignment, (hole.fill temp).outdated])) names

theorem seekInArgs_eq {args : List (Arg Node)}
    (h : ∀ a ∈ args, seek a.value = .ofOption a.value (receiver? a.value)) :
    seekInArgs args = .ofOption args (receiverInArgs? args) := by
  induction args with
  | nil => rfl
  | cons a rest ih =>
    obtain ⟨ha, hrest⟩ := List.forall_mem_cons.1 h
    rw [seekInArgs, receiverInArgs?, ha, ih hrest]
    cases receiver? a.value with
    | none => exact Search.map_ofOption _ rest _
    | some hole => rfl

theorem seekInForm_eq {form : Form Node}
    (h : ∀ c ∈ form.children, seek c = .ofOption c (receiver? c)) :
    seekInForm form = .ofOption form (receiverInForm? form) := by
  have hargs {callee : Node} {args : List (Arg Node)}
      (h : ∀ c ∈ callee :: args.map (·.value), seek c = .ofOption c (receiver? c)) :
      seekInArgs args = .ofOption args (receiverInArgs? args) :=
    seekInArgs_eq fun a ha => h a.value (List.mem_cons_of_mem _ (List.mem_map_of_mem ha))
  cases form with
  | methodCall object method args =>
    by_cases hinst : isInstantiation object = true
    · rw [seekInForm, receiverInForm?, direct?, if_pos hinst, if_pos hinst]
      rfl
    · rw [seekInForm, receiverInForm?, direct?, if_neg hinst, if_neg hinst,
        h object List.mem_cons_self, hargs h]
      exact Search.orElse_ofOption (fun o as => Form.methodCall o method as) object args _ _
  | propertyFetch object property =>
    by_cases hinst : isInstantiation object = true
    · rw [seekInForm, receiverInForm?, direct?, if_pos hinst, if_pos hinst]
      rfl
    · rw [seekInForm, receiverInForm?, direct?, if_neg hinst, if_neg hinst,
        h object List.mem_cons_self]
      exact Search.map_ofOption _ object _
  | nullsafeMethodCall object | nullsafePropertyFetch object | clone object | ternary object =>
    rw [seekInForm, receiverInForm?, h object List.mem_cons_self]
    exact Search.map_ofOption _ object _
  | staticCall scope method args =>
    rw [seekInForm, receiverInForm?, h scope List.mem_cons_self, hargs h]
    exact Search.orElse_ofOption (fun s as => Form.staticCall s method as) scope args _ _
  | new scope args =>
    rw [seekInForm, receiverInForm?, h scope List.mem_cons_self, hargs h]
    exact Search.orElse_ofOption Form.new scope args _ _
  | functionCall function args =>
    rw [seekInForm, receiverInForm?, h function List.mem_cons_self, hargs h]
    exact Search.orElse_ofOption Form.functionCall function args _ _
  | assign target value =>
    rw [seekInForm, receiverInForm?, h target (by simp [Form.children]),
      h value (by simp [Form.children])]
    exact Search.orElse_ofOption Form.assign target value _ _
  | notIdentical left right =>
    rw [seekInForm, receiverInForm?, h left (by simp [Form.children]),
      h right (by simp [Form.children])]
    exact Search.orElse_ofOption Form.notIdentical left right _ _
  | _ => rfl

/-- The search writes nothing unless it finds a place. -/
theorem seek_eq (n : Node) : seek n = .ofOption n (receiver? n) := by
  induction n using Node.inductionOn with
  | step form span marks ih =>
    rw [seek, seekInForm_eq ih, receiver?]
    cases receiverInForm? form <;> rfl

theorem seekInStatement_cases (n : Node) :
    (seekInStatement n = .lost n ∧ receiverInStatement? n = none) ∨
      ∃ hole, seekInStatement n = .held hole ∧
        receiverInStatement? n = some (hole.map Node.outdated) := by
  obtain ⟨form, span, marks⟩ := n
  cases form with
  | expression value =>
    rw [seekInStatement, receiverInStatement?, seek_eq]
    cases receiver? value with
    | none => exact .inl ⟨rfl, rfl⟩
    | some hole => exact .inr ⟨_, rfl, rfl⟩
  | ret value =>
    cases value with
    | none => exact .inl ⟨rfl, rfl⟩
    | some value =>
      rw [seekInStatement, receiverInStatement?, seek_eq]
      cases receiver? value with
      | none => exact .inl ⟨rfl, rfl⟩
      | some hole => exact .inr ⟨_, rfl, rfl⟩
  | _ => exact .inl ⟨rfl, rfl⟩

/-- No exit of the rule leaves marks behind: where a place was found, a name can be had. -/
theorem callInPlace_eq (stem : String) : callInPlace stem = (rule stem).call := by
  funext ctx n names
  cases hfile : ctx.file with
  | none => simp [callInPlace, rule, hfile, Effect.none]
  | some file =>
    rw [call_eq hfile]
    simp only [callInPlace, Context.freshVariable, hfile]
    rcases seekInStatement_cases n with ⟨hseek, hreceiver⟩ | ⟨hole, hseek, hreceiver⟩
    · rw [hseek, hreceiver]
      rfl
    · rw [hseek, hreceiver]
      rfl

end Hoist

/-! ### Lowering in place -/

namespace Nullsafe

/-- The call of the rule in place. The name is drawn first and the node is taken apart then; what
turns out not to be an access is put together again, but its name is gone. -/
def callInPlace (stem : String) (strict : Bool) (ctx : Context) (n : Node) (names : NameSupply) :
    Effect :=
  if n.kind = .nullsafeMethodCall ∨ n.kind = .nullsafePropertyFetch then
    match ctx.freshVariable names stem with
    | none => ⟨.unchanged, n, names⟩
    | some (temp, names) =>
      match n with
      | ⟨.nullsafeMethodCall object method args, _, _⟩ =>
        .replace (lowered strict temp object fun o => .methodCall o method args) names
      | ⟨.nullsafePropertyFetch object property, _, _⟩ =>
        .replace (lowered strict temp object fun o => .propertyFetch o property) names
      | ⟨form, span, marks⟩ => ⟨.unchanged, ⟨form, span, marks⟩, names⟩
  else ⟨.unchanged, n, names⟩

/-- No name is lost: what is taken apart is an access. -/
theorem callInPlace_eq (stem : String) (strict : Bool) :
    callInPlace stem strict = (rule stem strict).call := by
  funext ctx n names
  obtain ⟨form, span, marks⟩ := n
  cases form with
  | nullsafeMethodCall | nullsafePropertyFetch =>
    simp only [callInPlace, rule, access?, Node.kind, Form.kind]
    cases ctx.freshVariable names stem <;> rfl
  | _ => rfl

end Nullsafe

/-! ### Cleaning in place -/

namespace TrailingComma

section Lists

variable {ε : Type} [Listed ε]

/-- Marks the last element of a list if a comma follows it, and tells whether it did. -/
def cleanLast (ctx : Context) (es : List ε) : Bool × List ε :=
  match es.getLast? with
  | none => (false, es)
  | some last =>
    if isDue ctx last then
      (true, es.dropLast ++ [Listed.withMarks last (Listed.marks last).suppressComma])
    else (false, es)

theorem cleanLast_concat (ctx : Context) (init : List ε) (last : ε) :
    cleanLast ctx (init ++ [last]) =
      if isDue ctx last then
        (true, init ++ [Listed.withMarks last (Listed.marks last).suppressComma])
      else (false, init ++ [last]) := by
  simp [cleanLast]

theorem clean?_concat (ctx : Context) (init : List ε) (last : ε) :
    clean? ctx (init ++ [last]) =
      if isDue ctx last then
        some (init ++ [Listed.withMarks last (Listed.marks last).suppressComma])
      else none := by
  induction init with
  | nil => rfl
  | cons e init ih =>
    rw [List.cons_append, clean?, ih]
    · split <;> rfl
    · simp

theorem cleanLast_eq (ctx : Context) (es : List ε) :
    cleanLast ctx es = ((clean? ctx es).isSome, (clean? ctx es).getD es) := by
  rcases List.eq_nil_or_concat es with rfl | ⟨init, last, rfl⟩
  · rfl
  · rw [List.concat_eq_append, cleanLast_concat, clean?_concat]
    split <;> rfl

end Lists

/-- Cleans the lists of a layer one after the other, captures first, and tells whether any of them
was changed. -/
def cleanLists (ctx : Context) : Form Node → Bool × Form Node
  | .functionCall function args =>
    let (cleaned, args) := cleanLast ctx args
    (cleaned, .functionCall function args)
  | .methodCall object method args =>
    let (cleaned, args) := cleanLast ctx args
    (cleaned, .methodCall object method args)
  | .staticCall scope method args =>
    let (cleaned, args) := cleanLast ctx args
    (cleaned, .staticCall scope method args)
  | .new scope args =>
    let (cleaned, args) := cleanLast ctx args
    (cleaned, .new scope args)
  | .closure params captures body isStatic =>
    let (capturesCleaned, captures) := cleanLast ctx captures
    let (paramsCleaned, params) := cleanLast ctx params
    (capturesCleaned || paramsCleaned, .closure params captures body isStatic)
  | .functionDecl name params body =>
    let (cleaned, params) := cleanLast ctx params
    (cleaned, .functionDecl name params body)
  | .methodDecl name modifiers params body =>
    let (cleaned, params) := cleanLast ctx params
    (cleaned, .methodDecl name modifiers params body)
  | form => (false, form)

/-- The call of the rule in place. -/
def callInPlace (ctx : Context) (n : Node) (names : NameSupply) : Effect :=
  let (cleaned, form) := cleanLists ctx n.form
  if cleaned then ⟨.mutated, ⟨form, n.span, n.marks.outdated⟩, names⟩
  else ⟨.unchanged, ⟨form, n.span, n.marks⟩, names⟩

theorem cleanLists_eq (ctx : Context) (form : Form Node) :
    cleanLists ctx form = ((cleanForm? ctx form).isSome, (cleanForm? ctx form).getD form) := by
  cases form with
  | functionCall _ args | methodCall _ _ args | staticCall _ _ args | new _ args =>
    simp only [cleanLists, cleanForm?, cleanLast_eq]
    cases clean? ctx args <;> rfl
  | functionDecl _ params | methodDecl _ _ params =>
    simp only [cleanLists, cleanForm?, cleanLast_eq]
    cases clean? ctx params <;> rfl
  | closure params captures body isStatic =>
    simp only [cleanLists, cleanForm?, cleanBoth?, cleanLast_eq]
    cases clean? ctx params <;> cases clean? ctx captures <;> rfl
  | _ => rfl

theorem callInPlace_eq : callInPlace = rule.call := by
  funext ctx n names
  obtain ⟨form, span, marks⟩ := n
  rw [call_eq, callInPlace, cleanLists_eq]
  cases cleanForm? ctx form <;> rfl

end TrailingComma

/-- The calls of the rules of the catalog in place. -/
def Settings.callsInPlace (cfg : Settings) : List (Context → Node → NameSupply → Effect) :=
  [Hoist.callInPlace cfg.hoistStem, Nullsafe.callInPlace cfg.nullsafeStem cfg.strictNullCheck,
    TrailingComma.callInPlace]

theorem Settings.callsInPlace_eq (cfg : Settings) :
    cfg.callsInPlace = cfg.catalog.map (·.call) := by
  rw [callsInPlace, Hoist.callInPlace_eq, Nullsafe.callInPlace_eq, TrailingComma.callInPlace_eq]
  rfl

/-! ### Honest reports -/

/-- The layer with other lists. Lists of a sort that it does not have are ignored. -/
def Form.withLists {α : Type} (form : Form α) (as : List (Arg α)) (ps : List (Param α))
    (cs : List Capture) : Form α :=
  match form with
  | .methodCall object method _ => .methodCall object method as
  | .nullsafeMethodCall object method _ => .nullsafeMethodCall object method as
  | .staticCall scope method _ => .staticCall scope method as
  | .functionCall function _ => .functionCall function as
  | .new scope _ => .new scope as
  | .closure _ _ body isStatic => .closure ps cs body isStatic
  | .functionDecl n _ body => .functionDecl n ps body
  | .methodDecl n modifiers _ body => .methodDecl n modifiers ps body
  | form => form

/-- The second list is the first one but for the last element, after which a comma is forbidden now
and was not before. -/
def MarksLast {ε : Type} [Listed ε] (es es' : List ε) : Prop :=
  ∃ init last, es = init ++ [last] ∧ (Listed.marks last).commaSuppressed = false ∧
    es' = init ++ [Listed.withMarks last (Listed.marks last).suppressComma]

/-- The second node is the first one but for its own source text, which is given up, and the comma
marks at the ends of its lists, at least one of which is new. -/
structure MarksLists (n m : Node) : Prop where
  span : m.span = n.span
  marks : m.marks = n.marks.outdated
  lists : ∃ as ps cs, m.form = n.form.withLists as ps cs ∧
    (as = n.form.args ∨ MarksLast n.form.args as) ∧
    (ps = n.form.params ∨ MarksLast n.form.params ps) ∧
    (cs = n.form.captures ∨ MarksLast n.form.captures cs) ∧
    (MarksLast n.form.args as ∨ MarksLast n.form.params ps ∨ MarksLast n.form.captures cs)

/-- The verdict of a call says what has become of the node and of the supply of names. -/
structure Honest (ctx : Context) (n : Node) (names : NameSupply) (e : Effect) : Prop where
  unchanged : e.verdict = .unchanged → e.node = n ∧ e.names = names
  mutated : e.verdict = .mutated → MarksLists n e.node ∧ e.names = names
  /-- One name was drawn for the file, and a synthesized `null` is left of the node. -/
  replaced : ∀ replacement, e.verdict = .replaced replacement → e.node = Node.null ∧
    ∃ file stem, ctx.file = some file ∧ e.names = (names.allocate file stem ctx.reserved).2

theorem MarksLast.of_clean? {ε : Type} [Listed ε] {ctx : Context} {es es' : List ε}
    (h : TrailingComma.clean? ctx es = some es') : MarksLast es es' := by
  rcases List.eq_nil_or_concat es with rfl | ⟨init, last, rfl⟩
  · cases h
  · rw [List.concat_eq_append] at h ⊢
    rw [TrailingComma.clean?_concat] at h
    split at h
    · next hdue =>
      rw [TrailingComma.isDue, Bool.and_eq_true, Bool.not_eq_true'] at hdue
      exact ⟨init, last, rfl, hdue.1, (Option.some.inj h).symm⟩
    · cases h

/-- Cleaning a layer marks the ends of its lists, of at least one of them. -/
theorem MarksLists.of_cleanForm? {ctx : Context} {n : Node} {form : Form Node}
    (h : TrailingComma.cleanForm? ctx n.form = some form) :
    MarksLists n ⟨form, n.span, n.marks.outdated⟩ := by
  refine ⟨rfl, rfl, ?_⟩
  obtain ⟨form', span, marks⟩ := n
  cases form' with
  | functionCall | methodCall | staticCall | new =>
    obtain ⟨as, has, rfl⟩ := Option.map_eq_some_iff.1 h
    have hmarks := MarksLast.of_clean? has
    exact ⟨as, [], [], rfl, .inr hmarks, .inl rfl, .inl rfl, .inl hmarks⟩
  | functionDecl | methodDecl =>
    obtain ⟨ps, hps, rfl⟩ := Option.map_eq_some_iff.1 h
    have hmarks := MarksLast.of_clean? hps
    exact ⟨[], ps, [], rfl, .inl rfl, .inr hmarks, .inl rfl, .inr (.inl hmarks)⟩
  | closure params captures body isStatic =>
    obtain ⟨⟨ps, cs⟩, hboth, rfl⟩ := Option.map_eq_some_iff.1 h
    refine ⟨[], ps, cs, rfl, .inl rfl, ?_⟩
    -- the two lists are cleaned each by itself, and not both of them are left as they were
    cases hps : TrailingComma.clean? ctx params <;>
      cases hcs : TrailingComma.clean? ctx captures <;>
      simp only [TrailingComma.cleanBoth?, hps, hcs, Option.getD_none, Option.getD_some,
        Option.some.injEq, Prod.mk.injEq, reduceCtorEq] at hboth
    · obtain ⟨rfl, rfl⟩ := hboth
      exact ⟨.inl rfl, .inr (.of_clean? hcs), .inr (.inr (.of_clean? hcs))⟩
    · obtain ⟨rfl, rfl⟩ := hboth
      exact ⟨.inr (.of_clean? hps), .inl rfl, .inr (.inl (.of_clean? hps))⟩
    · obtain ⟨rfl, rfl⟩ := hboth
      exact ⟨.inr (.of_clean? hps), .inr (.of_clean? hcs), .inr (.inl (.of_clean? hps))⟩
  | _ => simp [TrailingComma.cleanForm?] at h

theorem Honest.of_replace {ctx : Context} {n : Node} {names : NameSupply} {file : FileId}
    (hfile : ctx.file = some file) (stem : String) (replacement : Node) :
    Honest ctx n names (.replace replacement (names.allocate file stem ctx.reserved).2) where
  unchanged h := by cases h
  mutated h := by cases h
  replaced _ _ := ⟨rfl, file, stem, hfile, rfl⟩

theorem Honest.of_catalogCall {cfg : Settings} {ctx : Context} {n : Node} {names : NameSupply}
    {rule : Rule} {e : Effect} (h : CatalogCall cfg ctx n names rule e) : Honest ctx n names e := by
  cases h with
  | unchanged => exact ⟨fun _ => ⟨rfl, rfl⟩, nofun, nofun⟩
  | cleaned hclean => exact ⟨nofun, fun _ => ⟨.of_cleanForm? hclean, rfl⟩, nofun⟩
  | lowered hfile _ => exact .of_replace hfile _ _
  | hoisted hfile _ => exact .of_replace hfile _ _

/-- Every rule of the catalog reports honestly what it did, on every node and in every context. Run
in place, write by write, it does the same: no exit leaves marks behind or uses up a name. -/
theorem catalog_reports_honestly (cfg : Settings) :
    cfg.callsInPlace = cfg.catalog.map (·.call) ∧
      ∀ rule ∈ cfg.catalog, ∀ (ctx : Context) (n : Node) (names : NameSupply),
        Honest ctx n names (rule.call ctx n names) :=
  ⟨cfg.callsInPlace_eq, fun _ hrule ctx n names => .of_catalogCall (.of_mem hrule ctx n names)⟩

/-- The comma after the capture of `function ($a) use ($b,) {}` is marked; lowering `$a?->p`
draws the name of its temporary. -/
theorem catalog_reports_honestly_of_closure :
    let ctx : Context :=
      ⟨some "a.php", some [⟨.comma, ",", 21, 22⟩, ⟨.closeParen, ")", 22, 23⟩], []⟩
    let closure : Node := ⟨.closure [⟨"a", none, none, false, false, some ⟨10, 12⟩, {}⟩]
      [⟨"b", false, some ⟨19, 21⟩, {}⟩] [] false, some ⟨0, 26⟩, {}⟩
    let access := Node.synthesized (.nullsafePropertyFetch (Node.var "a") "p")
    let cleaned := TrailingComma.rule.call ctx closure {}
    let lowered := (Nullsafe.rule "nullsafeVariable" false).call ctx access {}
    cleaned.verdict = .mutated ∧ MarksLists closure cleaned.node ∧ cleaned.names = {} ∧
      (∃ replacement, lowered.verdict = .replaced replacement) ∧ lowered.node = Node.null ∧
      lowered.names.issued = ["nullsafeVariable1"] := by
  intro ctx closure access cleaned lowered
  obtain ⟨-, hhonest⟩ := catalog_reports_honestly {}
  have hcleaned := hhonest TrailingComma.rule (by simp [Settings.catalog]) ctx closure {}
  have hlowered := hhonest (Nullsafe.rule "nullsafeVariable" false)
    (by simp [Settings.catalog, Nullsafe.defaultStem]) ctx access {}
  have hmutated : cleaned.verdict = .mutated := by decide +kernel
  obtain ⟨hmarks, hnames⟩ := hcleaned.mutated hmutated
  obtain ⟨hnull, -⟩ := hlowered.replaced _ rfl
  exact ⟨hmutated, hmarks, hnames, ⟨_, rfl⟩, hnull, by decide +kernel⟩

end SyntaxLowering
