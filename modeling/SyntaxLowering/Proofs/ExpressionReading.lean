import SyntaxLowering.Proofs.Erasure
import SyntaxLowering.Proofs.ExpressionWords

/-!
# Reading expressions back

The text of an expression determines the expression up to spans, marks and grouping, and wherever
its parts are told apart by parentheses up to spans and marks alone (`Node.toSource_eq_iff`). The
printer leaves parentheses out in places where they are needed, and there two expressions have one
text (`Node.toSource_not_injective`): a called property is printed like a method, and a comparison
on the right of another one or after `clone` as if it stood around it. `Node.regrouped` groups an
expression in the way in which its text is read. Nothing at all is put in parentheses after `new`,
so what is instantiated is to be an operand (`Node.InstantiatesOperands`).

`Parse.run` reads the words of an expression from left to right. What has been read of the innermost
parenthesis is a `Parse.Line`, and the lines around it wait in frames. How the words of an
expression move such a line depends on how tightly the expression binds: as an operand of a member
access, as one of a comparison, as one of a ternary, or not at all.
-/

namespace SyntaxLowering

theorem Form.words_erase (e : Erasure) (form : Form Spelling) :
    (form.erase e).words = form.words := by
  have hargs (as : List (Arg Spelling)) : argWords (as.map (·.erase e)) = argWords as := by
    rw [argWords, List.map_map]
    rfl
  cases form <;> simp [erase, rebuild, words, hargs]

/-! ### Grouping -/

namespace Node

/-- A call, which after a property is the call of a method. -/
def call (callee : Node) (args : List (Arg Node)) : Node :=
  synthesized <| match callee.form with
    | .propertyFetch object x => .methodCall object x args
    | .nullsafePropertyFetch object x => .nullsafeMethodCall object x args
    | _ => .functionCall callee args

/-- A chain of comparisons in which something is done to the first operand. -/
def mapFirst (f : Node → Node) : Node → Node
  | ⟨.notIdentical left right, span, marks⟩ =>
    ⟨.notIdentical (left.mapFirst f) right, span, marks⟩
  | n => f n
termination_by structural n => n

end Node

/-- A layer as its text is read: a called property is a method, and a comparison ends the operand
in front of it. -/
def Form.regrouped : Form Node → Node
  | functionCall function args => function.call args
  | notIdentical left right => right.mapFirst fun n => Node.synthesized (.notIdentical left n)
  | clone object => object.mapFirst fun n => Node.synthesized (.clone n)
  | form => Node.synthesized form

/-- A tree as its text is read, without its spans and marks. -/
def Node.regrouped (n : Node) : Node :=
  n.fold fun layer _ _ => (layer.erase .places).regrouped

/-- Arguments as their text is read, without their spans and marks. -/
def regroupedArgs (args : List (Arg Node)) : List (Arg Node) :=
  (args.map (·.map Node.regrouped)).map (·.erase .places)

namespace Node

theorem regrouped_mk (form : Form Node) (span : Option Span) (marks : Marks) :
    regrouped ⟨form, span, marks⟩ = ((form.map regrouped).erase .places).regrouped :=
  fold_mk _ form span marks

theorem call_eq {callee : Node}
    (h : callee.kind ≠ .propertyFetch ∧ callee.kind ≠ .nullsafePropertyFetch)
    (args : List (Arg Node)) : callee.call args = synthesized (.functionCall callee args) := by
  obtain ⟨form, span, marks⟩ := callee
  revert h
  cases form <;> simp [call, kind, Form.kind]

theorem mapFirst_eq {n : Node} (h : n.kind ≠ .notIdentical) (f : Node → Node) :
    n.mapFirst f = f n := by
  refine mapFirst.eq_2 f n ?_
  rintro left right span marks rfl
  exact h rfl

theorem kind_mapFirst {n : Node} {f : Node → Node}
    (h : n.kind = .notIdentical ∨ (f n).kind = .notIdentical) :
    (n.mapFirst f).kind = .notIdentical := by
  by_cases hn : n.kind = .notIdentical
  · obtain ⟨form, span, marks⟩ := n
    cases form with
    | notIdentical => rfl
    | _ => cases hn
  · rw [mapFirst_eq hn]
    exact h.resolve_left hn

@[simp]
theorem mapFirst_id (n : Node) : n.mapFirst (fun n => n) = n := by
  fun_induction mapFirst (fun n => n) n with
  | case1 left right span marks ih => rw [ih]
  | case2 => rfl

theorem mapFirst_mapFirst (f g : Node → Node) (n : Node) :
    (n.mapFirst g).mapFirst f = n.mapFirst fun n => (g n).mapFirst f := by
  fun_induction mapFirst g n with
  | case1 left right span marks ih => rw [mapFirst, mapFirst, ih]
  | case2 n hne => rw [mapFirst.eq_2 _ n hne]

/-- What is written in front of the first operand of a chain is written in front of the chain. -/
theorem spelling_mapFirst {f : Node → Node} (ws : List Word)
    (hf : ∀ n, (f n).spelling = ⟨ws ++ n.spelling.operand, false, true⟩) (n : Node) :
    (n.mapFirst f).spelling = ⟨ws ++ n.spelling.operand, false, true⟩ := by
  fun_induction mapFirst f n with
  | case1 left right span marks ih =>
    rw [spelling_mk, spelling_mk]
    simp [Form.map, Form.words, Form.kind, Kind.isLooseOperand, Kind.isLooseReceiver, ih,
      Spelling.operand, Word.bracketed]
  | case2 n => exact hf n

end Node

/-- A layer is written as it is read. -/
theorem Form.spelling_regrouped (form : Form Node) :
    form.regrouped.spelling = (Node.synthesized form).spelling := by
  cases form with
  | functionCall function args =>
    obtain ⟨form, span, marks⟩ := function
    cases form <;> simp [regrouped, Node.call, Node.synthesized, Node.spelling_mk, map, words, kind,
      Kind.isLooseOperand, Kind.isLooseReceiver, Spelling.receiver, Word.bracketed]
  | notIdentical left right =>
    have hspelling (n : Node) : (Node.synthesized (.notIdentical left n)).spelling =
        ⟨left.spelling.operand ++ [.notIdentical] ++ n.spelling.operand, false, true⟩ := by
      simp [Node.synthesized, Node.spelling_mk, map, words, kind, Kind.isLooseOperand,
        Kind.isLooseReceiver]
    rw [regrouped, Node.spelling_mapFirst _ hspelling, hspelling]
  | clone object =>
    rw [regrouped, Node.spelling_mapFirst [.clone] fun n => rfl]
    rfl
  | _ => rfl

/-- An expression is written as it is read. -/
theorem Node.spelling_regrouped (n : Node) : n.regrouped.spelling = n.spelling := by
  induction n using Node.inductionOn with
  | step form span marks ih =>
    rw [regrouped_mk, Form.spelling_regrouped, synthesized, spelling_mk, spelling_mk,
      Form.kind_erase, Form.kind_map, Form.map_erase, Form.words_erase, Form.map_map,
      Form.map_congr ih]

theorem Node.isLooseOperand_regrouped (n : Node) :
    n.regrouped.kind.isLooseOperand = n.kind.isLooseOperand := by
  have h := n.spelling_regrouped
  rw [spelling_eq, spelling_eq] at h
  exact congrArg Spelling.isLooseOperand h

theorem Node.isLooseReceiver_regrouped (n : Node) :
    n.regrouped.kind.isLooseReceiver = n.kind.isLooseReceiver := by
  have h := n.spelling_regrouped
  rw [spelling_eq, spelling_eq] at h
  exact congrArg Spelling.isLooseReceiver h

namespace Parse

/-- What stands in front of an operand. -/
inductive Prefix where
  | new
  | clone

/-- An operand that is being read: what stands in front of it, its beginning, and the lists of
arguments that have followed, the last one first. -/
structure Operand where
  prefixes : List Prefix := []
  base : Option Node := none
  calls : List (List (Arg Node)) := []

/-- A beginning with its calls. -/
def called (base : Node) : List (List (Arg Node)) → Node
  | [] => base
  | args :: calls => (called base calls).call args

/-- An operand with what stands in front of it. The last arguments are those of the first `new`. -/
def prefixed (base : Node) : List Prefix → List (List (Arg Node)) → Option Node
  | [], calls => some (called base calls)
  | .clone :: ps, calls => (prefixed base ps calls).map fun n => Node.synthesized (.clone n)
  | .new :: ps, args :: calls =>
    (prefixed base ps calls).map fun n => Node.synthesized (.new n args)
  | .new :: _, [] => none

def Operand.value? (o : Operand) : Option Node :=
  o.base.bind fun base => prefixed base o.prefixes o.calls

/-- What has been read of an operand after the words in front of it. -/
def Operand.callee? (o : Operand) : Option Node :=
  o.base.map fun base => called base o.calls

/-- What has been read since a parenthesis was opened: the name and marks of an argument, the
targets of assignments, the last one first, the parts of a ternary, the left side of a comparison,
and an operand. -/
structure Line where
  head : Arg Unit := { value := () }
  targets : List Node := []
  arms : List Node := []
  left : Option Node := none
  operand : Operand := {}

namespace Line

def comparison? (line : Line) : Option Node :=
  line.operand.value?.map fun right => match line.left with
    | none => right
    | some left => Node.synthesized (.notIdentical left right)

/-- A value that is assigned to some targets, to the first one first. -/
def assigned (targets : List Node) (value : Node) : Node :=
  targets.foldl (fun value target => Node.synthesized (.assign target value)) value

def value? (line : Line) : Option Node :=
  line.comparison?.bind fun last => match line.arms with
    | [] => some (assigned line.targets last)
    | [condition, ifTrue] =>
      some (assigned line.targets (Node.synthesized (.ternary condition ifTrue last)))
    | _ => none

/-- The argument that has been read, if there is one. -/
def args? (line : Line) : Option (List (Arg Node)) :=
  match line.operand.base with
  | none => some []
  | some _ => line.value?.map fun value => [line.head.map fun _ => value]

/-- The line with another beginning of its operand. -/
def withBase (line : Line) (n : Node) : Line :=
  { line with operand := { line.operand with base := some n, calls := [] } }

end Line

/-- What a parenthesis is for. -/
inductive Bracket where
  | group
  | call
  | static (method : String)

/-- An open parenthesis with the line around it and the arguments that have been read. -/
structure Frame where
  outer : Line
  bracket : Bracket
  args : List (Arg Node) := []

/-- The line after the parenthesis has been closed. -/
def Frame.closed? (f : Frame) (line : Line) : Option Line :=
  match f.bracket with
  | .group => line.value?.map f.outer.withBase
  | .call => line.args?.map fun args =>
    { f.outer with
      operand := { f.outer.operand with calls := (f.args ++ args) :: f.outer.operand.calls } }
  | .static method => line.args?.bind fun args => f.outer.operand.callee?.map fun scope =>
    f.outer.withBase (Node.synthesized (.staticCall scope method (f.args ++ args)))

/-- How far some words have been read. -/
structure State where
  line : Line := {}
  frames : List Frame := []

namespace State

def withBase (s : State) (form : Form Node) : State :=
  { s with line := s.line.withBase (Node.synthesized form) }

def withPrefix (s : State) (p : Prefix) : State :=
  { s with line.operand.prefixes := s.line.operand.prefixes ++ [p] }

def opened (s : State) (bracket : Bracket) : State :=
  ⟨{}, ⟨s.line, bracket, []⟩ :: s.frames⟩

/-- Reads one word. -/
def step (s : State) : Word → Option State
  | .null => some (s.withBase .null)
  | .bool value => some (s.withBase (.bool value))
  | .int value => some (s.withBase (.int value))
  | .str value => some (s.withBase (.str value))
  | .var x => some (s.withBase (.var x))
  | .name x => some (s.withBase (.name x))
  | .new => some (s.withPrefix .new)
  | .clone => some (s.withPrefix .clone)
  | .assign => s.line.operand.callee?.map fun target =>
    { s with line := { head := s.line.head, targets := target :: s.line.targets } }
  | .notIdentical => s.line.comparison?.map fun left =>
    { s with line := { s.line with left := some left, operand := {} } }
  | .question | .colon => s.line.comparison?.map fun arm =>
    { s with line := { s.line with arms := s.line.arms ++ [arm], left := none, operand := {} } }
  | .member nullsafe x => s.line.operand.callee?.map fun object =>
    s.withBase (if nullsafe then .nullsafePropertyFetch object x else .propertyFetch object x)
  | .static method => some (s.opened (.static method))
  | .opening => some (s.opened (if s.line.operand.base.isSome then .call else .group))
  | .closing => match s.frames with
    | [] => none
    | f :: frames => (f.closed? s.line).map (⟨·, frames⟩)
  | .comma => match s.frames with
    | [] => none
    | f :: frames => s.line.args?.map fun args => ⟨{}, { f with args := f.args ++ args } :: frames⟩
  | .label x => some { s with line.head.name := some x }
  | .spread => some { s with line.head.unpack := true }
  | .reference => some { s with line.head.byRef := true }

end State

/-- The expression that some words spell. -/
def run (ws : List Word) : Option Node :=
  (ws.foldlM State.step {}).bind fun s => if s.frames.isEmpty then s.line.value? else none

/-- Reading some words takes one state to another. -/
def Reads (s : State) (ws : List Word) (t : State) : Prop :=
  ws.foldlM State.step s = some t

variable {s t u : State} {w : Word} {ws vs : List Word}

theorem Reads.cons (h : s.step w = some t) (h' : Reads t ws u) : Reads s (w :: ws) u := by
  rw [Reads, List.foldlM_cons, h]
  exact h'

theorem Reads.append (h : Reads s ws t) (h' : Reads t vs u) : Reads s (ws ++ vs) u := by
  rw [Reads, List.foldlM_append, show ws.foldlM State.step s = some t from h]
  exact h'

theorem Reads.single (h : s.step w = some t) : Reads s [w] t :=
  .cons h rfl

/-! ### Parts of expressions -/

/-- Words that are read as an operand. -/
structure ReadsOperand (ws : List Word) (o : Operand) (n : Node) : Prop where
  value : o.value? = some n
  reads : ∀ line frames, line.operand.base = none → Reads ⟨line, frames⟩ ws
    ⟨{ line with operand := { o with prefixes := line.operand.prefixes ++ o.prefixes } }, frames⟩

/-- What an operand is read as after a comparison and after `clone`. -/
def prepended (left : Option Node) (clones : Nat) (n : Node) : Node :=
  let right := (fun n => Node.synthesized (.clone n))^[clones] n
  left.elim right fun left => Node.synthesized (.notIdentical left right)

/-- Words that are read as a chain of comparisons. What stands in front of them goes with the first
operand. -/
def ReadsComparison (ws : List Word) (n : Node) : Prop :=
  ∀ left clones, ∃ left' o,
    ({ left := left', operand := o } : Line).comparison? =
      some (n.mapFirst (prepended left clones)) ∧
    o.base.isSome = true ∧ ∀ head targets arms frames, Reads
      ⟨{ head, targets, arms, left, operand.prefixes := .replicate clones .clone }, frames⟩ ws
      ⟨{ head, targets, arms, left := left', operand := o }, frames⟩

/-- Words that are read as what stands in parentheses. -/
def ReadsLine (ws : List Word) (n : Node) : Prop :=
  ∀ head targets frames, ∃ line, Reads ⟨{ head, targets }, frames⟩ ws ⟨line, frames⟩ ∧
    line.head = head ∧ line.operand.base.isSome = true ∧
    line.value? = some (Line.assigned targets n)

theorem ReadsOperand.isSome_base {o : Operand} {n : Node} (h : ReadsOperand ws o n) :
    o.base.isSome = true := by
  obtain ⟨base, hbase, -⟩ := Option.bind_eq_some_iff.1 h.value
  simp [hbase]

theorem prefixed_replicate (base : Node) (ps : List Prefix) (calls : List (List (Arg Node)))
    (clones : Nat) : prefixed base (List.replicate clones .clone ++ ps) calls =
      (prefixed base ps calls).map (fun n => Node.synthesized (.clone n))^[clones] := by
  induction clones with
  | zero => simp
  | succ clones ih =>
    rw [List.replicate_succ, List.cons_append, prefixed, ih, Option.map_map,
      Function.iterate_succ']

theorem ReadsOperand.comparison {o : Operand} {n : Node} (h : ReadsOperand ws o n)
    (hne : n.kind ≠ .notIdentical) : ReadsComparison ws n := by
  intro left clones
  refine ⟨left, { o with prefixes := List.replicate clones .clone ++ o.prefixes }, ?_,
    h.isSome_base, fun head targets arms frames => h.reads _ frames rfl⟩
  obtain ⟨base, hbase, hvalue⟩ := Option.bind_eq_some_iff.1 h.value
  rw [Node.mapFirst_eq hne]
  cases left <;>
    simp [Line.comparison?, Operand.value?, hbase, prefixed_replicate, hvalue, prepended]

namespace ReadsComparison

variable {n : Node}

/-- A chain at the beginning of a line or after a part of a ternary. -/
theorem first (h : ReadsComparison ws n) : ∃ left o,
    ({ left, operand := o } : Line).comparison? = some n ∧ o.base.isSome = true ∧
    ∀ head targets arms frames, Reads ⟨{ head, targets, arms }, frames⟩ ws
      ⟨{ head, targets, arms, left, operand := o }, frames⟩ := by
  obtain ⟨left, o, hvalue, hrest⟩ := h none 0
  rw [show prepended none 0 = fun n => n from rfl, Node.mapFirst_id] at hvalue
  exact ⟨left, o, hvalue, hrest⟩

theorem line (h : ReadsComparison ws n) : ReadsLine ws n := by
  obtain ⟨left, o, hvalue, hbase, hreads⟩ := h.first
  intro head targets frames
  refine ⟨_, hreads head targets [] frames, rfl, hbase, ?_⟩
  show Option.bind (({ left, operand := o } : Line).comparison?) _ = _
  rw [hvalue]
  rfl

theorem notIdentical {l r : Node} (h : ReadsComparison ws l) (h' : ReadsComparison vs r) :
    ReadsComparison (ws ++ .notIdentical :: vs)
      (r.mapFirst fun n => Node.synthesized (.notIdentical l n)) := by
  intro left clones
  obtain ⟨left', p, hleft, -, hreads⟩ := h left clones
  obtain ⟨left'', o, hvalue, hbase, hreads'⟩ := h' (some (l.mapFirst (prepended left clones))) 0
  refine ⟨left'', o, ?_, hbase, fun head targets arms frames =>
    (hreads head targets arms frames).append (.cons ?_ (hreads' head targets arms frames))⟩
  · rw [hvalue, Node.mapFirst_mapFirst]
    rfl
  · show Option.map _ (({ left := left', operand := p } : Line).comparison?) = _
    rw [hleft]
    rfl

theorem clone (h : ReadsComparison ws n) :
    ReadsComparison (.clone :: ws) (n.mapFirst fun n => Node.synthesized (.clone n)) := by
  intro left clones
  obtain ⟨left', o, hvalue, hbase, hreads⟩ := h left (clones + 1)
  refine ⟨left', o, ?_, hbase, fun head targets arms frames => .cons ?_
    (hreads head targets arms frames)⟩
  · rw [hvalue, Node.mapFirst_mapFirst]
    rfl
  · simp [State.step, State.withPrefix, List.replicate_succ']

end ReadsComparison

/-- What stands in parentheses is an operand. -/
theorem ReadsLine.bracketed {n : Node} (h : ReadsLine ws n) :
    ReadsOperand (.opening :: ws ++ [.closing]) { base := some n } n := by
  refine ⟨rfl, fun line frames hbase => ?_⟩
  obtain ⟨inner, hreads, -, -, hvalue⟩ := h { value := () } [] (⟨line, .group, []⟩ :: frames)
  refine .append (.cons ?_ hreads) (.single ?_)
  · simp [State.step, hbase, State.opened]
  · simp [State.step, Frame.closed?, hvalue, Line.assigned, Line.withBase]

/-! ### Lists of arguments -/

theorem reads_arg {a : Arg Node} (h : ReadsLine a.value.words a.value.regrouped)
    (frames : List Frame) :
    ∃ line, Reads ⟨{}, frames⟩ (a.map Node.spelling).words ⟨line, frames⟩ ∧
      line.args? = some [(a.map Node.regrouped).erase .places] := by
  obtain ⟨value, name, unpack, byRef, span, marks⟩ := a
  let head : Arg Unit := { value := (), name, unpack, byRef }
  have hhead : Reads ⟨{}, frames⟩ (name.toList.map .label ++ (if unpack then [.spread] else []) ++
      (if byRef then [.reference] else [])) ⟨{ head }, frames⟩ := by
    cases name <;> cases unpack <;> cases byRef <;> rfl
  obtain ⟨line, hreads, hline, hbase, hvalue⟩ := h head [] frames
  refine ⟨line, hhead.append hreads, ?_⟩
  obtain ⟨base, hbase⟩ := Option.isSome_iff_exists.1 hbase
  simp [Line.args?, hbase, hvalue, hline, Line.assigned, head, Arg.map, Arg.erase, Erasure.places]

/-- An argument that ends a list could as well be followed by a comma. -/
theorem Frame.closed?_eq {f : Frame} (hf : f.bracket ≠ .group) {line : Line}
    {args : List (Arg Node)} (h : line.args? = some args) :
    f.closed? line = ({ f with args := f.args ++ args } : Frame).closed? {} := by
  have hnone : ({} : Line).args? = some [] := rfl
  obtain ⟨outer, bracket, read⟩ := f
  cases bracket with
  | group => exact absurd rfl hf
  | call => simp [closed?, h, hnone]
  | static => simp [closed?, h, hnone]

theorem reads_args {args : List (Arg Node)}
    (h : ∀ a ∈ args, ReadsLine a.value.words a.value.regrouped) {f : Frame}
    (hf : f.bracket ≠ .group) {line : Line} (hline : ({ f with
      args := f.args ++ regroupedArgs args } : Frame).closed? {} =
        some line) (frames : List Frame) :
    Reads ⟨{}, f :: frames⟩ (Form.argWords (args.map (·.map Node.spelling)))
      ⟨line, frames⟩ := by
  induction args generalizing f with
  | nil =>
    rw [regroupedArgs, List.map_nil, List.map_nil, List.append_nil] at hline
    exact .single (by simp [State.step, hline])
  | cons a args ih =>
    rw [List.forall_mem_cons] at h
    obtain ⟨inner, hreads, hargs⟩ := reads_arg h.1 (f :: frames)
    cases args with
    | nil =>
      rw [List.map_singleton, Form.argWords_singleton]
      refine hreads.append (.single ?_)
      simp only [State.step, Frame.closed?_eq hf hargs]
      rw [show ({ f with args := f.args ++ [(a.map Node.regrouped).erase .places] } :
        Frame).closed? {} = some line from hline]
      rfl
    | cons b args =>
      rw [List.map_cons, List.map_cons, Form.argWords_cons_cons, ← List.map_cons]
      refine hreads.append (.cons ?_ (ih h.2
        (f := { f with args := f.args ++ [(a.map Node.regrouped).erase .places] }) hf ?_))
      · simp [State.step, hargs]
      · rw [← hline, List.append_assoc]
        rfl

/-! ### Operands -/

namespace ReadsOperand

variable {o : Operand} {n : Node} {args : List (Arg Node)}

theorem of_leaf {form : Form Node} (h : ∀ s : State, s.step w = some (s.withBase form)) :
    ReadsOperand [w] { base := some (Node.synthesized form) } (Node.synthesized form) :=
  ⟨rfl, fun line frames _ => .single (by simp [h, State.withBase, Line.withBase])⟩

theorem callee (h : ReadsOperand ws o n) (hprefixes : o.prefixes = []) : o.callee? = some n := by
  obtain ⟨base, hbase, hvalue⟩ := Option.bind_eq_some_iff.1 h.value
  rw [hprefixes] at hvalue
  simpa [Operand.callee?, hbase, prefixed] using hvalue

theorem member (h : ReadsOperand ws o n) (hprefixes : o.prefixes = []) (nullsafe : Bool)
    (x : String) {form : Form Node}
    (hform : form = if nullsafe then .nullsafePropertyFetch n x else .propertyFetch n x) :
    ReadsOperand (ws ++ [.member nullsafe x]) { base := some (Node.synthesized form) }
      (Node.synthesized form) := by
  refine ⟨rfl, fun line frames hbase => (h.reads line frames hbase).append (.single ?_)⟩
  have hcallee : ({ o with prefixes := line.operand.prefixes } : Operand).callee? = some n :=
    h.callee hprefixes
  simp [State.step, hcallee, hprefixes, State.withBase, Line.withBase, hform]

/-- Arguments after an operand are kept for the `new` in front of it, if there is one. -/
theorem reads_call (h : ReadsOperand ws o n)
    (hargs : ∀ a ∈ args, ReadsLine a.value.words a.value.regrouped) (line : Line)
    (frames : List Frame) (hbase : line.operand.base = none) : Reads ⟨line, frames⟩
      (ws ++ .opening :: Form.argWords (args.map (·.map Node.spelling)))
      ⟨{ line with operand := {
          prefixes := line.operand.prefixes ++ o.prefixes
          base := o.base
          calls := regroupedArgs args :: o.calls } }, frames⟩ := by
  let inner : Line :=
    { line with operand := { o with prefixes := line.operand.prefixes ++ o.prefixes } }
  refine (h.reads line frames hbase).append (.cons ?_
    (reads_args (f := ⟨inner, .call, []⟩) hargs (by simp) ?_ frames))
  · simp [State.step, h.isSome_base, State.opened, inner]
  · simp [Frame.closed?, Line.args?, inner]

theorem call (h : ReadsOperand ws o n) (hprefixes : o.prefixes = [])
    (hargs : ∀ a ∈ args, ReadsLine a.value.words a.value.regrouped) :
    ReadsOperand (ws ++ .opening :: Form.argWords (args.map (·.map Node.spelling)))
      { o with calls := regroupedArgs args :: o.calls } (n.call (regroupedArgs args)) := by
  refine ⟨?_, h.reads_call hargs⟩
  have hcallee := h.callee hprefixes
  obtain ⟨base, hbase, rfl⟩ := Option.map_eq_some_iff.1 hcallee
  simp [Operand.value?, hbase, hprefixes, prefixed, called]

theorem static (h : ReadsOperand ws o n) (hprefixes : o.prefixes = []) (x : String)
    (hargs : ∀ a ∈ args, ReadsLine a.value.words a.value.regrouped) :
    ReadsOperand (ws ++ .static x :: Form.argWords (args.map (·.map Node.spelling)))
      { base := some (Node.synthesized (.staticCall n x (regroupedArgs args))) }
      (Node.synthesized (.staticCall n x (regroupedArgs args))) := by
  refine ⟨rfl, fun line frames hbase => (h.reads line frames hbase).append
    (.cons rfl (reads_args (f := ⟨_, .static x, []⟩) hargs (by simp) ?_ frames))⟩
  have hcallee : ({ o with prefixes := line.operand.prefixes } : Operand).callee? = some n :=
    h.callee hprefixes
  simp [Frame.closed?, Line.args?, hcallee, hprefixes, Line.withBase]

theorem new (h : ReadsOperand ws o n)
    (hargs : ∀ a ∈ args, ReadsLine a.value.words a.value.regrouped) :
    ReadsOperand (.new :: ws ++ .opening :: Form.argWords
        (args.map (·.map Node.spelling)))
      { o with prefixes := .new :: o.prefixes, calls := regroupedArgs args :: o.calls }
      (Node.synthesized (.new n (regroupedArgs args))) := by
  constructor
  · obtain ⟨base, hbase, hvalue⟩ := Option.bind_eq_some_iff.1 h.value
    simp [Operand.value?, hbase, prefixed, hvalue]
  · intro line frames hbase
    have hreads := h.reads_call hargs ((⟨line, frames⟩ : State).withPrefix .new).line frames hbase
    exact .cons rfl (by simpa [State.withPrefix] using hreads)

theorem clone (h : ReadsOperand ws o n) :
    ReadsOperand (.clone :: ws) { o with prefixes := .clone :: o.prefixes }
      (Node.synthesized (.clone n)) := by
  constructor
  · obtain ⟨base, hbase, hvalue⟩ := Option.bind_eq_some_iff.1 h.value
    simp [Operand.value?, hbase, prefixed, hvalue]
  · intro line frames hbase
    have hreads := h.reads ((⟨line, frames⟩ : State).withPrefix .clone).line frames hbase
    exact .cons rfl (by simpa [State.withPrefix] using hreads)

end ReadsOperand

theorem ReadsComparison.ternary {us : List Word} {c t f : Node} (hc : ReadsComparison us c)
    (ht : ReadsComparison ws t) (hf : ReadsComparison vs f) :
    ReadsLine (us ++ .question :: ws ++ .colon :: vs) (Node.synthesized (.ternary c t f)) := by
  -- a part of a ternary, with the word that follows it
  have harm {ws : List Word} {n : Node} (h : ReadsComparison ws n) {w : Word}
      (hw : w = .question ∨ w = .colon) (head : Arg Unit) (targets arms : List Node)
      (frames : List Frame) : Reads ⟨{ head, targets, arms }, frames⟩ (ws ++ [w])
        ⟨{ head, targets, arms := arms ++ [n] }, frames⟩ := by
    obtain ⟨left, o, hvalue, -, hreads⟩ := h.first
    refine (hreads head targets arms frames).append (.single ?_)
    have hcomparison : ({ head, targets, arms, left, operand := o } : Line).comparison? = some n :=
      hvalue
    rcases hw with rfl | rfl <;> simp [State.step, hcomparison]
  intro head targets frames
  obtain ⟨left, o, hvalue, hbase, hreads⟩ := hf.first
  refine ⟨{ head, targets, arms := [c, t], left, operand := o }, ?_, rfl, hbase, ?_⟩
  · have hreads := ((harm hc (.inl rfl) head targets [] frames).append
      (harm ht (.inr rfl) head targets [c] frames)).append (hreads head targets [c, t] frames)
    simpa using hreads
  · show Option.bind (({ left, operand := o } : Line).comparison?) _ = _
    rw [hvalue]
    rfl

theorem ReadsOperand.assign {o : Operand} {target value : Node} (h : ReadsOperand ws o target)
    (hprefixes : o.prefixes = []) (h' : ReadsLine vs value) :
    ReadsLine (ws ++ .assign :: vs) (Node.synthesized (.assign target value)) := by
  intro head targets frames
  obtain ⟨line, hreads, hrest⟩ := h' head (target :: targets) frames
  refine ⟨line, (h.reads { head, targets } frames rfl).append (.cons ?_ hreads), hrest⟩
  have hcallee : ({ o with prefixes := [] } : Operand).callee? = some target := h.callee hprefixes
  simp [State.step, hprefixes, hcallee]

/-! ### Whole expressions -/

/-- An expression whose words are read as itself, up to grouping, wherever it binds tightly enough
to stand. -/
structure ReadsBack (n : Node) : Prop where
  operand : n.kind.isLooseOperand = false → n.regrouped.kind ≠ .notIdentical →
    ∃ o, ReadsOperand n.words o n.regrouped ∧ (n.kind.isLooseReceiver = false → o.prefixes = [])
  comparison : n.kind.isLooseOperand = false → ReadsComparison n.words n.regrouped
  line : ReadsLine n.words n.regrouped

namespace ReadsBack

variable {n : Node}

/-- The expression is what its words spell. -/
theorem run_eq (h : ReadsBack n) : run n.words = some n.regrouped := by
  obtain ⟨line, hreads, -, -, hvalue⟩ := h.line { value := () } [] []
  rw [run, show n.words.foldlM State.step {} = some ⟨line, []⟩ from hreads]
  exact hvalue

theorem kind_ne_of_isLooseOperand (hkind : n.kind.isLooseOperand = true) :
    n.regrouped.kind ≠ .notIdentical := by
  rw [← n.isLooseOperand_regrouped] at hkind
  intro h
  rw [h] at hkind
  cases hkind

theorem kind_ne_of_isLooseReceiver (hkind : n.kind.isLooseReceiver = false) :
    n.regrouped.kind ≠ .notIdentical := by
  rw [← n.isLooseReceiver_regrouped] at hkind
  intro h
  rw [h] at hkind
  cases hkind

theorem of_operand (hne : n.regrouped.kind ≠ .notIdentical) (h : ∃ o,
    ReadsOperand n.words o n.regrouped ∧ (n.kind.isLooseReceiver = false → o.prefixes = [])) :
    ReadsBack n :=
  have ⟨_, ho, _⟩ := h
  ⟨fun _ _ => h, fun _ => ho.comparison hne, (ho.comparison hne).line⟩

theorem of_receiver (hkind : n.kind.isLooseReceiver = false)
    (h : ∃ o, ReadsOperand n.words o n.regrouped ∧ o.prefixes = []) : ReadsBack n :=
  have ⟨o, ho, hprefixes⟩ := h
  of_operand (kind_ne_of_isLooseReceiver hkind) ⟨o, ho, fun _ => hprefixes⟩

theorem of_comparison (hkind : n.regrouped.kind = .notIdentical)
    (h : ReadsComparison n.words n.regrouped) : ReadsBack n :=
  ⟨fun _ hne => absurd hkind hne, fun _ => h, h.line⟩

theorem of_line (hkind : n.kind.isLooseOperand = true) (h : ReadsLine n.words n.regrouped) :
    ReadsBack n :=
  ⟨fun hfalse => absurd hkind (by simp [hfalse]), fun hfalse => absurd hkind (by simp [hfalse]), h⟩

/-- In front of a member access or a call. -/
theorem receiver (h : ReadsBack n) :
    ∃ o, ReadsOperand n.spelling.receiver o n.regrouped ∧ o.prefixes = [] := by
  rw [n.spelling_eq, Spelling.receiver]
  cases hkind : n.kind.isLooseReceiver with
  | true => exact ⟨_, h.line.bracketed, rfl⟩
  | false =>
    have htight : n.kind.isLooseOperand = false := by
      revert hkind
      cases n.kind <;> decide
    obtain ⟨o, ho, hprefixes⟩ := h.operand htight (kind_ne_of_isLooseReceiver hkind)
    exact ⟨o, ho, hprefixes hkind⟩

/-- After `clone`, if no comparison begins there. -/
theorem tight (h : ReadsBack n) (hne : n.regrouped.kind ≠ .notIdentical) :
    ∃ o, ReadsOperand n.spelling.operand o n.regrouped := by
  rw [n.spelling_eq, Spelling.operand]
  cases hkind : n.kind.isLooseOperand with
  | true => exact ⟨_, h.line.bracketed⟩
  | false =>
    obtain ⟨o, ho, -⟩ := h.operand hkind hne
    exact ⟨o, ho⟩

/-- In a comparison or a ternary, or after `clone`. -/
theorem part (h : ReadsBack n) : ReadsComparison n.spelling.operand n.regrouped := by
  rw [n.spelling_eq, Spelling.operand]
  cases hkind : n.kind.isLooseOperand with
  | true => exact h.line.bracketed.comparison (kind_ne_of_isLooseOperand hkind)
  | false => exact h.comparison hkind

theorem clone (h : ReadsBack n) (span : Option Span) (marks : Marks) :
    ReadsBack ⟨.clone n, span, marks⟩ := by
  have hwords : Node.words ⟨.clone n, span, marks⟩ = .clone :: n.spelling.operand := by
    rw [Node.words, Node.spelling_mk]
    rfl
  have hregrouped : Node.regrouped ⟨.clone n, span, marks⟩ =
      n.regrouped.mapFirst fun n => Node.synthesized (.clone n) := Node.regrouped_mk _ _ _
  have hcomparison := h.part.clone
  rw [← hwords, ← hregrouped] at hcomparison
  refine ⟨fun _ hne => ?_, fun _ => hcomparison, hcomparison.line⟩
  have hobject : n.regrouped.kind ≠ .notIdentical := fun hkind =>
    hne (hregrouped ▸ Node.kind_mapFirst (.inl hkind))
  obtain ⟨o, ho⟩ := h.tight hobject
  rw [hwords, hregrouped, Node.mapFirst_eq hobject]
  exact ⟨_, ho.clone, fun hkind => by cases hkind⟩

end ReadsBack

end Parse

/-- Whether what a layer instantiates is read as the operand of `new`. -/
def Form.instantiatesOperand : Form Node → Bool
  | new scope _ => !scope.regrouped.kind.isLooseOperand && scope.regrouped.kind != .notIdentical
  | _ => true

/-- An expression in which what is instantiated is read as the operand of `new`. -/
def Node.InstantiatesOperands (n : Node) : Prop :=
  n.All (·.form.instantiatesOperand = true)

instance (n : Node) : Decidable n.InstantiatesOperands :=
  inferInstanceAs (Decidable (n.All _))

open Parse in
theorem Node.readsBack {n : Node} (h : n.IsSpelled) (h' : n.InstantiatesOperands) :
    ReadsBack n := by
  induction n using Node.inductionOn with
  | step form span marks ih =>
    have hform : form.isSpelled = true := h.self
    have hinstantiates : form.instantiatesOperand = true := h'.self
    have hchild (c : Node) (hc : c ∈ form.children) : ReadsBack c :=
      ih c hc (h.child hc) (h'.child hc)
    have hhead (c : Node) (hc : c ∈ form.heads) : ReadsBack c :=
      hchild c (Form.mem_children.2 (.inl hc))
    have hargs (a : Arg Node) (ha : a ∈ form.args) : ReadsLine a.value.words a.value.regrouped :=
      (hchild _ (Form.mem_children.2 (.inr (.inl ⟨a, ha, rfl⟩)))).line
    have hregrouped := regrouped_mk form span marks
    have hwords : words ⟨form, span, marks⟩ = (form.map spelling).words :=
      congrArg Spelling.words (spelling_mk form span marks)
    cases form with
    | null | bool | int | str | var | name =>
      refine .of_receiver rfl ?_
      rw [hregrouped, hwords]
      exact ⟨_, .of_leaf fun _ => rfl, rfl⟩
    | assign target value =>
      have htarget : target.kind.isLooseReceiver = false := by
        rw [Form.isSpelled, Bool.or_eq_true, beq_iff_eq, beq_iff_eq] at hform
        rcases hform with htarget | htarget <;> rw [htarget] <;> rfl
      obtain ⟨o, ho, hprefixes⟩ := (hhead target (.head _)).receiver
      rw [spelling_eq, htarget] at ho
      refine .of_line rfl ?_
      rw [hregrouped, hwords]
      exact ho.assign hprefixes (hhead value (.tail _ (.head _))).line
    | notIdentical left right =>
      refine .of_comparison (hregrouped ▸ kind_mapFirst (.inr rfl)) ?_
      rw [hregrouped, hwords]
      exact (hhead left (.head _)).part.notIdentical (hhead right (.tail _ (.head _))).part
    | ternary condition ifTrue ifFalse =>
      refine .of_line rfl ?_
      rw [hregrouped, hwords]
      exact (hhead condition (.head _)).part.ternary (hhead ifTrue (.tail _ (.head _))).part
        (hhead ifFalse (.tail _ (.tail _ (.head _)))).part
    | propertyFetch object x =>
      obtain ⟨o, ho, hprefixes⟩ := (hhead object (.head _)).receiver
      refine .of_receiver rfl ?_
      rw [hregrouped, hwords]
      exact ⟨_, ho.member hprefixes false x rfl, rfl⟩
    | nullsafePropertyFetch object x =>
      obtain ⟨o, ho, hprefixes⟩ := (hhead object (.head _)).receiver
      refine .of_receiver rfl ?_
      rw [hregrouped, hwords]
      exact ⟨_, ho.member hprefixes true x rfl, rfl⟩
    | methodCall object x args =>
      obtain ⟨o, ho, hprefixes⟩ := (hhead object (.head _)).receiver
      have hcall := (ho.member hprefixes false x rfl).call rfl hargs
      rw [List.append_assoc] at hcall
      refine .of_receiver rfl ?_
      rw [hregrouped, hwords]
      exact ⟨_, hcall, rfl⟩
    | nullsafeMethodCall object x args =>
      obtain ⟨o, ho, hprefixes⟩ := (hhead object (.head _)).receiver
      have hcall := (ho.member hprefixes true x rfl).call rfl hargs
      rw [List.append_assoc] at hcall
      refine .of_receiver rfl ?_
      rw [hregrouped, hwords]
      exact ⟨_, hcall, rfl⟩
    | staticCall scope x args =>
      obtain ⟨o, ho, hprefixes⟩ := (hhead scope (.head _)).receiver
      refine .of_receiver rfl ?_
      rw [hregrouped, hwords]
      exact ⟨_, ho.static hprefixes x hargs, rfl⟩
    | functionCall function args =>
      obtain ⟨o, ho, hprefixes⟩ := (hhead function (.head _)).receiver
      refine .of_receiver rfl ?_
      rw [hregrouped, hwords]
      exact ⟨_, ho.call hprefixes hargs, hprefixes⟩
    | new scope args =>
      have hscope : scope.regrouped.kind.isLooseOperand = false ∧
          scope.regrouped.kind ≠ .notIdentical := by
        simpa [Form.instantiatesOperand] using hinstantiates
      rw [isLooseOperand_regrouped] at hscope
      obtain ⟨o, ho, -⟩ := (hhead scope (.head _)).operand hscope.1 hscope.2
      refine .of_operand (fun hkind => ?_) ?_
      · rw [hregrouped] at hkind
        cases hkind
      · rw [hregrouped, hwords]
        exact ⟨_, ho.new hargs, fun hkind => by cases hkind⟩
    | clone object => exact (hhead object (.head _)).clone span marks
    | _ => cases hform

/-! ### Expressions whose parts are told apart -/

/-- Whether the parts of a layer are told apart by the parentheses around them. -/
def Form.isSeparated : Form Node → Bool
  | notIdentical _ right => right.kind != .notIdentical
  | clone object => object.kind != .notIdentical
  | functionCall function _ =>
    function.kind != .propertyFetch && function.kind != .nullsafePropertyFetch
  | _ => true

/-- An expression whose parts are told apart by the parentheses around them. -/
def Node.IsSeparated (n : Node) : Prop :=
  n.All (·.form.isSeparated = true)

instance (n : Node) : Decidable n.IsSeparated :=
  inferInstanceAs (Decidable (n.All _))

/-- Such an expression is read with the grouping that it has. -/
theorem Node.regrouped_eq_erase {n : Node} (h : n.IsSeparated) : n.regrouped = n.erase .places := by
  induction n using Node.inductionOn with
  | step form span marks ih =>
    have hform : form.isSeparated = true := h.self
    rw [regrouped_mk, erase_mk, Form.map_congr fun c hc => ih c hc (h.child hc)]
    cases form with
    | notIdentical left right =>
      refine mapFirst_eq ?_ _
      simpa [kind_erase, Form.isSeparated] using hform
    | clone object =>
      refine mapFirst_eq ?_ _
      simpa [kind_erase, Form.isSeparated] using hform
    | functionCall function args =>
      refine call_eq ?_ _
      simpa [kind_erase, Form.isSeparated] using hform
    | _ => rfl

/-- The text of an expression determines the expression up to spans, marks and grouping. If the
parts of the expressions are told apart by the parentheses around them, it determines them up to
spans and marks. -/
theorem Node.toSource_eq_iff {a b : Node} (ha : a.IsSpelled) (hb : b.IsSpelled)
    (ha' : a.InstantiatesOperands) (hb' : b.InstantiatesOperands) :
    (a.toSource = b.toSource ↔ a.regrouped = b.regrouped) ∧
      (a.IsSeparated → b.IsSeparated →
        (a.toSource = b.toSource ↔ a.erase .places = b.erase .places)) := by
  have hregrouped : a.toSource = b.toSource ↔ a.regrouped = b.regrouped := by
    constructor
    · intro h
      have hchars : Word.chars a.words = Word.chars b.words := by
        rw [← toList_toSource ha, ← toList_toSource hb, h]
      have hwords := Word.chars_injective (sound_words ha) (sound_words hb) hchars
      exact Option.some.inj <| (readsBack ha ha').run_eq.symm.trans
        ((congrArg Parse.run hwords).trans (readsBack hb hb').run_eq)
    · intro h
      have hwords : a.words = b.words := by
        rw [words, ← spelling_regrouped, h, spelling_regrouped, words]
      rw [← String.toList_inj, toList_toSource ha, toList_toSource hb, hwords]
  refine ⟨hregrouped, fun ha'' hb'' => ?_⟩
  rw [hregrouped, regrouped_eq_erase ha'', regrouped_eq_erase hb'']

/-- The text `new $a->m(c: $x !== clone $a->b() !== -1)()`, printed from a tree with the grouping
in which it is read, from that tree with a span, and from one with another grouping. -/
theorem Node.toSource_eq_iff_of_instantiation :
    let compare (l r : Node) := synthesized (.notIdentical l r)
    let instantiate (n : Node) := synthesized (.new (synthesized (.methodCall (Node.var "a") "m"
      [{ value := n, name := some "c" }])) [])
    let called := synthesized (.functionCall (synthesized (.propertyFetch (Node.var "a") "b")) [])
    let nested := instantiate (compare (Node.var "x")
      (synthesized (.clone (compare called (synthesized (.int (-1)))))))
    let flat := instantiate (compare (compare (Node.var "x")
      (synthesized (.clone (synthesized (.methodCall (Node.var "a") "b" [])))))
      (synthesized (.int (-1))))
    let read := { flat with span := some ⟨0, 43⟩ }
    (∀ n ∈ [nested, flat, read], n.IsSpelled ∧ n.InstantiatesOperands ∧
      n.toSource = "new $a->m(c: $x !== clone $a->b() !== -1)()") ∧
    (flat.IsSeparated ∧ read.IsSeparated) ∧
    (nested.erase .places ≠ flat.erase .places ∧ nested.regrouped = flat.regrouped) ∧
      read ≠ flat ∧ read.erase .places = flat.erase .places := by
  intro compare instantiate called nested flat read
  have hprinted : ∀ n ∈ [nested, flat, read], n.IsSpelled ∧ n.InstantiatesOperands ∧
      n.toSource = "new $a->m(c: $x !== clone $a->b() !== -1)()" := by decide +kernel
  have hseparated : flat.IsSeparated ∧ read.IsSeparated := by decide +kernel
  obtain ⟨hnested, hnested', hnestedText⟩ := hprinted nested (.head _)
  obtain ⟨hflat, hflat', hflatText⟩ := hprinted flat (.tail _ (.head _))
  obtain ⟨hread, hread', hreadText⟩ := hprinted read (.tail _ (.tail _ (.head _)))
  refine ⟨hprinted, hseparated, ⟨by decide +kernel, ?_⟩, by decide +kernel, ?_⟩
  · exact (toSource_eq_iff hnested hflat hnested' hflat').1.1 (hnestedText.trans hflatText.symm)
  · exact ((toSource_eq_iff hread hflat hread' hflat').2 hseparated.2 hseparated.1).1
      (hreadText.trans hflatText.symm)

/-- Where the parts of an expression are not told apart, another one can have its text: a called
property is printed like a method, a comparison on the right of another one or after `clone` as if
it stood around it, and an assignment, a comparison or a ternary after `new` likewise. -/
theorem Node.toSource_not_injective :
    let a := Node.var "a"
    let b := Node.var "b"
    let c := Node.var "c"
    let compare (l r : Node) := synthesized (.notIdentical l r)
    let call (f : Node) := synthesized (.functionCall f [])
    let new (n : Node) := synthesized (.new n [])
    let pairs : List (Node × Node) := [
      (call (synthesized (.propertyFetch a "b")), synthesized (.methodCall a "b" [])),
      (call (synthesized (.nullsafePropertyFetch a "b")),
        synthesized (.nullsafeMethodCall a "b" [])),
      (compare a (compare b c), compare (compare a b) c),
      (synthesized (.clone (compare a b)), compare (synthesized (.clone a)) b),
      (new (compare (call a) b), compare (new a) (call b)),
      (new (synthesized (.ternary (call a) b c)), synthesized (.ternary (new a) b (call c))),
      (new (synthesized (.assign a (compare (call b) c))),
        compare (new (synthesized (.assign a b))) (call c))]
    ∀ p ∈ pairs, p.1.IsSpelled ∧ p.2.IsSpelled ∧ p.1.toSource = p.2.toSource ∧
      p.1.erase .places ≠ p.2.erase .places := by
  decide +kernel

end SyntaxLowering
