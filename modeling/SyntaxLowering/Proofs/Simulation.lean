import SyntaxLowering.Proofs.Evaluation

/-!
# Simulation of evaluations

`Simulates G p q` says that wherever `p` ends with a value, `q` ends with the same value and the
same events, and the stores agree outside `G` if they did so before. A layer keeps simulations of
its children (`Semantics.evalWhere_simulates`), which is all that a rewriting has to know about
evaluation.
-/

namespace SyntaxLowering

variable {V : Type}

/-- The second computation does what the first does wherever that ends with a value. -/
def Extends {α : Type} (p q : Evaluation V α) : Prop :=
  ∀ m r, p m = some r → q m = some r

theorem Extends.bind {α β : Type} {p q : Evaluation V α} {f g : α → Evaluation V β}
    (h : Extends p q) (hfg : ∀ a, Extends (f a) (g a)) : Extends (p >>= f) (q >>= g) := by
  intro m r hrun
  obtain ⟨⟨a, l⟩, hp, hf⟩ := Option.bind_eq_some_iff.1 hrun
  exact Option.bind_eq_some_iff.2 ⟨(a, l), h m _ hp, hfg a l r hf⟩

theorem Extends.failure {α : Type} (q : Evaluation V α) : Extends failure q := by
  rintro m r ⟨⟩

theorem Extends.parametric (S : Semantics V) :
    S.Parametric Set.univ Set.univ (Extends (V := V)) where
  pure _ _ _ h := h
  bind := .bind
  failure := .failure
  lookup _ _ _ _ h := h
  assign _ _ _ _ _ h := h
  perform _ _ _ h := h

/-- Two machines that saw the same events and have the same variables outside a set. -/
structure AgreeOff (G : Set String) (m m' : Machine V) : Prop where
  trace : m'.trace = m.trace
  store : ∀ x ∉ G, m'.store x = m.store x

/-- Whenever the first computation ends with a value, so does the second, from every machine that
agrees outside a set, and the machines agree afterwards. -/
def Simulates {α : Type} (G : Set String) (p q : Evaluation V α) : Prop :=
  ∀ m m' a k, AgreeOff G m m' → p m = some (a, k) → ∃ k', q m' = some (a, k') ∧ AgreeOff G k k'

namespace Simulates

open Evaluation

variable {α β : Type} {G H : Set String} {p q r : Evaluation V α}

theorem pure (a : α) : Simulates (V := V) G (pure a) (pure a) := by
  rintro m m' _ _ hagree ⟨⟩
  exact ⟨m', rfl, hagree⟩

theorem bind {f g : α → Evaluation V β} (h : Simulates G p q)
    (hfg : ∀ a, Simulates G (f a) (g a)) : Simulates G (p >>= f) (q >>= g) := by
  intro m m' b k hagree hrun
  obtain ⟨⟨a, l⟩, hp, hf⟩ := Option.bind_eq_some_iff.1 hrun
  obtain ⟨l', hq, hagree'⟩ := h m m' a l hagree hp
  obtain ⟨k', hg, hagree''⟩ := hfg a l l' b k hagree' hf
  exact ⟨k', Option.bind_eq_some_iff.2 ⟨(a, l'), hq, hg⟩, hagree''⟩

theorem failure : Simulates G failure q := by
  intro m m' a k _ hrun
  cases hrun

theorem lookup {x : String} (hx : x ∉ G) :
    Simulates (V := V) G (Evaluation.lookup x) (Evaluation.lookup x) := by
  rintro m m' _ _ hagree ⟨⟩
  exact ⟨m', by rw [Evaluation.lookup, hagree.store x hx], hagree⟩

theorem assign (x : String) (v : V) :
    Simulates G (Evaluation.assign x v) (Evaluation.assign x v) := by
  rintro m m' _ _ hagree ⟨⟩
  refine ⟨_, rfl, hagree.trace, fun y hy => ?_⟩
  show (if y = x then v else m'.store y) = if y = x then v else m.store y
  rw [hagree.store y hy]

theorem perform (S : Semantics V) (event : Event V) :
    Simulates G (S.perform event) (S.perform event) := by
  rintro m m' _ _ hagree ⟨⟩
  refine ⟨{ m' with trace := event :: m'.trace }, ?_, ?_, hagree.store⟩
  · rw [Semantics.perform, hagree.trace]
  · rw [hagree.trace]

theorem assign_then {x : String} {v : V} (h : Simulates {x} p q) :
    Simulates {x} p (Evaluation.assign x v >>= fun _ => q) := by
  intro m m' a k hagree hrun
  refine h m _ a k ⟨hagree.trace, fun y hy => ?_⟩ hrun
  exact (if_neg hy).trans (hagree.store y hy)

/-- One simulation after another; the machine in between takes from each side what the other
simulation does not look at. -/
theorem trans (h : Simulates G p q) (h' : Simulates H q r) : Simulates (G ∪ H) p r := by
  classical
  intro m m' a k hagree hrun
  let between : Machine V := ⟨fun x => if x ∈ G then m'.store x else m.store x, m.trace⟩
  obtain ⟨l, hq, hl⟩ := h m between a k ⟨rfl, fun x hx => if_neg hx⟩ hrun
  have hbetween : AgreeOff H between m' := by
    refine ⟨hagree.trace, fun x hx => ?_⟩
    by_cases hG : x ∈ G
    · exact (if_pos hG).symm
    · exact (hagree.store x (by simp [hG, hx])).trans (if_neg hG).symm
  obtain ⟨k', hr, hk'⟩ := h' between m' a l hbetween hq
  refine ⟨k', hr, hk'.trace.trans hl.trace, fun x hx => ?_⟩
  rw [Set.mem_union, not_or] at hx
  exact (hk'.store x hx.2).trans (hl.store x hx.1)

/-- Simulation holds of all evaluations that read no variable of the set. -/
theorem parametric (S : Semantics V) (G : Set String) :
    S.Parametric Gᶜ Set.univ (Simulates G) where
  pure := .pure
  bind := .bind
  failure _ := .failure
  lookup _ hx := .lookup hx
  assign x _ v := .assign x v
  perform := .perform S

end Simulates

namespace Semantics

variable {S : Semantics V} {accepts accepts' : V → Bool} {G : Set String}

/-- A layer keeps simulations of its children, if it reads no variable of the set outside of which
the machines agree. -/
theorem evalWhere_simulates (haccepts : ∀ v, accepts v = true → accepts' v = true)
    {form g : Form Node} {span span' : Option Span} {marks marks' : Marks}
    (h : Form.Rel (fun c d => c.varName? = d.varName? ∧
      Simulates G (S.evalWhere accepts c) (S.evalWhere accepts' d)) form g)
    (hown : ∀ x ∈ form.ownVariables, x ∉ G) :
    Simulates G (S.evalWhere accepts ⟨form, span, marks⟩)
      (S.evalWhere accepts' ⟨g, span', marks'⟩) :=
  (Simulates.parametric S G).evalWhere haccepts h hown fun _ _ => trivial

/-- Variables that an expression does not mention do not matter to it. -/
theorem evalWhere_frame (haccepts : ∀ v, accepts v = true → accepts' v = true) {n : Node}
    (hn : ∀ x ∈ n.variableNames, x ∉ G) :
    Simulates G (S.evalWhere accepts n) (S.evalWhere accepts' n) :=
  (Simulates.parametric S G).evalWhere_self haccepts hn fun _ _ => trivial

/-- Accepting every object does not change an evaluation that ends. -/
theorem eval_of_evalWhere {n : Node} {m k : Machine V} {v : V}
    (h : S.evalWhere accepts n m = some (v, k)) : S.eval n m = some (v, k) :=
  (Extends.parametric S).evalWhere_self (fun _ _ => rfl) (fun _ _ => trivial)
    (fun _ _ => trivial) m (v, k) h

/-- A simulation may ignore more variables, if they do not matter to what is simulated. -/
theorem simulates_mono {H : Set String} {n : Node} {q : Evaluation V V} (hGH : G ⊆ H)
    (hn : ∀ x ∈ n.variableNames, x ∉ H) (h : Simulates G (S.evalWhere accepts n) q) :
    Simulates H (S.evalWhere accepts n) q := by
  have hself : Simulates H (S.evalWhere accepts n) (S.evalWhere accepts n) :=
    evalWhere_frame (fun _ hv => hv) hn
  rw [← Set.union_eq_self_of_subset_right hGH]
  exact hself.trans h

end Semantics

/-! ### What a computation touches -/

/-- A computation that reads variables of `R` and assigns variables of `W` only. It adds to the
events, and where it adds none, the events before do not matter to it. -/
structure Footprint {α : Type} (R W : Set String) (p : Evaluation V α) : Prop where
  grows {m k : Machine V} {a : α} : p m = some (a, k) → m.trace <:+ k.trace
  writes {m k : Machine V} {a : α} : p m = some (a, k) → ∀ x ∉ W, k.store x = m.store x
  frame {G : Set String} : (∀ x ∈ R, x ∉ G) → Simulates G p p
  silent {G : Set String} : (∀ x ∈ R, x ∉ G) → ∀ {m m' k : Machine V} {a : α},
    (∀ x ∉ G, m'.store x = m.store x) → p m = some (a, k) → k.trace = m.trace →
      ∃ k', p m' = some (a, k') ∧ k'.trace = m'.trace ∧ ∀ x ∉ G, k'.store x = k.store x

namespace Footprint

variable {α β : Type} {R W R' W' : Set String} {p : Evaluation V α} {q : Evaluation V β}

theorem pure (a : α) : Footprint (V := V) R W (pure a) where
  grows := by
    rintro m _ _ ⟨⟩
    exact List.suffix_refl _
  writes := by
    rintro m _ _ ⟨⟩ _ _
    rfl
  frame _ := .pure a
  silent := by
    rintro G _ m m' _ _ hstore ⟨⟩ _
    exact ⟨m', rfl, rfl, hstore⟩

theorem bind {f : α → Evaluation V β} (hp : Footprint R W p) (hf : ∀ a, Footprint R W (f a)) :
    Footprint R W (p >>= f) where
  grows := by
    intro m k b hrun
    obtain ⟨⟨a, l⟩, hl, hk⟩ := Option.bind_eq_some_iff.1 hrun
    exact (hp.grows hl).trans ((hf a).grows hk)
  writes := by
    intro m k b hrun x hx
    obtain ⟨⟨a, l⟩, hl, hk⟩ := Option.bind_eq_some_iff.1 hrun
    exact ((hf a).writes hk x hx).trans (hp.writes hl x hx)
  frame hG := (hp.frame hG).bind fun a => (hf a).frame hG
  silent := by
    intro G hG m m' k b hstore hrun htrace
    obtain ⟨⟨a, l⟩, hl, hk⟩ := Option.bind_eq_some_iff.1 hrun
    -- the events only grow, so both parts add none
    have hml := hp.grows hl
    have hlk := (hf a).grows hk
    rw [htrace] at hlk
    have hmid : l.trace = m.trace := hlk.eq_of_length_le hml.length_le
    obtain ⟨l', hl', htrace', hstore'⟩ := hp.silent hG hstore hl hmid
    obtain ⟨k', hk', htrace'', hstore''⟩ := (hf a).silent hG hstore' hk (htrace.trans hmid.symm)
    exact ⟨k', Option.bind_eq_some_iff.2 ⟨(a, l'), hl', hk'⟩, htrace''.trans htrace', hstore''⟩

theorem failure : Footprint (V := V) R W (failure : Evaluation V α) where
  grows h := by cases h
  writes h := by cases h
  frame _ := .failure
  silent _ _ _ _ _ _ h := by cases h

theorem lookup {x : String} (hx : x ∈ R) : Footprint (V := V) R W (Evaluation.lookup x) where
  grows := by
    rintro m _ _ ⟨⟩
    exact List.suffix_refl _
  writes := by
    rintro m _ _ ⟨⟩ _ _
    rfl
  frame hG := .lookup (hG x hx)
  silent := by
    rintro G hG m m' _ _ hstore ⟨⟩ _
    exact ⟨m', by rw [Evaluation.lookup, hstore x (hG x hx)], rfl, hstore⟩

theorem assign {x : String} (hx : x ∈ W) (v : V) : Footprint R W (Evaluation.assign x v) where
  grows := by
    rintro m _ _ ⟨⟩
    exact List.suffix_refl _
  writes := by
    rintro m _ _ ⟨⟩ y hy
    exact if_neg fun hyx : y = x => hy (hyx ▸ hx)
  frame _ := .assign x v
  silent := by
    rintro G hG m m' _ _ hstore ⟨⟩ _
    refine ⟨_, rfl, rfl, fun y hy => ?_⟩
    show (if y = x then v else m'.store y) = if y = x then v else m.store y
    rw [hstore y hy]

theorem perform (S : Semantics V) (event : Event V) : Footprint R W (S.perform event) where
  grows := by
    rintro m _ _ ⟨⟩
    exact List.suffix_cons event m.trace
  writes := by
    rintro m _ _ ⟨⟩ _ _
    rfl
  frame _ := .perform S event
  silent := by
    rintro G hG m m' _ _ hstore ⟨⟩ htrace
    exact absurd htrace (List.cons_ne_self event m.trace)

theorem parametric (S : Semantics V) (R W : Set String) :
    S.Parametric R W fun p _ => Footprint R W p where
  pure := .pure
  bind := .bind
  failure _ := .failure
  lookup _ hx := .lookup hx
  assign _ hx v := .assign hx v
  perform := .perform S

/-- Two computations of which the first adds no events may be made in the other order, if neither
assigns a variable that the other reads. -/
theorem commute (hp : Footprint R W p) (hq : Footprint R' W' q) (hWR : W ⊆ R)
    (hWR' : ∀ x ∈ W, x ∉ R') (hRW' : ∀ x ∈ R, x ∉ W') {m l k : Machine V} {a : α} {b : β}
    (hl : p m = some (a, l)) (hsilent : l.trace = m.trace) (hk : q l = some (b, k)) :
    ∃ j, q m = some (b, j) ∧ p j = some (a, k) := by
  have hagree : AgreeOff W l m := ⟨hsilent.symm, fun x hx => (hp.writes hl x hx).symm⟩
  obtain ⟨j, hj, hjk⟩ := hq.frame (fun x hx hW => hWR' x hW hx) l m b k hagree hk
  obtain ⟨k', hk', htrace, hstore⟩ := hp.silent hRW' (hq.writes hj) hl hsilent
  have hkk' : k' = k := by
    obtain ⟨store, trace⟩ := k
    obtain ⟨store', trace'⟩ := k'
    congr 1
    · funext x
      by_cases hx : x ∈ W
      · have hx' : x ∉ W' := hRW' x (hWR hx)
        exact (hstore x hx').trans (hq.writes hk x hx').symm
      · exact (hp.writes hk' x hx).trans (hjk.store x hx)
    · exact htrace.trans hjk.trace
  exact ⟨j, hj, hkk' ▸ hk'⟩

end Footprint

end SyntaxLowering
