import SyntaxLowering.Proofs.Traversal

/-!
# What cleaning a list changes

`TrailingComma.cleanForm?` marks the last element of a list and nothing else: the cleaned layer has
the same children, its elements are the same up to their comma mark (`SameButComma`), and there is
nothing left to clean in it.
-/

namespace SyntaxLowering

/-- The marks of list elements can be read back and leave the rest of the element alone. -/
class LawfulListed (ε : Type) [Listed ε] : Prop where
  marks_withMarks : ∀ (e : ε) (m : Marks), Listed.marks (Listed.withMarks e m) = m
  span_withMarks : ∀ (e : ε) (m : Marks), Listed.span (Listed.withMarks e m) = Listed.span e
  withMarks_marks : ∀ e : ε, Listed.withMarks e (Listed.marks e) = e
  withMarks_withMarks : ∀ (e : ε) (m m' : Marks),
    Listed.withMarks (Listed.withMarks e m) m' = Listed.withMarks e m'

instance {α : Type} : LawfulListed (Arg α) :=
  ⟨fun _ _ => rfl, fun _ _ => rfl, fun _ => rfl, fun _ _ _ => rfl⟩

instance {α : Type} : LawfulListed (Param α) :=
  ⟨fun _ _ => rfl, fun _ _ => rfl, fun _ => rfl, fun _ _ _ => rfl⟩

instance : LawfulListed Capture :=
  ⟨fun _ _ => rfl, fun _ _ => rfl, fun _ => rfl, fun _ _ _ => rfl⟩

/-- Two list elements are the same up to whether a comma is forbidden after them. -/
def SameButComma {ε : Type} [Listed ε] (e e' : ε) : Prop :=
  ∃ suppressed, e' = Listed.withMarks e { Listed.marks e with commaSuppressed := suppressed }

namespace SameButComma

variable {ε : Type} [Listed ε] [LawfulListed ε] {e e' e'' : ε}

theorem refl (e : ε) : SameButComma e e :=
  ⟨(Listed.marks e).commaSuppressed, (LawfulListed.withMarks_marks e).symm⟩

theorem trans (h : SameButComma e e') (h' : SameButComma e' e'') : SameButComma e e'' := by
  obtain ⟨s, rfl⟩ := h
  obtain ⟨s', rfl⟩ := h'
  exact ⟨s', by rw [LawfulListed.withMarks_withMarks, LawfulListed.marks_withMarks]⟩

theorem isStale_eq (h : SameButComma e e') :
    isStale (Listed.span e') (Listed.marks e') = isStale (Listed.span e) (Listed.marks e) := by
  obtain ⟨s, rfl⟩ := h
  rw [LawfulListed.span_withMarks, LawfulListed.marks_withMarks]
  rfl

theorem arg_value {a b : Arg Node} (h : SameButComma a b) : b.value = a.value := by
  obtain ⟨s, rfl⟩ := h; rfl

theorem param_default {p q : Param Node} (h : SameButComma p q) : q.default = p.default := by
  obtain ⟨s, rfl⟩ := h; rfl

theorem param_name {p q : Param Node} (h : SameButComma p q) : q.name = p.name := by
  obtain ⟨s, rfl⟩ := h; rfl

theorem capture_name {c d : Capture} (h : SameButComma c d) : d.name = c.name := by
  obtain ⟨s, rfl⟩ := h; rfl

end SameButComma

theorem forall₂_map_eq {α β : Type} {R : α → α → Prop} {as bs : List α}
    (h : List.Forall₂ R as bs) (f : α → β) (hf : ∀ {a b}, R a b → f b = f a) :
    bs.map f = as.map f := by
  induction h with
  | nil => rfl
  | cons hab _ ih => rw [List.map_cons, List.map_cons, hf hab, ih]

namespace TrailingComma

variable {ctx : Context}

section Lists

variable {ε : Type} [Listed ε] [LawfulListed ε]

theorem isDue_withMarks (ctx : Context) (e : ε) :
    isDue ctx (Listed.withMarks e (Listed.marks e).suppressComma) = false := by
  simp [isDue, LawfulListed.marks_withMarks, Marks.suppressComma]

theorem clean?_forall₂ {es es' : List ε} (h : clean? ctx es = some es') :
    List.Forall₂ SameButComma es es' := by
  fun_induction clean? ctx es generalizing es' with
  | case1 => simp at h
  | case2 e hdue =>
    obtain rfl := Option.some.inj h
    exact .cons ⟨true, rfl⟩ .nil
  | case3 e hdue => simp at h
  | case4 e rest _ ih =>
    obtain ⟨rest', hrest, rfl⟩ := Option.map_eq_some_iff.1 h
    exact .cons (.refl e) (ih hrest)

/-- A cleaned list needs no cleaning. -/
theorem clean?_clean? {es es' : List ε} (h : clean? ctx es = some es') :
    clean? ctx es' = none := by
  fun_induction clean? ctx es generalizing es' with
  | case1 => simp at h
  | case2 e hdue =>
    obtain rfl := Option.some.inj h
    simp [clean?, isDue_withMarks]
  | case3 e hdue => simp at h
  | case4 e rest hrest ih =>
    obtain ⟨rest', hrest', rfl⟩ := Option.map_eq_some_iff.1 h
    cases rest' with
    | nil =>
      have := (clean?_forall₂ hrest').length_eq
      exact absurd (List.eq_nil_of_length_eq_zero this) (by simpa using hrest)
    | cons e' rest' => simp [clean?, ih hrest']

omit [LawfulListed ε] in
/-- Whether a list needs cleaning depends on the spans and comma marks of its elements. -/
theorem clean?_eq_none_congr {es es' : List ε}
    (h : List.Forall₂ (fun e e' => Listed.span e' = Listed.span e ∧
      (Listed.marks e').commaSuppressed = (Listed.marks e).commaSuppressed) es es')
    (hnone : clean? ctx es = none) : clean? ctx es' = none := by
  induction h with
  | nil => rfl
  | @cons e e' rest rest' hee hrest ih =>
    cases hrest with
    | nil =>
      have hdue : isDue ctx e' = isDue ctx e := by rw [isDue, isDue, hee.1, hee.2]
      rw [clean?, hdue]
      simpa [clean?] using hnone
    | cons _ _ =>
      rw [clean?, Option.map_eq_none_iff] at hnone ⊢
      · exact ih hnone
      all_goals simp

theorem clean?_getD (ctx : Context) (es : List ε) :
    List.Forall₂ SameButComma es ((clean? ctx es).getD es) ∧
      clean? ctx ((clean? ctx es).getD es) = none := by
  cases h : clean? ctx es with
  | none => exact ⟨List.forall₂_same.2 fun e _ => .refl e, h⟩
  | some es' => exact ⟨clean?_forall₂ h, clean?_clean? h⟩

omit [LawfulListed ε] in
theorem cleanBoth?_eq_some {ζ : Type} [Listed ζ] {es es' : List ε} {zs zs' : List ζ}
    (h : cleanBoth? ctx es zs = some (es', zs')) :
    es' = (clean? ctx es).getD es ∧ zs' = (clean? ctx zs).getD zs := by
  unfold cleanBoth? at h
  split at h
  · simp at h
  · simp only [Option.some.injEq, Prod.mk.injEq] at h
    exact ⟨h.1.symm, h.2.symm⟩

end Lists

/-- What cleaning does to a layer. -/
structure Cleaned (form form' : Form Node) : Prop where
  heads : form'.heads = form.heads
  args : List.Forall₂ SameButComma form.args form'.args
  params : List.Forall₂ SameButComma form.params form'.params
  captures : List.Forall₂ SameButComma form.captures form'.captures
  statements : form'.statements = form.statements
  kind : form'.kind = form.kind
  ownVariables : form'.ownVariables = form.ownVariables

theorem Cleaned.of_cleanForm? {form form' : Form Node} (h : cleanForm? ctx form = some form') :
    Cleaned form form' := by
  cases form with
  | functionCall | methodCall | staticCall | new =>
    obtain ⟨as, has, rfl⟩ := Option.map_eq_some_iff.1 h
    exact ⟨rfl, clean?_forall₂ has, .nil, .nil, rfl, rfl, rfl⟩
  | functionDecl | methodDecl =>
    obtain ⟨ps, hps, rfl⟩ := Option.map_eq_some_iff.1 h
    have hparams := clean?_forall₂ hps
    exact ⟨rfl, .nil, hparams, .nil, rfl, rfl,
      forall₂_map_eq hparams (·.name) SameButComma.param_name⟩
  | closure params captures body isStatic =>
    obtain ⟨⟨ps, cs⟩, hboth, rfl⟩ := Option.map_eq_some_iff.1 h
    obtain ⟨rfl, rfl⟩ := cleanBoth?_eq_some hboth
    have hparams := (clean?_getD ctx params).1
    have hcaptures := (clean?_getD ctx captures).1
    refine ⟨rfl, .nil, hparams, hcaptures, rfl, rfl, ?_⟩
    exact congrArg₂ (· ++ ·) (forall₂_map_eq hparams (·.name) SameButComma.param_name)
      (forall₂_map_eq hcaptures (·.name) SameButComma.capture_name)
  | _ => simp [cleanForm?] at h

/-- A cleaned layer needs no cleaning. -/
theorem cleanForm?_cleanForm? {form form' : Form Node} (h : cleanForm? ctx form = some form') :
    cleanForm? ctx form' = none := by
  cases form with
  | functionCall | methodCall | staticCall | new =>
    obtain ⟨as, has, rfl⟩ := Option.map_eq_some_iff.1 h
    simp [cleanForm?, clean?_clean? has]
  | functionDecl | methodDecl =>
    obtain ⟨ps, hps, rfl⟩ := Option.map_eq_some_iff.1 h
    simp [cleanForm?, clean?_clean? hps]
  | closure params captures body isStatic =>
    obtain ⟨⟨ps, cs⟩, hboth, rfl⟩ := Option.map_eq_some_iff.1 h
    obtain ⟨rfl, rfl⟩ := cleanBoth?_eq_some hboth
    simp [cleanForm?, cleanBoth?, (clean?_getD ctx params).2, (clean?_getD ctx captures).2]
  | _ => simp [cleanForm?] at h

/-- A layer of a kind that has lists is clean if its lists are. -/
theorem cleanForm?_eq_none_iff {form : Form Node} :
    cleanForm? ctx form = none ↔ (form.kind ∈ rule.kinds →
      clean? ctx form.args = none ∧ clean? ctx form.params = none ∧
        clean? ctx form.captures = none) := by
  have hboth {ε ζ : Type} [Listed ε] [Listed ζ] (es : List ε) (zs : List ζ) :
      cleanBoth? ctx es zs = none ↔ clean? ctx es = none ∧ clean? ctx zs = none := by
    unfold cleanBoth?
    split <;> simp_all
  cases form <;> simp [cleanForm?, hboth, rule, Form.kind, Form.args, Form.params, Form.captures,
    clean?]

theorem cleanForm?_kind {form form' : Form Node} (h : cleanForm? ctx form = some form') :
    form.kind ∈ rule.kinds := by
  by_contra hkind
  have hnone : cleanForm? ctx form = none :=
    cleanForm?_eq_none_iff.2 fun hmem => absurd hmem hkind
  rw [hnone] at h
  cases h

namespace Cleaned

variable {form form' : Form Node} (h : Cleaned form form')

include h

theorem values_eq : form'.args.map (·.value) = form.args.map (·.value) :=
  forall₂_map_eq h.args (·.value) SameButComma.arg_value

theorem defaults_eq :
    form'.params.filterMap (·.default) = form.params.filterMap (·.default) := by
  have := forall₂_map_eq h.params (·.default) SameButComma.param_default
  simpa [List.filterMap_map, Function.comp_def] using congrArg (List.filterMap id) this

theorem inline_eq : form'.inline = form.inline := by
  rw [Form.inline, Form.inline, h.heads, h.values_eq, h.defaults_eq]

theorem children_eq : form'.children = form.children := by
  rw [Form.children_eq, Form.children_eq form, h.inline_eq, h.statements]

end Cleaned

end TrailingComma

end SyntaxLowering
