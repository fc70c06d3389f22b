import Mathlib.Algebra.BigOperators.Group.List.Basic
import Mathlib.Algebra.GroupWithZero.Nat
import SyntaxLowering.Proofs.Isolation

/-!
# Histories of sessions

A session comes about by adding rules, sorting them, changing the limit on revisits, clearing the
statistics and lowering trees, in any order (`Session.Reachable`). At every point of such a history
each rule has exactly one tally (`Session.Tallied`), so a run adds each of its calls to exactly one
of them, and what the tallies hold together grows by what the run did.
-/

namespace SyntaxLowering

/-- The sessions that come about. -/
inductive Session.Reachable : Session → Prop
  | new : Reachable {}
  | add {s : Session} (rule : Rule) (h : Reachable s) : Reachable (s.add rule)
  | sorted {s : Session} (h : Reachable s) : Reachable s.sortByPriority
  | limited {s : Session} (maxRevisits : Nat) (h : Reachable s) : Reachable { s with maxRevisits }
  | cleared {s : Session} (h : Reachable s) : Reachable s.clearTallies
  | ran {s : Session} (file : Option FileId) (tree : Node) (tokens : Option (List Token))
      (h : Reachable s) : Reachable (s.transform file tree tokens).session

/-- A session that keeps one tally for each name of a rule. -/
structure Session.Tallied (s : Session) : Prop where
  nodup : (s.tallies.map (·.rule)).Nodup
  covers : ∀ rule ∈ s.rules, rule.name ∈ s.tallies.map (·.rule)

@[simp]
theorem Tally.rule_count (t : Tally) (calls : List Call) : (t.count calls).rule = t.rule := rfl

/-- What holds of each call of a rule on a node holds of the calls of a visit. -/
theorem Pass.forall_calls_of_visit {rules : List Rule} {ctx : Context} {Q : Call → Prop}
    (hcall : ∀ rule ∈ rules, ∀ kind n names,
      Q ⟨rule, kind, (rule.call ctx n names).verdict.outcome⟩)
    (revisits : Nat) (n : Node) (names : NameSupply) :
    ∀ c ∈ (visit rules ctx revisits n names).calls, Q c := by
  let P (_ : Node) (_ : NameSupply) (p : Progress Node) : Prop := ∀ c ∈ p.calls, Q c
  have hP : Compositional P := by
    refine ⟨fun _ _ c hc => absurd hc List.not_mem_nil, fun hp hq c hc => ?_⟩
    exact (List.mem_append.1 hc).elim (hp c) (hq c)
  refine visit_of_steps hP ?_ ?_ revisits n names
  · intro n names g calls names' _ hsweep
    have hcalls : ∀ {cs : List Node} {names : NameSupply} {p : Progress (List Node)},
        Sweep P cs names p → ∀ c ∈ p.calls, Q c := by
      intro cs names p h
      induction h with
      | nil => exact fun c hc => absurd hc List.not_mem_nil
      | cons head _ ih => exact fun c hc => (List.mem_append.1 hc).elim (head c) (ih c)
    exact hcalls hsweep
  · intro rule hrule kind n names c hc
    obtain rfl := List.mem_singleton.1 hc
    exact hcall rule hrule kind n names

/-- The calls of a visit are calls of its rules. -/
theorem Pass.rule_mem_of_visit (rules : List Rule) (ctx : Context) (revisits : Nat) (n : Node)
    (names : NameSupply) : ∀ c ∈ (visit rules ctx revisits n names).calls, c.rule ∈ rules :=
  forall_calls_of_visit (fun _ hrule _ _ _ => hrule) revisits n names

namespace Session

variable {s : Session}

theorem Tallied.add (h : s.Tallied) (rule : Rule) : (s.add rule).Tallied := by
  have hnames : (s.add rule).tallies.map (·.rule) =
      (s.tallies.map (·.rule)).filter (· != rule.name) ++ [rule.name] := by
    simp [Session.add, List.filter_map, Function.comp_def]
  constructor
  · rw [hnames, List.nodup_append]
    refine ⟨h.nodup.filter _, List.nodup_singleton _, ?_⟩
    rintro a ha b hb rfl
    obtain rfl := List.mem_singleton.1 hb
    simp at ha
  · intro r hr
    rw [hnames, List.mem_append]
    by_cases hname : r.name = rule.name
    · exact .inr (List.mem_singleton.2 hname)
    · rcases List.mem_append.1 hr with hr | hr
      · exact .inl (List.mem_filter.2 ⟨h.covers r hr, by simpa using hname⟩)
      · obtain rfl := List.mem_singleton.1 hr
        exact absurd rfl hname

/-- Whatever keeps the rules and the names of the tallies keeps one tally for each rule. -/
theorem Tallied.of_eq {t : Session} (h : s.Tallied) (hrules : t.rules ⊆ s.rules)
    (hnames : t.tallies.map (·.rule) = s.tallies.map (·.rule)) : t.Tallied :=
  ⟨hnames ▸ h.nodup, fun rule hrule => hnames ▸ h.covers rule (hrules hrule)⟩

theorem Reachable.tallied (h : s.Reachable) : s.Tallied := by
  induction h with
  | new => exact ⟨List.nodup_nil, fun _ hr => absurd hr List.not_mem_nil⟩
  | add rule _ ih => exact ih.add rule
  | sorted _ ih => exact ih.of_eq (fun _ hr => List.mem_mergeSort.1 hr) rfl
  | limited _ _ ih => exact ih.of_eq (List.Subset.refl _) rfl
  | cleared _ ih => exact ih.of_eq (List.Subset.refl _) (by simp [clearTallies, Function.comp_def])
  | ran _ _ _ _ ih => exact ih.of_eq (List.Subset.refl _) (by simp [transform, Function.comp_def])

theorem rule_tallyOf (s : Session) (rule : String) : (s.tallyOf rule).rule = rule := by
  unfold tallyOf
  cases hfind : s.tallies.find? (·.rule == rule) with
  | none => rfl
  | some t => simpa using List.find?_some hfind

/-- A run adds the calls of a rule to the tally of its name. -/
theorem Tallied.tallyOf_transform (h : s.Tallied) {rule : Rule} (hrule : rule ∈ s.rules)
    (file : Option FileId) (tree : Node) (tokens : Option (List Token)) :
    (s.transform file tree tokens).session.tallyOf rule.name =
      (s.tallyOf rule.name).count (s.transform file tree tokens).calls := by
  show ((s.tallies.map (·.count (s.transform file tree tokens).calls)).find?
    (·.rule == rule.name)).getD _ = ((s.tallies.find? (·.rule == rule.name)).getD _).count _
  rw [List.find?_map]
  show (Option.map _ (s.tallies.find? (·.rule == rule.name))).getD _ = _
  cases hfind : s.tallies.find? (·.rule == rule.name) with
  | some t => rfl
  | none =>
    obtain ⟨t, ht, hname⟩ := List.mem_map.1 (h.covers rule hrule)
    exact absurd (List.find?_eq_none.1 hfind t ht) (by simp [hname])

/-! ### Sums over all tallies -/

/-- How many replacements the tallies hold together. -/
def replacements (s : Session) : Nat :=
  (s.tallies.map (·.replacements)).sum

/-- Calls of some rules, no two of one name, are divided among the names. -/
theorem sum_countP_calls (p : Call → Bool) {names : List String} (hnodup : names.Nodup)
    {calls : List Call} (hcovers : ∀ c ∈ calls, c.rule.name ∈ names) :
    (names.map fun name => (calls.filter (·.rule.name == name)).countP p).sum =
      calls.countP p := by
  induction calls with
  | nil => simp
  | cons c calls ih =>
    have ih := ih fun d hd => hcovers d (List.mem_cons_of_mem c hd)
    have hsplit (name : String) : ((c :: calls).filter (·.rule.name == name)).countP p =
        (calls.filter (·.rule.name == name)).countP p +
          if c.rule.name = name ∧ p c then 1 else 0 := by
      by_cases hname : c.rule.name = name <;> simp [hname, List.countP_cons]
    -- the first call counts under its own name, which stands once in the list
    have hown : (names.map fun name => if c.rule.name = name ∧ p c then 1 else 0).sum =
        if p c then 1 else 0 := by
      rw [List.sum_map_eq_nsmul_single c.rule.name _ fun name hne _ =>
          if_neg fun h => hne h.1.symm,
        List.count_eq_one_of_mem hnodup (hcovers c List.mem_cons_self)]
      simp
    rw [List.map_congr_left fun name _ => hsplit name, List.sum_map_add, ih, hown,
      List.countP_cons]

/-- The tallies together grow by the replacements that a run makes. -/
theorem Tallied.replacements_transform (h : s.Tallied) (file : Option FileId) (tree : Node)
    (tokens : Option (List Token)) :
    (s.transform file tree tokens).session.replacements =
      s.replacements + (s.transform file tree tokens).calls.countP (·.outcome == .replaced) := by
  have hcovers : ∀ c ∈ (s.transform file tree tokens).calls,
      c.rule.name ∈ s.tallies.map (·.rule) :=
    fun c hc => h.covers c.rule (Pass.rule_mem_of_visit s.rules _ s.maxRevisits tree s.names c hc)
  rw [← sum_countP_calls _ h.nodup hcovers, List.map_map, replacements, replacements,
    ← List.sum_map_add]
  show ((s.tallies.map (·.count (s.transform file tree tokens).calls)).map _).sum = _
  rw [List.map_map]
  rfl

end Session

end SyntaxLowering
