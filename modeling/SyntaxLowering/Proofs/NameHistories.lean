import Mathlib.Data.List.Induction
import Mathlib.Order.Bounds.Defs
import SyntaxLowering.Proofs.FreshNames

/-!
# Names over whole histories

A supply of names answers requests for any files, stems and reserved names, one after another.
`NameSupply.Recalls` says what it knows of the requests it has granted in a file: the last number
of each stem, and the names. Every request is granted the least number that is still open to it
(`NameSupply.Recalls.allocate`), and a block of requests for one file that begins where the file
changes is answered as by a new supply.
-/

namespace SyntaxLowering

/-- A request for a new name. -/
structure NameRequest where
  file : FileId
  stem : String
  reserved : List String
deriving DecidableEq, Repr

/-- A request and the number it was granted. -/
structure Grant where
  request : NameRequest
  number : Nat
deriving DecidableEq, Repr

/-- The name that was given. -/
def Grant.name (g : Grant) : String :=
  numbered g.request.stem g.number

/-- The number of the last grant to a stem, 0 if there is none. -/
def lastNumber (grants : List Grant) (stem : String) : Nat :=
  ((grants.reverse.find? (·.request.stem == stem)).map (·.number)).getD 0

/-- The numbers above the last one of the stem whose names are neither reserved nor given. -/
def openNumbers (grants : List Grant) (r : NameRequest) : Set Nat :=
  {n | lastNumber grants r.stem < n ∧ numbered r.stem n ∉ r.reserved ∧
    numbered r.stem n ∉ grants.map (·.name)}

theorem lastNumber_concat (grants : List Grant) (g : Grant) (stem : String) :
    lastNumber (grants ++ [g]) stem =
      if g.request.stem = stem then g.number else lastNumber grants stem := by
  unfold lastNumber
  rw [List.reverse_append, List.reverse_singleton, List.singleton_append, List.find?_cons]
  by_cases h : g.request.stem = stem
  · simp [h]
  · simp [h, beq_eq_false_iff_ne.2 h]

/-! ### One request -/

theorem le_firstFree (taken : Nat → Bool) (bound n : Nat) : n ≤ firstFree taken bound n := by
  induction bound generalizing n with
  | zero => exact Nat.le_refl n
  | succ bound ih =>
    rw [firstFree]
    split
    · exact Nat.le_of_succ_le (ih (n + 1))
    · exact Nat.le_refl n

/-- The bounded search passes over taken numbers only. -/
theorem taken_of_lt_firstFree {taken : Nat → Bool} {bound n m : Nat} (hn : n ≤ m)
    (hm : m < firstFree taken bound n) : taken m = true := by
  induction bound generalizing n with
  | zero =>
    rw [firstFree] at hm
    omega
  | succ bound ih =>
    rw [firstFree] at hm
    split at hm
    · next htaken =>
      rcases Nat.eq_or_lt_of_le hn with rfl | hlt
      · exact htaken
      · exact ih hlt hm
    · omega

namespace NameSupply

theorem isLeast_nextNumber (s : NameSupply) (stem : String) (reserved : List String) :
    IsLeast {n | s.counter stem < n ∧ numbered stem n ∉ reserved ∧ numbered stem n ∉ s.issued}
      (s.nextNumber stem reserved) := by
  constructor
  · exact ⟨le_firstFree _ _ _, s.nextNumber_free stem reserved⟩
  · rintro m ⟨hm, hreserved, hissued⟩
    by_contra hlt
    have htaken := taken_of_lt_firstFree hm (Nat.lt_of_not_le hlt)
    simp only [Bool.or_eq_true, List.contains_iff_mem] at htaken
    exact htaken.elim hreserved hissued

theorem counter_issue (s : NameSupply) (stem : String) (n : Nat) (stem' : String) :
    (s.issue stem n).counter stem' = if stem = stem' then n else s.counter stem' := by
  unfold counter issue
  rw [List.lookup_cons]
  by_cases h : stem = stem'
  · simp [h]
  · -- only entries of the other stem are taken out
    have hlookup : (s.counters.filter (·.1 != stem)).lookup stem' = s.counters.lookup stem' := by
      induction s.counters with
      | nil => rfl
      | cons c counters ih =>
        by_cases hc : c.1 = stem
        · have hne : (stem' == c.1) = false := by
            rw [beq_eq_false_iff_ne, hc]
            exact Ne.symm h
          rw [List.filter_cons_of_neg (by simp [hc]), ih, List.lookup_cons, hne]
        · rw [List.filter_cons_of_pos (by simp [hc]), List.lookup_cons, List.lookup_cons, ih]
    rw [beq_eq_false_iff_ne.2 (Ne.symm h), if_neg h, hlookup]

/-- What a supply knows of the requests it has granted in a file. -/
structure Recalls (file : FileId) (grants : List Grant) (s : NameSupply) : Prop where
  counter : ∀ stem, (s.enter file).counter stem = lastNumber grants stem
  issued : ∀ x, x ∈ (s.enter file).issued ↔ x ∈ grants.map (·.name)

theorem recalls_new (file : FileId) : Recalls file [] {} where
  counter _ := rfl
  issued _ := Iff.rfl

/-- A request is granted the least number that is open to it. -/
theorem Recalls.allocate {file : FileId} {grants : List Grant} {s : NameSupply}
    (h : s.Recalls file grants) {r : NameRequest} (hr : r.file = file) :
    ∃ n, IsLeast (openNumbers grants r) n ∧
      (s.allocate r.file r.stem r.reserved).1 = (Grant.mk r n).name ∧
      (s.allocate r.file r.stem r.reserved).2.Recalls file (grants ++ [⟨r, n⟩]) := by
  subst hr
  let n := (s.enter r.file).nextNumber r.stem r.reserved
  have hleast := (s.enter r.file).isLeast_nextNumber r.stem r.reserved
  have hstay : (s.allocate r.file r.stem r.reserved).2.enter r.file =
      (s.enter r.file).issue r.stem n := by
    rw [enter, if_pos (s.allocate_file r.file r.stem r.reserved)]
    rfl
  refine ⟨n, ?_, rfl, ?_, ?_⟩
  · simpa only [openNumbers, h.counter, h.issued] using hleast
  · intro stem
    rw [hstay, counter_issue, lastNumber_concat, h.counter]
  · intro x
    rw [hstay, List.map_append, List.mem_append, ← h.issued]
    show x ∈ numbered r.stem n :: (s.enter r.file).issued ↔ _
    rw [List.mem_cons, List.map_singleton, List.mem_singleton, or_comm]
    exact Iff.rfl

/-! ### Requests one after another -/

/-- Answers requests in order. -/
def serve (s : NameSupply) : List NameRequest → List String × NameSupply
  | [] => ([], s)
  | r :: rs =>
    let (name, s) := s.allocate r.file r.stem r.reserved
    let (names, s) := s.serve rs
    (name :: names, s)

theorem serve_cons (s : NameSupply) (r : NameRequest) (rs : List NameRequest) :
    s.serve (r :: rs) =
      ((s.allocate r.file r.stem r.reserved).1 ::
        ((s.allocate r.file r.stem r.reserved).2.serve rs).1,
      ((s.allocate r.file r.stem r.reserved).2.serve rs).2) :=
  rfl

theorem length_serve (s : NameSupply) (rs : List NameRequest) :
    (s.serve rs).1.length = rs.length := by
  induction rs generalizing s with
  | nil => rfl
  | cons r rs ih => exact congrArg (· + 1) (ih _)

theorem serve_append (s : NameSupply) (rs rs' : List NameRequest) :
    s.serve (rs ++ rs') =
      ((s.serve rs).1 ++ ((s.serve rs).2.serve rs').1, ((s.serve rs).2.serve rs').2) := by
  induction rs generalizing s with
  | nil => rfl
  | cons r rs ih =>
    rw [List.cons_append, serve_cons, serve_cons, ih]
    rfl

/-- A supply belongs to the file of the last request. -/
theorem serve_file_ne {s : NameSupply} {file : FileId} (hs : s.file ≠ some file)
    {rs : List NameRequest} (hrs : ∀ r ∈ rs.getLast?, r.file ≠ file) :
    (s.serve rs).2.file ≠ some file := by
  rcases List.eq_nil_or_concat rs with rfl | ⟨init, last, rfl⟩
  · exact hs
  · have hlast : last.file ≠ file := hrs last (by simp)
    rw [List.concat_eq_append, serve_append]
    show ((s.serve init).2.allocate last.file last.stem last.reserved).2.file ≠ some file
    rw [allocate_file]
    exact fun heq => hlast (Option.some.inj heq)

/-- Requests for a file are answered in the same way by supplies that it cannot tell apart. -/
theorem AlikeIn.serve_eq {s s' : NameSupply} {file : FileId} (h : s.AlikeIn file s')
    {rs : List NameRequest} (hrs : ∀ r ∈ rs, r.file = file) : (s.serve rs).1 = (s'.serve rs).1 := by
  cases rs with
  | nil => rfl
  | cons r rs =>
    have hr : r.file = file := hrs r List.mem_cons_self
    rw [serve_cons, serve_cons, hr, h.allocate_eq]

/-- Requests for one file are each granted the least number that is open to them by then. -/
theorem Recalls.serve {file : FileId} {granted : List Grant} {s : NameSupply}
    (h : s.Recalls file granted) {rs : List NameRequest} (hrs : ∀ r ∈ rs, r.file = file) :
    ∃ grants : List Grant, grants.map (·.request) = rs ∧
      grants.map (·.name) = (s.serve rs).1 ∧
      (s.serve rs).2.Recalls file (granted ++ grants) ∧
      ∀ earlier g later, grants = earlier ++ g :: later →
        IsLeast (openNumbers (granted ++ earlier) g.request) g.number := by
  induction rs generalizing s granted with
  | nil =>
    refine ⟨[], rfl, rfl, ?_, ?_⟩
    · rw [List.append_nil]
      exact h
    · intro earlier g later heq
      simp at heq
  | cons r rs ih =>
    obtain ⟨n, hleast, hname, hrecalls⟩ := h.allocate (hrs r List.mem_cons_self)
    obtain ⟨grants, hrequests, hnames, hrest, hlaw⟩ :=
      ih hrecalls fun r' hr' => hrs r' (List.mem_cons_of_mem r hr')
    refine ⟨⟨r, n⟩ :: grants, ?_, ?_, ?_, ?_⟩
    · rw [List.map_cons, hrequests]
    · rw [List.map_cons, hnames, serve_cons, hname]
    · rw [List.append_cons]
      exact hrest
    · intro earlier g later heq
      cases earlier with
      | nil =>
        obtain ⟨rfl, -⟩ := List.cons.inj heq
        rw [List.append_nil]
        exact hleast
      | cons g' earlier =>
        obtain ⟨rfl, hgrants⟩ := List.cons.inj heq
        rw [List.append_cons]
        exact hlaw earlier g later hgrants

end NameSupply

/-- Grants that each avoid the names before them have different names. -/
theorem nodup_names_of_isLeast {grants : List Grant}
    (h : ∀ earlier g later, grants = earlier ++ g :: later →
      IsLeast (openNumbers earlier g.request) g.number) : (grants.map (·.name)).Nodup := by
  induction grants using List.reverseRecOn with
  | nil => exact List.nodup_nil
  | append_singleton grants g ih =>
    have hg := h grants g [] rfl
    rw [List.map_append, List.map_singleton, ← List.concat_eq_append, List.nodup_concat]
    refine ⟨hg.1.2.2, ih fun earlier g' later heq => h earlier g' (later ++ [g]) ?_⟩
    rw [heq, List.append_assoc, List.cons_append]

/-- The law of a supply of names. Whatever was requested before, the requests for one file from
where the file changes get different names, none of them reserved for its request, each the stem
and the least number that is above the last one of the stem and whose name is neither reserved nor
given before in the block; and a new supply would give the same names. -/
theorem serve_block_least (before block after : List NameRequest) (file : FileId)
    (hbefore : ∀ r ∈ before.getLast?, r.file ≠ file) (hblock : ∀ r ∈ block, r.file = file) :
    let names := ((({} : NameSupply).serve (before ++ block ++ after)).1.drop before.length).take
      block.length
    names.Nodup ∧
    (∀ p ∈ block.zip names, p.2 ∉ p.1.reserved) ∧
    (∃ grants : List Grant, grants.map (·.request) = block ∧ grants.map (·.name) = names ∧
      ∀ earlier g later, grants = earlier ++ g :: later →
        1 ≤ g.number ∧ IsLeast (openNumbers earlier g.request) g.number) ∧
    names = (({} : NameSupply).serve block).1 := by
  intro names
  -- the supply belongs to another file when the block begins
  have hfile : (({} : NameSupply).serve before).2.file ≠ some file :=
    NameSupply.serve_file_ne (s := {}) nofun hbefore
  have hnames : names = (({} : NameSupply).serve block).1 := by
    rw [← (NameSupply.alikeIn_new hfile).serve_eq hblock]
    simp only [names, NameSupply.serve_append, List.append_assoc]
    rw [List.drop_left' (NameSupply.length_serve _ _),
      List.take_left' (NameSupply.length_serve _ _)]
  obtain ⟨grants, hrequests, hgrants, -, hlaw⟩ := (NameSupply.recalls_new file).serve hblock
  rw [← hnames] at hgrants
  refine ⟨?_, ?_, ⟨grants, hrequests, hgrants, fun earlier g later heq => ?_⟩, hnames⟩
  · rw [← hgrants]
    exact nodup_names_of_isLeast hlaw
  · intro p hp
    rw [← hrequests, ← hgrants, List.zip_map', List.mem_map] at hp
    obtain ⟨g, hg, rfl⟩ := hp
    obtain ⟨earlier, later, heq⟩ := List.append_of_mem hg
    exact (hlaw earlier g later heq).1.2.1
  · have hleast := hlaw earlier g later heq
    exact ⟨Nat.lt_of_le_of_lt (Nat.zero_le _) hleast.1.1, hleast⟩

/-- After a request in another file, `t11` goes to the stem `t`, so the stem `t1` gets `t12`, and
`t` goes on with `t13`. -/
theorem serve_block_least_of_overlapping_stems :
    let before : List NameRequest := [⟨"b.php", "t", []⟩]
    let block : List NameRequest :=
      [⟨"a.php", "t", (List.range 11).map (numbered "t")⟩, ⟨"a.php", "t1", []⟩, ⟨"a.php", "t", []⟩]
    let names := ((({} : NameSupply).serve (before ++ block ++ before)).1.drop 1).take 3
    (∀ r ∈ before.getLast?, r.file ≠ "a.php") ∧ (∀ r ∈ block, r.file = "a.php") ∧
      names.Nodup ∧ (∀ p ∈ block.zip names, p.2 ∉ p.1.reserved) ∧
      names = ["t11", "t12", "t13"] := by
  intro before block names
  have hbefore : ∀ r ∈ before.getLast?, r.file ≠ "a.php" := by decide
  have hblock : ∀ r ∈ block, r.file = "a.php" := by decide
  obtain ⟨hnodup, hreserved, -, hnames⟩ :=
    serve_block_least before block before "a.php" hbefore hblock
  exact ⟨hbefore, hblock, hnodup, hreserved, hnames.trans (by decide +kernel)⟩

end SyntaxLowering
