import Mathlib.Algebra.Group.Nat.Defs
import Mathlib.Data.Finset.Card
import Mathlib.Data.Finset.Range
import Mathlib.Data.List.DropRight
import Mathlib.Data.PFun
import SyntaxLowering.Proofs.NameHistories

/-!
# How far counters go

`NameSupply.nextNumber` searches among finitely many numbers. Here the search is run as a loop that
nothing bounds, on counters that may be too small for what they count (`countUp`). It ends because
different numbers give different names and only finitely many names are taken.

For every number that a counter has passed there is a name of its own to blame: one that was given,
or that some request had reserved. `NameSupply.Accounts` says so of a set of names. So a counter is
never ahead of the number of names that the requests for the file had to do with (`involved`),
although each request reserves other names and the names of several stems overlap.
-/

namespace SyntaxLowering

/-! ### The loop -/

/-- Counts up from a number to the next one that is not taken. Nothing bounds the search; it has no
result if it never ends or comes to a number that does not fit. -/
def countUp (fits taken : Nat → Bool) : Nat →. Nat :=
  PFun.fix fun n =>
    if fits (n + 1) then
      if taken (n + 1) then .some (.inr (n + 1)) else .some (.inl (n + 1))
    else .none

theorem countUp_eq_some {fits taken : Nat → Bool} {n m : Nat} (hlt : n < m)
    (hfits : ∀ i ≤ m, fits i = true) (htaken : ∀ i, n < i → i < m → taken i = true)
    (hfree : taken m = false) : countUp fits taken n = .some m := by
  obtain ⟨d, rfl⟩ : ∃ d, m = n + 1 + d := ⟨m - (n + 1), by omega⟩
  rw [Part.eq_some_iff]
  -- the loop takes one more round for every taken number in between
  induction d generalizing n with
  | zero =>
    apply PFun.fix_stop
    rw [if_pos (hfits _ (by omega)), if_neg (by simpa using hfree)]
    exact Part.mem_some _
  | succ d ih =>
    have hnext : n + 1 + (d + 1) = n + 1 + 1 + d := by omega
    rw [hnext] at hfits htaken hfree ⊢
    have hround := ih (by omega) hfits (fun i hi him => htaken i (by omega) him) hfree
    refine PFun.mem_fix_iff.2 (.inr ⟨n + 1, ?_, hround⟩)
    rw [if_pos (hfits _ (by omega)), if_pos (htaken _ (by omega) (by omega))]
    exact Part.mem_some _

namespace NameSupply

/-- A new name for a file, found by the loop, if the loop has a result. -/
def allocateWithin (fits : Nat → Bool) (s : NameSupply) (file : FileId) (stem : String)
    (reserved : List String) : Part (String × NameSupply) := do
  let s := s.enter file
  let n ← countUp fits
    (fun n => reserved.contains (numbered stem n) || s.issued.contains (numbered stem n))
    (s.counter stem)
  return (numbered stem n, s.issue stem n)

/-- Answers requests in order by the loop. -/
def serveWithin (fits : Nat → Bool) (s : NameSupply) :
    List NameRequest → Part (List String × NameSupply)
  | [] => .some ([], s)
  | r :: rs => do
    let (name, s) ← s.allocateWithin fits r.file r.stem r.reserved
    let (names, s) ← s.serveWithin fits rs
    return (name :: names, s)

/-- The loop ends at the number that is granted, if all numbers up to there fit. -/
theorem allocateWithin_eq {fits : Nat → Bool} (s : NameSupply) (file : FileId) (stem : String)
    (reserved : List String)
    (hfits : ∀ i ≤ (s.enter file).nextNumber stem reserved, fits i = true) :
    s.allocateWithin fits file stem reserved = .some (s.allocate file stem reserved) := by
  obtain ⟨⟨hlt, hreserved, hissued⟩, hleast⟩ := (s.enter file).isLeast_nextNumber stem reserved
  unfold allocateWithin
  dsimp only
  rw [countUp_eq_some hlt hfits]
  · exact Part.bind_some _ _
  · intro i hi hlt'
    by_contra hfree
    simp only [Bool.or_eq_true, List.contains_iff_mem, not_or] at hfree
    have := hleast ⟨hi, hfree⟩
    omega
  · simp [hreserved, hissued]

theorem serveWithin_eq {fits : Nat → Bool} {s : NameSupply} {rs : List NameRequest}
    (hfits : ∀ before r after, rs = before ++ r :: after →
      ∀ i ≤ ((s.serve before).2.enter r.file).nextNumber r.stem r.reserved, fits i = true) :
    s.serveWithin fits rs = .some (s.serve rs) := by
  induction rs generalizing s with
  | nil => rfl
  | cons r rs ih =>
    have hrest : (s.allocate r.file r.stem r.reserved).2.serveWithin fits rs =
        .some ((s.allocate r.file r.stem r.reserved).2.serve rs) := by
      refine ih fun before r' after heq => ?_
      exact hfits (r :: before) r' after (by rw [heq, List.cons_append])
    rw [serveWithin, s.allocateWithin_eq r.file r.stem r.reserved (hfits [] r rs rfl),
      Part.bind_eq_bind, Part.bind_some]
    dsimp only
    rw [hrest]
    exact Part.bind_some _ _

theorem counter_allocate (s : NameSupply) (file : FileId) (stem : String)
    (reserved : List String) :
    (s.allocate file stem reserved).2.counter stem = (s.enter file).nextNumber stem reserved := by
  show ((s.enter file).issue stem _).counter stem = _
  rw [counter_issue, if_pos rfl]

/-! ### The names behind a counter -/

/-- Every number that a counter has passed gives a name of the set, and so does every name given
out. -/
structure Accounts (used : Finset String) (s : NameSupply) : Prop where
  passed : ∀ stem n, 0 < n → n ≤ s.counter stem → numbered stem n ∈ used
  issued : ∀ x ∈ s.issued, x ∈ used

/-- Different numbers give different names, so a counter has not passed more numbers than there
are names. -/
theorem Accounts.counter_le {used : Finset String} {s : NameSupply} (h : s.Accounts used)
    (stem : String) : s.counter stem ≤ used.card := by
  let name (n : Nat) : String := numbered stem (n + 1)
  have hinjective : name.Injective := fun _ _ heq => Nat.succ_injective (numbered_injective heq)
  have hsub : (Finset.range (s.counter stem)).image name ⊆ used := by
    intro x hx
    obtain ⟨n, hn, rfl⟩ := Finset.mem_image.1 hx
    exact h.passed stem (n + 1) n.succ_pos (Finset.mem_range.1 hn)
  calc s.counter stem = ((Finset.range (s.counter stem)).image name).card := by
        rw [Finset.card_image_of_injective _ hinjective, Finset.card_range]
    _ ≤ used.card := Finset.card_le_card hsub

theorem accounts_new (file : Option FileId) : Accounts ∅ { file } where
  passed _ _ hpos hle := absurd hpos (Nat.not_lt.2 hle)
  issued _ hx := absurd hx List.not_mem_nil

/-- A supply keeps its account in the file at hand and has nothing to account for in another. -/
theorem Accounts.enter {used : Finset String} {s : NameSupply} (h : s.Accounts used)
    (file : FileId) :
    (s.enter file).Accounts (if s.file = some file then used else ∅) := by
  by_cases hfile : s.file = some file
  · rwa [NameSupply.enter, if_pos hfile, if_pos hfile]
  · rw [NameSupply.enter, if_neg hfile, if_neg hfile]
    exact accounts_new (some file)

/-- An allocation accounts for the numbers it passes by names that are reserved or given already,
and for the number it stops at by the name it gives. -/
theorem Accounts.allocate {used : Finset String} {s : NameSupply} {file : FileId}
    (h : (s.enter file).Accounts used) (stem : String) (reserved : List String) :
    (s.allocate file stem reserved).2.Accounts
      (insert (s.allocate file stem reserved).1 (used ∪ reserved.toFinset)) := by
  have hleast := (s.enter file).isLeast_nextNumber stem reserved
  have hused {x : String} (hx : x ∈ used) :
      x ∈ insert (s.allocate file stem reserved).1 (used ∪ reserved.toFinset) :=
    Finset.mem_insert_of_mem (Finset.mem_union_left _ hx)
  constructor
  · intro stem' n hpos hle
    by_cases hstem : stem = stem'
    · subst hstem
      rw [counter_allocate] at hle
      by_cases hpassed : n ≤ (s.enter file).counter stem
      · exact hused (h.passed stem n hpos hpassed)
      rcases Nat.eq_or_lt_of_le hle with rfl | hlt
      · exact Finset.mem_insert_self _ _
      · -- the number was passed over, so its name is taken
        by_contra hfree
        simp only [Finset.mem_insert, Finset.mem_union, List.mem_toFinset, not_or] at hfree
        have := hleast.2 ⟨by omega, hfree.2.2, fun hissued => hfree.2.1 (h.issued _ hissued)⟩
        omega
    · have hcounter : (s.allocate file stem reserved).2.counter stem' =
          (s.enter file).counter stem' := by
        show ((s.enter file).issue stem _).counter stem' = _
        rw [counter_issue, if_neg hstem]
      rw [hcounter] at hle
      exact hused (h.passed stem' n hpos hle)
  · intro x hx
    rcases List.mem_cons.1 (show x ∈ _ :: (s.enter file).issued from hx) with rfl | hx
    · exact Finset.mem_insert_self _ _
    · exact hused (h.issued x hx)

end NameSupply

/-! ### The current block of a history -/

/-- The supply that has answered some requests. -/
def NameSupply.after (history : List NameRequest) : NameSupply :=
  (({} : NameSupply).serve history).2

/-- The requests with the names they were given. -/
def answered (history : List NameRequest) : List (NameRequest × String) :=
  history.zip (({} : NameSupply).serve history).1

/-- The requests since the file changed last, with the names they were given. -/
def currentBlock (history : List NameRequest) : List (NameRequest × String) :=
  (answered history).rtakeWhile fun p => (NameSupply.after history).file = some p.1.file

/-- The names that the current block had to do with: those given and those reserved. -/
def involved (history : List NameRequest) : Finset String :=
  ((currentBlock history).flatMap fun p => p.2 :: p.1.reserved).toFinset

section Concat

variable (history : List NameRequest) (r : NameRequest)

theorem after_concat : NameSupply.after (history ++ [r]) =
    ((NameSupply.after history).allocate r.file r.stem r.reserved).2 := by
  rw [NameSupply.after, NameSupply.serve_append]
  rfl

theorem answered_concat : answered (history ++ [r]) = answered history ++
    [(r, ((NameSupply.after history).allocate r.file r.stem r.reserved).1)] := by
  rw [answered, NameSupply.serve_append]
  exact List.zip_append (NameSupply.length_serve {} history).symm

theorem file_after_concat : (NameSupply.after (history ++ [r])).file = some r.file := by
  rw [after_concat, NameSupply.allocate_file]

/-- A request goes on with the block of its file or begins a new one. -/
theorem currentBlock_concat : currentBlock (history ++ [r]) =
    (if (NameSupply.after history).file = some r.file then currentBlock history else []) ++
      [(r, ((NameSupply.after history).allocate r.file r.stem r.reserved).1)] := by
  rw [currentBlock, file_after_concat, answered_concat,
    List.rtakeWhile_concat_pos _ _ _ (by simp)]
  congr 1
  by_cases hfile : (NameSupply.after history).file = some r.file
  · rw [if_pos hfile, ← hfile]
    rfl
  · rw [if_neg hfile]
    -- the supply belongs to the file of the request before, which is another one
    rcases List.eq_nil_or_concat history with rfl | ⟨init, last, rfl⟩
    · rfl
    · rw [List.concat_eq_append] at hfile ⊢
      rw [file_after_concat] at hfile
      rw [answered_concat]
      exact List.rtakeWhile_concat_neg _ _ _ (by simpa [eq_comm] using hfile)

theorem involved_concat : involved (history ++ [r]) =
    insert ((NameSupply.after history).allocate r.file r.stem r.reserved).1
      ((if (NameSupply.after history).file = some r.file then involved history else ∅) ∪
        r.reserved.toFinset) := by
  rw [involved, currentBlock_concat, List.flatMap_append, List.toFinset_append,
    List.flatMap_singleton, List.toFinset_cons, Finset.union_insert]
  split <;> rfl

end Concat

theorem accounts_after (history : List NameRequest) :
    (NameSupply.after history).Accounts (involved history) := by
  induction history using List.reverseRecOn with
  | nil => exact NameSupply.accounts_new none
  | append_singleton history r ih =>
    rw [after_concat, involved_concat]
    exact (ih.enter r.file).allocate r.stem r.reserved

/-- Names are always found, and counters stay small. Whatever was requested, the loop ends on every
request. No counter is above the number of names that the current block had to do with. So as long
as these are fewer than `2 ^ 64` names, counters of 64 bits give the same answers. -/
theorem serve_counters_bounded (history : List NameRequest) :
    ({} : NameSupply).serveWithin (fun _ => true) history =
      .some (({} : NameSupply).serve history) ∧
    (∀ stem, (NameSupply.after history).counter stem ≤ (involved history).card) ∧
    ((∀ earlier, earlier <+: history → (involved earlier).card < 2 ^ 64) →
      ({} : NameSupply).serveWithin (fun n => n < 2 ^ 64) history =
        .some (({} : NameSupply).serve history)) := by
  refine ⟨NameSupply.serveWithin_eq fun _ _ _ _ _ _ => rfl, (accounts_after history).counter_le,
    fun hsmall => NameSupply.serveWithin_eq fun before r after heq i hi => ?_⟩
  have hprefix : before ++ [r] <+: history := ⟨after, by rw [heq, List.append_assoc]; rfl⟩
  have hinvolved := hsmall _ hprefix
  -- the number that is granted is the counter after the request
  have hcounter := (accounts_after (before ++ [r])).counter_le r.stem
  rw [after_concat, NameSupply.counter_allocate] at hcounter
  rw [decide_eq_true_eq]
  exact Nat.lt_of_le_of_lt (Nat.le_trans hi hcounter) hinvolved

/-- The bound is reached: after a request in another file, the stem `t` passes ten reserved names,
gets `t11`, loses `t12` to the stem `t1`, and gets `t13`. -/
theorem serve_counters_bounded_of_overlapping_stems :
    let history : List NameRequest := [⟨"b.php", "t", ["t1", "x"]⟩,
      ⟨"a.php", "t", (List.range 10).map fun n => numbered "t" (n + 1)⟩, ⟨"a.php", "t1", []⟩,
      ⟨"a.php", "t", []⟩]
    (∀ earlier, earlier <+: history → (involved earlier).card < 2 ^ 64) ∧
      ({} : NameSupply).serveWithin (fun n => n < 2 ^ 64) history =
        .some (({} : NameSupply).serve history) ∧
      (NameSupply.after history).counter "t" ≤ (involved history).card ∧
      (NameSupply.after history).counter "t" = 13 ∧ (involved history).card = 13 := by
  intro history
  have hsmall : ∀ earlier, earlier <+: history → (involved earlier).card < 2 ^ 64 := by
    intro earlier hearlier
    have hall : ∀ earlier ∈ history.inits, (involved earlier).card < 2 ^ 64 := by decide +kernel
    exact hall earlier ((List.mem_inits earlier history).2 hearlier)
  obtain ⟨-, hcounter, hwords⟩ := serve_counters_bounded history
  exact ⟨hsmall, hwords hsmall, hcounter "t", by decide +kernel, by decide +kernel⟩

end SyntaxLowering
