import Mathlib.Data.List.Nodup
import Mathlib.Data.List.Perm.Subperm
import SyntaxLowering.FreshName

/-!
# Names drawn from a supply

One allocation gives a name that is neither reserved nor issued before in the file. `Draws` chains
the allocations of a run over one file: the names drawn are pairwise different and none of them is
reserved, whatever the supply held before and however the stems overlap.
-/

namespace SyntaxLowering

theorem numbered_injective {stem : String} {n m : Nat} (h : numbered stem n = numbered stem m) :
    n = m := by
  have hrepr : n.repr = m.repr := (String.append_right_inj stem).1 h
  have hdigits : Nat.toDigits 10 n = Nat.toDigits 10 m := by
    rw [← Nat.toList_repr, ← Nat.toList_repr, hrepr]
  rw [← Nat.ofDigitChars_toDigits (b := 10) (n := n) (by decide) (by decide), hdigits,
    Nat.ofDigitChars_toDigits (by decide) (by decide)]

/-! ### One allocation -/

/-- The bounded search finds a free number if there is one within the bound. -/
theorem firstFree_free {taken : Nat → Bool} {bound n : Nat}
    (h : ∃ i ≤ bound, taken (n + i) = false) : taken (firstFree taken bound n) = false := by
  induction bound generalizing n with
  | zero =>
    obtain ⟨i, hi, hfree⟩ := h
    obtain rfl : i = 0 := by omega
    exact hfree
  | succ bound ih =>
    rw [firstFree]
    split
    · next htaken =>
      obtain ⟨i, hi, hfree⟩ := h
      cases i with
      | zero => exact absurd (htaken.symm.trans hfree) (by decide)
      | succ i =>
        refine ih ⟨i, by omega, ?_⟩
        rw [← hfree]
        congr 1
        omega
    · next hfree => exact Bool.eq_false_iff.2 hfree

/-- Among more numbers than there are names in a list, one gives a name that is not in it. -/
theorem exists_numbered_not_mem (stem : String) (used : List String) (n : Nat) :
    ∃ i ≤ used.length, numbered stem (n + i) ∉ used := by
  by_contra hall
  have hmem : ∀ i ≤ used.length, numbered stem (n + i) ∈ used := by
    intro i hi
    by_contra hne
    exact hall ⟨i, hi, hne⟩
  -- the candidates are pairwise different, so they do not all fit into the list
  let candidates := (List.range (used.length + 1)).map fun i => numbered stem (n + i)
  have hnodup : candidates.Nodup := by
    refine List.Nodup.map (fun i j hij => ?_) List.nodup_range
    have := numbered_injective hij
    omega
  have hsub : candidates ⊆ used := by
    intro x hx
    obtain ⟨i, hi, rfl⟩ := List.mem_map.1 hx
    exact hmem i (by simpa [Nat.lt_succ_iff] using hi)
  have hlen := (hnodup.subperm hsub).length_le
  rw [List.length_map, List.length_range] at hlen
  omega

namespace NameSupply

variable (s : NameSupply) (file : FileId) (stem : String) (reserved : List String)

theorem nextNumber_free :
    numbered stem (s.nextNumber stem reserved) ∉ reserved ∧
      numbered stem (s.nextNumber stem reserved) ∉ s.issued := by
  obtain ⟨i, hi, hfree⟩ :=
    exists_numbered_not_mem stem (reserved ++ s.issued) (s.counter stem + 1)
  rw [List.length_append] at hi
  rw [List.mem_append, not_or] at hfree
  let taken n := reserved.contains (numbered stem n) || s.issued.contains (numbered stem n)
  have htaken : taken (s.nextNumber stem reserved) = false :=
    firstFree_free ⟨i, hi, by simp [hfree.1, hfree.2]⟩
  simpa [taken] using htaken

/-- An allocated name is not reserved. -/
theorem allocate_not_mem_reserved : (s.allocate file stem reserved).1 ∉ reserved :=
  ((s.enter file).nextNumber_free stem reserved).1

/-- An allocated name was not issued before in the file. -/
theorem allocate_not_mem_issued :
    (s.allocate file stem reserved).1 ∉ (s.enter file).issued :=
  ((s.enter file).nextNumber_free stem reserved).2

theorem allocate_eq_numbered : ∃ n, (s.allocate file stem reserved).1 = numbered stem n :=
  ⟨_, rfl⟩

/-- The supply after an allocation belongs to the file. -/
theorem allocate_file : (s.allocate file stem reserved).2.file = some file := by
  change (s.enter file).file = some file
  unfold enter
  split
  · assumption
  · rfl

/-- The supply after an allocation has the name among those issued. -/
theorem enter_allocate :
    ((s.allocate file stem reserved).2.enter file).issued =
      (s.allocate file stem reserved).1 :: (s.enter file).issued := by
  rw [enter, if_pos (s.allocate_file file stem reserved)]
  rfl

/-- Two supplies that are equal once a file is entered: the file cannot tell them apart. -/
def AlikeIn (file : FileId) (s s' : NameSupply) : Prop :=
  s.enter file = s'.enter file

variable {s file}

theorem AlikeIn.allocate_eq {s' : NameSupply} (h : s.AlikeIn file s') :
    s.allocate file stem reserved = s'.allocate file stem reserved := by
  unfold allocate
  rw [show s.enter file = s'.enter file from h]

/-- A supply that belongs to another file, or to none, is as good as a new one. -/
theorem alikeIn_new (h : s.file ≠ some file) : s.AlikeIn file {} := by
  show s.enter file = ({} : NameSupply).enter file
  rw [enter, if_neg h]
  rfl

end NameSupply

/-! ### The names drawn by a run -/

/-- Allocations one after another in a file, with stems from a list, and the names they give. -/
inductive Draws (stems : List String) (file : FileId) (reserved : List String) :
    NameSupply → List String → NameSupply → Prop
  | nil (s : NameSupply) : Draws stems file reserved s [] s
  | cons {s s' : NameSupply} {stem : String} {drawn : List String} (hstem : stem ∈ stems)
      (rest : Draws stems file reserved (s.allocate file stem reserved).2 drawn s') :
      Draws stems file reserved s ((s.allocate file stem reserved).1 :: drawn) s'

namespace Draws

variable {stems : List String} {file : FileId} {reserved : List String} {s s' s'' : NameSupply}
  {drawn drawn' : List String}

theorem single {stem : String} (hstem : stem ∈ stems) (s : NameSupply) :
    Draws stems file reserved s [(s.allocate file stem reserved).1]
      (s.allocate file stem reserved).2 :=
  .cons hstem (.nil _)

theorem append (h : Draws stems file reserved s drawn s')
    (h' : Draws stems file reserved s' drawn' s'') :
    Draws stems file reserved s (drawn ++ drawn') s'' := by
  induction h with
  | nil => exact h'
  | cons hstem _ ih => exact .cons hstem (ih h')

theorem not_mem_reserved (h : Draws stems file reserved s drawn s') :
    ∀ x ∈ drawn, x ∉ reserved := by
  induction h with
  | nil => simp
  | cons _ _ ih =>
    intro x hx
    rcases List.mem_cons.1 hx with rfl | hx
    · exact NameSupply.allocate_not_mem_reserved _ _ _ _
    · exact ih x hx

theorem exists_stem (h : Draws stems file reserved s drawn s') :
    ∀ x ∈ drawn, ∃ stem ∈ stems, ∃ n, x = numbered stem n := by
  induction h with
  | nil => simp
  | @cons s _ stem _ hstem _ ih =>
    intro x hx
    rcases List.mem_cons.1 hx with rfl | hx
    · exact ⟨stem, hstem, s.allocate_eq_numbered file stem reserved⟩
    · exact ih x hx

/-- No name is drawn that was issued in the file before. -/
theorem not_mem_issued (h : Draws stems file reserved s drawn s') :
    ∀ x ∈ drawn, x ∉ (s.enter file).issued := by
  induction h with
  | nil => simp
  | @cons s _ stem _ hstem _ ih =>
    intro x hx
    rcases List.mem_cons.1 hx with rfl | hx
    · exact NameSupply.allocate_not_mem_issued _ _ _ _
    · have := ih x hx
      rw [NameSupply.enter_allocate, List.mem_cons, not_or] at this
      exact this.2

/-- What was issued after the allocations are the names drawn and what was issued before. -/
theorem mem_issued (h : Draws stems file reserved s drawn s') {x : String} :
    x ∈ (s'.enter file).issued ↔ x ∈ drawn ∨ x ∈ (s.enter file).issued := by
  induction h with
  | nil => simp
  | cons _ _ ih => rw [ih, NameSupply.enter_allocate, List.mem_cons, List.mem_cons]; tauto

/-- The names drawn are pairwise different, whatever their stems. -/
theorem nodup (h : Draws stems file reserved s drawn s') : drawn.Nodup := by
  induction h with
  | nil => exact List.nodup_nil
  | @cons s _ stem _ hstem rest ih =>
    refine List.nodup_cons.2 ⟨fun hmem => ?_, ih⟩
    -- later draws avoid what is issued, and the first name is by then
    have := rest.not_mem_issued _ hmem
    rw [NameSupply.enter_allocate] at this
    exact this List.mem_cons_self

end Draws

end SyntaxLowering
