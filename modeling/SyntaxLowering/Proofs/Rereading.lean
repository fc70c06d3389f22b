import SyntaxLowering.Command.Run
import SyntaxLowering.Proofs.Isolation
import SyntaxLowering.Proofs.NestingGrowth
import SyntaxLowering.Proofs.Offsets

/-!
# What is written can be read again

A lowered unit that is written as JSON and read again is the same unit, unless it is nested too
deeply to be read (`SourceUnit.ofFile_pretty`). Lowering can make units three times as deep
(`Workbench.depth_process_le`), and a long chain of nullsafe accesses shows that what was read may
be written in a form that is refused.
-/

namespace SyntaxLowering

open Json

/-! ### Depths of units -/

theorem depth_tokens_le (tokens : List Token) : (tokensToJson tokens).depth ≤ 3 := by
  rw [← Nat.zero_add (Json.depth _), tokensToJson, add_depth_arr_le, List.forall_mem_map]
  exact ⟨by omega, fun t _ => Nat.le_refl 3⟩

theorem SourceUnit.depth_le_iff {u : SourceUnit} {b : Nat} :
    u.toJson.depth ≤ b ↔ 1 + (Json.nullable tokensToJson u.tokens).depth ≤ b ∧
      1 + u.tree.toJson.depth ≤ b := by
  rw [← Nat.zero_add u.toJson.depth, SourceUnit.toJson, add_depth_record_le]
  simp
  omega

/-- Lowering makes a unit at most three times as deep. -/
theorem Workbench.depth_process_le {cfg : Settings} {w : Workbench}
    (hrules : w.session.rules ⊆ cfg.catalog) (u : SourceUnit) :
    (w.process u).1.toUnit.toJson.depth ≤ 3 * u.toJson.depth := by
  have htree := Session.depth_transform_le hrules (some u.path) u.tree (some u.tokenStream)
  have htokens := depth_tokens_le u.tokenStream
  have hu := (SourceUnit.depth_le_iff.mp (Nat.le_refl u.toJson.depth)).2
  have htwo := u.tree.two_le_depth
  refine SourceUnit.depth_le_iff.mpr ⟨?_, ?_⟩
  · change 1 + (tokensToJson u.tokenStream).depth ≤ _
    omega
  · change 1 + (w.session.run u.path u.tree u.tokenStream).tree.toJson.depth ≤ _
    rw [Session.run]
    omega

/-! ### Reading what was written -/

/-- A unit that is written is read again, unless it is nested too deeply. -/
theorem SourceUnit.ofFile_pretty {u : SourceUnit} (hfits : u.OffsetsFit) :
    ofFile (some u.toJson.pretty) =
      if u.toJson.depth ≤ nestingLimit then .ok u else .error .malformed := by
  have hencodes := encodes hfits
  have hparse := parse?_pretty hencodes.proper
  split
  case isTrue hdepth =>
    rw [ofFile, decodeText?_of_variant hfits hdepth (.same _) hparse]
  case isFalse hdepth =>
    have hnone : decode nestingLimit u.toJson = none := by
      rw [← Option.not_isSome_iff_eq_none]
      exact fun hsome => hdepth (hencodes.depth_le hsome)
    rw [ofFile, decodeText?, hparse, Option.bind_some, hnone]

theorem Workbench.rules_processEach (w : Workbench) (us : List SourceUnit) :
    (w.processEach us).2.session.rules = w.session.rules := by
  induction us generalizing w with
  | nil => rfl
  | cons u us ih => exact ih (w.process u).2

namespace Command

/-- **What is written can be read again, if it is not nested too deeply.** Take a unit that was
read from a text, lowered by a workbench made from settings, after any other units, and written as
JSON. If it is not nested too deeply, reading gives the lowered unit; otherwise it is refused.
Lowering makes a unit at most three times as deep as its own encoding. -/
theorem content_reread (cfg : Settings) (w : Workbench) (hw : Workbench.ofSettings cfg = .ok w)
    (earlier : List SourceUnit) (text : String) (u : SourceUnit)
    (hload : SourceUnit.ofFile (some text) = .ok u)
    (hsize : ∀ source ∈ u.source, source.utf8ByteSize < 2 ^ 64) :
    let result := ((w.processEach earlier).2.process u).1
    SourceUnit.ofFile (some (content false result)) =
      (if result.toUnit.toJson.depth ≤ nestingLimit then .ok result.toUnit
        else .error .malformed) ∧
    result.toUnit.toJson.depth ≤ 3 * u.toJson.depth := by
  intro result
  have hrules : (w.processEach earlier).2.session.rules ⊆ cfg.catalog := by
    rw [Workbench.rules_processEach]
    exact (Workbench.isNew_of_ofSettings hw).rules
  have hfits := Workbench.offsetsFit_process hrules (SourceUnit.offsetsFit_of_ofFile hload) hsize
  refine ⟨?_, Workbench.depth_process_le hrules u⟩
  rw [content, if_neg Bool.false_ne_true]
  exact SourceUnit.ofFile_pretty hfits

/-- A chain of nullsafe accesses. -/
def chain (links : Nat) (source : Option String) : SourceUnit where
  path := "b.php"
  source := source
  tree := links.repeat (fun n => Node.synthesized (.nullsafePropertyFetch n "p")) (Node.var "a")

theorem ofFile_compact {u : SourceUnit} (hfits : u.OffsetsFit)
    (hdepth : u.toJson.depth ≤ nestingLimit) :
    SourceUnit.ofFile (some u.toJson.compact) = .ok u := by
  rw [SourceUnit.ofFile, SourceUnit.decodeText?_of_variant hfits hdepth (.same _)
    (parse?_compact (SourceUnit.encodes hfits).proper)]

/-- Two accesses, whose tokens are scanned, after a unit of the same path. -/
theorem content_reread_of_two_links :
    let u := chain 2 (some "$a?->p?->p")
    let result := ((Workbench.usual.processEach [chain 1 none]).2.process u).1
    Workbench.ofSettings {} = .ok .usual ∧
      SourceUnit.ofFile (some u.toJson.compact) = .ok u ∧
      result.changed = true ∧ result.tokens.length = 9 ∧
      SourceUnit.ofFile (some (content false result)) = .ok result.toUnit := by
  intro u result
  have hload : SourceUnit.ofFile (some u.toJson.compact) = .ok u :=
    ofFile_compact ⟨by decide, nofun⟩ (by decide +kernel)
  have hsize : ∀ source ∈ u.source, source.utf8ByteSize < 2 ^ 64 := by
    rintro _ ⟨⟩
    decide +kernel
  have hreread :=
    (content_reread {} .usual Workbench.ofSettings_usual [chain 1 none] _ u hload hsize).1
  have hdepth : result.toUnit.toJson.depth ≤ nestingLimit := by decide +kernel
  refine ⟨Workbench.ofSettings_usual, hload, by decide +kernel, by decide +kernel, hreread.trans ?_⟩
  rw [if_pos hdepth]

/-- A unit that is read is written in a form that is refused: every access of the chain is turned
into a ternary and an assignment around it, which takes twice its levels. -/
theorem long_chain_refused :
    Workbench.ofSettings {} = .ok .usual ∧
      SourceUnit.ofFile (some (chain 21 none).toJson.compact) = .ok (chain 21 none) ∧
      SourceUnit.ofFile (some (content false (Workbench.usual.process (chain 21 none)).1)) =
        .error .malformed := by
  have hfits : (chain 21 none).OffsetsFit := ⟨by decide +kernel, nofun⟩
  have hdepth :
      ¬ (Workbench.usual.process (chain 21 none)).1.toUnit.toJson.depth ≤ nestingLimit := by
    decide +kernel
  refine ⟨Workbench.ofSettings_usual, ofFile_compact hfits (by decide +kernel), ?_⟩
  rw [content, if_neg Bool.false_ne_true,
    SourceUnit.ofFile_pretty (Workbench.offsetsFit_process Workbench.usual_rules hfits nofun),
    if_neg hdepth]

end Command

end SyntaxLowering
