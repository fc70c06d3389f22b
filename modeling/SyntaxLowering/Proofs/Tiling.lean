import Mathlib.Data.List.Chain
import SyntaxLowering.Proofs.ByteScan

/-!
# Tokens tile their text

`Tiles start tokens cs` says that the tokens are cut out of the text `cs` one after the other, the
first from offset `start` on, and that nothing of the text is left over. All that is said here of
the spans and texts of `scan` follows from the one fact that its tokens tile the source
(`scanFrom_tiles`).
-/

namespace SyntaxLowering

/-- The tokens divide a text whose first character stands at byte offset `start`. -/
inductive Tiles : Nat → List Token → List Char → Prop
  | nil (start : Nat) : Tiles start [] []
  | cons {start : Nat} (kind : TokenKind) {text : List Char} {tokens : List Token}
      {rest : List Char} (hne : text ≠ [])
      (hrest : Tiles (start + (utf8 text).length) tokens rest) :
      Tiles start (.startingAt start kind (.ofList text) :: tokens) (text ++ rest)

theorem Token.stop_startingAt (start : Nat) (kind : TokenKind) (text : List Char) :
    (startingAt start kind (.ofList text)).span.stop = start + (utf8 text).length := by
  rw [← utf8ByteSize_ofList]
  rfl

theorem scanFrom_tiles (start : Nat) (cs : List Char) : Tiles start (scanFrom start cs) cs := by
  fun_induction scanFrom start cs with
  | case1 start => exact .nil start
  | case2 start c cs lexeme token ih =>
    have htiles : Tiles start (token :: scanFrom token.span.stop lexeme.rest)
        (c :: lexeme.tail ++ lexeme.rest) := by
      refine .cons lexeme.kind (List.cons_ne_nil c lexeme.tail) ?_
      rwa [← Token.stop_startingAt]
    rwa [List.cons_append, Lexeme.first_append] at htiles

namespace Tiles

variable {start : Nat} {tokens : List Token} {cs : List Char}

theorem eq_nil_iff (h : Tiles start tokens cs) : tokens = [] ↔ cs = [] := by
  cases h with
  | nil => simp
  | cons kind hne hrest => simp [hne]

theorem start_head (h : Tiles start tokens cs) : ∀ t ∈ tokens.head?, t.span.start = start := by
  intro t ht
  cases h with
  | nil => simp at ht
  | cons kind hne hrest =>
    obtain rfl := Option.some.inj ht
    rfl

theorem stop_getLast (h : Tiles start tokens cs) :
    ∀ t ∈ tokens.getLast?, t.span.stop = start + (utf8 cs).length := by
  intro t ht
  induction h with
  | nil => simp at ht
  | @cons start kind text tokens rest hne hrest ih =>
    rw [length_utf8_append, ← Nat.add_assoc]
    cases tokens with
    | nil =>
      obtain rfl : _ = t := Option.some.inj ht
      rw [List.getLast_singleton, Token.stop_startingAt, hrest.eq_nil_iff.1 rfl, utf8_nil,
        List.length_nil, Nat.add_zero]
    | cons t' tokens => exact ih (by rwa [List.getLast?_cons_cons] at ht)

/-- There are neither gaps between the tokens nor overlaps. -/
theorem isChain (h : Tiles start tokens cs) :
    tokens.IsChain fun t t' => t.span.stop = t'.span.start := by
  induction h with
  | nil => exact .nil
  | cons kind hne hrest ih =>
    refine List.isChain_cons.2 ⟨?_, ih⟩
    intro t ht
    rw [Token.stop_startingAt, hrest.start_head t ht]

/-- No token is empty. -/
theorem nonempty (h : Tiles start tokens cs) :
    ∀ t ∈ tokens, t.text ≠ "" ∧ t.span.start < t.span.stop := by
  induction h with
  | nil => simp
  | @cons start kind text tokens rest hne hrest ih =>
    refine List.forall_mem_cons.2 ⟨⟨?_, ?_⟩, ih⟩
    · intro hempty
      exact hne (String.ofList_eq_empty_iff.1 hempty)
    · have hpos := length_utf8_pos hne
      rw [Token.stop_startingAt]
      show start < start + _
      omega

/-- No token ends behind the text. -/
theorem stop_le (h : Tiles start tokens cs) :
    ∀ t ∈ tokens, t.span.stop ≤ start + (utf8 cs).length := by
  induction h with
  | nil => exact List.forall_mem_nil _
  | @cons start kind text tokens rest hne hrest ih =>
    rw [length_utf8_append]
    refine List.forall_mem_cons.2 ⟨?_, fun t ht => ?_⟩
    · rw [Token.stop_startingAt]
      omega
    · have := ih t ht
      omega

/-- Every token is found again at its span. -/
theorem slice?_span (h : Tiles start tokens cs) (before : List Char)
    (hstart : start = (utf8 before).length) :
    ∀ t ∈ tokens, slice? (before ++ cs) t.span.start t.span.stop = some t.text.toList := by
  induction h generalizing before with
  | nil => simp
  | @cons start kind text tokens rest hne hrest ih =>
    subst hstart
    rw [← List.append_assoc]
    refine List.forall_mem_cons.2 ⟨?_, ih _ (length_utf8_append ..).symm⟩
    rw [Token.stop_startingAt]
    show slice? _ (utf8 before).length _ = some (String.ofList text).toList
    rw [slice?_append, String.toList_ofList]

theorem flatMap_text (h : Tiles start tokens cs) : tokens.flatMap (·.text.toList) = cs := by
  induction h with
  | nil => rfl
  | cons kind hne hrest ih =>
    rw [List.flatMap_cons, ih]
    show (String.ofList _).toList ++ _ = _
    rw [String.toList_ofList]

/-- As no token is empty, each starts before all that follow it. -/
theorem pairwise_start (h : Tiles start tokens cs) :
    tokens.Pairwise fun t t' => t.span.start < t'.span.start := by
  have : IsTrans Token fun t t' => t.span.start < t'.span.start := ⟨fun _ _ _ => Nat.lt_trans⟩
  apply List.isChain_iff_pairwise.1
  refine h.isChain.imp_of_mem_imp ?_
  intro t t' ht _ heq
  rw [← heq]
  exact (h.nonempty t ht).2

end Tiles

/-- Scanning is lossless. It ends without an improper cut, and the tokens, none of which is empty,
stand side by side from the first byte of the source to its last. -/
theorem scan_tiles_source (s : String) :
    ByteScan.scan? s = some (scan s) ∧
      (∀ t ∈ (scan s).head?, t.span.start = 0) ∧
      ((scan s).IsChain fun t t' => t.span.stop = t'.span.start) ∧
      (∀ t ∈ (scan s).getLast?, t.span.stop = s.utf8ByteSize) ∧
      (scan s = [] ↔ s = "") ∧
      (∀ t ∈ scan s, t.text ≠ "" ∧ t.span.start < t.span.stop ∧
        slice? s.toList t.span.start t.span.stop = some t.text.toList) ∧
      String.join ((scan s).map (·.text)) = s ∧
      (scan s).Pairwise fun t t' => t.span.start < t'.span.start := by
  have htiles : Tiles 0 (scan s) s.toList := scanFrom_tiles 0 s.toList
  have hslice := htiles.slice?_span [] rfl
  refine ⟨ByteScan.scan?_eq s, htiles.start_head, htiles.isChain, ?_, ?_, ?_, ?_,
    htiles.pairwise_start⟩
  · intro t ht
    rw [htiles.stop_getLast t ht, utf8ByteSize_eq, Nat.zero_add]
  · rw [htiles.eq_nil_iff, String.toList_eq_nil_iff]
  · intro t ht
    obtain ⟨hne, hlt⟩ := htiles.nonempty t ht
    exact ⟨hne, hlt, hslice t ht⟩
  · apply String.toList_injective
    rw [String.toList_join, List.flatMap_map]
    exact htiles.flatMap_text

end SyntaxLowering
