import SyntaxLowering.Proofs.OrderedTokens
import SyntaxLowering.Proofs.TokenBoundaries

/-!
# Trailing commas in source text

Whether an element is followed by a trailing comma is decided on tokens. Here it is decided on
characters: `EndsList cs` says that the text `cs` starts with a comma and a closing delimiter, apart
from the blanks and comments that `skipTrivia` cuts off. At the end of a token both answers are the
same, so what stands in front of the end of an element has no part in it.
-/

namespace SyntaxLowering

/-! ### Text without its leading trivia -/

/-- The text after the next end of a block comment. A comment that is not closed leaves no text. -/
def afterBlock : List Char → List Char
  | [] => []
  | '*' :: '/' :: cs => cs
  | _ :: cs => afterBlock cs

theorem length_afterBlock_le (cs : List Char) : (afterBlock cs).length ≤ cs.length := by
  fun_induction afterBlock cs with
  | case1 => exact Nat.le_refl _
  | case2 cs => simp only [List.length_cons]; omega
  | case3 c cs hclose ih => simp only [List.length_cons]; omega

/-- The text after the blanks and comments it starts with. A line comment goes up to the next line
feed and leaves it in the text; a block comment goes up to and including the next end. -/
def skipTrivia : List Char → List Char
  | [] => []
  | '#' :: cs => skipTrivia (cs.dropWhile (· != '\n'))
  | '/' :: '/' :: cs => skipTrivia (cs.dropWhile (· != '\n'))
  | '/' :: '*' :: cs => skipTrivia (afterBlock cs)
  | c :: cs => if isBlank c then skipTrivia cs else c :: cs
termination_by cs => cs.length
decreasing_by
  · exact Nat.lt_succ_of_le (List.length_dropWhile_le _ cs)
  · exact Nat.lt_succ_of_lt (Nat.lt_succ_of_le (List.length_dropWhile_le _ cs))
  · exact Nat.lt_succ_of_lt (Nat.lt_succ_of_le (length_afterBlock_le cs))
  · exact Nat.lt_succ_self _

/-- A list ends at the start of this text with a comma after its last element. -/
def EndsList (cs : List Char) : Prop :=
  ∃ rest closer rest', skipTrivia cs = ',' :: rest ∧ skipTrivia rest = closer :: rest' ∧
    closer ∈ [')', ']', '}']

/-! ### The first lexeme -/

namespace Lexeme

theorem rest_block (kind : TokenKind) (cs : List Char) : (block kind cs).rest = afterBlock cs := by
  fun_induction block kind cs with
  | case1 => rfl
  | case2 => rfl
  | case3 c cs hclose ih =>
    rw [afterBlock]
    · exact ih
    · exact hclose

theorem kind_slash (cs : List Char) : (slash cs).kind ∈ [.comment, .docComment, .operator] := by
  fun_cases slash cs with
  | case1 => simp [run]
  | case2 cs => simp [push, kind_block]
  | case3 cs _ => simp [push, kind_block]
  | case4 => simp

/-- Only a delimiter gives a comma or a closing token. -/
theorem kind_first_of_delimiter?_eq_none {c : Char} (h : delimiter? c = none) (cs : List Char) :
    (first c cs).kind ≠ .comma ∧ (first c cs).kind.isClosing = false := by
  have hkinds : ∀ kind ∈ ([.whitespace, .comment, .docComment, .variableName, .identifier,
      .literal, .operator] : List TokenKind), kind ≠ .comma ∧ kind.isClosing = false := by decide
  have hslash : [.comment, .docComment, .operator] ⊆ ([.whitespace, .comment, .docComment,
      .variableName, .identifier, .literal, .operator] : List TokenKind) := by decide
  simp only [first, h]
  split_ifs
  · exact hkinds .whitespace (by decide)
  · exact hkinds .comment (by decide)
  · exact hkinds _ (hslash (kind_slash cs))
  · rw [kind_quoted]
    exact hkinds .literal (by decide)
  · exact hkinds .variableName (by decide)
  · exact hkinds .literal (by decide)
  · exact hkinds .identifier (by decide)
  · exact hkinds .operator (by decide)

theorem first_of_delimiter?_eq_some {c : Char} {kind : TokenKind} (h : delimiter? c = some kind)
    (cs : List Char) : first c cs = ⟨kind, [], cs⟩ := by
  simp only [first, h]

theorem of_delimiter?_eq_some {c : Char} {kind : TokenKind} (h : delimiter? c = some kind) :
    (kind = .comma ↔ c = ',') ∧ (kind.isClosing = true ↔ c ∈ [')', ']', '}']) ∧
      kind.isTrivia = false := by
  unfold delimiter? at h
  split at h <;> cases h <;> decide

theorem kind_first_eq_comma_iff (c : Char) (cs : List Char) :
    (first c cs).kind = .comma ↔ c = ',' := by
  cases h : delimiter? c with
  | none =>
    refine iff_of_false (kind_first_of_delimiter?_eq_none h cs).1 ?_
    rintro rfl
    exact absurd h (by decide)
  | some kind =>
    rw [first_of_delimiter?_eq_some h]
    exact (of_delimiter?_eq_some h).1

theorem isClosing_kind_first_iff (c : Char) (cs : List Char) :
    (first c cs).kind.isClosing = true ↔ c ∈ [')', ']', '}'] := by
  cases h : delimiter? c with
  | none =>
    refine iff_of_false (by simp [(kind_first_of_delimiter?_eq_none h cs).2]) ?_
    intro hc
    simp only [List.mem_cons, List.not_mem_nil, or_false] at hc
    obtain rfl | rfl | rfl := hc <;> exact absurd h (by decide)
  | some kind =>
    rw [first_of_delimiter?_eq_some h]
    exact (of_delimiter?_eq_some h).2.1

theorem first_of_isBlank {c : Char} (h : isBlank c = true) (cs : List Char) :
    first c cs = run .whitespace isBlank cs := by
  simp only [isBlank, Bool.or_eq_true, beq_iff_eq] at h
  obtain (((rfl | rfl) | rfl) | rfl) | rfl := h <;> rfl

theorem isTrivia_kind_first {c : Char} (hblank : isBlank c = false) (hhash : c ≠ '#')
    (hslash : c ≠ '/') (cs : List Char) : (first c cs).kind.isTrivia = false := by
  cases h : delimiter? c with
  | none =>
    simp only [first, h, hblank, Bool.false_eq_true, if_false, if_neg hhash, if_neg hslash]
    split_ifs
    · rw [kind_quoted]
      rfl
    · rfl
    · rfl
    · rfl
    · rfl
  | some kind =>
    rw [first_of_delimiter?_eq_some h]
    exact (of_delimiter?_eq_some h).2.2

end Lexeme

theorem skipTrivia_of_isBlank {c : Char} (h : isBlank c = true) (cs : List Char) :
    skipTrivia (c :: cs) = skipTrivia cs := by
  rw [skipTrivia, if_pos h]
  · rintro rfl
    exact absurd h (by decide)
  · rintro cs' rfl
    exact absurd h (by decide)
  · rintro cs' rfl
    exact absurd h (by decide)

theorem skipTrivia_dropWhile_isBlank (cs : List Char) :
    skipTrivia (cs.dropWhile isBlank) = skipTrivia cs := by
  induction cs with
  | nil => rfl
  | cons c cs ih =>
    by_cases h : isBlank c = true
    · rw [List.dropWhile_cons_of_pos h, ih, skipTrivia_of_isBlank h]
    · rw [List.dropWhile_cons_of_neg h]

theorem skipTrivia_of_other {c : Char} (hblank : isBlank c = false) (hhash : c ≠ '#')
    (hslash : c ≠ '/') (cs : List Char) : skipTrivia (c :: cs) = c :: cs := by
  rw [skipTrivia, if_neg (by simp [hblank])]
  · exact hhash
  · intro cs' hc
    exact absurd hc hslash
  · intro cs' hc
    exact absurd hc hslash

theorem skipTrivia_slash (cs : List Char) :
    skipTrivia ('/' :: cs) =
      if (Lexeme.slash cs).kind.isTrivia then skipTrivia (Lexeme.slash cs).rest else '/' :: cs := by
  fun_cases Lexeme.slash cs with
  | case1 cs => rw [skipTrivia]; simp [Lexeme.run, TokenKind.isTrivia]
  | case2 cs =>
    rw [skipTrivia]
    simp [Lexeme.push, Lexeme.kind_block, Lexeme.rest_block, TokenKind.isTrivia]
  | case3 cs _ =>
    rw [skipTrivia]
    simp [Lexeme.push, Lexeme.kind_block, Lexeme.rest_block, TokenKind.isTrivia]
  | case4 cs hline hdoc hblock =>
    rw [skipTrivia]
    · rfl
    · simp
    · intro cs' _ hcs
      exact hline cs' hcs
    · intro cs' _ hcs
      exact hblock cs' hcs

/-- Trivia are skipped lexeme by lexeme. -/
theorem skipTrivia_cons (c : Char) (cs : List Char) :
    skipTrivia (c :: cs) =
      if (Lexeme.first c cs).kind.isTrivia then skipTrivia (Lexeme.first c cs).rest
      else c :: cs := by
  by_cases hblank : isBlank c = true
  · rw [Lexeme.first_of_isBlank hblank, skipTrivia_of_isBlank hblank]
    exact (skipTrivia_dropWhile_isBlank cs).symm
  rw [Bool.not_eq_true] at hblank
  by_cases hhash : c = '#'
  · subst hhash
    rw [skipTrivia]
    rfl
  by_cases hslash : c = '/'
  · subst hslash
    exact skipTrivia_slash cs
  rw [Lexeme.isTrivia_kind_first hblank hhash hslash, skipTrivia_of_other hblank hhash hslash]
  rfl

/-! ### The tokens that are not trivia -/

/-- The tokens of a text that are not trivia. -/
def significant (start : Nat) (cs : List Char) : List Token :=
  (scanFrom start cs).filter fun t => !t.kind.isTrivia

theorem significant_nil (start : Nat) : significant start [] = [] := by
  rw [significant, scanFrom, List.filter_nil]

theorem significant_cons (start : Nat) (c : Char) (cs : List Char) :
    let lexeme := Lexeme.first c cs
    let token := Token.startingAt start lexeme.kind (.ofList (c :: lexeme.tail))
    significant start (c :: cs) =
      if lexeme.kind.isTrivia then significant token.span.stop lexeme.rest
      else token :: significant token.span.stop lexeme.rest := by
  intro lexeme token
  have hcons : significant start (c :: cs) =
      (token :: scanFrom token.span.stop lexeme.rest).filter fun t => !t.kind.isTrivia := by
    rw [significant, scanFrom]
  by_cases h : token.kind.isTrivia = true
  · rw [hcons, List.filter_cons_of_neg (by simpa using h)]
    exact (if_pos h).symm
  · rw [hcons, List.filter_cons_of_pos (by simpa using h)]
    exact (if_neg h).symm

/-- What is skipped holds no token that matters, and what is left starts with one. -/
theorem significant_cases (start : Nat) (cs : List Char) :
    (skipTrivia cs = [] ∧ significant start cs = []) ∨
      ∃ c rest token start', skipTrivia cs = c :: rest ∧
        token.kind = (Lexeme.first c rest).kind ∧
        significant start cs = token :: significant start' (Lexeme.first c rest).rest := by
  fun_induction scanFrom start cs with
  | case1 start => exact .inl ⟨by rw [skipTrivia], significant_nil start⟩
  | case2 start c cs lexeme token ih =>
    rw [skipTrivia_cons, significant_cons]
    by_cases h : lexeme.kind.isTrivia = true
    · rw [if_pos h, if_pos h]
      exact ih
    · rw [if_neg h, if_neg h]
      exact .inr ⟨c, cs, token, token.span.stop, rfl, rfl, rfl⟩

/-- On the tokens of a whole text the answer is that of its characters. -/
theorem startsWithTrailingComma_scanFrom_iff (start : Nat) (cs : List Char) :
    startsWithTrailingComma (scanFrom start cs) = true ↔ EndsList cs := by
  have hfilter : ((scanFrom start cs).filter fun t => !t.kind.isTrivia) = significant start cs :=
    rfl
  rw [startsWithTrailingComma, hfilter]
  obtain ⟨hskip, htokens⟩ | ⟨c, rest, comma, start', hskip, hcomma, htokens⟩ :=
    significant_cases start cs
  · simp [EndsList, hskip, htokens]
  by_cases hc : c = ','
  · subst hc
    have hrest : (Lexeme.first ',' rest).rest = rest := rfl
    have hkind : comma.kind = .comma := hcomma
    rw [hrest] at htokens
    obtain ⟨hskip', htokens'⟩ | ⟨d, rest', closer, start'', hskip', hcloser, htokens'⟩ :=
      significant_cases start' rest
    · simp [EndsList, hskip, htokens, hskip', htokens']
    · have hclosing := Lexeme.isClosing_kind_first_iff d rest'
      rw [← hcloser] at hclosing
      simp [EndsList, hskip, htokens, hskip', htokens', hkind, hclosing]
  · have hkind : comma.kind ≠ .comma := by
      rwa [hcomma, Ne, Lexeme.kind_first_eq_comma_iff]
    refine iff_of_false ?_ ?_
    · rw [htokens]
      split <;> simp_all
    · rintro ⟨rest', -, -, hskip', -, -⟩
      rw [hskip] at hskip'
      exact hc (List.cons.inj hskip').1

/-! ### The tokens after a boundary -/

theorem startsWithTrailingComma_map_shifted (k : Nat) (tokens : List Token) :
    startsWithTrailingComma (tokens.map (Token.shifted k)) = startsWithTrailingComma tokens := by
  have hfilter : (tokens.map (Token.shifted k)).filter (fun t => !t.kind.isTrivia) =
      (tokens.filter fun t => !t.kind.isTrivia).map (Token.shifted k) := List.filter_map
  rw [startsWithTrailingComma, startsWithTrailingComma, hfilter]
  generalize tokens.filter (fun t => !t.kind.isTrivia) = kept
  match kept with
  | [] => rfl
  | [_] => rfl
  | _ :: _ :: _ => rfl

/-- From a boundary on the tokens are those of the text that is left. -/
theorem IsBoundary.tokensFrom_scan {u v : String} (h : IsBoundary (u ++ v) u.utf8ByteSize) :
    tokensFrom (scan (u ++ v)) u.utf8ByteSize =
      (scan v).map (Token.shifted u.utf8ByteSize) := by
  have horder : InOrder (scan (u ++ v)) :=
    (scanFrom_tiles 0 (u ++ v).toList).pairwise_start.imp Nat.le_of_lt
  have hbefore : ∀ t ∈ scan u, ¬decide (u.utf8ByteSize ≤ t.span.start) = true := by
    intro t ht
    have htiles : Tiles 0 (scan u) u.toList := scanFrom_tiles 0 u.toList
    have hlt := (htiles.nonempty t ht).2
    have hle := htiles.stop_le t ht
    rw [utf8ByteSize_eq, decide_eq_true_eq]
    omega
  have hafter : ∀ t ∈ (scan v).map (Token.shifted u.utf8ByteSize),
      decide (u.utf8ByteSize ≤ t.span.start) = true := by
    rw [List.forall_mem_map]
    exact fun t _ => decide_eq_true (Nat.le_add_right _ _)
  rw [tokensFrom_eq_filter horder, h.scan_append, List.filter_append,
    List.filter_eq_nil_iff.2 hbefore, List.filter_eq_self.2 hafter, List.nil_append]

theorem IsBoundary.followedBySeparator_iff {u v : String}
    (h : IsBoundary (u ++ v) u.utf8ByteSize) (start : Nat) :
    followedBySeparator (some (scan (u ++ v))) (some ⟨start, u.utf8ByteSize⟩) = true ↔
      EndsList v.toList := by
  show startsWithTrailingComma (tokensFrom (scan (u ++ v)) u.utf8ByteSize) = true ↔ _
  rw [h.tokensFrom_scan, startsWithTrailingComma_map_shifted]
  exact startsWithTrailingComma_scanFrom_iff 0 v.toList

/-- A boundary stands between two characters. -/
theorem IsBoundary.exists_eq_append {s : String} {offset : Nat} (h : IsBoundary s offset) :
    ∃ u v : String, s = u ++ v ∧ u.utf8ByteSize = offset := by
  obtain ⟨-, -, as, bs, -, hsplit, -, hlength⟩ := h.exists_append
  refine ⟨.ofList as, .ofList bs, ?_, ?_⟩
  · rw [← String.ofList_append, ← hsplit, String.ofList_toList]
  · rw [utf8ByteSize_ofList, hlength]

/-- At the end of a token, an element that ends there is followed by a trailing comma exactly if
the text from there on reads so. The text in front, and where the element starts, do not matter. -/
theorem followedBySeparator_scan_iff_endsList {s : String} {offset : Nat} (h : IsBoundary s offset)
    (start : Nat) :
    ∃ before after : String, s = before ++ after ∧ before.utf8ByteSize = offset ∧
      (followedBySeparator (some (scan s)) (some ⟨start, offset⟩) = true ↔
        EndsList after.toList) ∧
      ∀ (before' : String) (start' : Nat),
        IsBoundary (before' ++ after) before'.utf8ByteSize →
        followedBySeparator (some (scan (before' ++ after)))
            (some ⟨start', before'.utf8ByteSize⟩) =
          followedBySeparator (some (scan s)) (some ⟨start, offset⟩) := by
  obtain ⟨before, after, rfl, rfl⟩ := h.exists_eq_append
  refine ⟨before, after, rfl, rfl, h.followedBySeparator_iff start, ?_⟩
  intro before' start' h'
  rw [Bool.eq_iff_iff, h'.followedBySeparator_iff start', h.followedBySeparator_iff start]

theorem followedBySeparator_scan_iff_endsList_of_call :
    let source := "f(1 /* , */, # )\n)"
    IsBoundary source 3 ∧
      followedBySeparator (some (scan source)) (some ⟨2, 3⟩) = true ∧
      ∃ before after : String, source = before ++ after ∧ before.utf8ByteSize = 3 ∧
        EndsList after.toList := by
  intro source
  have hboundary : IsBoundary source 3 := by decide +kernel
  have hfollowed : followedBySeparator (some (scan source)) (some ⟨2, 3⟩) = true := by
    decide +kernel
  obtain ⟨before, after, hsource, hsize, hiff, -⟩ :=
    followedBySeparator_scan_iff_endsList hboundary 2
  exact ⟨hboundary, hfollowed, before, after, hsource, hsize, hiff.1 hfollowed⟩

end SyntaxLowering
