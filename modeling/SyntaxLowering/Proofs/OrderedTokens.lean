import Mathlib.Data.List.Basic
import SyntaxLowering.Token.Adjacency

/-!
# Tokens in order

Tokens may come from elsewhere than `scan`, with gaps between them or overlaps. All that is asked
of them is that none starts before the one in front of it. Then the search by halves (`bisect`)
finds the first token from an offset on, and the tokens from there on are those that start at the
offset or later.

`EndsListAt` says by positions in the whole list what `followedBySeparator` looks for in a part
of it.
-/

namespace SyntaxLowering

/-- No token starts before the one in front of it. -/
def InOrder (tokens : List Token) : Prop :=
  tokens.Pairwise fun t t' => t.span.start ≤ t'.span.start

instance (tokens : List Token) : Decidable (InOrder tokens) :=
  inferInstanceAs (Decidable (tokens.Pairwise _))

/-- After an offset, the comma at position `i` and the delimiter at position `j` end a list: all
other tokens up to there start before the offset or are trivia. -/
structure EndsListAt (tokens : List Token) (offset i j : Nat) : Prop where
  lt : i < j
  comma : ∃ t, tokens[i]? = some t ∧ t.kind = .comma ∧ offset ≤ t.span.start
  closer : ∃ t, tokens[j]? = some t ∧ t.kind.isClosing = true
  others : ∀ k < j, k ≠ i → ∀ t ∈ tokens[k]?, t.span.start < offset ∨ t.kind.isTrivia = true

/-! ### The tokens from an offset on -/

/-- The search by halves finds the position it closes in on, if every test tells on which side of
the position the middle is. -/
theorem bisect_eq {p : Token → Bool} {tokens : List Token} {low high position : Nat}
    (htest : ∀ i, i < high → (tokens[i]?.any p = true ↔ i < position))
    (hlow : low ≤ position) (hhigh : position ≤ high) : bisect p tokens low high = position := by
  fun_induction bisect p tokens low high with
  | case1 low high hlt middle hp ih =>
    have hmiddle : middle < position := (htest middle (by omega)).1 hp
    exact ih htest hmiddle hhigh
  | case2 low high hlt middle hp ih =>
    have hmiddle : ¬middle < position := fun hm => hp ((htest middle (by omega)).2 hm)
    exact ih (fun i hi => htest i (by omega)) hlow (by omega)
  | case3 low high hlt => omega

/-- In order, the tokens before an offset are those in front of the first one at or after it. -/
theorem InOrder.start_lt_iff {tokens : List Token} (h : InOrder tokens) (offset : Nat) {i : Nat}
    (hi : i < tokens.length) :
    tokens[i].span.start < offset ↔
      i < tokens.findIdx fun t => !decide (t.span.start < offset) := by
  rw [List.lt_findIdx_iff]
  constructor
  · intro hstart
    refine ⟨hi, fun j hj => ?_⟩
    have hle : tokens[j].span.start ≤ tokens[i].span.start := by
      rcases Nat.eq_or_lt_of_le hj with rfl | hlt
      · exact Nat.le_refl _
      · exact List.pairwise_iff_getElem.1 h j i (by omega) hi hlt
    have : tokens[j].span.start < offset := by omega
    simpa using this
  · rintro ⟨_, hbefore⟩
    simpa using hbefore i (Nat.le_refl i)

theorem tokensFrom_eq_dropWhile {tokens : List Token} (h : InOrder tokens) (offset : Nat) :
    tokensFrom tokens offset = tokens.dropWhile fun t => t.span.start < offset := by
  have hposition : bisect (fun t => t.span.start < offset) tokens 0 tokens.length =
      tokens.findIdx fun t => !decide (t.span.start < offset) := by
    refine bisect_eq (fun i hi => ?_) (Nat.zero_le _) List.findIdx_le_length
    rw [List.getElem?_eq_getElem hi, Option.any_some, decide_eq_true_eq, h.start_lt_iff offset hi]
  rw [tokensFrom, hposition, List.dropWhile_eq_drop_findIdx_not]

theorem InOrder.dropWhile_eq_filter {tokens : List Token} (h : InOrder tokens) (offset : Nat) :
    (tokens.dropWhile fun t => t.span.start < offset) =
      tokens.filter fun t => offset ≤ t.span.start := by
  induction tokens with
  | nil => rfl
  | cons t tokens ih =>
    obtain ⟨hle, htokens⟩ := List.pairwise_cons.1 h
    by_cases ht : t.span.start < offset
    · rw [List.dropWhile_cons_of_pos (by simpa using ht),
        List.filter_cons_of_neg (by simpa using ht)]
      exact ih htokens
    · -- from the first token that starts late enough on, all do
      have hall : ∀ u ∈ t :: tokens, decide (offset ≤ u.span.start) = true := by
        intro u hu
        rw [decide_eq_true_eq]
        rcases List.mem_cons.1 hu with rfl | hu
        · omega
        · have := hle u hu
          omega
      rw [List.dropWhile_cons_of_neg (by simpa using ht), List.filter_eq_self.2 hall]

theorem tokensFrom_eq_filter {tokens : List Token} (h : InOrder tokens) (offset : Nat) :
    tokensFrom tokens offset = tokens.filter fun t => offset ≤ t.span.start :=
  (tokensFrom_eq_dropWhile h offset).trans (h.dropWhile_eq_filter offset)

/-! ### The first two tokens that matter -/

/-- The first element that satisfies `p`, by its position. -/
theorem filter_eq_cons_iff_getElem? {α : Type} {p : α → Bool} {xs rest : List α} {x : α} :
    xs.filter p = x :: rest ↔
      ∃ i : Nat, xs[i]? = some x ∧ p x = true ∧ (∀ k < i, ∀ y ∈ xs[k]?, p y = false) ∧
        (xs.drop (i + 1)).filter p = rest := by
  rw [List.filter_eq_cons_iff]
  constructor
  · rintro ⟨before, after, rfl, hbefore, hx, hrest⟩
    refine ⟨before.length, by simp, hx, fun k hk y hy => ?_, by simpa using hrest⟩
    rw [List.getElem?_append_left hk] at hy
    exact Bool.eq_false_iff.2 (hbefore y (List.mem_of_getElem? hy))
  · rintro ⟨i, hi, hx, hbefore, hrest⟩
    obtain ⟨hlt, rfl⟩ := List.getElem?_eq_some_iff.1 hi
    refine ⟨xs.take i, xs.drop (i + 1), by simp, fun y hy => ?_, hx, hrest⟩
    obtain ⟨k, hk, rfl⟩ := List.mem_take_iff_getElem.1 hy
    exact Bool.eq_false_iff.1 (hbefore k (by omega) _ (List.getElem?_eq_getElem (by omega)))

theorem startsWithTrailingComma_iff {tokens : List Token} :
    startsWithTrailingComma tokens = true ↔
      ∃ comma closer rest, tokens.filter (fun t => !t.kind.isTrivia) = comma :: closer :: rest ∧
        comma.kind = .comma ∧ closer.kind.isClosing = true := by
  unfold startsWithTrailingComma
  split
  · next comma closer rest heq => simp [heq]
  · next hne =>
    refine iff_of_false Bool.false_ne_true ?_
    rintro ⟨comma, closer, rest, heq, -⟩
    exact hne comma closer rest heq

theorem TokenKind.isTrivia_of_isClosing {kind : TokenKind} (h : kind.isClosing = true) :
    kind.isTrivia = false := by
  cases kind with
  | closeParen | closeBracket | closeBrace => rfl
  | _ => cases h

/-- Whether a token has a say after an offset. -/
def Token.matters (offset : Nat) (t : Token) : Bool :=
  !t.kind.isTrivia && decide (offset ≤ t.span.start)

theorem Token.matters_eq_true_iff {offset : Nat} {t : Token} :
    t.matters offset = true ↔ t.kind.isTrivia = false ∧ offset ≤ t.span.start := by
  simp [matters]

theorem Token.matters_eq_false_iff {offset : Nat} {t : Token} :
    t.matters offset = false ↔ t.span.start < offset ∨ t.kind.isTrivia = true := by
  simp [matters, or_iff_not_imp_right]

theorem followedBySeparator_iff_filter {tokens : List Token} (h : InOrder tokens) (span : Span) :
    followedBySeparator (some tokens) (some span) = true ↔
      ∃ comma closer rest, tokens.filter (Token.matters span.stop) = comma :: closer :: rest ∧
        comma.kind = .comma ∧ closer.kind.isClosing = true := by
  show startsWithTrailingComma (tokensFrom tokens span.stop) = true ↔ _
  rw [startsWithTrailingComma_iff, tokensFrom_eq_filter h, List.filter_filter]
  rfl

/-- The first two tokens that matter are a comma and a closing delimiter exactly if such tokens
stand somewhere with nothing that matters before or between them. -/
theorem exists_endsListAt_iff {tokens : List Token} (h : InOrder tokens) (offset : Nat) :
    (∃ i j, EndsListAt tokens offset i j) ↔
      ∃ comma closer rest, tokens.filter (Token.matters offset) = comma :: closer :: rest ∧
        comma.kind = .comma ∧ closer.kind.isClosing = true := by
  constructor
  · rintro ⟨i, j, hlt, ⟨comma, hi, hcomma, hstart⟩, ⟨closer, hj, hcloser⟩, hothers⟩
    -- the delimiter starts late enough because it stands behind the comma
    have hle : comma.span.start ≤ closer.span.start := by
      obtain ⟨hi', rfl⟩ := List.getElem?_eq_some_iff.1 hi
      obtain ⟨hj', rfl⟩ := List.getElem?_eq_some_iff.1 hj
      exact List.pairwise_iff_getElem.1 h i j hi' hj' hlt
    obtain ⟨k, rfl⟩ : ∃ k, j = i + 1 + k := ⟨j - (i + 1), by omega⟩
    refine ⟨comma, closer, _, filter_eq_cons_iff_getElem?.2 ⟨i, hi, ?_, fun m hm t ht => ?_,
      filter_eq_cons_iff_getElem?.2 ⟨k, ?_, ?_, fun m hm t ht => ?_, rfl⟩⟩, hcomma, hcloser⟩
    · exact Token.matters_eq_true_iff.2 ⟨by rw [hcomma]; rfl, hstart⟩
    · exact Token.matters_eq_false_iff.2 (hothers m (by omega) (by omega) t ht)
    · rw [List.getElem?_drop]
      exact hj
    · exact Token.matters_eq_true_iff.2 ⟨TokenKind.isTrivia_of_isClosing hcloser, by omega⟩
    · rw [List.getElem?_drop] at ht
      exact Token.matters_eq_false_iff.2 (hothers (i + 1 + m) (by omega) (by omega) t ht)
  · rintro ⟨comma, closer, rest, hfilter, hcomma, hcloser⟩
    obtain ⟨i, hi, hmatters, hbefore, hfilter⟩ := filter_eq_cons_iff_getElem?.1 hfilter
    obtain ⟨k, hk, -, hbetween, -⟩ := filter_eq_cons_iff_getElem?.1 hfilter
    rw [List.getElem?_drop] at hk
    refine ⟨i, i + 1 + k, by omega, ⟨comma, hi, hcomma, ?_⟩, ⟨closer, hk, hcloser⟩, ?_⟩
    · exact (Token.matters_eq_true_iff.1 hmatters).2
    · intro m hm hne t ht
      rw [← Token.matters_eq_false_iff]
      by_cases hlt : m < i
      · exact hbefore m hlt t ht
      · obtain ⟨l, rfl⟩ : ∃ l, m = i + 1 + l := ⟨m - (i + 1), by omega⟩
        rw [← List.getElem?_drop] at ht
        exact hbetween l (by omega) t ht

/-- What follows an element, read off any tokens in order. The tokens from an offset on are those
that start there or later, all that is left behind the ones that start earlier. An element is
followed by a trailing comma exactly if at or after its end there stands a comma, and behind it a
closing delimiter, with only trivia and tokens that start earlier before and between the two. -/
theorem adjacency_exact {tokens : List Token} (h : InOrder tokens) :
    (∀ offset, tokensFrom tokens offset = tokens.filter (fun t => offset ≤ t.span.start) ∧
      tokensFrom tokens offset = tokens.dropWhile fun t => t.span.start < offset) ∧
    ∀ span : Span, followedBySeparator (some tokens) (some span) = true ↔
      ∃ i j, EndsListAt tokens span.stop i j := by
  refine ⟨fun offset => ⟨tokensFrom_eq_filter h offset, tokensFrom_eq_dropWhile h offset⟩,
    fun span => ?_⟩
  rw [followedBySeparator_iff_filter h, exists_endsListAt_iff h]

/-- A variable that reaches over the comma behind it, an empty comment at the place of the comma,
and a gap before the delimiter. -/
theorem adjacency_exact_of_overlapping_tokens :
    let tokens : List Token := [⟨.openParen, "(", 1, 2⟩, ⟨.variableName, "$a", 2, 9⟩,
      ⟨.comma, ",", 4, 5⟩, ⟨.comment, "", 4, 4⟩, ⟨.closeParen, ")", 20, 21⟩]
    InOrder tokens ∧ tokensFrom tokens 4 = tokens.filter (fun t => 4 ≤ t.span.start) ∧
      (tokensFrom tokens 4 = tokens.dropWhile fun t => t.span.start < 4) ∧
      followedBySeparator (some tokens) (some ⟨2, 4⟩) = true ∧
      ∃ i j, EndsListAt tokens 4 i j := by
  intro tokens
  have horder : InOrder tokens := by decide
  have hfollowed : followedBySeparator (some tokens) (some ⟨2, 4⟩) = true := by decide +kernel
  obtain ⟨hfrom, hiff⟩ := adjacency_exact horder
  exact ⟨horder, (hfrom 4).1, (hfrom 4).2, hfollowed, (hiff ⟨2, 4⟩).1 hfollowed⟩

end SyntaxLowering
