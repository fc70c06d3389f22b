import Mathlib.Data.List.TakeWhile
import SyntaxLowering.Proofs.Tiling

/-!
# Scanning and token boundaries

What a lexeme is depends on the text after it only as far as that text ends it. So a lexeme stays
what it is if the text after it is cut short at any place (`Lexeme.first_of_isPrefix`), and a text
may be scanned in two parts wherever one of its tokens ends (`Tiles.scanFrom_append`). At all other
places the two parts give other tokens than the whole.
-/

namespace SyntaxLowering

/-! ### Lexemes whose text is cut short -/

namespace Lexeme

/-- The same lexeme in a text that goes on with `rest` after it. -/
def withRest (l : Lexeme) (rest : List Char) : Lexeme :=
  ⟨l.kind, l.tail, rest⟩

theorem push_withRest (c : Char) (l : Lexeme) (rest : List Char) :
    (push c l).withRest rest = push c (l.withRest rest) :=
  rfl

theorem tail_append_isPrefix {l : Lexeme} {cs ds : List Char} (hl : l.tail ++ l.rest = cs)
    (h : ds <+: l.rest) : l.tail ++ ds <+: cs := by
  rw [← hl]
  exact (List.prefix_append_right_inj l.tail).2 h

theorem run_of_isPrefix (kind : TokenKind) (p : Char → Bool) {cs ds : List Char}
    (h : ds <+: (run kind p cs).rest) :
    run kind p ((run kind p cs).tail ++ ds) = (run kind p cs).withRest ds := by
  have hall : ∀ c ∈ cs.takeWhile p, p c = true := fun c hc => List.mem_takeWhile_imp hc
  -- the text that is left is empty or starts with what ended the run
  have hstop : ds.takeWhile p = [] ∧ ds.dropWhile p = ds := by
    cases ds with
    | nil => exact ⟨rfl, rfl⟩
    | cons d ds =>
      obtain ⟨es, hes⟩ := h
      have hd := List.head?_dropWhile_not p cs
      rw [show cs.dropWhile p = d :: ds ++ es from hes.symm] at hd
      have hd : p d = false := by simpa using hd
      simp [hd]
  show Lexeme.mk kind _ _ = Lexeme.mk kind (cs.takeWhile p) ds
  unfold run
  rw [List.takeWhile_append_of_pos hall, List.dropWhile_append_of_pos hall, hstop.1, hstop.2,
    List.append_nil]

theorem quoted_of_isPrefix (quote : Char) {cs ds : List Char} (h : ds <+: (quoted quote cs).rest) :
    quoted quote ((quoted quote cs).tail ++ ds) = (quoted quote cs).withRest ds := by
  fun_induction quoted quote cs with
  | case1 =>
    obtain rfl := List.prefix_nil.1 h
    rfl
  | case2 =>
    obtain rfl := List.prefix_nil.1 h
    rfl
  | case3 c cs ih =>
    show quoted quote ('\\' :: c :: ((quoted quote cs).tail ++ ds)) = _
    rw [quoted, ih h]
    rfl
  | case4 cs hnil hcons =>
    show quoted quote (quote :: ds) = _
    rw [quoted_cons quote (ne_backslash hnil hcons), if_pos rfl]
    rfl
  | case5 c cs hnil hcons hc ih =>
    show quoted quote (c :: ((quoted quote cs).tail ++ ds)) = _
    rw [quoted_cons quote (ne_backslash hnil hcons), if_neg hc, ih h]
    rfl

theorem block_of_isPrefix (kind : TokenKind) {cs ds : List Char} (h : ds <+: (block kind cs).rest) :
    block kind ((block kind cs).tail ++ ds) = (block kind cs).withRest ds := by
  fun_induction block kind cs with
  | case1 =>
    obtain rfl := List.prefix_nil.1 h
    rfl
  | case2 cs => rfl
  | case3 c cs hclose ih =>
    show block kind (c :: ((block kind cs).tail ++ ds)) = _
    rw [block, ih h]
    · rfl
    · -- what is left of the text closes the comment only if the whole text does
      intro cs' hstar hslash
      obtain ⟨es, hes⟩ := tail_append_isPrefix (block_append kind cs) h
      rw [hslash] at hes
      exact hclose (cs' ++ es) hstar hes.symm

/-- A comment that is not empty keeps its first character. -/
theorem exists_tail_block (kind : TokenKind) (c : Char) (cs : List Char) :
    ∃ ds, (block kind (c :: cs)).tail = c :: ds := by
  rw [block.eq_def]
  split
  · next h => exact absurd h (List.cons_ne_nil c cs)
  · next h =>
    obtain ⟨rfl, -⟩ := List.cons.inj h
    exact ⟨['/'], rfl⟩
  · next h =>
    obtain ⟨rfl, rfl⟩ := List.cons.inj h
    exact ⟨_, rfl⟩

theorem slash_of_isPrefix {cs ds : List Char} (h : ds <+: (slash cs).rest) :
    slash ((slash cs).tail ++ ds) = (slash cs).withRest ds := by
  fun_cases slash cs with
  | case1 cs =>
    have htail : (run .comment (· != '\n') ('/' :: cs)).tail =
        '/' :: cs.takeWhile (· != '\n') := by
      simp [run]
    rw [← run_of_isPrefix _ _ h, htail]
    rfl
  | case2 cs =>
    have hblock := block_of_isPrefix .docComment (show ds <+: (block _ ('*' :: cs)).rest from h)
    obtain ⟨es, hes⟩ := exists_tail_block .docComment '*' cs
    rw [push_withRest, ← hblock]
    show slash ('*' :: ((block .docComment ('*' :: cs)).tail ++ ds)) = _
    rw [hes]
    rfl
  | case3 cs hdoc =>
    have hrest : ds <+: (block .comment cs).rest := by
      rw [slash] at h
      · exact h
      · exact hdoc
    show slash ('*' :: ((block .comment cs).tail ++ ds)) = _
    rw [slash, push_withRest, block_of_isPrefix _ hrest]
    intro cs' hstar
    obtain ⟨es, hes⟩ := tail_append_isPrefix (block_append .comment cs) hrest
    rw [hstar] at hes
    exact hdoc (cs' ++ es) hes.symm
  | case4 cs hline hdoc hblock =>
    obtain ⟨es, rfl⟩ : ds <+: cs := by
      rw [slash] at h
      · exact h
      · exact hline
      · exact hdoc
      · exact hblock
    show slash ds = ⟨.operator, [], ds⟩
    rw [slash]
    · rintro cs' rfl
      exact hline (cs' ++ es) rfl
    · rintro cs' rfl
      exact hdoc (cs' ++ es) rfl
    · rintro cs' rfl
      exact hblock (cs' ++ es) rfl

/-- A lexeme does not change if the text after it is cut short. -/
theorem first_of_isPrefix (c : Char) {cs ds : List Char} (h : ds <+: (first c cs).rest) :
    first c ((first c cs).tail ++ ds) = (first c cs).withRest ds := by
  cases hdelimiter : delimiter? c with
  | some kind =>
    simp only [first, hdelimiter]
    rfl
  | none =>
    simp only [first, hdelimiter] at h ⊢
    split_ifs at h ⊢
    · exact run_of_isPrefix _ _ h
    · exact run_of_isPrefix _ _ h
    · exact slash_of_isPrefix h
    · exact quoted_of_isPrefix c h
    · exact run_of_isPrefix _ _ h
    · exact run_of_isPrefix _ _ h
    · exact run_of_isPrefix _ _ h
    · rfl

end Lexeme

/-! ### Scanning at another offset -/

/-- The token `k` bytes further on. -/
def Token.shifted (k : Nat) (t : Token) : Token :=
  { t with span := ⟨k + t.span.start, k + t.span.stop⟩ }

theorem scanFrom_cons (start : Nat) (c : Char) (cs : List Char) :
    scanFrom start (c :: cs) =
      .startingAt start (Lexeme.first c cs).kind (.ofList (c :: (Lexeme.first c cs).tail)) ::
        scanFrom (start + (utf8 (c :: (Lexeme.first c cs).tail)).length)
          (Lexeme.first c cs).rest := by
  rw [scanFrom, Token.stop_startingAt]

theorem scanFrom_add (k start : Nat) (cs : List Char) :
    scanFrom (k + start) cs = (scanFrom start cs).map (Token.shifted k) := by
  fun_induction scanFrom start cs with
  | case1 start => rw [scanFrom, List.map_nil]
  | case2 start c cs lexeme token ih =>
    have htoken : token.shifted k =
        .startingAt (k + start) lexeme.kind (.ofList (c :: lexeme.tail)) := by
      show Token.mk _ _ ⟨_, k + (start + _)⟩ = Token.mk _ _ ⟨_, _⟩
      rw [← Nat.add_assoc]
      rfl
    rw [List.map_cons, ← ih, htoken, scanFrom_cons, Token.stop_startingAt, Nat.add_assoc]

/-- A text may be scanned in two parts if the tokens of the first part are among its own. -/
theorem Tiles.scanFrom_append {start : Nat} {tokens tokens' : List Token} {cs ds : List Char}
    (h : Tiles start tokens cs) (hscan : scanFrom start (cs ++ ds) = tokens ++ tokens') :
    scanFrom start cs = tokens ∧ scanFrom (start + (utf8 cs).length) ds = tokens' := by
  induction h with
  | nil start => exact ⟨by rw [scanFrom], hscan⟩
  | @cons start kind text tokens rest hne hrest ih =>
    obtain ⟨c, tail, rfl⟩ := List.exists_cons_of_ne_nil hne
    rw [List.append_assoc, List.cons_append, scanFrom_cons] at hscan
    obtain ⟨htoken, htokens⟩ := List.cons.inj hscan
    set lexeme := Lexeme.first c (tail ++ (rest ++ ds)) with hlexeme
    have hkind : lexeme.kind = kind := congrArg Token.kind htoken
    have htail : lexeme.tail = tail :=
      (List.cons.inj (String.ofList_injective (congrArg Token.text htoken))).2
    have hafter : lexeme.rest = rest ++ ds := by
      have happend := Lexeme.first_append c (tail ++ (rest ++ ds))
      rw [← hlexeme, htail] at happend
      exact List.append_cancel_left happend
    -- the first lexeme stays what it is without `ds`
    have hcut : Lexeme.first c (tail ++ rest) = lexeme.withRest rest := by
      have hprefix : rest <+: lexeme.rest := ⟨ds, hafter.symm⟩
      rw [← Lexeme.first_of_isPrefix c hprefix, ← hlexeme, htail]
    rw [htail, hafter] at htokens
    obtain ⟨hscan, hscan'⟩ := ih htokens
    refine ⟨?_, ?_⟩
    · rw [List.cons_append, scanFrom_cons, hcut]
      show Token.startingAt start lexeme.kind (.ofList (c :: lexeme.tail)) ::
        scanFrom (start + (utf8 (c :: lexeme.tail)).length) rest = _
      rw [hkind, htail, hscan]
    · rw [length_utf8_append, ← Nat.add_assoc, hscan']

/-- Where a token of a text ends, and at both ends of the text. -/
def IsBoundary (s : String) (offset : Nat) : Prop :=
  offset = 0 ∨ offset = s.utf8ByteSize ∨ ∃ t ∈ scan s, t.span.stop = offset

instance (s : String) (offset : Nat) : Decidable (IsBoundary s offset) :=
  inferInstanceAs (Decidable (_ ∨ _ ∨ _))

/-- The first of the tokens that tile a text tile a beginning of it. -/
theorem Tiles.exists_beginning {start : Nat} {tokens tokens' : List Token} {cs : List Char}
    (h : Tiles start (tokens ++ tokens') cs) : ∃ as bs, cs = as ++ bs ∧ Tiles start tokens as := by
  induction tokens generalizing start cs with
  | nil => exact ⟨[], cs, rfl, .nil start⟩
  | cons t tokens ih =>
    cases h with
    | @cons _ kind text _ rest hne hrest =>
      obtain ⟨as, bs, rfl, has⟩ := ih hrest
      exact ⟨text ++ as, bs, (List.append_assoc ..).symm, .cons kind hne has⟩

/-- A boundary divides the text and its tokens alike. -/
theorem IsBoundary.exists_append {s : String} {offset : Nat} (h : IsBoundary s offset) :
    ∃ tokens tokens' as bs, scan s = tokens ++ tokens' ∧ s.toList = as ++ bs ∧
      Tiles 0 tokens as ∧ (utf8 as).length = offset := by
  have htiles : Tiles 0 (scan s) s.toList := scanFrom_tiles 0 s.toList
  rcases h with rfl | rfl | ⟨t, ht, rfl⟩
  · exact ⟨[], scan s, [], s.toList, rfl, rfl, .nil 0, rfl⟩
  · exact ⟨scan s, [], s.toList, [], (List.append_nil _).symm, (List.append_nil _).symm, htiles,
      (utf8ByteSize_eq s).symm⟩
  · obtain ⟨earlier, later, hscan⟩ := List.append_of_mem ht
    rw [List.append_cons] at hscan
    rw [hscan] at htiles
    obtain ⟨as, bs, hsplit, has⟩ := htiles.exists_beginning
    refine ⟨earlier ++ [t], later, as, bs, hscan, hsplit, has, ?_⟩
    rw [has.stop_getLast t List.getLast?_concat, Nat.zero_add]

/-- A text may be scanned in two parts where one of its tokens ends. -/
theorem IsBoundary.scan_append {u v : String} (h : IsBoundary (u ++ v) u.utf8ByteSize) :
    scan (u ++ v) = scan u ++ (scan v).map (Token.shifted u.utf8ByteSize) := by
  obtain ⟨tokens, tokens', as, bs, hscan, hsplit, has, hlength⟩ := h.exists_append
  rw [String.toList_append] at hsplit
  rw [utf8ByteSize_eq] at hlength
  obtain ⟨rfl, rfl⟩ := eq_of_length_utf8_eq hsplit hlength.symm
  rw [scan, String.toList_append] at hscan
  obtain ⟨hu, hv⟩ := has.scanFrom_append hscan
  rw [Nat.zero_add, ← utf8ByteSize_eq, ← Nat.add_zero u.utf8ByteSize, scanFrom_add] at hv
  rw [scan, String.toList_append, hscan, ← hu, ← hv]
  rfl

/-- The tokens of the first part end where that part ends. -/
theorem isBoundary_of_scan_append {u v : String} {tokens : List Token}
    (h : scan (u ++ v) = scan u ++ tokens) : IsBoundary (u ++ v) u.utf8ByteSize := by
  have htiles : Tiles 0 (scan u) u.toList := scanFrom_tiles 0 u.toList
  cases hlast : (scan u).getLast? with
  | none =>
    have hu : u = "" :=
      String.toList_eq_nil_iff.1 (htiles.eq_nil_iff.1 (List.getLast?_eq_none_iff.1 hlast))
    left
    rw [hu]
    rfl
  | some t =>
    right; right
    refine ⟨t, ?_, ?_⟩
    · rw [h]
      exact List.mem_append_left _ (List.mem_of_getLast? hlast)
    · rw [htiles.stop_getLast t hlast, utf8ByteSize_eq, Nat.zero_add]

/-- The text of a token is scanned to this token alone. -/
theorem scan_text_of_mem {start : Nat} {cs : List Char} :
    ∀ t ∈ scanFrom start cs, scan t.text = [.startingAt 0 t.kind t.text] := by
  fun_induction scanFrom start cs with
  | case1 => simp
  | case2 start c cs lexeme token ih =>
    refine List.forall_mem_cons.2 ⟨?_, ih⟩
    have hfirst : Lexeme.first c lexeme.tail = lexeme.withRest [] := by
      rw [← Lexeme.first_of_isPrefix c List.nil_prefix, List.append_nil]
    have htext : token.text.toList = c :: lexeme.tail := String.toList_ofList
    rw [scan, htext, scanFrom_cons, hfirst]
    show _ :: scanFrom _ [] = _
    rw [scanFrom]
    rfl

/-- A text is scanned in two parts exactly where one of its tokens ends, and then the tokens of the
second part stand as far on as the first is long. -/
theorem scan_append_iff_isBoundary (u v : String) :
    (IsBoundary (u ++ v) u.utf8ByteSize ↔
      scan (u ++ v) = scan u ++ (scan v).map (Token.shifted u.utf8ByteSize)) ∧
    ∀ t ∈ scan (u ++ v), scan t.text = [.startingAt 0 t.kind t.text] :=
  ⟨⟨IsBoundary.scan_append, isBoundary_of_scan_append⟩, scan_text_of_mem⟩

-- apart, the two slashes are operators; together they start a comment
example : ¬IsBoundary ("a/" ++ "/b") 2 := by decide +kernel

end SyntaxLowering
