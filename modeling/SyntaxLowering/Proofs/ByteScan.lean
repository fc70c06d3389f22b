import SyntaxLowering.Proofs.ByteOffsets
import SyntaxLowering.Token.Scan

/-!
# Scanning byte by byte

`ByteScan.scan?` divides a source text into tokens by stepping over its bytes. It knows nothing of
characters: a run of word bytes may pass through the middle of one, and a backslash in a string
takes the next byte with it, which may be the first of several or lie behind the end. Wherever text
is cut out of the source the cut may fail, and so may a step that does not move on.

None of this ever happens (`ByteScan.scan?_eq`): the bytes beyond ASCII are those of characters
beyond ASCII, all of which belong to words, and none of which ends a string or a comment.
-/

namespace SyntaxLowering

/-! ### Strings and comments by characters -/

namespace Lexeme

/-- A character of a string that neither an escape nor a lone backslash at the end begins with. -/
theorem ne_backslash {c : Char} {cs : List Char} (hnil : c = '\\' → cs = [] → False)
    (hcons : ∀ d ds, c = '\\' → cs = d :: ds → False) : c ≠ '\\' := by
  intro hc
  cases cs with
  | nil => exact hnil hc rfl
  | cons d ds => exact hcons d ds hc rfl

theorem quoted_cons (quote : Char) {c : Char} (h : c ≠ '\\') (cs : List Char) :
    quoted quote (c :: cs) =
      if c = quote then ⟨.literal, [c], cs⟩ else push c (quoted quote cs) := by
  rw [quoted]
  · exact fun hc _ => h hc
  · exact fun _ _ hc _ => h hc

theorem kind_quoted (quote : Char) (cs : List Char) : (quoted quote cs).kind = .literal := by
  fun_induction quoted quote cs with
  | case1 => rfl
  | case2 => rfl
  | case3 c cs ih => exact ih
  | case4 => rfl
  | case5 c cs _ _ _ ih => exact ih

theorem kind_block (kind : TokenKind) (cs : List Char) : (block kind cs).kind = kind := by
  fun_induction block kind cs with
  | case1 => rfl
  | case2 => rfl
  | case3 c cs _ ih => exact ih

end Lexeme

namespace ByteScan

/-! ### The scanner -/

/-- The character with the code of a byte. Bytes are classified as these characters are. -/
def code (b : UInt8) : Char :=
  Char.ofUInt8 b

/-- Where the bytes from `pos` on cease to satisfy `p`. -/
def skipWhile (bytes : List UInt8) (p : Char → Bool) (pos : Nat) : Nat :=
  pos + ((bytes.drop pos).takeWhile fun b => p (code b)).length

/-- Where a string literal ends of which the bytes from `pos` on are left. -/
def skipString (bytes : List UInt8) (quote : Char) (pos : Nat) : Nat :=
  if h : pos < bytes.length then
    if code bytes[pos] = '\\' then skipString bytes quote (pos + 2)
    else if code bytes[pos] = quote then pos + 1
    else skipString bytes quote (pos + 1)
  else bytes.length
termination_by bytes.length - pos

/-- The byte offset of the first `*/` of a text. -/
def findClose : List Char → Option Nat
  | [] => none
  | '*' :: '/' :: _ => some 0
  | c :: cs => (findClose cs).map (c.utf8Size + ·)

/-- The operator at `pos`, a whole character, and where it ends. -/
def operator? (source : List Char) (pos : Nat) : Option (TokenKind × Nat) := do
  let rest ← dropBytes? pos source
  return (.operator, pos + (rest.head?.map Char.utf8Size).getD 1)

/-- The block comment at `pos`, and where it ends. -/
def blockComment? (source : List Char) (bytes : List UInt8) (pos : Nat) :
    Option (TokenKind × Nat) := do
  let rest ← dropBytes? (pos + 2) source
  let kind := if bytes[pos + 2]?.map code = some '*' then .docComment else .comment
  return (kind, ((findClose rest).map (pos + 2 + · + 2)).getD bytes.length)

/-- What the slash at `pos` starts, and where that ends. -/
def slash? (source : List Char) (bytes : List UInt8) (pos : Nat) : Option (TokenKind × Nat) :=
  if bytes[pos + 1]?.map code = some '/' then some (.comment, skipWhile bytes (· != '\n') pos)
  else if bytes[pos + 1]?.map code = some '*' then blockComment? source bytes pos
  else operator? source pos

/-- What the byte at `pos` starts, and where that ends. -/
def lexeme? (source : List Char) (bytes : List UInt8) (pos : Nat) (b : UInt8) :
    Option (TokenKind × Nat) :=
  match delimiter? (code b) with
  | some kind => some (kind, pos + 1)
  | none =>
    if isBlank (code b) then some (.whitespace, skipWhile bytes isBlank pos)
    else if code b = '#' then some (.comment, skipWhile bytes (· != '\n') pos)
    else if code b = '/' then slash? source bytes pos
    else if code b = '\x27' ∨ code b = '\x22' then
      some (.literal, skipString bytes (code b) (pos + 1))
    else if code b = '$' then some (.variableName, skipWhile bytes isWordChar (pos + 1))
    else if (code b).isDigit then some (.literal, skipWhile bytes isWordChar pos)
    else if isWordChar (code b) ∨ code b = '\\' then
      some (.identifier, skipWhile bytes (fun d => isWordChar d || d == '\\') pos)
    else operator? source pos

/-- The tokens of the bytes from `pos` on. -/
def scanFrom? (source : List Char) (bytes : List UInt8) (pos : Nat) : Option (List Token) :=
  if h : pos < bytes.length then do
    let (kind, stop) ← lexeme? source bytes pos bytes[pos]
    let text ← slice? source pos stop
    if pos < stop then
      let tokens ← scanFrom? source bytes stop
      return .startingAt pos kind (.ofList text) :: tokens
    else none
  else some []
termination_by bytes.length - pos

/-- The tokens of a source text; `none` if a cut falls outside of the text or into a character, or
if a step does not move on. -/
def scan? (source : String) : Option (List Token) :=
  scanFrom? source.toList (utf8 source.toList) 0

/-! ### Bytes of a character -/

theorem toNat_code (b : UInt8) : (code b).toNat = b.toNat :=
  rfl

/-- The only byte of an ASCII character is its code. -/
theorem utf8EncodeChar_of_ascii {c : Char} (h : c.toNat < 128) :
    ∃ b, String.utf8EncodeChar c = [b] ∧ code b = c := by
  refine ⟨UInt8.ofNat c.toNat, ?_, ?_⟩
  · have hle : c.val.toNat ≤ 127 := Nat.le_of_lt_succ h
    rw [String.utf8EncodeChar, if_pos hle]
    rfl
  · apply Char.toNat_inj.1
    rw [toNat_code, UInt8.toNat_ofNat', Nat.mod_eq_of_lt]
    omega

/-- All bytes of a character beyond ASCII have codes beyond ASCII. -/
theorem le_code_of_mem {c : Char} (h : 128 ≤ c.toNat) :
    ∀ b ∈ String.utf8EncodeChar c, 128 ≤ (code b).toNat := by
  have hgt : ¬c.val.toNat ≤ 127 := Nat.not_le.2 h
  have hbyte (n : Nat) (hn : 128 ≤ n) (hn' : n < 256) : 128 ≤ (code (UInt8.ofNat n)).toNat := by
    rw [toNat_code, UInt8.toNat_ofNat', Nat.mod_eq_of_lt hn']
    exact hn
  intro b hb
  rw [String.utf8EncodeChar, if_neg hgt] at hb
  -- two, three or four bytes, each with its topmost bit set
  split at hb
  · simp only [List.mem_cons, List.not_mem_nil, or_false] at hb
    rcases hb with rfl | rfl <;> apply hbyte <;> omega
  · split at hb
    · simp only [List.mem_cons, List.not_mem_nil, or_false] at hb
      rcases hb with rfl | rfl | rfl <;> apply hbyte <;> omega
    · simp only [List.mem_cons, List.not_mem_nil, or_false] at hb
      rcases hb with rfl | rfl | rfl | rfl <;> apply hbyte <;> omega

/-- The bytes of a character have the code of no other ASCII character. -/
theorem code_ne_of_mem {a c : Char} (ha : a.toNat < 128) (hne : c ≠ a) :
    ∀ b ∈ String.utf8EncodeChar c, code b ≠ a := by
  intro b hb heq
  by_cases hc : c.toNat < 128
  · obtain ⟨b', hbytes, hcode⟩ := utf8EncodeChar_of_ascii hc
    rw [hbytes, List.mem_singleton] at hb
    exact hne (hcode ▸ hb ▸ heq)
  · have := le_code_of_mem (Nat.le_of_not_lt hc) b hb
    rw [heq] at this
    omega

/-- After its first byte a character has no ASCII codes. -/
theorem code_ne_of_mem_tail {a c : Char} (ha : a.toNat < 128) :
    ∀ b ∈ (String.utf8EncodeChar c).tail, code b ≠ a := by
  intro b hb heq
  by_cases hc : c.toNat < 128
  · obtain ⟨b', hbytes, -⟩ := utf8EncodeChar_of_ascii hc
    rw [hbytes] at hb
    exact absurd hb List.not_mem_nil
  · have := le_code_of_mem (Nat.le_of_not_lt hc) b (List.mem_of_mem_tail hb)
    rw [heq] at this
    omega

/-- A text starts with an ASCII character if its bytes start with the code. -/
theorem head?_utf8_eq_some_iff {a : Char} (ha : a.toNat < 128) {cs : List Char} :
    (utf8 cs).head?.map code = some a ↔ cs.head? = some a := by
  cases cs with
  | nil => simp
  | cons c cs =>
    obtain ⟨b, bs, hbytes⟩ := List.exists_cons_of_ne_nil (String.utf8EncodeChar_ne_nil (c := c))
    rw [utf8_cons, hbytes, List.cons_append, List.head?_cons, List.head?_cons, Option.map_some,
      Option.some.injEq, Option.some.injEq]
    constructor
    · intro heq
      by_contra hne
      exact code_ne_of_mem ha hne b (hbytes ▸ List.mem_cons_self) heq
    · rintro rfl
      obtain ⟨b', hbytes', hcode⟩ := utf8EncodeChar_of_ascii ha
      rw [hbytes] at hbytes'
      obtain ⟨rfl, -⟩ := List.cons.inj hbytes'
      exact hcode

/-! ### Runs, strings and comments -/

/-- A run of bytes ends between two characters if all characters beyond ASCII are alike to it. -/
theorem takeWhile_utf8 {p : Char → Bool} {v : Bool} (hp : ∀ c : Char, 128 ≤ c.toNat → p c = v)
    (cs : List Char) : (utf8 cs).takeWhile (fun b => p (code b)) = utf8 (cs.takeWhile p) := by
  induction cs with
  | nil => rfl
  | cons c cs ih =>
    rw [utf8_cons]
    by_cases hc : c.toNat < 128
    · obtain ⟨b, hbytes, hcode⟩ := utf8EncodeChar_of_ascii hc
      rw [hbytes, List.singleton_append]
      by_cases hpc : p c = true
      · rw [List.takeWhile_cons_of_pos hpc, List.takeWhile_cons_of_pos (hcode.symm ▸ hpc), ih,
          utf8_cons, hbytes, List.singleton_append]
      · rw [List.takeWhile_cons_of_neg hpc, List.takeWhile_cons_of_neg (hcode.symm ▸ hpc), utf8_nil]
    · have hge : 128 ≤ c.toNat := Nat.le_of_not_lt hc
      have hbytes := le_code_of_mem hge
      cases v with
      | true =>
        rw [List.takeWhile_cons_of_pos (hp c hge),
          List.takeWhile_append_of_pos fun b hb => hp _ (hbytes b hb), ih, utf8_cons]
      | false =>
        obtain ⟨b, bs, hcons⟩ := List.exists_cons_of_ne_nil (String.utf8EncodeChar_ne_nil (c := c))
        have hb : p (code b) = false := hp _ (hbytes b (hcons ▸ List.mem_cons_self))
        rw [List.takeWhile_cons_of_neg (by simp [hp c hge]), hcons, List.cons_append,
          List.takeWhile_cons_of_neg (by simp [hb]), utf8_nil]

theorem skipWhile_eq {p : Char → Bool} {v : Bool} (hp : ∀ c : Char, 128 ≤ c.toNat → p c = v)
    (before cs : List Char) :
    skipWhile (utf8 (before ++ cs)) p (utf8 before).length =
      (utf8 (before ++ cs.takeWhile p)).length := by
  rw [skipWhile, utf8_append, List.drop_left, takeWhile_utf8 hp, utf8_append, List.length_append]

theorem skipWhile_cons {p : Char → Bool} {v : Bool} (hp : ∀ c : Char, 128 ≤ c.toNat → p c = v)
    (before : List Char) {c : Char} (hc : p c = true) (cs : List Char) :
    skipWhile (utf8 (before ++ c :: cs)) p (utf8 before).length =
      (utf8 (before ++ c :: cs.takeWhile p)).length := by
  rw [skipWhile_eq hp, List.takeWhile_cons_of_pos hc]

/-- Bytes that are neither a backslash nor the quote are passed over. -/
theorem skipString_plain {quote : Char} (before plain after : List UInt8)
    (h : ∀ b ∈ plain, code b ≠ '\\' ∧ code b ≠ quote) :
    skipString (before ++ (plain ++ after)) quote before.length =
      skipString (before ++ (plain ++ after)) quote (before.length + plain.length) := by
  induction plain generalizing before with
  | nil => rfl
  | cons b plain ih =>
    obtain ⟨hbackslash, hquote⟩ := h b List.mem_cons_self
    have hstep : skipString (before ++ (b :: plain ++ after)) quote before.length =
        skipString (before ++ (b :: plain ++ after)) quote (before.length + 1) := by
      rw [skipString, dif_pos (by simp)]
      simp [hbackslash, hquote]
    have hrest := ih (before ++ [b]) fun b' hb' => h b' (List.mem_cons_of_mem b hb')
    simp only [List.append_assoc, List.length_append, List.singleton_append, List.length_cons,
      List.length_nil] at hrest
    rw [hstep, List.cons_append, hrest, List.length_cons]
    congr 1
    omega

/-- A backslash takes the next byte with it. -/
theorem skipString_escape (quote : Char) (before after : List UInt8) :
    skipString (before ++ (utf8 ['\\'] ++ after)) quote before.length =
      skipString (before ++ (utf8 ['\\'] ++ after)) quote (before.length + 2) := by
  have hbytes : utf8 ['\\'] = [92] := by decide
  have hcode : code 92 = '\\' := by decide
  rw [hbytes, skipString, dif_pos (by simp)]
  simp [hcode]

/-- A string literal ends between two characters, also if it is not closed or an escape leads
into a character. -/
theorem skipString_eq {quote : Char} (hquote : quote.toNat < 128) (before cs : List Char) :
    skipString (utf8 (before ++ cs)) quote (utf8 before).length =
      (utf8 (before ++ (Lexeme.quoted quote cs).tail)).length := by
  have hbackslash : '\\'.toNat < 128 := by decide
  fun_induction Lexeme.quoted quote cs generalizing before with
  | case1 => rw [skipString, dif_neg (by simp)]
  | case2 =>
    have hescape := skipString_escape quote (utf8 before) []
    rw [List.append_nil, ← utf8_append] at hescape
    rw [hescape, skipString, dif_neg (by simp [length_utf8_cons, Char.utf8Size])]
  | case3 c cs ih =>
    obtain ⟨b, bs, hc⟩ := List.exists_cons_of_ne_nil (String.utf8EncodeChar_ne_nil (c := c))
    have htail : ∀ b' ∈ bs, code b' ≠ '\\' ∧ code b' ≠ quote := by
      intro b' hb'
      have hmem : b' ∈ (String.utf8EncodeChar c).tail := by rwa [hc, List.tail_cons]
      exact ⟨code_ne_of_mem_tail hbackslash b' hmem, code_ne_of_mem_tail hquote b' hmem⟩
    have hbytes : utf8 (before ++ '\\' :: c :: cs) =
        utf8 before ++ (utf8 ['\\'] ++ (b :: bs ++ utf8 cs)) := by
      simp [utf8_cons, hc]
    have hbytes' : utf8 (before ++ '\\' :: c :: cs) =
        (utf8 before ++ utf8 ['\\'] ++ [b]) ++ (bs ++ utf8 cs) := by
      simp [hbytes]
    -- the escape lands behind the first byte of the character, and the others are passed over
    calc skipString (utf8 (before ++ '\\' :: c :: cs)) quote (utf8 before).length
      _ = skipString (utf8 (before ++ '\\' :: c :: cs)) quote ((utf8 before).length + 2) := by
        rw [hbytes, skipString_escape]
      _ = skipString (utf8 (before ++ '\\' :: c :: cs)) quote
          ((utf8 before ++ utf8 ['\\'] ++ [b]).length + bs.length) := by
        rw [hbytes', ← skipString_plain _ _ _ htail]
        simp [length_utf8_cons, Char.utf8Size]
      _ = skipString (utf8 (before ++ ['\\', c] ++ cs)) quote
          (utf8 (before ++ ['\\', c])).length := by
        have hlength : (utf8 (before ++ ['\\', c])).length =
            (utf8 before ++ utf8 ['\\'] ++ [b]).length + bs.length := by
          simp only [utf8_append, utf8_cons, utf8_nil, hc, List.length_append, List.length_cons,
            List.length_nil]
          omega
        rw [hlength, List.append_assoc before]
        rfl
      _ = (utf8 (before ++ ['\\', c] ++ (Lexeme.quoted quote cs).tail)).length := ih _
      _ = _ := by simp [Lexeme.push]
  | case4 cs hnil hcons =>
    have hne : quote ≠ '\\' := Lexeme.ne_backslash hnil hcons
    obtain ⟨b, hbytes, hcode⟩ := utf8EncodeChar_of_ascii hquote
    rw [skipString, dif_pos (by simp [utf8_cons, hbytes])]
    simp [utf8_cons, hbytes, hcode, hne]
  | case5 c cs hnil hcons hc ih =>
    have hne : c ≠ '\\' := Lexeme.ne_backslash hnil hcons
    calc skipString (utf8 (before ++ c :: cs)) quote (utf8 before).length
      _ = skipString (utf8 (before ++ c :: cs)) quote
          ((utf8 before).length + (String.utf8EncodeChar c).length) := by
        rw [utf8_append, utf8_cons]
        exact skipString_plain _ _ _ fun b hb =>
          ⟨code_ne_of_mem hbackslash hne b hb, code_ne_of_mem hquote hc b hb⟩
      _ = skipString (utf8 (before ++ [c] ++ cs)) quote (utf8 (before ++ [c])).length := by
        simp [utf8_cons]
      _ = (utf8 (before ++ [c] ++ (Lexeme.quoted quote cs).tail)).length := ih _
      _ = _ := by simp [Lexeme.push]

/-- A comment ends after the first `*/`, or with the text. -/
theorem findClose_eq (kind : TokenKind) (cs : List Char) :
    ((findClose cs).map (· + 2)).getD (utf8 cs).length =
      (utf8 (Lexeme.block kind cs).tail).length := by
  fun_induction Lexeme.block kind cs with
  | case1 => rfl
  | case2 cs => rfl
  | case3 c cs h ih =>
    have hfind : findClose (c :: cs) = (findClose cs).map (c.utf8Size + ·) := by
      rw [findClose]
      exact h
    rw [hfind, Lexeme.push, length_utf8_cons, length_utf8_cons, ← ih]
    cases findClose cs with
    | none => rfl
    | some n =>
      simp only [Option.map_some, Option.getD_some]
      omega

/-! ### The next token -/

theorem getElem?_utf8 (before cs : List Char) :
    (utf8 (before ++ cs))[(utf8 before).length]? = (utf8 cs).head? := by
  rw [utf8_append, List.getElem?_append_right (Nat.le_refl _), Nat.sub_self,
    List.head?_eq_getElem?]

/-- The bytes after an ASCII character at the end of a text before them. -/
theorem length_utf8_concat {c : Char} (hc : c.toNat < 128) (before : List Char) :
    (utf8 (before ++ [c])).length = (utf8 before).length + 1 := by
  obtain ⟨b, hbytes, -⟩ := utf8EncodeChar_of_ascii hc
  simp [utf8_cons, hbytes]

/-- Characters beyond ASCII belong to words. -/
theorem isWordChar_of_le {c : Char} (h : 128 ≤ c.toNat) : isWordChar c = true := by
  simp [isWordChar, h]

theorem ne_of_le {c : Char} (h : 128 ≤ c.toNat) {a : Char} (ha : a.toNat < 128) : c ≠ a := by
  rintro rfl
  omega

theorem isDigit_of_le {c : Char} (h : 128 ≤ c.toNat) : c.isDigit = false := by
  have hgt : ¬c.val ≤ '9'.val := by
    rw [UInt32.le_iff_toNat_le]
    have : '9'.val.toNat = 57 := rfl
    have : c.val.toNat = c.toNat := rfl
    omega
  exact Bool.and_eq_false_iff.2 (.inr (decide_eq_false hgt))

theorem isBlank_of_le {c : Char} (h : 128 ≤ c.toNat) : isBlank c = false := by
  simp only [isBlank, Bool.or_eq_false_iff, beq_eq_false_iff_ne]
  refine ⟨⟨⟨⟨?_, ?_⟩, ?_⟩, ?_⟩, ?_⟩ <;> exact ne_of_le h (by decide)

theorem delimiter?_of_le {c : Char} (h : 128 ≤ c.toNat) : delimiter? c = none := by
  unfold delimiter?
  split <;> simp_all

/-- A block comment ends between two characters, and its third byte tells its kind. -/
theorem blockComment?_eq (before cs : List Char) {kind : TokenKind}
    (hkind : kind = if cs.head? = some '*' then .docComment else .comment) :
    blockComment? (before ++ '/' :: '*' :: cs) (utf8 (before ++ '/' :: '*' :: cs))
        (utf8 before).length =
      some (kind, (utf8 (before ++ '/' :: '*' :: (Lexeme.block kind cs).tail)).length) := by
  have hlength : (utf8 before).length + 2 = (utf8 (before ++ ['/', '*'])).length := by
    rw [List.append_cons, length_utf8_concat (by decide), length_utf8_concat (by decide)]
  have hsplit (ds : List Char) : before ++ '/' :: '*' :: ds = before ++ ['/', '*'] ++ ds := by
    rw [List.append_assoc]
    rfl
  rw [hsplit cs, hsplit (Lexeme.block kind cs).tail, blockComment?, hlength, dropBytes?_append,
    getElem?_utf8]
  simp only [head?_utf8_eq_some_iff (show '*'.toNat < 128 by decide), ← hkind]
  show some (kind, _) = some (kind, _)
  rw [length_utf8_append _ cs, length_utf8_append _ (Lexeme.block kind cs).tail,
    ← findClose_eq kind cs]
  cases findClose cs with
  | none => rfl
  | some n => rfl

/-- An operator is one character. -/
theorem operator?_eq (before : List Char) (c : Char) (cs : List Char) :
    operator? (before ++ c :: cs) (utf8 before).length =
      some (.operator, (utf8 (before ++ [c])).length) := by
  rw [operator?, dropBytes?_append, utf8_append, List.length_append, length_utf8_cons, utf8_nil]
  rfl

/-- Line feeds apart, everything belongs to a line comment. -/
theorem ne_lineFeed_of_le (c : Char) (h : 128 ≤ c.toNat) : (c != '\n') = true :=
  bne_iff_ne.2 (ne_of_le h (by decide))

/-- A slash starts a comment if the next byte is that of a slash or an asterisk. -/
theorem slash?_eq (before cs : List Char) :
    slash? (before ++ '/' :: cs) (utf8 (before ++ '/' :: cs)) (utf8 before).length =
      some ((Lexeme.slash cs).kind, (utf8 (before ++ '/' :: (Lexeme.slash cs).tail)).length) := by
  have hslash : '/'.toNat < 128 := by decide
  have hstar : '*'.toNat < 128 := by decide
  have hnext : (utf8 (before ++ '/' :: cs))[(utf8 before).length + 1]? = (utf8 cs).head? := by
    rw [← length_utf8_concat hslash, List.append_cons, getElem?_utf8]
  have hhead {a : Char} {ds : List Char} (h : ∀ es, ds = a :: es → False) : ds.head? ≠ some a := by
    intro hhead
    obtain ⟨es, rfl⟩ := List.head?_eq_some_iff.1 hhead
    exact h es rfl
  simp only [slash?, hnext, head?_utf8_eq_some_iff hslash, head?_utf8_eq_some_iff hstar]
  fun_cases Lexeme.slash cs with
  | case1 cs =>
    rw [List.head?_cons, if_pos rfl, skipWhile_eq ne_lineFeed_of_le]
    rfl
  | case2 cs =>
    rw [List.head?_cons, if_neg (by decide), if_pos rfl, blockComment?_eq before ('*' :: cs) rfl]
    simp [Lexeme.push, Lexeme.kind_block]
  | case3 cs h =>
    rw [List.head?_cons, if_neg (by decide), if_pos rfl,
      blockComment?_eq before cs (if_neg (hhead h)).symm]
    simp [Lexeme.push, Lexeme.kind_block]
  | case4 cs hslash _ hstar => rw [if_neg (hhead hslash), if_neg (hhead hstar), operator?_eq]

theorem isWordChar_or_of_le (c : Char) (h : 128 ≤ c.toNat) :
    (isWordChar c || c == '\\') = true := by
  rw [isWordChar_of_le h, Bool.true_or]

/-- A character beyond ASCII starts a word. -/
theorem first_of_le {c : Char} (h : 128 ≤ c.toNat) (cs : List Char) :
    Lexeme.first c cs = .run .identifier (fun d => isWordChar d || d == '\\') cs := by
  have hne {a : Char} (ha : a.toNat < 128) : c ≠ a := ne_of_le h ha
  unfold Lexeme.first
  simp [delimiter?_of_le h, isBlank_of_le h, isDigit_of_le h, isWordChar_of_le h, hne]

/-- A byte beyond ASCII starts a word. -/
theorem lexeme?_of_le {b : UInt8} (h : 128 ≤ (code b).toNat) (source : List Char)
    (bytes : List UInt8) (pos : Nat) :
    lexeme? source bytes pos b =
      some (.identifier, skipWhile bytes (fun d => isWordChar d || d == '\\') pos) := by
  have hne {a : Char} (ha : a.toNat < 128) : code b ≠ a := ne_of_le h ha
  unfold lexeme?
  simp [delimiter?_of_le h, isBlank_of_le h, isDigit_of_le h, isWordChar_of_le h, hne]

/-- The token that an ASCII character starts ends between two characters. -/
theorem lexeme?_of_ascii (before : List Char) {c : Char} (hc : c.toNat < 128) (cs : List Char)
    {b : UInt8} (hb : code b = c) :
    lexeme? (before ++ c :: cs) (utf8 (before ++ c :: cs)) (utf8 before).length b =
      some ((Lexeme.first c cs).kind, (utf8 (before ++ c :: (Lexeme.first c cs).tail)).length) := by
  have hlength := length_utf8_concat hc before
  have hsplit (ds : List Char) : before ++ c :: ds = before ++ [c] ++ ds := List.append_cons ..
  unfold lexeme?
  rw [hb]
  -- both scanners make the same tests in the same order
  fun_cases Lexeme.first c cs with
  | case1 kind hdelimiter => rw [hdelimiter, ← hlength]
  | case2 hdelimiter hblank =>
    simp only [hdelimiter]
    rw [if_pos hblank, skipWhile_cons (fun _ => isBlank_of_le) before hblank]
    rfl
  | case3 hdelimiter hblank hhash =>
    have hline : (c != '\n') = true := by rw [hhash]; decide
    simp only [hdelimiter]
    rw [if_neg hblank, if_pos hhash, skipWhile_cons ne_lineFeed_of_le before hline]
    rfl
  | case4 hdelimiter hblank hhash hslash =>
    simp only [hdelimiter]
    rw [if_neg hblank, if_neg hhash, if_pos hslash, hslash, slash?_eq]
  | case5 hdelimiter hblank hhash hslash hquote =>
    simp only [hdelimiter]
    rw [if_neg hblank, if_neg hhash, if_neg hslash, if_pos hquote, ← hlength, hsplit cs,
      hsplit (Lexeme.quoted c cs).tail, skipString_eq hc, Lexeme.kind_quoted]
  | case6 hdelimiter hblank hhash hslash hquote hdollar =>
    simp only [hdelimiter]
    rw [if_neg hblank, if_neg hhash, if_neg hslash, if_neg hquote, if_pos hdollar, ← hlength,
      hsplit cs, skipWhile_eq (fun _ => isWordChar_of_le), ← hsplit]
    rfl
  | case7 hdelimiter hblank hhash hslash hquote hdollar hdigit =>
    have hword : isWordChar c = true := by simp [isWordChar, Char.isAlphanum, hdigit]
    simp only [hdelimiter]
    rw [if_neg hblank, if_neg hhash, if_neg hslash, if_neg hquote, if_neg hdollar, if_pos hdigit,
      skipWhile_cons (fun _ => isWordChar_of_le) before hword]
    rfl
  | case8 hdelimiter hblank hhash hslash hquote hdollar hdigit hword =>
    have hname : (isWordChar c || c == '\\') = true := by simpa using hword
    simp only [hdelimiter]
    rw [if_neg hblank, if_neg hhash, if_neg hslash, if_neg hquote, if_neg hdollar, if_neg hdigit,
      if_pos hword, skipWhile_cons isWordChar_or_of_le before hname]
    rfl
  | case9 hdelimiter hblank hhash hslash hquote hdollar hdigit hword =>
    simp only [hdelimiter]
    rw [if_neg hblank, if_neg hhash, if_neg hslash, if_neg hquote, if_neg hdollar, if_neg hdigit,
      if_neg hword, operator?_eq]

/-- The first byte of a character tells as much as the character, and the token that it starts
ends between two characters. -/
theorem lexeme?_eq (before : List Char) (c : Char) (cs : List Char) {b : UInt8} {bs : List UInt8}
    (hc : String.utf8EncodeChar c = b :: bs) :
    lexeme? (before ++ c :: cs) (utf8 (before ++ c :: cs)) (utf8 before).length b =
      some ((Lexeme.first c cs).kind, (utf8 (before ++ c :: (Lexeme.first c cs).tail)).length) := by
  by_cases hascii : c.toNat < 128
  · obtain ⟨b', hbytes, hcode⟩ := utf8EncodeChar_of_ascii hascii
    obtain ⟨rfl, -⟩ := List.cons.inj (hc.symm.trans hbytes)
    exact lexeme?_of_ascii before hascii cs hcode
  · have hge : 128 ≤ c.toNat := Nat.le_of_not_lt hascii
    have hb : 128 ≤ (code b).toNat := le_code_of_mem hge b (hc ▸ List.mem_cons_self)
    rw [lexeme?_of_le hb, first_of_le hge,
      skipWhile_cons isWordChar_or_of_le before (isWordChar_or_of_le c hge)]
    rfl

/-- A step of the scanner that finds its lexeme, cuts it out and moves on. -/
theorem scanFrom?_of_lexeme? {source text : List Char} {bytes : List UInt8} {pos stop : Nat}
    {kind : TokenKind} {tokens : List Token} (h : pos < bytes.length)
    (hlexeme : lexeme? source bytes pos bytes[pos] = some (kind, stop))
    (hslice : slice? source pos stop = some text) (hmoves : pos < stop)
    (hrest : scanFrom? source bytes stop = some tokens) :
    scanFrom? source bytes pos = some (.startingAt pos kind (.ofList text) :: tokens) := by
  rw [scanFrom?, dif_pos h, hlexeme]
  simp only [Option.bind_eq_bind, Option.bind_some, hslice, if_pos hmoves, hrest]
  rfl

/-- Scanning the bytes of a text never fails and gives the tokens of the text. -/
theorem scanFrom?_eq (before : List Char) {cs : List Char} {start : Nat}
    (hstart : start = (utf8 before).length) :
    scanFrom? (before ++ cs) (utf8 (before ++ cs)) start = some (scanFrom start cs) := by
  fun_induction scanFrom start cs generalizing before
  case case1 start => rw [scanFrom?, dif_neg (by simp [hstart])]
  case case2 start c cs lexeme token ih =>
    subst hstart
    obtain ⟨b, bs, hc⟩ := List.exists_cons_of_ne_nil (String.utf8EncodeChar_ne_nil (c := c))
    have hpos := length_utf8_pos (List.cons_ne_nil c lexeme.tail)
    have htext : before ++ c :: cs = before ++ c :: lexeme.tail ++ lexeme.rest := by
      rw [List.append_assoc, List.cons_append, Lexeme.first_append]
    have hstop : token.span.stop = (utf8 (before ++ c :: lexeme.tail)).length := by
      rw [length_utf8_append, ← utf8ByteSize_ofList (c :: lexeme.tail)]
      rfl
    have hslice : slice? (before ++ c :: cs) (utf8 before).length token.span.stop =
        some (c :: lexeme.tail) := by
      rw [hstop, length_utf8_append, htext, slice?_append]
    have hlt : (utf8 before).length < (utf8 (before ++ c :: cs)).length := by
      rw [htext, length_utf8_append, length_utf8_append]
      omega
    have hfirst : (utf8 (before ++ c :: cs))[(utf8 before).length] = b := by
      simp [utf8_cons, hc]
    have hrest := ih _ hstop
    rw [← htext] at hrest
    refine scanFrom?_of_lexeme? hlt ?_ hslice ?_ hrest
    · rw [hfirst, hstop]
      exact lexeme?_eq before c cs hc
    · rw [hstop, length_utf8_append]
      omega

/-- Stepping over bytes and stepping over characters divide a text in the same way. -/
theorem scan?_eq (source : String) : scan? source = some (scan source) :=
  scanFrom?_eq [] rfl

end ByteScan

end SyntaxLowering
