import Mathlib.Algebra.GroupWithZero.Nat
import Mathlib.Data.List.TakeWhile
import SyntaxLowering.Json.Reader
import SyntaxLowering.Json.Writer

/-!
# Written JSON is read back

`Json.parse?` inverts both layouts, `Json.compact` and `Json.pretty`, on every value whose numbers
are written as numbers (`Json.IsProper`).

The tokens of a value (`Json.toks`) stand between text and value. The lexer finds them in either
text: what is written so far either ends between two tokens (`EndsBetween`) or with a value whose
last token the next character finishes (`EndsWith`), and each piece that a writer adds leads from
one such text to another. The reader turns them into the value.
-/

namespace SyntaxLowering.Json

/-! ### The tokens of a value -/

mutual

/-- The tokens of a value. -/
def toks : Json → List Tok
  | null => [.null]
  | bool b => [.bool b]
  | int n => [.int n]
  | real literal => [.real literal]
  | str text => [.str text]
  | arr [] => [.openBracket, .closeBracket]
  | arr (item :: items) => .openBracket :: (item.toks ++ toksItems items)
  | obj [] => [.openBrace, .closeBrace]
  | obj ((key, value) :: fields) =>
    .openBrace :: .str key :: .colon :: (value.toks ++ toksFields fields)

/-- The tokens of the items of an array after the first one, and of its end. -/
def toksItems : List Json → List Tok
  | [] => [.closeBracket]
  | item :: items => .comma :: (item.toks ++ toksItems items)

/-- The tokens of the fields of an object after the first one, and of its end. -/
def toksFields : List (Option String × Json) → List Tok
  | [] => [.closeBrace]
  | (key, value) :: fields =>
    .comma :: .str key :: .colon :: (value.toks ++ toksFields fields)

end

namespace Reader

/-- A value read right after an opening bracket becomes the first item. -/
theorem foldlM_arrayStart (json : Json) (stack : List Frame) (rest : List Tok) :
    (json.toks ++ rest).foldlM step (arrayStart stack) =
      (json.toks ++ rest).foldlM step (value (.array [] :: stack)) := by
  rcases json with _ | _ | _ | _ | _ | (_ | _) | (_ | _) <;> rfl

mutual

/-- The tokens of a value lead from where a value must stand to after that value. -/
theorem foldlM_toks (json : Json) (stack : List Frame) (rest : List Tok) :
    (json.toks ++ rest).foldlM step (value stack) = rest.foldlM step (done json stack) := by
  match json with
  | .null | .bool _ | .int _ | .real _ | .str _ | .arr [] | .obj [] => rfl
  | .arr (item :: items) =>
    calc ((arr (item :: items)).toks ++ rest).foldlM step (value stack)
      _ = (item.toks ++ (toksItems items ++ rest)).foldlM step (arrayStart stack) := by
        rw [toks, List.cons_append, List.append_assoc]
        rfl
      _ = (toksItems items ++ rest).foldlM step (done item (.array [] :: stack)) := by
        rw [foldlM_arrayStart, foldlM_toks]
      _ = _ := foldlM_toksItems items item [] stack rest
  | .obj ((name, member) :: fields) =>
    calc ((obj ((name, member) :: fields)).toks ++ rest).foldlM step (value stack)
      _ = (member.toks ++ (toksFields fields ++ rest)).foldlM step
            (value (.object [] name :: stack)) := by
        rw [toks, List.cons_append, List.cons_append, List.cons_append, List.append_assoc]
        rfl
      _ = (toksFields fields ++ rest).foldlM step (done member (.object [] name :: stack)) := by
        rw [foldlM_toks]
      _ = _ := foldlM_toksFields fields name member [] stack rest

/-- After an item, the tokens of the other items end the array. -/
theorem foldlM_toksItems (items : List Json) (last : Json) (before : List Json)
    (stack : List Frame) (rest : List Tok) :
    (toksItems items ++ rest).foldlM step (done last (.array before :: stack)) =
      rest.foldlM step (done (.arr (before.reverse ++ last :: items)) stack) := by
  match items with
  | [] =>
    rw [← List.reverse_cons]
    rfl
  | item :: items =>
    calc (toksItems (item :: items) ++ rest).foldlM step (done last (.array before :: stack))
      _ = (item.toks ++ (toksItems items ++ rest)).foldlM step
            (value (.array (last :: before) :: stack)) := by
        rw [toksItems, List.cons_append, List.append_assoc]
        rfl
      _ = _ := by
        rw [foldlM_toks, foldlM_toksItems, List.reverse_cons, List.append_assoc]
        rfl

/-- After a field, the tokens of the other fields end the object. -/
theorem foldlM_toksFields (fields : List (Option String × Json)) (lastName : Option String)
    (last : Json) (before : List (Option String × Json)) (stack : List Frame) (rest : List Tok) :
    (toksFields fields ++ rest).foldlM step (done last (.object before lastName :: stack)) =
      rest.foldlM step (done (.obj (before.reverse ++ (lastName, last) :: fields)) stack) := by
  match fields with
  | [] =>
    rw [← List.reverse_cons]
    rfl
  | (name, member) :: fields =>
    calc (toksFields ((name, member) :: fields) ++ rest).foldlM step
          (done last (.object before lastName :: stack))
      _ = (member.toks ++ (toksFields fields ++ rest)).foldlM step
            (value (.object ((lastName, last) :: before) name :: stack)) := by
        rw [toksFields, List.cons_append, List.cons_append, List.cons_append, List.append_assoc]
        rfl
      _ = _ := by
        rw [foldlM_toks, foldlM_toksFields, List.reverse_cons, List.append_assoc]
        rfl

end

end Reader

theorem ofTokens?_toks (json : Json) : ofTokens? json.toks = some json := by
  have h := Reader.foldlM_toks json [] []
  rw [List.append_nil] at h
  rw [ofTokens?, h]
  rfl

/-! ### Texts and the lexer -/

/-- Reading the text ends between two tokens; those finished are listed last one first. -/
def EndsBetween (out : String) (toks : List Tok) : Prop :=
  out.toList.foldlM Lexer.step {} = some ⟨toks, .between⟩

/-- The characters that may follow a value in a written text. -/
def followers : List Char := [',', ']', '\x7d', '\n']

/-- Reading the text ends with the last of the tokens, which are listed last one first. A number
or word may still be open: the end of the text or a character that follows a value finishes it. -/
def EndsWith (out : String) (toks : List Tok) : Prop :=
  ∃ l, out.toList.foldlM Lexer.step {} = some l ∧ l.finish = some toks ∧
    ∀ c ∈ followers, l.step c = Lexer.start toks c

section Texts

variable {out : String} {ts : List Tok}

theorem EndsBetween.endsWith (h : EndsBetween out ts) : EndsWith out ts :=
  ⟨_, h, rfl, fun _ _ => rfl⟩

/-- A piece of text that the lexer reads from between two tokens. -/
theorem EndsBetween.append (h : EndsBetween out ts) (piece : String) {l : Lexer}
    (hl : piece.toList.foldlM Lexer.step ⟨ts, .between⟩ = some l) :
    (out ++ piece).toList.foldlM Lexer.step {} = some l := by
  rw [String.toList_append, List.foldlM_append, h]
  exact hl

/-- A piece that begins with a follower finishes the value before it. -/
theorem EndsWith.append (h : EndsWith out ts) {c : Char} (hc : c ∈ followers) (rest : List Char)
    {l : Lexer} (hl : (c :: rest).foldlM Lexer.step ⟨ts, .between⟩ = some l) :
    (out ++ String.ofList (c :: rest)).toList.foldlM Lexer.step {} = some l := by
  obtain ⟨open', hout, -, hstep⟩ := h
  rw [String.toList_append, List.foldlM_append, hout, String.toList_ofList]
  rw [List.foldlM_cons] at hl
  simp only [Option.bind_eq_bind, Option.bind_some, List.foldlM_cons, hstep c hc]
  exact hl

theorem EndsBetween.openBracket (h : EndsBetween out ts) :
    EndsBetween (out ++ "[") (.openBracket :: ts) :=
  h.append "[" rfl

theorem EndsBetween.openBrace (h : EndsBetween out ts) :
    EndsBetween (out ++ "\x7b") (.openBrace :: ts) :=
  h.append "\x7b" rfl

theorem EndsWith.closeBracket (h : EndsWith out ts) :
    EndsWith (out ++ "]") (.closeBracket :: ts) :=
  EndsBetween.endsWith (h.append (c := ']') (by decide) [] rfl)

theorem EndsWith.closeBrace (h : EndsWith out ts) :
    EndsWith (out ++ "\x7d") (.closeBrace :: ts) :=
  EndsBetween.endsWith (h.append (c := '\x7d') (by decide) [] rfl)

theorem EndsWith.comma (h : EndsWith out ts) : EndsBetween (out ++ ",") (.comma :: ts) :=
  h.append (c := ',') (by decide) [] rfl

/-- Spaces between tokens leave the lexer where it is. -/
theorem foldlM_spaces (n : Nat) :
    (List.replicate n ' ').foldlM Lexer.step ⟨ts, .between⟩ = some ⟨ts, .between⟩ := by
  induction n with
  | zero => rfl
  | succ n ih => exact ih

theorem EndsWith.newline (h : EndsWith out ts) (level : Nat) :
    EndsBetween (out ++ Json.newline level) ts := by
  have hpiece : Json.newline level =
      String.ofList ('\n' :: List.replicate (2 * level) ' ') := by
    simp [Json.newline, String.ofList_cons]
  rw [hpiece]
  exact h.append (by decide) _ (foldlM_spaces (2 * level))

end Texts

/-! ### Strings -/

/-- The value of a digit to base sixteen is the number it was written for. -/
theorem hexDigit?_digitChar {d : Nat} (h : d < 16) : hexDigit? (Nat.digitChar d) = some d := by
  revert d
  decide

/-- A code unit below 256 is read from its digits. -/
theorem foldlM_codeUnit {high low : Nat} (hhigh : high < 16) (hlow : low < 16) (ts : List Tok)
    (pieces : List Piece) :
    ['\\', 'u', '0', '0', Nat.digitChar high, Nat.digitChar low].foldlM Lexer.step
        ⟨ts, .string pieces⟩ =
      some ⟨ts, .string (.unit (16 * high + low) :: pieces)⟩ := by
  have hzero : hexDigit? '0' = some 0 := rfl
  simp [Lexer.step, hzero, hexDigit?_digitChar hhigh, hexDigit?_digitChar hlow]

/-- A control character is read from its escape. -/
theorem foldlM_controlEscape {n : Nat} (h : n < 0x20) (ts : List Tok) (pieces : List Piece) :
    (if n < 0x10 then "\\u000" ++ Text.hex n else "\\u00" ++ Text.hex n).toList.foldlM
        Lexer.step ⟨ts, .string pieces⟩ =
      some ⟨ts, .string (.unit n :: pieces)⟩ := by
  split
  case isTrue hn =>
    rw [Text.hex, Nat.toDigits_of_lt_base hn]
    have := foldlM_codeUnit (show 0 < 16 by decide) hn ts pieces
    rw [Nat.mul_zero, Nat.zero_add, show Nat.digitChar 0 = '0' from rfl] at this
    simpa using this
  case isFalse hn =>
    rw [Text.hex, Nat.toDigits_of_base_le (by decide) (by omega),
      Nat.toDigits_of_lt_base (by omega)]
    have := foldlM_codeUnit (show n / 16 < 16 by omega) (show n % 16 < 16 by omega) ts pieces
    rw [Nat.div_add_mod] at this
    simpa using this

/-- One character of a string is read as one piece, which stands for that character. -/
theorem foldlM_escapeChar (c : Char) (ts : List Tok) (pieces : List Piece) :
    ∃ piece, (escapeChar c).toList.foldlM Lexer.step ⟨ts, .string pieces⟩ =
        some ⟨ts, .string (piece :: pieces)⟩ ∧
      ∀ cs, Assembly.push { chars := cs } piece = some { chars := c :: cs } := by
  unfold escapeChar
  split
  case h_8 hquote hbackslash _ _ _ _ _ =>
    by_cases hcontrol : c.toNat < 0x20
    · refine ⟨.unit c.toNat, ?_, fun cs => ?_⟩
      · simpa only [hcontrol, if_true] using foldlM_controlEscape hcontrol ts pieces
      · have hlow : isLowSurrogate c.toNat = false := by simp [isLowSurrogate]; omega
        have hhigh : isHighSurrogate c.toNat = false := by simp [isHighSurrogate]; omega
        simp [Assembly.push, hlow, hhigh]
    · refine ⟨.char c, ?_, fun _ => rfl⟩
      have hten : ¬ c.toNat < 0x10 := by omega
      simp only [if_neg hten, if_neg hcontrol]
      simp [Lexer.step, if_neg hquote, if_neg hbackslash, hcontrol]
  all_goals exact ⟨.char _, rfl, fun _ => rfl⟩

/-- The characters of a string are read as pieces that stand for them. -/
theorem foldlM_escaped (cs : List Char) (ts : List Tok) (pieces : List Piece) :
    ∃ pieces', (cs.flatMap fun c => (escapeChar c).toList).foldlM Lexer.step
        ⟨ts, .string pieces⟩ = some ⟨ts, .string pieces'⟩ ∧
      ∀ after, pieces'.foldlM Assembly.push { chars := after } =
        pieces.foldlM Assembly.push { chars := cs ++ after } := by
  induction cs generalizing pieces with
  | nil => exact ⟨pieces, rfl, fun _ => rfl⟩
  | cons c cs ih =>
    obtain ⟨piece, hpiece, hpush⟩ := foldlM_escapeChar c ts pieces
    obtain ⟨pieces', hrest, hassembly⟩ := ih (piece :: pieces)
    refine ⟨pieces', ?_, fun after => ?_⟩
    · rw [List.flatMap_cons, List.foldlM_append, hpiece]
      exact hrest
    · rw [hassembly, List.foldlM_cons, hpush]
      rfl

/-- A string in quotes is read as that string. -/
theorem EndsBetween.quote {out : String} {ts : List Tok} (h : EndsBetween out ts)
    (text : Option String) : EndsBetween (out ++ Json.quote text) (.str text :: ts) := by
  refine h.append _ ?_
  match text with
  | none => rfl
  | some s =>
    obtain ⟨pieces, hpieces, hassembly⟩ := foldlM_escaped s.toList ts []
    have hchars : (Json.quote (some s)).toList =
        '\x22' :: ((s.toList.flatMap fun c => (escapeChar c).toList) ++ ['\x22']) := by
      simp [Json.quote, String.toList_join, List.flatMap_def, Function.comp_def]
    have hassemble : assemble? pieces = some s := by
      have := hassembly []
      simp [assemble?, this]
    rw [hchars, List.foldlM_cons]
    show List.foldlM Lexer.step ⟨ts, .string []⟩ _ = _
    rw [List.foldlM_append, hpieces]
    show some (Lexer.emit ts (.str (assemble? pieces))) = _
    rw [hassemble]
    rfl

theorem EndsBetween.key {out : String} {ts : List Tok} (h : EndsBetween out ts)
    (key : Option String) :
    EndsBetween (out ++ Json.quote key ++ ":") (.colon :: .str key :: ts) :=
  (h.quote key).append ":" rfl

theorem EndsBetween.spacedKey {out : String} {ts : List Tok} (h : EndsBetween out ts)
    (key : Option String) :
    EndsBetween (out ++ Json.quote key ++ ": ") (.colon :: .str key :: ts) :=
  (h.quote key).append ": " rfl

/-! ### Numbers and words -/

theorem isNumberChar_of_isDigit {c : Char} (h : c.isDigit) : isNumberChar c := by
  simp [isNumberChar, h]

theorem isNumberChar_of_isDigits {cs : List Char} (h : isDigits cs) {c : Char} (hc : c ∈ cs) :
    isNumberChar c := by
  simp only [isDigits, Bool.and_eq_true, List.all_eq_true] at h
  exact isNumberChar_of_isDigit (h.2 c hc)

theorem isNumberChar_of_isExponent {cs : List Char} (h : isExponent cs) {c : Char}
    (hc : c ∈ cs) : isNumberChar c := by
  unfold isExponent at h
  split at h
  · simp at hc
  · next e cs =>
    simp only [Bool.and_eq_true, Bool.or_eq_true, beq_iff_eq] at h
    obtain ⟨he, hds⟩ := h
    rcases List.mem_cons.mp hc with rfl | hc
    · rcases he with rfl | rfl <;> rfl
    · split at hds
      · rcases List.mem_cons.mp hc with rfl | hc
        · rfl
        · exact isNumberChar_of_isDigits hds hc
      · rcases List.mem_cons.mp hc with rfl | hc
        · rfl
        · exact isNumberChar_of_isDigits hds hc
      · exact isNumberChar_of_isDigits hds hc

theorem isNumberChar_of_isFraction {cs : List Char} (h : isFraction cs) {c : Char}
    (hc : c ∈ cs) : isNumberChar c := by
  unfold isFraction at h
  split at h
  · next cs =>
    simp only [Bool.and_eq_true] at h
    rcases List.mem_cons.mp hc with rfl | hc
    · rfl
    · rw [← List.takeWhile_append_dropWhile (p := Char.isDigit) (l := cs)] at hc
      rcases List.mem_append.mp hc with hc | hc
      · exact isNumberChar_of_isDigits h.1 hc
      · exact isNumberChar_of_isExponent h.2 hc
  · exact isNumberChar_of_isExponent h hc

/-- A number without its sign begins with a digit and holds no other characters than numbers do. -/
theorem chars_of_unsigned? {negative : Bool} {cs : List Char} {tok : Tok}
    (h : unsigned? negative cs = some tok) :
    (∃ c rest, cs = c :: rest ∧ c.isDigit) ∧ ∀ c ∈ cs, isNumberChar c := by
  have hparts : isWhole (cs.takeWhile Char.isDigit) ∧ isFraction (cs.dropWhile Char.isDigit) := by
    rw [← Bool.and_eq_true]
    by_contra hno
    simp [unsigned?, hno] at h
  constructor
  · match cs, hparts.1 with
    | c :: rest, hwhole =>
      refine ⟨c, rest, rfl, ?_⟩
      by_contra hc
      simp [hc, isWhole, isDigits] at hwhole
  · intro c hc
    rw [← List.takeWhile_append_dropWhile (p := Char.isDigit) (l := cs)] at hc
    rcases List.mem_append.mp hc with hc | hc
    · exact isNumberChar_of_isDigit (List.mem_takeWhile_imp hc)
    · exact isNumberChar_of_isFraction hparts.2 hc

/-- A number begins with a digit or a sign and holds no other characters than numbers do. -/
theorem chars_of_number? {cs : List Char} {tok : Tok} (h : number? cs = some tok) :
    (∃ c rest, cs = c :: rest ∧ (c.isDigit || c == '-')) ∧ ∀ c ∈ cs, isNumberChar c := by
  unfold number? at h
  split at h
  · obtain ⟨-, hall⟩ := chars_of_unsigned? h
    refine ⟨⟨_, _, rfl, rfl⟩, fun c hc => ?_⟩
    rcases List.mem_cons.mp hc with rfl | hc
    · rfl
    · exact hall c hc
  · obtain ⟨⟨c, rest, rfl, hc⟩, hall⟩ := chars_of_unsigned? h
    exact ⟨⟨c, rest, rfl, by simp [hc]⟩, hall⟩

theorem foldlM_numberChars {cs : List Char} (h : ∀ c ∈ cs, isNumberChar c) (ts : List Tok)
    (read : List Char) :
    cs.foldlM Lexer.step ⟨ts, .number read⟩ = some ⟨ts, .number (cs.reverse ++ read)⟩ := by
  induction cs generalizing read with
  | nil => rfl
  | cons c cs ih =>
    have hstep : Lexer.step ⟨ts, .number read⟩ c = some ⟨ts, .number (c :: read)⟩ := by
      simp [Lexer.step, h c List.mem_cons_self]
    rw [List.foldlM_cons, hstep, List.reverse_cons, List.append_assoc]
    exact ih (fun d hd => h d (List.mem_cons_of_mem c hd)) _

theorem Lexer.start_of_isDigit {c : Char} (h : c.isDigit || c == '-') (ts : List Tok) :
    Lexer.start ts c = some ⟨ts, .number [c]⟩ := by
  unfold Lexer.start
  split
  case h_12 => rw [if_pos h]
  all_goals exact absurd h (by decide)

/-- A number is read up to the character that follows it. -/
theorem EndsBetween.number {out : String} {ts : List Tok} (h : EndsBetween out ts)
    {literal : String} {tok : Tok} (hnumber : number? literal.toList = some tok) :
    EndsWith (out ++ literal) (tok :: ts) := by
  obtain ⟨⟨c, rest, hchars, hc⟩, hall⟩ := chars_of_number? hnumber
  have hread : literal.toList.foldlM Lexer.step ⟨ts, .between⟩ =
      some ⟨ts, .number literal.toList.reverse⟩ := by
    rw [hchars] at hall ⊢
    rw [List.foldlM_cons]
    show (Lexer.start ts c).bind _ = _
    rw [Lexer.start_of_isDigit hc, List.reverse_cons]
    exact foldlM_numberChars (fun d hd => hall d (List.mem_cons_of_mem c hd)) ts [c]
  have hfinish : Lexer.finish ⟨ts, .number literal.toList.reverse⟩ = some (tok :: ts) := by
    simp [Lexer.finish, hnumber]
  refine ⟨_, h.append _ hread, hfinish, fun d hd => ?_⟩
  have hd : isNumberChar d = false := by
    simp only [followers, List.mem_cons, List.not_mem_nil, or_false] at hd
    rcases hd with rfl | rfl | rfl | rfl <;> rfl
  simp [Lexer.step, hd, hfinish]

/-- A positive number is written without leading zeros. -/
theorem toDigits_eq_cons {n : Nat} (h : 0 < n) :
    ∃ c rest, Nat.toDigits 10 n = c :: rest ∧ c ≠ '0' := by
  induction n using Nat.strongRecOn with
  | _ n ih =>
    by_cases hn : n < 10
    · have hdigit : ∀ d < 10, 0 < d → Nat.digitChar d ≠ '0' := by decide
      exact ⟨_, [], Nat.toDigits_of_lt_base hn, hdigit n hn h⟩
    · obtain ⟨c, rest, hdigits, hc⟩ := ih (n / 10) (by omega) (by omega)
      rw [Nat.toDigits_of_base_le (by decide) (by omega), hdigits]
      exact ⟨c, rest ++ _, List.cons_append, hc⟩

theorem isWhole_toDigits (n : Nat) : isWhole (Nat.toDigits 10 n) := by
  by_cases hn : 0 < n
  · obtain ⟨c, rest, hdigits, hc⟩ := toDigits_eq_cons hn
    have hall : (Nat.toDigits 10 n).all Char.isDigit := by
      rw [List.all_eq_true]
      exact fun c hc => Nat.isDigit_of_mem_toDigits (by decide) (by decide) hc
    rw [hdigits] at hall ⊢
    simpa [isWhole, hc, isDigits] using hall
  · obtain rfl : n = 0 := by omega
    rfl

/-- A decimal numeral is read as the number it stands for. -/
theorem unsigned?_toDigits (n : Nat) :
    unsigned? false (Nat.toDigits 10 n) = some (.int n) ∧
      (0 < n → unsigned? true (Nat.toDigits 10 n) = some (.int (-n))) := by
  have hall : ∀ c ∈ Nat.toDigits 10 n, c.isDigit := fun c hc =>
    Nat.isDigit_of_mem_toDigits (by decide) (by decide) hc
  have hwhole : (Nat.toDigits 10 n).takeWhile Char.isDigit = Nat.toDigits 10 n :=
    List.takeWhile_eq_self_iff.mpr hall
  have hfraction : (Nat.toDigits 10 n).dropWhile Char.isDigit = [] :=
    List.dropWhile_eq_nil_iff.mpr hall
  have hvalue : Nat.ofDigitChars 10 (Nat.toDigits 10 n) 0 = n :=
    Nat.ofDigitChars_toDigits (by decide) (by decide)
  refine ⟨?_, fun hn => ?_⟩
  · simp [unsigned?, hwhole, hfraction, isWhole_toDigits, isFraction, isExponent, hvalue]
  · have : n ≠ 0 := by omega
    simp [unsigned?, hwhole, hfraction, isWhole_toDigits, isFraction, isExponent, hvalue, this]

theorem number?_repr (n : Int) : number? n.repr.toList = some (.int n) := by
  match n with
  | .ofNat m =>
    have hchars : (Int.ofNat m).repr.toList = Nat.toDigits 10 m := by
      simp [Int.repr, Nat.repr]
    rw [hchars]
    unfold number?
    split
    · next rest heq =>
      have := Nat.isDigit_of_mem_toDigits (b := 10) (n := m) (c := '-') (by decide) (by decide)
        (heq ▸ List.mem_cons_self)
      exact absurd this (by decide)
    · exact (unsigned?_toDigits m).1
  | .negSucc m =>
    have hchars : (Int.negSucc m).repr.toList = '-' :: Nat.toDigits 10 (m + 1) := by
      simp [Int.repr, Nat.repr]
    rw [hchars]
    exact (unsigned?_toDigits (m + 1)).2 (Nat.succ_pos m)

/-! ### Layouts -/

mutual

/-- Every number that is no integer is written as such a number. -/
def IsProper : Json → Prop
  | real literal => number? literal.toList = some (.real literal)
  | arr items => AreProper items
  | obj fields => HasProperFields fields
  | _ => True

/-- All values of a list are proper. -/
def AreProper : List Json → Prop
  | [] => True
  | item :: items => item.IsProper ∧ AreProper items

/-- The values of all fields are proper. -/
def HasProperFields : List (Option String × Json) → Prop
  | [] => True
  | (_, value) :: fields => value.IsProper ∧ HasProperFields fields

end

theorem isProper_arr {items : List Json} :
    (arr items).IsProper ↔ ∀ item ∈ items, item.IsProper := by
  rw [IsProper]
  induction items with
  | nil => simp [AreProper]
  | cons item items ih => rw [AreProper, ih, List.forall_mem_cons]

theorem isProper_record {fields : List (String × Json)} :
    (record fields).IsProper ↔ ∀ field ∈ fields, field.2.IsProper := by
  rw [record, IsProper]
  induction fields with
  | nil => simp [HasProperFields]
  | cons field fields ih => rw [List.map_cons, HasProperFields, ih, List.forall_mem_cons]

/-- A word is read up to the character that follows it. -/
theorem EndsBetween.word {out : String} {ts : List Tok} (h : EndsBetween out ts)
    {word : String} {tok : Tok}
    (hread : word.toList.foldlM Lexer.step ⟨ts, .between⟩ = some ⟨ts, .word word.toList.reverse⟩)
    (hword : word? word.toList = some tok) : EndsWith (out ++ word) (tok :: ts) := by
  have hfinish : Lexer.finish ⟨ts, .word word.toList.reverse⟩ = some (tok :: ts) := by
    simp [Lexer.finish, hword]
  refine ⟨_, h.append _ hread, hfinish, fun c hc => ?_⟩
  have hc : c.isLower = false := by
    simp only [followers, List.mem_cons, List.not_mem_nil, or_false] at hc
    rcases hc with rfl | rfl | rfl | rfl <;> rfl
  simp [Lexer.step, hc, hfinish]

/-- A value that is no array or object is read as its token. -/
theorem EndsBetween.scalar {out : String} {ts : List Tok} (h : EndsBetween out ts) {json : Json}
    (hproper : json.IsProper) (hscalar : json.depth = 0) :
    EndsWith (out ++ json.scalar) (json.toks.reverse ++ ts) := by
  match json with
  | .null => exact h.word rfl rfl
  | .bool true => exact h.word rfl rfl
  | .bool false => exact h.word rfl rfl
  | .int n => exact h.number (number?_repr n)
  | .real literal => exact h.number hproper
  | .str text => exact (h.quote text).endsWith

mutual

/-- The compact text of a value is divided into its tokens. -/
theorem EndsBetween.compactOnto {out : String} {ts : List Tok} (h : EndsBetween out ts)
    {json : Json} (hproper : json.IsProper) :
    EndsWith (json.compactOnto out) (json.toks.reverse ++ ts) := by
  match json with
  | .null | .bool _ | .int _ | .real _ | .str _ => exact h.scalar hproper rfl
  | .arr [] => exact EndsBetween.endsWith (h.append "[]" rfl)
  | .obj [] => exact EndsBetween.endsWith (h.append "\x7b\x7d" rfl)
  | .arr (item :: items) =>
    have hitem := h.openBracket.compactOnto hproper.1
    simpa [Json.compactOnto, toks] using hitem.compactItems hproper.2
  | .obj ((key, value) :: fields) =>
    have hvalue := (h.openBrace.key key).compactOnto hproper.1
    simpa [Json.compactOnto, toks] using hvalue.compactFields hproper.2

theorem EndsWith.compactItems {out : String} {ts : List Tok} (h : EndsWith out ts)
    {items : List Json} (hproper : AreProper items) :
    EndsWith (Json.compactItems out items) ((toksItems items).reverse ++ ts) := by
  match items with
  | [] => exact h.closeBracket
  | item :: items =>
    have hitem := h.comma.compactOnto hproper.1
    simpa [Json.compactItems, toksItems] using hitem.compactItems hproper.2

theorem EndsWith.compactFields {out : String} {ts : List Tok} (h : EndsWith out ts)
    {fields : List (Option String × Json)} (hproper : HasProperFields fields) :
    EndsWith (Json.compactFields out fields) ((toksFields fields).reverse ++ ts) := by
  match fields with
  | [] => exact h.closeBrace
  | (key, value) :: fields =>
    have hvalue := (h.comma.key key).compactOnto hproper.1
    simpa [Json.compactFields, toksFields] using hvalue.compactFields hproper.2

end

mutual

/-- The text of a value over several lines is divided into its tokens. -/
theorem EndsBetween.prettyOnto {out : String} {ts : List Tok} (h : EndsBetween out ts)
    (level : Nat) {json : Json} (hproper : json.IsProper) :
    EndsWith (json.prettyOnto level out) (json.toks.reverse ++ ts) := by
  match json with
  | .null | .bool _ | .int _ | .real _ | .str _ => exact h.scalar hproper rfl
  | .arr [] => exact EndsBetween.endsWith (h.append "[]" rfl)
  | .obj [] => exact EndsBetween.endsWith (h.append "\x7b\x7d" rfl)
  | .arr (item :: items) =>
    have hitem := (h.openBracket.endsWith.newline (level + 1)).prettyOnto (level + 1) hproper.1
    simpa [Json.prettyOnto, toks] using hitem.prettyItems level hproper.2
  | .obj ((key, value) :: fields) =>
    have hkey := (h.openBrace.endsWith.newline (level + 1)).spacedKey key
    have hvalue := hkey.prettyOnto (level + 1) hproper.1
    simpa [Json.prettyOnto, toks] using hvalue.prettyFields level hproper.2

theorem EndsWith.prettyItems {out : String} {ts : List Tok} (h : EndsWith out ts)
    (level : Nat) {items : List Json} (hproper : AreProper items) :
    EndsWith (Json.prettyItems level out items) ((toksItems items).reverse ++ ts) := by
  match items with
  | [] => exact (h.newline level).endsWith.closeBracket
  | item :: items =>
    have hitem := (h.comma.endsWith.newline (level + 1)).prettyOnto (level + 1) hproper.1
    simpa [Json.prettyItems, toksItems] using hitem.prettyItems level hproper.2

theorem EndsWith.prettyFields {out : String} {ts : List Tok} (h : EndsWith out ts)
    (level : Nat) {fields : List (Option String × Json)} (hproper : HasProperFields fields) :
    EndsWith (Json.prettyFields level out fields) ((toksFields fields).reverse ++ ts) := by
  match fields with
  | [] => exact (h.newline level).endsWith.closeBrace
  | (key, value) :: fields =>
    have hkey := (h.comma.endsWith.newline (level + 1)).spacedKey key
    have hvalue := hkey.prettyOnto (level + 1) hproper.1
    simpa [Json.prettyFields, toksFields] using hvalue.prettyFields level hproper.2

end

theorem EndsWith.tokens? {text : String} {ts : List Tok} (h : EndsWith text ts) :
    Json.tokens? text = some ts.reverse := by
  obtain ⟨l, hl, hfinish, -⟩ := h
  simp [Json.tokens?, hl, hfinish]

/-- The compact text of a value is read back as that value. -/
theorem parse?_compact {json : Json} (hproper : json.IsProper) :
    parse? json.compact = some json := by
  have hempty : EndsBetween "" [] := rfl
  have htokens := (hempty.compactOnto hproper).tokens?
  rw [List.append_nil, List.reverse_reverse] at htokens
  rw [parse?, compact, htokens]
  exact ofTokens?_toks json

/-- The text of a value over several lines is read back as that value. -/
theorem parse?_pretty {json : Json} (hproper : json.IsProper) :
    parse? json.pretty = some json := by
  have hempty : EndsBetween "" [] := rfl
  have htokens := (hempty.prettyOnto 0 hproper).tokens?
  rw [List.append_nil, List.reverse_reverse] at htokens
  rw [parse?, pretty, htokens]
  exact ofTokens?_toks json

end SyntaxLowering.Json
