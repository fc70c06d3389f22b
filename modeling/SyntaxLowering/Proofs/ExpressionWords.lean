import SyntaxLowering.Proofs.CanonicalText
import SyntaxLowering.Proofs.QuotedLiterals
import SyntaxLowering.Settings

/-!
# The words of an expression

The text of an expression is a list of words, such as a variable, a property with the arrow before
it, or an operator with the blanks around it (`Node.toList_toSource`). Where no two names stand side
by side, the words can be told from the text (`Word.chars_injective`).
-/

namespace SyntaxLowering

/-- A word of an expression. -/
inductive Word where
  | null
  | bool (value : Bool)
  | int (value : Int64)
  | str (value : String)
  | var (x : String)
  | name (x : String)
  | new
  | clone
  | assign
  | notIdentical
  | question
  | colon
  /-- A property or method with the arrow before it. -/
  | member (nullsafe : Bool) (x : String)
  /-- A static method with the parenthesis that opens its arguments. -/
  | static (method : String)
  | opening
  | closing
  | comma
  /-- The name of an argument. -/
  | label (x : String)
  | spread
  | reference
deriving DecidableEq

/-- The words that are no names. -/
def keywords : List String :=
  ["null", "true", "false", "new", "clone"]

/-- Whether a character can stand in a name. -/
def isNameChar (c : Char) : Bool :=
  c.isAlphanum || c == '_'

namespace Word

def text : Word → String
  | null => "null"
  | bool value => if value then "true" else "false"
  | int value => value.toInt.repr
  | str value => quoteLiteral value
  | var x => "$" ++ x
  | name x => x
  | new => "new "
  | clone => "clone "
  | assign => " = "
  | notIdentical => " !== "
  | question => " ? "
  | colon => " : "
  | member nullsafe x => (if nullsafe then "?->" else "->") ++ x
  | static method => "::" ++ method ++ "("
  | opening => "("
  | closing => ")"
  | comma => ", "
  | label x => x ++ ": "
  | spread => "..."
  | reference => "&"

/-- The text of some words. -/
def chars (ws : List Word) : List Char :=
  ws.flatMap (·.text.toList)

/-- Whether the names in a word are names. -/
def isValid : Word → Bool
  | var x | member _ x | static x | label x => isVariableName x
  | name x => isVariableName x && !keywords.contains x
  | _ => true

/-- Whether a word ends like a name. -/
def endsName : Word → Bool
  | null | bool _ | int _ | var _ | name _ | member .. => true
  | _ => false

/-- Whether a word can stand after a name. -/
def isGlue : Word → Bool
  | assign | notIdentical | question | colon | member .. | static _ => true
  | opening | closing | comma => true
  | _ => false

/-- Words with names in them that are names, of which no two run into each other. -/
structure Sound (ws : List Word) : Prop where
  valid : ∀ w ∈ ws, w.isValid = true
  apart : ws.IsChain fun v w => v.endsName = true → w.isGlue = true

/-! ### Telling words from text -/

/-- The word that some characters begin with, if the first one can stand in a name, and what
follows it. -/
def ofName (cs : List Char) : Word × List Char :=
  let x := String.ofList (cs.takeWhile isNameChar)
  match cs.dropWhile isNameChar with
  | ':' :: ' ' :: rest => (.label x, rest)
  | rest =>
    if x = "null" then (.null, rest)
    else if x = "true" then (.bool true, rest)
    else if x = "false" then (.bool false, rest)
    else if x = "new" then (.new, rest.tail)
    else if x = "clone" then (.clone, rest.tail)
    else (.name x, rest)

/-- The number that some digits stand for. -/
def ofDigits (negative : Bool) (cs : List Char) : Word :=
  let n : Int := Nat.ofDigitChars 10 (cs.takeWhile Char.isDigit) 0
  .int (Int64.ofInt (if negative then -n else n))

/-- The word that starts with a character that cannot stand in a name, and what follows it. -/
def ofSymbol? : List Char → Option (Word × List Char)
  | '$' :: cs =>
    some (.var (String.ofList (cs.takeWhile isNameChar)), cs.dropWhile isNameChar)
  | '\x27' :: cs =>
    let literal := Lexeme.quoted '\x27' cs
    some (.str (String.ofList (unescapeQuoted literal.tail.dropLast)), literal.rest)
  | ' ' :: '=' :: ' ' :: cs => some (.assign, cs)
  | ' ' :: '!' :: '=' :: '=' :: ' ' :: cs => some (.notIdentical, cs)
  | ' ' :: '?' :: ' ' :: cs => some (.question, cs)
  | ' ' :: ':' :: ' ' :: cs => some (.colon, cs)
  | '?' :: '-' :: '>' :: cs =>
    some (.member true (String.ofList (cs.takeWhile isNameChar)), cs.dropWhile isNameChar)
  | '-' :: '>' :: cs =>
    some (.member false (String.ofList (cs.takeWhile isNameChar)), cs.dropWhile isNameChar)
  | '-' :: cs => some (ofDigits true cs, cs.dropWhile Char.isDigit)
  | ':' :: ':' :: cs =>
    some (.static (String.ofList (cs.takeWhile isNameChar)), (cs.dropWhile isNameChar).tail)
  | '(' :: cs => some (.opening, cs)
  | ')' :: cs => some (.closing, cs)
  | ',' :: ' ' :: cs => some (.comma, cs)
  | '.' :: '.' :: '.' :: cs => some (.spread, cs)
  | '&' :: cs => some (.reference, cs)
  | _ => none

/-- The word that some characters begin with, and what follows it. -/
def next? : List Char → Option (Word × List Char)
  | [] => none
  | c :: cs =>
    if c.isDigit then some (ofDigits false (c :: cs), (c :: cs).dropWhile Char.isDigit)
    else if isNameChar c then some (ofName (c :: cs))
    else ofSymbol? (c :: cs)

/-- Characters that no name runs into. -/
structure EndsName (cs : List Char) : Prop where
  head : ∀ c ∈ cs.head?, isNameChar c = false
  label : ∀ rest, cs ≠ ':' :: ' ' :: rest

theorem EndsName.of_isGlue {ws : List Word} (h : ∀ w ∈ ws.head?, w.isGlue = true) :
    EndsName (chars ws) := by
  cases ws with
  | nil => constructor <;> simp [chars]
  | cons w ws =>
    have hw : w.isGlue = true := h w rfl
    cases w with
    | member nullsafe x => cases nullsafe <;> constructor <;> simp [chars, text, isNameChar]
    | static x => constructor <;> simp [chars, text, isNameChar]
    | assign | notIdentical | question | colon | opening | closing | comma =>
      constructor <;> simp [chars, text, isNameChar]
    | _ => cases hw

theorem takeWhile_append {p : Char → Bool} {cs : List Char} (hcs : ∀ c ∈ cs, p c = true)
    (rest : List Char) (hrest : ∀ c ∈ rest.head?, p c = false) :
    (cs ++ rest).takeWhile p = cs ∧ (cs ++ rest).dropWhile p = rest := by
  rw [List.takeWhile_append_of_pos hcs, List.dropWhile_append_of_pos hcs]
  cases rest with
  | nil => simp
  | cons c rest => simp [hrest c rfl]

theorem isNameChar_of_isVariableName {x : String} (h : isVariableName x = true) :
    (∃ c cs, x.toList = c :: cs ∧ (c.isAlpha || c == '_') = true) ∧
      ∀ c ∈ x.toList, isNameChar c = true := by
  unfold isVariableName at h
  split at h
  · cases h
  · next c cs hx =>
    rw [Bool.and_eq_true, List.all_eq_true] at h
    refine ⟨⟨c, cs, hx, h.1⟩, ?_⟩
    rw [hx, List.forall_mem_cons]
    refine ⟨?_, h.2⟩
    have := h.1
    simp only [isNameChar, Char.isAlphanum]
    grind

theorem not_isDigit_of_isAlpha {c : Char} (h : (c.isAlpha || c == '_') = true) :
    c.isDigit = false := by
  rw [Bool.or_eq_true, beq_iff_eq] at h
  rcases h with h | rfl
  · change (decide (c.val ≥ 'A'.val ∧ c.val ≤ 'Z'.val) ||
      decide (c.val ≥ 'a'.val) && decide (c.val ≤ 'z'.val)) = true at h
    simp only [Bool.or_eq_true, Bool.and_eq_true, decide_eq_true_eq, ge_iff_le,
      UInt32.le_iff_toNat_le] at h
    simp only [Char.isDigit, Bool.and_eq_false_iff, decide_eq_false_iff_not, ge_iff_le,
      UInt32.le_iff_toNat_le]
    have : 'A'.val.toNat = 65 := rfl
    have : 'a'.val.toNat = 97 := rfl
    have : '9'.val.toNat = 57 := rfl
    omega
  · rfl

theorem next?_name {x : String} (h : isVariableName x = true) (rest : List Char) :
    next? (x.toList ++ rest) = some (ofName (x.toList ++ rest)) := by
  obtain ⟨⟨c, cs, hx, hc⟩, hname⟩ := isNameChar_of_isVariableName h
  rw [hx] at hname ⊢
  rw [List.cons_append, next?, not_isDigit_of_isAlpha hc, if_pos (hname c List.mem_cons_self)]
  rfl

/-- A name that no other one runs into, as a keyword or by itself. -/
theorem next?_unlabelled {x : String} (h : isVariableName x = true) {rest : List Char}
    (hrest : EndsName rest) : next? (x.toList ++ rest) = some (
      if x = "null" then (.null, rest)
      else if x = "true" then (.bool true, rest)
      else if x = "false" then (.bool false, rest)
      else if x = "new" then (.new, rest.tail)
      else if x = "clone" then (.clone, rest.tail)
      else (.name x, rest)) := by
  obtain ⟨htake, hdrop⟩ := takeWhile_append (isNameChar_of_isVariableName h).2 rest hrest.head
  rw [next?_name h, ofName, htake, hdrop, String.ofList_toList]
  split
  · exact absurd rfl (hrest.label _)
  · rfl

theorem next?_digits (negative : Bool) (n : Nat) {rest : List Char} (hrest : EndsName rest) :
    (ofDigits negative (Nat.toDigits 10 n ++ rest),
      (Nat.toDigits 10 n ++ rest).dropWhile Char.isDigit) =
        (.int (Int64.ofInt (if negative then -n else n)), rest) := by
  have hdigit : ∀ c ∈ Nat.toDigits 10 n, c.isDigit = true :=
    fun c hc => Nat.isDigit_of_mem_toDigits (by decide) (by decide) hc
  obtain ⟨htake, hdrop⟩ := takeWhile_append hdigit rest fun c hc => by
    have := hrest.head c hc
    simp only [isNameChar, Char.isAlphanum, Bool.or_eq_false_iff] at this
    exact this.1.2
  rw [ofDigits, htake, hdrop, Nat.ofDigitChars_toDigits (by decide) (by decide)]

theorem next?_int (value : Int64) {rest : List Char} (hrest : EndsName rest) :
    next? (value.toInt.repr.toList ++ rest) = some (.int value, rest) := by
  have hdigits (n : Nat) : ∃ d ds, Nat.toDigits 10 n = d :: ds ∧ d.isDigit = true := by
    cases hn : Nat.toDigits 10 n with
    | nil => exact absurd hn (Nat.toDigits_ne_nil)
    | cons d ds =>
      have hd : d ∈ Nat.toDigits 10 n := hn ▸ List.mem_cons_self
      exact ⟨d, ds, rfl, Nat.isDigit_of_mem_toDigits (by decide) (by decide) hd⟩
  have hvalue := Int64.ofInt_toInt value
  cases hint : value.toInt with
  | ofNat n =>
    obtain ⟨d, ds, hn, hd⟩ := hdigits n
    have hread := next?_digits false n hrest
    have hchars : (Int.ofNat n).repr.toList = Nat.toDigits 10 n := by simp [Int.repr, Nat.repr]
    rw [hint] at hvalue
    rw [hchars, hn, List.cons_append, next?, if_pos hd, ← List.cons_append, ← hn, hread, ← hvalue]
    rfl
  | negSucc n =>
    obtain ⟨d, ds, hn, hd⟩ := hdigits (n + 1)
    have hread := next?_digits true (n + 1) hrest
    have hchars : (Int.negSucc n).repr.toList = '-' :: Nat.toDigits 10 (n + 1) := by
      simp [Int.repr, Nat.repr]
    have harrow : d ≠ '>' := by rintro rfl; cases hd
    rw [hint] at hvalue
    rw [hchars, List.cons_append]
    show ofSymbol? _ = _
    rw [ofSymbol?, hread, ← hvalue]
    · rfl
    · rintro cs hcs
      rw [hn] at hcs
      exact harrow (List.cons.inj hcs).1

/-- The word that a text begins with, if what follows does not run into it. -/
theorem next?_text {w : Word} (hw : w.isValid = true) {rest : List Char}
    (hrest : w.endsName = true → EndsName rest) :
    next? (w.text.toList ++ rest) = some (w, rest) := by
  have hblank : EndsName (' ' :: rest) := by constructor <;> simp [isNameChar]
  cases w with
  | null => exact next?_unlabelled (x := "null") rfl (hrest rfl)
  | bool value => cases value <;> exact next?_unlabelled rfl (hrest rfl)
  | int value => exact next?_int value (hrest rfl)
  | str value =>
    rw [text, toList_quoteLiteral, List.cons_append, List.append_assoc]
    show some (_, _) = _
    rw [List.singleton_append, Lexeme.quoted_escapeQuoted, List.dropLast_concat,
      unescapeQuoted_escapeQuoted, String.ofList_toList]
  | var x =>
    obtain ⟨htake, hdrop⟩ := takeWhile_append (isNameChar_of_isVariableName hw).2 _ (hrest rfl).head
    simp [text, next?, isNameChar, ofSymbol?, htake, hdrop]
  | name x =>
    rw [isValid, Bool.and_eq_true] at hw
    refine (next?_unlabelled hw.1 (hrest rfl)).trans ?_
    have hkeyword := hw.2
    simp_all [keywords]
  | new => exact next?_unlabelled (x := "new") rfl hblank
  | clone => exact next?_unlabelled (x := "clone") rfl hblank
  | member nullsafe x =>
    obtain ⟨htake, hdrop⟩ := takeWhile_append (isNameChar_of_isVariableName hw).2 _ (hrest rfl).head
    cases nullsafe <;> simp [text, next?, isNameChar, ofSymbol?, htake, hdrop]
  | static x =>
    obtain ⟨htake, hdrop⟩ := takeWhile_append (isNameChar_of_isVariableName hw).2 ('(' :: rest)
      (by simp [isNameChar])
    simp [text, next?, isNameChar, ofSymbol?, htake, hdrop]
  | label x =>
    obtain ⟨htake, hdrop⟩ := takeWhile_append (isNameChar_of_isVariableName hw).2
      (':' :: ' ' :: rest) (by simp [isNameChar])
    have htext : (label x).text.toList ++ rest = x.toList ++ ':' :: ' ' :: rest := by simp [text]
    rw [htext, next?_name hw, ofName, htake, hdrop, String.ofList_toList]
    rfl
  | assign | notIdentical | question | colon => rfl
  | opening | closing | comma | spread | reference => rfl

theorem sound_cons {w : Word} {ws : List Word} : Sound (w :: ws) ↔
    w.isValid = true ∧ (w.endsName = true → ∀ v ∈ ws.head?, v.isGlue = true) ∧ Sound ws := by
  constructor
  · rintro ⟨hvalid, hapart⟩
    rw [List.forall_mem_cons] at hvalid
    rw [List.isChain_cons] at hapart
    exact ⟨hvalid.1, fun hw v hv => hapart.1 v hv hw, hvalid.2, hapart.2⟩
  · rintro ⟨hw, hhead, hvalid, hapart⟩
    exact ⟨List.forall_mem_cons.2 ⟨hw, hvalid⟩,
      List.isChain_cons.2 ⟨fun v hv hname => hhead hname v hv, hapart⟩⟩

theorem next?_of_sound {w : Word} {ws : List Word} (h : Sound (w :: ws)) :
    next? (chars (w :: ws)) = some (w, chars ws) := by
  obtain ⟨hw, hhead, -⟩ := sound_cons.1 h
  exact next?_text hw fun hname => .of_isGlue (hhead hname)

/-- Words can be told from their text. -/
theorem chars_injective {ws vs : List Word} (hws : Sound ws) (hvs : Sound vs)
    (h : chars ws = chars vs) : ws = vs := by
  induction ws generalizing vs with
  | nil =>
    cases vs with
    | nil => rfl
    | cons v vs =>
      have hfirst := next?_of_sound hvs
      rw [← h] at hfirst
      cases hfirst
  | cons w ws ih =>
    have hfirst := next?_of_sound hws
    cases vs with
    | nil =>
      rw [h] at hfirst
      cases hfirst
    | cons v vs =>
      rw [h, next?_of_sound hvs] at hfirst
      obtain ⟨rfl, hrest⟩ := Prod.mk.inj (Option.some.inj hfirst)
      exact congrArg _ (ih (sound_cons.1 hws).2.2 (sound_cons.1 hvs).2.2 hrest.symm)

end Word

/-! ### The words of a tree -/

/-- Words in parentheses if they are needed. -/
def Word.bracketed (needed : Bool) (ws : List Word) : List Word :=
  if needed then .opening :: ws ++ [.closing] else ws

/-- How a node is written: its words, and where it needs parentheses around them. -/
structure Spelling where
  words : List Word
  isLooseOperand : Bool
  isLooseReceiver : Bool

namespace Spelling

/-- The words of an operand of a ternary, a comparison or `clone`. -/
def operand (s : Spelling) : List Word :=
  Word.bracketed s.isLooseOperand s.words

/-- The words on the left of a member access or a call. -/
def receiver (s : Spelling) : List Word :=
  Word.bracketed s.isLooseReceiver s.words

end Spelling

/-- The words of an argument. -/
def Arg.words (a : Arg Spelling) : List Word :=
  a.name.toList.map .label ++ (if a.unpack then [.spread] else []) ++
    (if a.byRef then [.reference] else []) ++ a.value.words

namespace Form

/-- The words of arguments, up to the parenthesis that closes them. -/
def argWords (args : List (Arg Spelling)) : List Word :=
  [Word.comma].intercalate (args.map Arg.words) ++ [.closing]

/-- The words of a layer. Only expressions without closures have words. -/
def words : Form Spelling → List Word
  | null => [.null]
  | bool value => [.bool value]
  | int value => [.int value]
  | str value => [.str value]
  | var x => [.var x]
  | name x => [.name x]
  | assign target value => target.words ++ .assign :: value.words
  | notIdentical left right => left.operand ++ .notIdentical :: right.operand
  | ternary condition ifTrue ifFalse =>
    condition.operand ++ .question :: ifTrue.operand ++ .colon :: ifFalse.operand
  | propertyFetch object property => object.receiver ++ [.member false property]
  | nullsafePropertyFetch object property => object.receiver ++ [.member true property]
  | methodCall object method args =>
    object.receiver ++ .member false method :: .opening :: argWords args
  | nullsafeMethodCall object method args =>
    object.receiver ++ .member true method :: .opening :: argWords args
  | staticCall scope method args => scope.receiver ++ .static method :: argWords args
  | functionCall function args => function.receiver ++ .opening :: argWords args
  | new scope args => .new :: scope.words ++ .opening :: argWords args
  | clone object => .clone :: object.operand
  | _ => []

end Form

namespace Node

/-- How a node is written. -/
def spelling (n : Node) : Spelling :=
  n.fold fun layer _ _ => ⟨layer.words, layer.kind.isLooseOperand, layer.kind.isLooseReceiver⟩

theorem spelling_mk (form : Form Node) (span : Option Span) (marks : Marks) :
    spelling ⟨form, span, marks⟩ = ⟨(form.map spelling).words, form.kind.isLooseOperand,
      form.kind.isLooseReceiver⟩ := by
  rw [spelling, fold_mk, Form.kind_map]
  rfl

/-- The words of an expression. -/
def words (n : Node) : List Word :=
  n.spelling.words

@[simp]
theorem words_spelling (n : Node) : n.spelling.words = n.words := rfl

theorem spelling_eq (n : Node) :
    n.spelling = ⟨n.words, n.kind.isLooseOperand, n.kind.isLooseReceiver⟩ := by
  obtain ⟨form, span, marks⟩ := n
  rw [words, spelling_mk]
  rfl

end Node

namespace Form

theorem argWords_singleton (a : Arg Spelling) : argWords [a] = a.words ++ [.closing] := by
  simp [argWords, List.intercalate_singleton]

theorem argWords_cons_cons (a b : Arg Spelling) (args : List (Arg Spelling)) :
    argWords (a :: b :: args) = a.words ++ .comma :: argWords (b :: args) := by
  simp [argWords, List.intercalate_cons_cons]

/-- Whether a layer belongs to an expression without closures in which names are names and only
variables and properties are assigned. -/
def isSpelled : Form Node → Bool
  | null | bool _ | int _ | str _ => true
  | var x => isVariableName x
  | name x => isVariableName x && !keywords.contains x
  | assign target _ => target.kind == .var || target.kind == .propertyFetch
  | notIdentical .. | ternary .. | clone _ => true
  | propertyFetch _ x | nullsafePropertyFetch _ x => isVariableName x
  | methodCall _ x args | nullsafeMethodCall _ x args | staticCall _ x args =>
    isVariableName x && args.all (·.name.all isVariableName)
  | functionCall _ args | new _ args => args.all (·.name.all isVariableName)
  | _ => false

end Form

/-- An expression without closures in which names are names and only variables and properties are
assigned. -/
def Node.IsSpelled (n : Node) : Prop :=
  n.All (·.form.isSpelled = true)

instance (n : Node) : Decidable n.IsSpelled :=
  inferInstanceAs (Decidable (n.All _))

/-! ### The text of the words -/

namespace Word

@[simp]
theorem chars_nil : chars [] = [] := rfl

@[simp]
theorem chars_cons (w : Word) (ws : List Word) : chars (w :: ws) = w.text.toList ++ chars ws :=
  List.flatMap_cons

@[simp]
theorem chars_append (ws vs : List Word) : chars (ws ++ vs) = chars ws ++ chars vs :=
  List.flatMap_append

theorem chars_bracketed {ws : List Word} {s : String} (h : s.toList = chars ws) (needed : Bool) :
    (parenthesized needed s).toList = chars (bracketed needed ws) := by
  cases needed <;> simp [parenthesized, bracketed, text, h]

theorem chars_intercalate (wss : List (List Word)) :
    chars ([comma].intercalate wss) = ", ".toList.intercalate (wss.map chars) := by
  induction wss with
  | nil => rfl
  | cons ws wss ih =>
    cases wss with
    | nil => simp [List.intercalate_singleton]
    | cons vs wss =>
      rw [List.intercalate_cons_cons, chars_append, ih]
      simp [List.intercalate_cons_cons, text]

end Word

open Word in
theorem Arg.toList_head_append (a : Arg Node) {s : String} (h : s.toList = chars a.value.words) :
    (a.head ++ s).toList = chars (a.map Node.spelling).words := by
  obtain ⟨value, name, unpack, byRef, span, marks⟩ := a
  cases name <;> cases unpack <;> cases byRef <;> simp_all [head, words, map, text]

open Word in
theorem Printer.toList_commaList {depth : Nat} {args : List (Arg Node)}
    (h : ∀ a ∈ args, (({} : Printer).render depth a.value).toList = chars a.value.words) :
    (({} : Printer).commaList args (({} : Printer).renderArgs depth args) ++ ")").toList =
      chars (Form.argWords (args.map (·.map Node.spelling))) := by
  have hcomma : ({} : Printer).keepsComma args = false := by
    unfold keepsComma
    split <;> simp [followedBySeparator]
  have helement (a : Arg Node) (t : String) : ({} : Printer).element a t = t := by
    unfold element verbatim?
    split <;> simp_all
  have htexts : (({} : Printer).renderArgs depth args).map String.toList =
      ((args.map (·.map Node.spelling)).map Arg.words).map chars := by
    rw [renderArgs_eq, List.map_map, List.map_map, List.map_map]
    refine List.map_congr_left fun a ha => ?_
    show (({} : Printer).element a _).toList = _
    rw [helement]
    exact a.toList_head_append (h a ha)
  rw [commaList, hcomma, Form.argWords, chars_append, chars_intercalate, ← htexts]
  simp [text, String.toList_intercalate]

open Word in
/-- The text of an expression is that of its words. -/
theorem Node.toList_toSource {n : Node} (h : n.IsSpelled) : n.toSource.toList = chars n.words := by
  have hrender (depth : Nat) : (({} : Printer).render depth n).toList = chars n.words := by
    induction n using Node.inductionOn generalizing depth with
    | step form span marks ih =>
      have hchild (c : Node) (hc : c ∈ form.children) :
          (({} : Printer).render depth c).toList = chars c.words := ih c hc (h.child hc) depth
      have hargs : (({} : Printer).commaList form.args
          (({} : Printer).renderArgs depth form.args) ++ ")").toList =
            chars (Form.argWords (form.args.map (·.map Node.spelling))) :=
        Printer.toList_commaList fun a ha =>
          hchild _ (Form.mem_children.2 (.inr (.inl ⟨a, ha, rfl⟩)))
      have hhead (c : Node) (hc : c ∈ form.heads) :
          (({} : Printer).render depth c).toList = chars c.words :=
        hchild c (Form.mem_children.2 (.inl hc))
      have hoperand (c : Node) (hc : c ∈ form.heads) :
          (parenthesized c.kind.isLooseOperand (({} : Printer).render depth c)).toList =
            chars c.spelling.operand := by
        rw [c.spelling_eq]
        exact chars_bracketed (hhead c hc) _
      have hreceiver (c : Node) (hc : c ∈ form.heads) :
          (parenthesized c.kind.isLooseReceiver (({} : Printer).render depth c)).toList =
            chars c.spelling.receiver := by
        rw [c.spelling_eq]
        exact chars_bracketed (hhead c hc) _
      have hnone : ({} : Printer).verbatim? span marks = none := by
        unfold Printer.verbatim?
        split <;> simp_all
      have hform : form.isSpelled = true := h.self
      rw [Printer.render, hnone, words, spelling_mk]
      clear ih hchild h hnone
      cases form <;> simp_all [Printer.renderForm, Form.map, Form.words, Form.heads, Form.args,
        text, Form.isSpelled]
  exact hrender 0

/-! ### Words that do not run into each other -/

namespace Word

variable {w : Word} {ws vs : List Word}

theorem sound_nil : Sound [] :=
  ⟨fun _ hw => absurd hw List.not_mem_nil, .nil⟩

theorem sound_singleton : Sound [w] ↔ w.isValid = true := by
  simp [sound_cons, sound_nil]

theorem Sound.cons (h : Sound ws) (hw : w.isValid = true) (hname : w.endsName = false) :
    Sound (w :: ws) :=
  sound_cons.2 ⟨hw, fun hends => absurd hends (by simp [hname]), h⟩

/-- What begins with glue can stand after any words. -/
theorem Sound.append (h : Sound ws) (hw : w.isGlue = true) (h' : Sound (w :: vs)) :
    Sound (ws ++ w :: vs) := by
  refine ⟨List.forall_mem_append.2 ⟨h.valid, h'.valid⟩, ?_⟩
  rw [List.isChain_append]
  refine ⟨h.apart, h'.apart, fun _ _ v hv _ => ?_⟩
  obtain rfl : w = v := by simpa using hv
  exact hw

theorem Sound.bracketed (h : Sound ws) (needed : Bool) : Sound (bracketed needed ws) := by
  cases needed with
  | false => exact h
  | true => exact .cons (h.append rfl (sound_singleton.2 rfl)) rfl rfl

end Word

open Word in
theorem Arg.sound_words {a : Arg Spelling} (h : Sound a.value.words)
    (hname : a.name.all isVariableName = true) : Sound a.words := by
  obtain ⟨value, name, unpack, byRef, span, marks⟩ := a
  have href : Sound ((if byRef then [.reference] else []) ++ value.words) := by
    cases byRef with
    | false => exact h
    | true => exact .cons h rfl rfl
  have hspread : Sound ((if unpack then [.spread] else []) ++
      ((if byRef then [.reference] else []) ++ value.words)) := by
    cases unpack with
    | false => exact href
    | true => exact .cons href rfl rfl
  rw [words, List.append_assoc, List.append_assoc]
  cases name with
  | none => exact hspread
  | some x => exact .cons hspread hname rfl

open Word in
theorem Form.sound_argWords {args : List (Arg Spelling)} (h : ∀ a ∈ args, Sound a.words) :
    Sound (argWords args) := by
  induction args with
  | nil => exact sound_singleton.2 rfl
  | cons a args ih =>
    rw [List.forall_mem_cons] at h
    cases args with
    | nil =>
      rw [argWords_singleton]
      exact h.1.append rfl (sound_singleton.2 rfl)
    | cons b args =>
      rw [argWords_cons_cons]
      exact h.1.append rfl (.cons (ih h.2) rfl rfl)

open Word in
theorem Node.sound_words {n : Node} (h : n.IsSpelled) : Sound n.words := by
  induction n using Node.inductionOn with
  | step form span marks ih =>
    have hform : form.isSpelled = true := h.self
    have hchild (c : Node) (hc : c ∈ form.children) : Sound c.words := ih c hc (h.child hc)
    have hhead (c : Node) (hc : c ∈ form.heads) : Sound c.words :=
      hchild c (Form.mem_children.2 (.inl hc))
    have hoperand (c : Node) (hc : c ∈ form.heads) : Sound c.spelling.operand :=
      (hhead c hc).bracketed _
    have hreceiver (c : Node) (hc : c ∈ form.heads) : Sound c.spelling.receiver :=
      (hhead c hc).bracketed _
    have hargs (hnames : form.args.all (·.name.all isVariableName) = true) :
        Sound (Form.argWords (form.args.map (·.map Node.spelling))) := by
      refine Form.sound_argWords fun b hb => ?_
      obtain ⟨a, ha, rfl⟩ := List.mem_map.1 hb
      exact Arg.sound_words (hchild _ (Form.mem_children.2 (.inr (.inl ⟨a, ha, rfl⟩))))
        (List.all_eq_true.1 hnames a ha)
    rw [words, spelling_mk]
    cases form with
    | null | bool | int | str => exact sound_singleton.2 rfl
    | var | name => exact sound_singleton.2 hform
    | assign target value =>
      exact (hhead target (.head _)).append rfl (.cons (hhead value (.tail _ (.head _))) rfl rfl)
    | notIdentical left right =>
      exact (hoperand left (.head _)).append rfl
        (.cons (hoperand right (.tail _ (.head _))) rfl rfl)
    | ternary condition ifTrue ifFalse =>
      exact ((hoperand condition (.head _)).append rfl
        (.cons (hoperand ifTrue (.tail _ (.head _))) rfl rfl)).append rfl
        (.cons (hoperand ifFalse (.tail _ (.tail _ (.head _)))) rfl rfl)
    | propertyFetch object x | nullsafePropertyFetch object x =>
      exact (hreceiver object (.head _)).append rfl (sound_singleton.2 hform)
    | methodCall object x args | nullsafeMethodCall object x args =>
      obtain ⟨hx, hnames⟩ := Bool.and_eq_true_iff.1 hform
      refine (hreceiver object (.head _)).append rfl (sound_cons.2 ⟨hx, ?_, ?_⟩)
      · rintro - _ ⟨⟩
        rfl
      · exact .cons (hargs hnames) rfl rfl
    | staticCall scope x args =>
      obtain ⟨hx, hnames⟩ := Bool.and_eq_true_iff.1 hform
      exact (hreceiver scope (.head _)).append rfl (.cons (hargs hnames) hx rfl)
    | functionCall function args =>
      exact (hreceiver function (.head _)).append rfl (.cons (hargs hform) rfl rfl)
    | new scope args =>
      exact Sound.append (.cons (hhead scope (.head _)) rfl rfl) rfl (.cons (hargs hform) rfl rfl)
    | clone object => exact .cons (hoperand object (.head _)) rfl rfl
    | _ => cases hform

end SyntaxLowering
