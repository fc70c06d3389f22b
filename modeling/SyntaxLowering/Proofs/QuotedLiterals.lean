import SyntaxLowering.Proofs.TokenBoundaries
import SyntaxLowering.Source.Printer

/-!
# String literals in printed text

A string literal is printed between single quotes, with a backslash before every backslash and every
single quote of its value. The scanner ends a literal at the first quote that no backslash precedes.
The two agree for every value: whatever text follows, a printed literal is scanned as one token
(`scan_quoteLiteral`), and undoing the escapes between its quotes gives back its value.
-/

namespace SyntaxLowering

/-- Characters as they stand between the quotes of a literal. -/
def escapeQuoted (cs : List Char) : List Char :=
  cs.flatMap fun c => if c = '\\' ∨ c = '\x27' then ['\\', c] else [c]

/-- The text between the quotes of a literal with its escapes undone: a backslash before a backslash
or a single quote is dropped, and every other one stays. -/
def unescapeQuoted : List Char → List Char
  | '\\' :: '\\' :: cs => '\\' :: unescapeQuoted cs
  | '\\' :: '\x27' :: cs => '\x27' :: unescapeQuoted cs
  | c :: cs => c :: unescapeQuoted cs
  | [] => []

theorem toList_quoteLiteral (v : String) :
    (quoteLiteral v).toList = '\x27' :: (escapeQuoted v.toList ++ ['\x27']) :=
  String.toList_ofList

theorem escapeQuoted_cons_of_special {c : Char} (h : c = '\\' ∨ c = '\x27') (cs : List Char) :
    escapeQuoted (c :: cs) = '\\' :: c :: escapeQuoted cs := by
  simp [escapeQuoted, h]

theorem escapeQuoted_cons_of_plain {c : Char} (h : ¬(c = '\\' ∨ c = '\x27')) (cs : List Char) :
    escapeQuoted (c :: cs) = c :: escapeQuoted cs := by
  simp [escapeQuoted, h]

theorem unescapeQuoted_cons {c : Char} (h : c ≠ '\\') (cs : List Char) :
    unescapeQuoted (c :: cs) = c :: unescapeQuoted cs := by
  rw [unescapeQuoted]
  · rintro _ rfl
    exact absurd rfl h
  · rintro _ rfl
    exact absurd rfl h

/-- Undoing the escapes gives back what was escaped. -/
theorem unescapeQuoted_escapeQuoted (cs : List Char) : unescapeQuoted (escapeQuoted cs) = cs := by
  induction cs with
  | nil => rfl
  | cons c cs ih =>
    by_cases hc : c = '\\' ∨ c = '\x27'
    · rw [escapeQuoted_cons_of_special hc]
      rcases hc with rfl | rfl <;> rw [unescapeQuoted, ih]
    · rw [escapeQuoted_cons_of_plain hc, unescapeQuoted_cons (fun h => hc (.inl h)), ih]

/-- A scanner that stands after the opening quote of a printed literal stops at its closing one: an
escape is passed over as a whole, so a backslash never reaches the closing quote. -/
theorem Lexeme.quoted_escapeQuoted (cs rest : List Char) :
    quoted '\x27' (escapeQuoted cs ++ '\x27' :: rest) =
      ⟨.literal, escapeQuoted cs ++ ['\x27'], rest⟩ := by
  induction cs with
  | nil => exact (quoted_cons '\x27' (by decide) rest).trans (if_pos rfl)
  | cons c cs ih =>
    by_cases hc : c = '\\' ∨ c = '\x27'
    · rw [escapeQuoted_cons_of_special hc, List.cons_append, List.cons_append, quoted, ih]
      rfl
    · obtain ⟨hslash, hquote⟩ := not_or.1 hc
      rw [escapeQuoted_cons_of_plain hc, List.cons_append, quoted_cons _ hslash, if_neg hquote, ih]
      rfl

theorem Lexeme.first_quote (cs : List Char) : first '\x27' cs = quoted '\x27' cs := by
  simp [first, delimiter?, isBlank]

/-- A printed literal is scanned as a single literal token, whatever text follows it, and the tokens
of that text follow, as far on as the literal is long. Undoing the escapes between its quotes gives
back its value, so no two values are printed alike. -/
theorem scan_quoteLiteral (v r : String) :
    scan (quoteLiteral v ++ r) = .startingAt 0 .literal (quoteLiteral v) ::
      (scan r).map (Token.shifted (quoteLiteral v).utf8ByteSize) ∧
    (∃ inner : List Char, (quoteLiteral v).toList = '\x27' :: (inner ++ ['\x27']) ∧
      unescapeQuoted inner = v.toList) ∧
    Function.Injective quoteLiteral := by
  refine ⟨?_, ⟨escapeQuoted v.toList, toList_quoteLiteral v, unescapeQuoted_escapeQuoted _⟩, ?_⟩
  · have hfirst : Lexeme.first '\x27' (escapeQuoted v.toList ++ '\x27' :: r.toList) =
        ⟨.literal, escapeQuoted v.toList ++ ['\x27'], r.toList⟩ := by
      rw [Lexeme.first_quote, Lexeme.quoted_escapeQuoted]
    have htext : (quoteLiteral v ++ r).toList =
        '\x27' :: (escapeQuoted v.toList ++ '\x27' :: r.toList) := by
      rw [String.toList_append, toList_quoteLiteral]
      simp
    rw [scan, htext, scanFrom_cons, hfirst, Nat.zero_add, ← toList_quoteLiteral,
      String.ofList_toList, ← utf8ByteSize_eq]
    exact congrArg _ (scanFrom_add (quoteLiteral v).utf8ByteSize 0 r.toList)
  · intro v w h
    have hinner : escapeQuoted v.toList = escapeQuoted w.toList := by
      have := congrArg String.toList h
      rw [toList_quoteLiteral, toList_quoteLiteral] at this
      exact List.append_cancel_right (List.cons.inj this).2
    have := congrArg unescapeQuoted hinner
    rw [unescapeQuoted_escapeQuoted, unescapeQuoted_escapeQuoted] at this
    exact String.toList_injective this

end SyntaxLowering
