import Mathlib.Data.List.Basic
import SyntaxLowering.Source.Slice

/-!
# Byte offsets into a text

`utf8` gives the bytes of a text. An offset between two characters is the number of bytes of the
text before it, so a slice between two such offsets is found by dividing the text
(`slice?_append`). Two beginnings of one text with equally many bytes are equal.
-/

namespace SyntaxLowering

/-- The bytes of a text. -/
def utf8 (cs : List Char) : List UInt8 :=
  cs.flatMap String.utf8EncodeChar

@[simp]
theorem utf8_nil : utf8 [] = [] :=
  rfl

theorem utf8_cons (c : Char) (cs : List Char) :
    utf8 (c :: cs) = String.utf8EncodeChar c ++ utf8 cs :=
  rfl

@[simp]
theorem utf8_append (cs ds : List Char) : utf8 (cs ++ ds) = utf8 cs ++ utf8 ds :=
  List.flatMap_append

theorem length_utf8_append (cs ds : List Char) :
    (utf8 (cs ++ ds)).length = (utf8 cs).length + (utf8 ds).length := by
  rw [utf8_append, List.length_append]

theorem length_utf8_cons (c : Char) (cs : List Char) :
    (utf8 (c :: cs)).length = c.utf8Size + (utf8 cs).length := by
  rw [utf8_cons, List.length_append, String.length_utf8EncodeChar]

theorem length_utf8_pos {cs : List Char} (h : cs ≠ []) : 0 < (utf8 cs).length := by
  obtain ⟨c, ds, rfl⟩ := List.exists_cons_of_ne_nil h
  rw [length_utf8_cons]
  have := c.utf8Size_pos
  omega

/-- The bytes are those that strings are made of. -/
theorem toByteArray_ofList_eq (cs : List Char) :
    (String.ofList cs).toByteArray = (utf8 cs).toByteArray :=
  String.toByteArray_ofList

theorem utf8ByteSize_ofList (cs : List Char) :
    (String.ofList cs).utf8ByteSize = (utf8 cs).length := by
  rw [String.utf8ByteSize, toByteArray_ofList_eq, List.size_toByteArray]

theorem utf8ByteSize_eq (s : String) : s.utf8ByteSize = (utf8 s.toList).length := by
  rw [← utf8ByteSize_ofList, String.ofList_toList]

theorem dropBytes?_append (before after : List Char) :
    dropBytes? (utf8 before).length (before ++ after) = some after := by
  induction before with
  | nil => rw [utf8_nil, List.length_nil, dropBytes?, List.nil_append]
  | cons c before ih =>
    have hpos := c.utf8Size_pos
    rw [length_utf8_cons, List.cons_append, dropBytes?, if_pos (Nat.le_add_right _ _),
      Nat.add_sub_cancel_left, ih]
    omega

theorem takeBytesAfter?_append (before text after : List Char) :
    takeBytesAfter? before (utf8 text).length (text ++ after) = some (before.reverse ++ text) := by
  induction text generalizing before with
  | nil => rw [utf8_nil, List.length_nil, takeBytesAfter?, List.append_nil]
  | cons c text ih =>
    have hpos := c.utf8Size_pos
    rw [length_utf8_cons, List.cons_append, takeBytesAfter?, if_pos (Nat.le_add_right _ _),
      Nat.add_sub_cancel_left, ih, List.reverse_cons, List.append_assoc, List.singleton_append]
    omega

/-- A slice that starts and ends between two characters is the text in between. -/
theorem slice?_append (before text after : List Char) :
    slice? (before ++ text ++ after) (utf8 before).length
      ((utf8 before).length + (utf8 text).length) = some text := by
  rw [slice?, if_pos (Nat.le_add_right _ _), List.append_assoc, dropBytes?_append, Option.bind_some,
    Nat.add_sub_cancel_left]
  exact takeBytesAfter?_append [] text after

/-- Beginnings of one text that have equally many bytes are equal. -/
theorem eq_of_length_utf8_eq {a b c d : List Char} (h : a ++ b = c ++ d)
    (hlength : (utf8 a).length = (utf8 c).length) : a = c ∧ b = d := by
  have hdrop : dropBytes? (utf8 a).length (a ++ b) = dropBytes? (utf8 c).length (c ++ d) := by
    rw [h, hlength]
  rw [dropBytes?_append, dropBytes?_append] at hdrop
  obtain rfl := Option.some.inj hdrop
  exact ⟨List.append_cancel_right h, rfl⟩

end SyntaxLowering
