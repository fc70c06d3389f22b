/-!
# Slices of source text

Spans count bytes of the UTF-8 form of a text. A slice exists if it ends no earlier than it
starts, lies within the text, and both its ends fall between two characters.
-/

namespace SyntaxLowering

/-- The text after its first `n` bytes, if that is between two characters. -/
def dropBytes? : (n : Nat) → List Char → Option (List Char)
  | 0, cs => some cs
  | _, [] => none
  | n, c :: cs => if c.utf8Size ≤ n then dropBytes? (n - c.utf8Size) cs else none

/-- The first `n` bytes of a text, after some characters in reverse order, if that is between two
characters. -/
def takeBytesAfter? (before : List Char) : (n : Nat) → List Char → Option (List Char)
  | 0, _ => some before.reverse
  | _, [] => none
  | n, c :: cs =>
    if c.utf8Size ≤ n then takeBytesAfter? (c :: before) (n - c.utf8Size) cs else none

/-- The first `n` bytes of a text, if that is between two characters. -/
def takeBytes? (n : Nat) (cs : List Char) : Option (List Char) :=
  takeBytesAfter? [] n cs

/-- The text between two byte offsets. -/
def slice? (source : List Char) (start stop : Nat) : Option (List Char) :=
  if start ≤ stop then (dropBytes? start source).bind (takeBytes? (stop - start)) else none

end SyntaxLowering
