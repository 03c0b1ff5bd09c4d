import LazyRegisters.Text.Letter

/-!
# Blanks

Two sets of blank characters are told apart. The *separators* of words are five ASCII characters.
*White space* is the Unicode property White_Space, which is trimmed off the ends of a line; inside
a line, white space that is no separator belongs to a word like any other character.
-/

namespace LazyRegisters.Text

/-- Space, tab, line feed, carriage return and form feed separate words. -/
def isSeparator (c : Char) : Bool :=
  c == ' ' || c == '\t' || c == '\n' || c == '\r' || c == '\x0c'

/-- The characters with the property White_Space. -/
def whiteSpaceRanges : List (Nat × Nat) := [
  (0x0009, 0x000d), (0x0020, 0x0020), (0x0085, 0x0085), (0x00a0, 0x00a0), (0x1680, 0x1680),
  (0x2000, 0x200a), (0x2028, 0x2029), (0x202f, 0x202f), (0x205f, 0x205f), (0x3000, 0x3000)]

def isWhiteSpace (c : Char) : Bool := inRanges whiteSpaceRanges c

theorem isWhiteSpace_of_isSeparator {c : Char} (h : isSeparator c) : isWhiteSpace c := by
  simp only [isSeparator, Bool.or_eq_true, beq_iff_eq] at h
  rcases h with (((rfl | rfl) | rfl) | rfl) | rfl <;> decide

/-- The characters between the white space at both ends. -/
def trim (cs : List Char) : List Char :=
  ((cs.dropWhile isWhiteSpace).reverse.dropWhile isWhiteSpace).reverse

end LazyRegisters.Text
