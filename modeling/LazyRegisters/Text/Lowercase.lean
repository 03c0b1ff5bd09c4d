import LazyRegisters.Text.Letter

/-!
# Lowercasing a text

Characters are lowered one by one, except for the Greek capital sigma: at the end of a word it
becomes a final sigma. The end of a word is where a cased letter comes before and none comes after,
case-ignorable characters being passed over on both sides.
-/

namespace LazyRegisters.Text

/-- Whether the first character that is not case-ignorable is cased. -/
def startsCased (cs : List Char) : Bool := (cs.dropWhile isCaseIgnorable).head?.any isCased

/-- The lowercase of a character that stands between two texts, the one before it reversed. -/
def lowerBetween (before : List Char) (c : Char) (after : List Char) : List Char :=
  if c = 'Σ' then [if startsCased before && !startsCased after then 'ς' else 'σ']
  else lowerChar c

/-- The lowercase of a text that follows another one, given reversed. -/
def lowerAfter (before : List Char) : List Char → List Char
  | [] => []
  | c :: cs => lowerBetween before c cs ++ lowerAfter (c :: before) cs

def lower (cs : List Char) : List Char := lowerAfter [] cs

def lowercase (s : String) : String := String.ofList (lower s.toList)

end LazyRegisters.Text
