import LazyRegisters.Number.Decimal

/-!
# Numerals

A numeral is an optional sign followed by `inf`, `infinity` or `nan` in any case, or by digits with
an optional point and an optional exponent. Single underscores may stand between two digits and
count for nothing. `ofWord?` reads a word that is a numeral as the nearest binary64 number.
-/

namespace LazyRegisters.Number

/-- What a numeral stands for. -/
inductive Numeral where
  | notANumber
  | infinite (negative : Bool)
  | finite (negative : Bool) (value : Decimal)
  deriving DecidableEq, Repr

namespace Numeral

/-- Splits off a leading sign and says whether it is a minus. -/
def splitSign : List Char → Bool × List Char
  | '-' :: cs => (true, cs)
  | '+' :: cs => (false, cs)
  | cs => (false, cs)

/-- The value of a run of one or more digits. -/
def readDigits? (cs : List Char) : Option Nat :=
  if cs ≠ [] ∧ cs.all Char.isDigit then some (Nat.ofDigitChars 10 cs 0) else none

/-- The exponent that ends a numeral, `0` if nothing is left. -/
def readExponent? : List Char → Option Int
  | [] => some 0
  | c :: cs =>
    if c = 'e' ∨ c = 'E' then
      let (negative, digits) := splitSign cs
      (readDigits? digits).map fun n => if negative then -(n : Int) else n
    else none

/-- Splits off a point and the digits after it. -/
def splitFraction : List Char → List Char × List Char
  | '.' :: cs => (cs.takeWhile Char.isDigit, cs.dropWhile Char.isDigit)
  | cs => ([], cs)

/-- Digits with an optional point, at least one of them, and an optional exponent. -/
def readDecimal? (cs : List Char) : Option Decimal :=
  let whole := cs.takeWhile Char.isDigit
  let (fraction, rest) := splitFraction (cs.dropWhile Char.isDigit)
  if whole = [] ∧ fraction = [] then none
  else (readExponent? rest).map fun e =>
    ⟨Nat.ofDigitChars 10 (whole ++ fraction) 0, e - fraction.length⟩

/-- Reads a numeral without underscores. -/
def read? (cs : List Char) : Option Numeral :=
  let (negative, body) := splitSign cs
  let name := String.ofList (body.map Char.toLower)
  if name = "nan" then some .notANumber
  else if name = "inf" ∨ name = "infinity" then some (.infinite negative)
  else (readDecimal? body).map (.finite negative)

/-- The binary64 number nearest to the numeral; the sign is kept even for zero. -/
def toFloat : Numeral → Float
  | .notANumber => ofMagnitude false notANumberMagnitude
  | .infinite negative => ofMagnitude negative infinity
  | .finite negative d => ofMagnitude negative d.magnitude

end Numeral

/-- Whether every underscore stands between two digits; `previous` is the character before. -/
def underscoresSeparate (previous : Option Char) : List Char → Bool
  | [] => true
  | c :: cs =>
    (c != '_' || (previous.any Char.isDigit && cs.head?.any Char.isDigit)) &&
      underscoresSeparate (some c) cs

/-- The number that a word stands for, if it is a numeral. -/
def ofWord? (word : String) : Option Float :=
  let cs := word.toList
  if underscoresSeparate none cs then
    (Numeral.read? (cs.filter (· != '_'))).map Numeral.toFloat
  else none

/-- Whether a word is a numeral, and so not the name of a register. -/
def isNumeral (word : String) : Bool := (ofWord? word).isSome

end LazyRegisters.Number
