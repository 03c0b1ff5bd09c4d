import LazyRegisters.Number.Shortest

/-!
# Number texts

A finite number is written with its shortest digits in positional notation, never with an
exponent. The two styles differ in what is not a number and in the sign of zero.
-/

namespace LazyRegisters.Number

/-- What a way of writing numbers is free to choose. -/
structure Style where
  notANumber : String
  signedZero : Bool

/-- Results: `nan`, and one text for both zeros. -/
def Style.result : Style := ⟨"nan", false⟩

/-- Numbers inside commands and records: `NaN`, and `-0` beside `0`. -/
def Style.plain : Style := ⟨"NaN", true⟩

def text (style : Style) (x : Float) : String :=
  let b := magnitude x
  if infinity < b then style.notANumber
  else
    let digits := if b = infinity then "inf".toList else (shortest b).positional
    let signed := isNegative x && (b != 0 || style.signedZero)
    String.ofList (if signed then '-' :: digits else digits)

end LazyRegisters.Number
