/-!
# Integers in a text

An integer is written as decimal digits of ASCII with an optional sign, and fits 64 signed bits.
-/

namespace Stylesheet.Number

/-- The value of a non-empty run of ASCII digits. -/
def digitsValue? (cs : List Char) : Option Nat :=
  if cs ≠ [] ∧ cs.all Char.isDigit then some (Nat.ofDigitChars 10 cs 0) else none

/-- The integers of 64 signed bits. -/
def inRange (n : Int) : Bool := -(Int.pow 2 63) ≤ n && n < Int.pow 2 63

/-- The value of a run of digits after an optional sign. -/
def signedValue? : List Char → Option Int
  | '-' :: cs => (digitsValue? cs).map fun n => -(n : Int)
  | '+' :: cs => (digitsValue? cs).map fun n => (n : Int)
  | cs => (digitsValue? cs).map fun n => (n : Int)

/-- The integer that a text writes. -/
def integer? (s : String) : Option Int := (signedValue? s.toList).filter inRange

end Stylesheet.Number
