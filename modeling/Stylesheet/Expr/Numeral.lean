import Stylesheet.Text.DecimalDigit

/-!
# Numerals

A numeral has an optional minus sign, digits, and after a point more digits. The same shape is read
with the digits of any script, to tell what an operand looks like, and with those of ASCII, to find
its value.
-/

namespace Stylesheet.Expr

/-- Whether a numeral has a fraction. -/
inductive Shape where
  | integer
  | real
deriving DecidableEq, Repr

/-- The shape of a numeral without its sign. -/
def magnitudeShape? (digit : Char → Bool) (cs : List Char) : Option Shape :=
  match cs.takeWhile digit, cs.dropWhile digit with
  | [], _ => none
  | _ :: _, [] => some .integer
  | _ :: _, '.' :: fraction =>
    if fraction ≠ [] ∧ fraction.all digit then some .real else none
  | _ :: _, _ :: _ => none

/-- The shape of a numeral. -/
def shape? (digit : Char → Bool) : List Char → Option Shape
  | '-' :: cs => magnitudeShape? digit cs
  | cs => magnitudeShape? digit cs

/-- The float nearest to a numeral without its sign. -/
def magnitudeValue (cs : List Char) : Float :=
  let fraction := (cs.dropWhile Char.isDigit).drop 1
  let digits := cs.takeWhile Char.isDigit ++ fraction
  Float.ofScientific (Nat.ofDigitChars 10 digits 0) true fraction.length

/-- The float nearest to a numeral. -/
def numeralValue : List Char → Float
  | '-' :: cs => -magnitudeValue cs
  | cs => magnitudeValue cs

/-- The value of a numeral with ASCII digits, unless it is too large for a float. -/
def number? (cs : List Char) : Option Float :=
  if (shape? Char.isDigit cs).isSome ∧ (numeralValue cs).isFinite then some (numeralValue cs)
  else none

/-- A hexadecimal digit of either case. -/
def isHexDigit (c : Char) : Bool :=
  c.isDigit || ('a' ≤ c && c ≤ 'f') || ('A' ≤ c && c ≤ 'F')

/-- A colour: a hash and three to six hexadecimal digits. -/
def isColour : List Char → Bool
  | '#' :: digits => 3 ≤ digits.length && digits.length ≤ 6 && digits.all isHexDigit
  | _ => false

/-- The value of a hexadecimal digit. -/
def hexDigitValue (c : Char) : Nat :=
  if c.isDigit then c.toNat - '0'.toNat
  else if 'a' ≤ c then c.toNat - 'a'.toNat + 10
  else c.toNat - 'A'.toNat + 10

/-- The number that the digits of a colour write. -/
def colourValue (digits : List Char) : Nat :=
  digits.foldl (fun n c => 16 * n + hexDigitValue c) 0

end Stylesheet.Expr
