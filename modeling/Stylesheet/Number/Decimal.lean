import Stylesheet.Number.Binary

/-!
# Decimal text of numbers

A computed number is rounded to six places. An integral result below `10 ^ 15` is written without a
point; any other is written with the fewest of its six places that keep its value.
-/

namespace Stylesheet.Number

/-- The number of decimal places that are kept. -/
def places : Nat := 6

/-- Integral numbers are written as integers below this bound. -/
def integralBound : Nat := Nat.pow 10 15

/-- A sign in front of the text of a magnitude. -/
def signed (negative : Bool) (magnitude : String) : String :=
  if negative then "-" ++ magnitude else magnitude

/-- The decimal digits of a number, at least `width` of them. -/
def paddedDigits (width n : Nat) : List Char :=
  let ds := Nat.toDigits 10 n
  List.replicate (width - ds.length) '0' ++ ds

/-- A digit string without the zeros at its end. -/
def dropFinalZeros (ds : List Char) : List Char := (ds.reverse.dropWhile (· == '0')).reverse

/-- The magnitude `n / 10 ^ places` as an integral part and the places that are not zeros at the
end. -/
def pointed (n : Nat) : String :=
  let whole := toString (n / Nat.pow 10 places)
  match dropFinalZeros (paddedDigits places (n % Nat.pow 10 places)) with
  | [] => whole
  | ds => whole ++ "." ++ String.ofList ds

/-- The float nearest to a number with its decimals beyond the last place dropped. -/
def toPlaces (x : Float) : Float :=
  roundFloat (x * Float.ofNat (Nat.pow 10 places)) / Float.ofNat (Nat.pow 10 places)

/-- The text of a float that has been rounded to its places. -/
def Binary.render : Binary → String
  | .nan => "NaN"
  | .infinite negative => signed negative "inf"
  | .finite negative m e =>
    match (wholeValue? m e).filter (· < integralBound) with
    | some n => signed (negative && n != 0) (toString n)
    | none => signed negative (pointed (roundScaled .toEven (Nat.pow 10 places) m e))

/-- The text of a computed number. -/
def render (x : Float) : String := (Binary.ofFloat (toPlaces x)).render

/-- The hexadecimal digits of the integer nearest to a number, which has to be finite and not
negative. Numbers beyond 64 bits are cut to the largest that fits. -/
def hexDigits? (x : Float) : Option String :=
  match Binary.ofFloat (roundFloat x) with
  | .finite negative m e =>
    let n := roundScaled .away 1 m e
    if negative && n != 0 then none
    else some (String.ofList (Nat.toDigits 16 (min n (UInt64.size - 1))))
  | _ => none

end Stylesheet.Number
