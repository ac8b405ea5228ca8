/-!
# Binary floating point numbers as integers

A finite 64-bit float is a mantissa times a power of two, up to its sign. Rounding and printing
work on these two integers, exactly.
-/

namespace Stylesheet.Number

/-- What the bits of a float stand for. -/
inductive Binary where
  | nan
  | infinite (negative : Bool)
  /-- The number `mantissa * 2 ^ exponent`, negated if `negative` holds. -/
  | finite (negative : Bool) (mantissa : Nat) (exponent : Int)
deriving DecidableEq, Repr

/-- Sign, exponent and fraction of the bits, with the hidden bit of a normal number made
explicit. -/
def Binary.ofBits (b : UInt64) : Binary :=
  let negative := b >>> 63 == 1
  let e := ((b >>> 52) &&& 0x7FF).toNat
  let f := (b &&& 0xFFFFFFFFFFFFF).toNat
  if e == 0x7FF then if f == 0 then .infinite negative else .nan
  else if e == 0 then .finite negative f (-1074)
  else .finite negative (Nat.pow 2 52 + f) (e - 1075)

/-- The number that a float stands for. -/
def Binary.ofFloat (x : Float) : Binary := .ofBits x.toBits

/-- Which way a quotient halfway between two integers is rounded. -/
inductive Tie where
  | toEven
  | away

/-- The integer nearest to `num / den`. -/
def roundQuotient (tie : Tie) (num den : Nat) : Nat :=
  let q := num / den
  match compare (2 * (num % den)) den, tie with
  | .lt, _ => q
  | .gt, _ => q + 1
  | .eq, .away => q + 1
  | .eq, .toEven => q + q % 2

/-- The integer nearest to `factor * mantissa * 2 ^ exponent`. -/
def roundScaled (tie : Tie) (factor mantissa : Nat) (exponent : Int) : Nat :=
  roundQuotient tie (factor * mantissa * Nat.pow 2 exponent.toNat) (Nat.pow 2 (-exponent).toNat)

/-- The natural number `mantissa * 2 ^ exponent`, if it is one. -/
def wholeValue? (mantissa : Nat) (exponent : Int) : Option Nat :=
  let num := mantissa * Nat.pow 2 exponent.toNat
  let den := Nat.pow 2 (-exponent).toNat
  if num % den = 0 then some (num / den) else none

/-- The integral float nearest to a float; a half goes away from zero. From `2 ^ 52` on every
float is integral. -/
def roundFloat (x : Float) : Float :=
  match Binary.ofFloat x with
  | .finite negative m e =>
    if 0 ≤ e then x
    else
      let r := Float.ofNat (roundScaled .away 1 m e)
      if negative then -r else r
  | _ => x

end Stylesheet.Number
