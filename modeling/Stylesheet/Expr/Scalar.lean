import Stylesheet.Expr.Fault
import Stylesheet.Expr.Numeral
import Stylesheet.Number.Decimal

/-!
# Values of expressions

A value is a number, a truth value or a text. An operator asks for operands of one sort, and a truth
value is never combined with a value of another sort.
-/

namespace Stylesheet.Expr

/-- A value of an expression. -/
inductive Scalar where
  | number (x : Float)
  | bool (b : Bool)
  /-- Anything that is neither a number nor a truth value. -/
  | text (s : String)

namespace Scalar

/-- A list of characters without a final piece, if it ends in it. -/
def dropFinal? (piece cs : List Char) : Option (List Char) := piece.isSuffixOf? cs

/-- The characters of an operand that write its magnitude: all but a final percent sign or `px`. -/
def magnitude (cs : List Char) : List Char :=
  ((dropFinal? ['%'] cs).or (dropFinal? ['p', 'x'] cs)).getD cs

/-- The value of a trimmed operand. -/
def ofTrimmed (s : String) : Scalar :=
  if s = "true" then .bool true
  else if s = "false" then .bool false
  else match s.toList with
    | '#' :: digits =>
      if isColour ('#' :: digits) then .number (Float.ofNat (colourValue digits)) else .text s
    | cs => ((number? (magnitude cs)).map .number).getD (.text s)

/-- The value of an operand; blanks around it do not count. -/
def ofText (s : String) : Scalar := ofTrimmed (Text.trim s)

/-- The text of a value. -/
def render : Scalar → String
  | number x => Number.render x
  | bool b => if b then "true" else "false"
  | text s => s

/-- A truth value. -/
def isBool : Scalar → Bool
  | bool _ => true
  | _ => false

/-- The number that an operator asks for. -/
def asNumber (op : Operator) : Scalar → Except Fault Float
  | number x => .ok x
  | bool _ => .error (.booleanOperand op)
  | text s => .error (.notNumeric s op)

/-- The truth value that an operator word asks for. -/
def asBool (word : String) : Scalar → Except Fault Bool
  | bool b => .ok b
  | _ => .error (.notBoolean word)

/-- Equality of numbers, and of the texts of other values. -/
def equal : Scalar → Scalar → Bool
  | number x, number y => x == y
  | a, b => a.render == b.render

/-- A number computed from two, of which the left is asked for first. -/
def combine (op : Operator) (f : Float → Float → Float) (a b : Scalar) :
    Except Fault Scalar := do
  let x ← a.asNumber op
  let y ← b.asNumber op
  return .number (f x y)

/-- A truth value computed from two numbers, of which the left is asked for first. -/
def compare (op : Operator) (f : Float → Float → Bool) (a b : Scalar) :
    Except Fault Scalar := do
  let x ← a.asNumber op
  let y ← b.asNumber op
  return .bool (f x y)

/-- A binary operator on two values. The right operand of `and` and `or` counts only where the left
one leaves the result open, and a divisor is looked at before the dividend. -/
def apply (op : Operator) (a b : Scalar) : Except Fault Scalar :=
  if a.isBool ≠ b.isBool then .error (.mixed a.render op b.render)
  else match op with
    | .and => do if ← a.asBool op.word then .bool <$> b.asBool op.word else return .bool false
    | .or => do if ← a.asBool op.word then return .bool true else .bool <$> b.asBool op.word
    | .eq => .ok (.bool (equal a b))
    | .mul => combine op (· * ·) a b
    | .add => combine op (· + ·) a b
    | .sub => combine op (· - ·) a b
    | .div => do
      let y ← b.asNumber op
      if y == 0 then .error .divisionByZero
      else
        let x ← a.asNumber op
        return .number (x / y)
    | .le => compare op (fun x y => decide (x ≤ y)) a b
    | .ge => compare op (fun x y => decide (y ≤ x)) a b
    | .lt => compare op (fun x y => decide (x < y)) a b
    | .gt => compare op (fun x y => decide (y < x)) a b

end Scalar

end Stylesheet.Expr
