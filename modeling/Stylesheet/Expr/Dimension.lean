import Stylesheet.Expr.Operator
import Stylesheet.Expr.Numeral
import Stylesheet.Expr.Scalar

/-!
# Dimensions

The dimension of an expression decides how its number is written. It is read off all tokens: an
operand in pixels, in percent or written as a colour, or a truth value, overrides what came before
it, and plain numbers decide only where nothing else did.
-/

namespace Stylesheet.Expr

/-- How the number of an expression is written. -/
inductive Dimension where
  | integer
  | real
  | pixel
  | colour
  | percent
  | boolean
deriving DecidableEq, Repr

namespace Dimension

/-- What an operand, trimmed and in lower case, looks like. -/
def ofChars? (cs : List Char) : Option Dimension :=
  let numeral := shape? Text.isDecimalDigit
  if cs = "true".toList ∨ cs = "false".toList then some boolean
  else if ((Scalar.dropFinal? ['p', 'x'] cs).bind numeral).isSome then some pixel
  else if isColour cs then some colour
  else if ((Scalar.dropFinal? ['%'] cs).bind numeral).isSome then some percent
  else match numeral cs with
    | some .real => some real
    | some .integer => some integer
    | none => none

/-- What an operand looks like. No pattern has a letter outside ASCII, so the lower case of ASCII is
enough. -/
def ofOperand? (text : String) : Option Dimension :=
  ofChars? ((Text.trimChars text.toList).map Char.toLower)

/-- The dimension found so far, after one more operand. -/
def refine (found : Option Dimension) (operand : Option Dimension) : Option Dimension :=
  match operand with
  | none => found
  | some integer => found.or (some integer)
  | some real => if found = none ∨ found = some integer then some real else found
  | some strong => some strong

/-- The dimension found so far, after one more token. -/
def step (found : Option Dimension) : Token → Option Dimension
  | .operand text => refine found (ofOperand? text)
  | .operator _ => found

/-- A token that computes a truth value. -/
def isLogical : Token → Bool
  | .operator text => (Mark.ofText? text).any Mark.isLogical
  | .operand _ => false

/-- The dimension of an expression. -/
def infer (tokens : List Token) : Dimension :=
  (tokens.foldl step (if tokens.any isLogical then some boolean else none)).getD integer

end Dimension

/-- The text of a value in a dimension. Only numbers are written differently in different
dimensions. -/
def Scalar.renderIn (dimension : Dimension) : Scalar → Except Fault String
  | .number x =>
    match dimension with
    | .pixel => .ok (Number.render x ++ "px")
    | .percent => .ok (Number.render x ++ "%")
    | .colour =>
      match Number.hexDigits? x with
      | some digits => .ok ("#" ++ digits)
      | none => .error (.notAColour (Number.render x))
    | .integer | .real | .boolean => .ok (Number.render x)
  | value => .ok value.render

end Stylesheet.Expr
