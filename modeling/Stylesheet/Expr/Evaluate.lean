import Stylesheet.Expr.Dimension
import Stylesheet.Expr.Reduce

/-!
# Evaluation

`evaluate` gives the text of a token stream: a lone operand is its own text, and any other stream
is reduced to a value, which is written in the dimension of the stream. `interleave` makes a stream
of operands and operators that come apart.
-/

namespace Stylesheet.Expr

/-- The item that a token stands for. -/
def Token.item : Token → Except Fault Item
  | .operand text => .ok (.value (Scalar.ofText text))
  | .operator text =>
    match Mark.ofText? text with
    | some m => .ok (.mark m)
    | none => .error (.unknownOperator (Text.trim text))

/-- The text of the value of a stream. -/
def evaluate : List Token → Except Fault String
  | [.operand text] => .ok (Text.trim text)
  | tokens => do
    let items ← tokens.mapM Token.item
    let v ← reduce items
    v.renderIn (Dimension.infer tokens)

/-- An operator word that stands before an operand. -/
def opensOperand (word : String) : Bool := word == "(" || word == "not"

/-- An operator word that stands after an operand. -/
def closesOperand (word : String) : Bool := word == ")"

/-- The stream in which operands and operator words alternate, each list in its order. The words
that open an operand go before it and those that close it after it; what is left of either list
goes to the end. -/
def interleave : List String → List String → List Token
  | [], words => words.map .operator
  | operand :: operands, words =>
    let opening := words.takeWhile opensOperand
    let words := words.dropWhile opensOperand
    let closing := words.takeWhile closesOperand
    opening.map .operator ++ .operand operand :: closing.map .operator ++
      match words.dropWhile closesOperand with
      | [] => operands.map .operand
      | word :: words => .operator word :: interleave operands words

/-- The text of the value of operands and operators that come apart; blanks around an operator do
not count. -/
def evaluateApart (operands operators : List String) : Except Fault String :=
  evaluate (interleave operands (operators.map Text.trim))

end Stylesheet.Expr
