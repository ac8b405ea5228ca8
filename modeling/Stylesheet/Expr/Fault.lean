import Stylesheet.Expr.Operator

/-!
# Faults of expressions

Why an expression has no value.
-/

namespace Stylesheet.Expr

/-- Why an expression has no value. Values appear in a fault as their text. -/
inductive Fault where
  | unknownOperator (word : String)
  | unmatchedOpening
  | unmatchedClosing
  | nothingToNegate
  | missingOperand (op : Operator)
  /-- A truth value and another value on the two sides of an operator. -/
  | mixed (lhs : String) (op : Operator) (rhs : String)
  | booleanOperand (op : Operator)
  | notNumeric (operand : String) (op : Operator)
  /-- A value that is no truth value, where the word asks for one. -/
  | notBoolean (word : String)
  | divisionByZero
  | notAColour (number : String)
  | empty
  /-- Several values with no operator between them. -/
  | unconnected (count : Nat)
deriving DecidableEq, Repr

/-- The wording of a fault. -/
def Fault.message : Fault → String
  | unknownOperator word => s!"operator `{word}` is not permitted"
  | unmatchedOpening => "unmatched parenthesis `(`"
  | unmatchedClosing => "unmatched parenthesis `)`"
  | nothingToNegate => "operator `not` is missing its operand"
  | missingOperand op => s!"operator `{op.word}` is missing an operand"
  | mixed lhs op rhs =>
    s!"boolean and arithmetic values cannot be mixed (`{lhs} {op.word} {rhs}`)"
  | booleanOperand op => s!"operator `{op.word}` cannot be used with boolean values"
  | notNumeric operand op => s!"operand `{operand}` of `{op.word}` is not a numeric value"
  | notBoolean word => s!"operator `{word}` cannot be used with arithmetic values"
  | divisionByZero => "division by zero"
  | notAColour number => s!"`{number}` cannot be rendered as a hex colour"
  | empty => "empty expression"
  | unconnected count => s!"expression has {count} operands but no operator between them"

end Stylesheet.Expr
