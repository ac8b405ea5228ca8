import Stylesheet.Text.Blank

/-!
# Tokens and operators

An expression is a stream of operands and operator words. The binary operators have one level of
precedence each; `not` and the parentheses stand apart from them.
-/

namespace Stylesheet.Expr

/-- A token of an expression, as it is written. -/
inductive Token where
  | operand (text : String)
  | operator (text : String)
deriving DecidableEq, Repr

/-- A binary operator. -/
inductive Operator where
  | mul
  | div
  | add
  | sub
  | and
  | or
  | eq
  | le
  | ge
  | lt
  | gt
deriving DecidableEq, Repr

namespace Operator

/-- The word for an operator. -/
def word : Operator → String
  | mul => "*"
  | div => "/"
  | add => "+"
  | sub => "-"
  | and => "and"
  | or => "or"
  | eq => "=="
  | le => "<="
  | ge => ">="
  | lt => "<"
  | gt => ">"

/-- The operators from the one that binds tightest to the one that binds loosest. Each has a level
of its own. -/
def levels : List Operator := [mul, div, add, sub, and, or, eq, le, ge, lt, gt]

/-- The operators that compute a number. -/
def isArithmetic : Operator → Bool
  | mul | div | add | sub => true
  | _ => false

end Operator

/-- An operator word that was recognised. -/
inductive Mark where
  | binary (op : Operator)
  | negation
  | opening
  | closing
deriving DecidableEq, Repr

namespace Mark

/-- The operator word of a mark. -/
def word : Mark → String
  | binary op => op.word
  | negation => "not"
  | opening => "("
  | closing => ")"

/-- The mark that a word stands for. -/
def ofWord? (word : String) : Option Mark :=
  if word = "(" then some opening
  else if word = ")" then some closing
  else if word = "not" then some negation
  else (Operator.levels.find? (·.word = word)).map binary

/-- The mark that an operator token stands for; blanks around it do not count. -/
def ofText? (text : String) : Option Mark := ofWord? (Text.trim text)

/-- The operators that compute a truth value. -/
def isLogical : Mark → Bool
  | binary op => !op.isArithmetic
  | negation => true
  | opening | closing => false

end Mark

end Stylesheet.Expr
