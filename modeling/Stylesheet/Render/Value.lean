import Stylesheet.Expr.Evaluate
import Stylesheet.Render.Basic

/-!
# Values

A value is rendered for the output, where a reference to a scalar stays a reference to a custom
property, or folded, where every reference is replaced by what the variable holds.
-/

namespace Stylesheet.Render

open Text

/-- What becomes of references. -/
inductive Mode where
  /-- For the output. -/
  | emit
  /-- For computing. -/
  | fold
deriving DecidableEq, Repr

/-- A reference in a mode. In the output, a name that a loop binds is left for the loop to
substitute, and an undeclared name stays as it is written. -/
def reference (mode : Mode) (text : String) : Render String := do
  let c ← get
  let name := Variable.bareName text
  match mode with
  | .emit =>
    if name ∈ c.bound then return "$" ++ name
    else match c.symbols.lookup name with
      | some ⟨.scalar _, _⟩ => return Variable.property name
      | some v => return v.value.text
      | none => return trim text
  | .fold =>
    match c.symbols.lookup name with
    | some v => return v.value.text
    | none => fail (.undeclaredVariable name)

/-- The text of a node at the time of a declaration. A reference stands for what its variable
holds; any other node is rendered for the output by `step`. -/
def snapshot (node : Node) (step : Render String) : Render String :=
  if node.kind = .reference then do
    match (← get).symbols.lookup node.text with
    | some v => return v.value.text
    | none => return trim node.text
  else step

/-- An expression, one level deeper than the value around it. Its tokens are found by `step`. -/
def evaluateExpression (span : Span) (step : Render (List Expr.Token)) : Render String := do
  descend
  locating span (ensuring (do
    let tokens ← step
    if tokens.isEmpty then fail (.expression .empty)
    else lift .expression (Expr.evaluate tokens)) Context.ascend)

/-- An argument of a call and how it is rendered. -/
structure Argument where
  node : Node
  render : Mode → Render String

/-- The name and the variable of an argument that has to be a reference to a list. -/
def listArgument (b : Builtin) (arg : Node) : Render (String × Variable) := do
  if arg.kind = .reference then
    let name := Variable.bareName arg.text
    match (← get).symbols.lookup name with
    | some v => return (name, v)
    | none => fail (.undeclaredVariable name)
  else fail (.notAListVariable b (trim arg.text))

/-- A call of a built-in function. Arguments beyond those that the function reads are not
rendered. -/
def callBuiltin (b : Builtin) (args : List Argument) : Render String :=
  match b, args with
  | .length, list :: _ => do
    let (name, v) ← listArgument b list.node
    lift .builtin (Builtin.lengthOf name v)
  | .nth, list :: index :: _ => do
    let index ← index.render .fold
    let (name, v) ← listArgument b list.node
    lift .builtin (Builtin.nthOf name v index)
  | .darken, colour :: amount :: _ => do
    let colour ← colour.render .fold
    let amount ← amount.render .fold
    return Builtin.darker colour amount
  | .lighten, colour :: amount :: _ => do
    let colour ← colour.render .fold
    let amount ← amount.render .fold
    return Builtin.lighter colour amount
  | .linearGradient, args => do
    return Builtin.gradient (← args.mapM (·.render .fold))
  | b, args => fail (.tooFewArguments b args.length)

/-- A call of a function. -/
def callFunction (name : String) (args : List Argument) : Render String :=
  match Builtin.ofName? name with
  | some b => callBuiltin b args
  | none => do return Builtin.foreign name (← args.mapM (·.render .emit))

mutual

/-- A value in a mode. -/
def value (mode : Mode) (node : Node) : Render String :=
  match node.kind with
  | .literal | .identifier | .keyword | .operator | .selector => return trim node.text
  | .reference => reference mode node.text
  | .expression =>
    evaluateExpression node.span (node.children.mapM fun part =>
      if part.kind = .operator then return .operator (trim part.text)
      else return .operand (← value .fold part))
  | .call => do
    let name ← ofExcept node.name
    callFunction name (node.arguments.attach.map fun ⟨arg, _⟩ => ⟨arg, fun mode => value mode arg⟩)
  | .propertyValue =>
    if node.children.isEmpty then return trim node.text
    else return ", ".intercalate (← node.children.mapM (value mode))
  | .listDeclaration => return ", ".intercalate (← node.children.mapM (value mode))
  | .listElement => return " ".intercalate (← node.children.mapM (value mode))
  | .mapDeclaration => return ", ".intercalate ((← mapEntries mode node).map Value.entryText)
  | kind => fail (.notAValue kind)
termination_by 2 * sizeOf node + 1
decreasing_by
  all_goals
    first
    | have := Node.sizeOf_lt_of_mem ‹_ ∈ node.children›
    | have := Node.sizeOf_lt_of_mem_arguments ‹arg ∈ node.arguments›
    | skip
    omega

/-- The keys and values of a map. For the output, a value is a snapshot. -/
def mapEntries (mode : Mode) (node : Node) : Render (List (String × String)) :=
  node.children.mapM fun entry => do
    if entry.kind ≠ .mapEntry then fail (.notAMapEntry entry.kind)
    let ⟨key, _⟩ ← ofExcept (entry.child 0)
    let ⟨node, _⟩ ← ofExcept (entry.child 1)
    let text ←
      match mode with
      | .emit => snapshot node (value .emit node)
      | .fold => value .fold node
    return (trim key.text, text)
termination_by 2 * sizeOf node
decreasing_by
  all_goals
    have := Node.sizeOf_lt_of_mem ‹_ ∈ entry.children›
    have := Node.sizeOf_lt_of_mem ‹entry ∈ _›
    omega

end

/-- What a declaration makes of its value. A list and a map hold snapshots, and a reference copies
what its variable holds. -/
def declaredValue (node : Node) : Render Value :=
  match node.kind with
  | .listDeclaration =>
    return .list (← node.children.mapM fun item => snapshot item (value .emit item))
  | .mapDeclaration => return .ofEntries (← mapEntries .emit node)
  | .reference => do
    match (← get).symbols.lookup node.text with
    | some v => return v.value
    | none => return .scalar (trim node.text)
  | _ => return .scalar (← value .emit node)

end Stylesheet.Render
