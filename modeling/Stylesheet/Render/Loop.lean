import Stylesheet.Render.Value

/-!
# Loops

A loop renders its body once for each row of values and binds its names to them. The names are then
replaced in the text of the iteration, and the rules that the body made wait are pulled back into
it. All iterations together wait as one fragment; the loop itself renders to nothing.
-/

namespace Stylesheet.Render

open Text

/-- How the value of a loop variable gets into the text of an iteration. -/
inductive Placement where
  /-- In the place of placeholders only. -/
  | interpolated
  /-- In the place of placeholders and of tokens. -/
  | substituted
deriving DecidableEq, Repr

/-- The text with the value in the place of the name. -/
def Placement.apply : Placement → String → String → String → String
  | interpolated => interpolate
  | substituted => substitute

/-- The rows of values that a loop runs over, each found when it is needed. -/
structure Rows where
  count : Nat
  row : Nat → List String

namespace Rows

/-- The rows in a list. -/
def ofList (rows : List (List String)) : Rows := ⟨rows.length, fun i => rows.getD i []⟩

/-- One row for each integer from the first to the last. -/
def range (first last : Int) : Rows :=
  ⟨(last - first + 1).toNat, fun i => [toString (first + i)]⟩

end Rows

/-- Runs a step for a number of indices, starting from one. -/
def iterate (step : Nat → Render String) : Nat → Nat → Render (List String)
  | 0, _ => return []
  | count + 1, index => do
    let text ← step index
    let texts ← iterate step count (index + 1)
    return text :: texts

/-- Enters a loop that binds names. Only names that are substituted are left alone by the body. -/
def enterLoop (placement : Placement) (names : List String) (c : Context) : Context :=
  { c with
    loopDepth := c.loopDepth + 1
    bound :=
      match placement with
      | .interpolated => c.bound
      | .substituted => c.bound ++ names.map Variable.bareName }

/-- Leaves a loop. Its variables are gone, and of the bound names those stay that were bound
before. -/
def leaveLoop (kept : Nat) (names : List String) (c : Context) : Context :=
  { c with
    loopDepth := c.loopDepth - 1
    bound := c.bound.take kept
    symbols := names.foldl SymbolTable.remove c.symbols }

/-- Declares the variables of an iteration. -/
def bindRow (bindings : List (String × String)) (c : Context) : Context :=
  { c with
    symbols := bindings.foldl (fun table (name, text) =>
      table.declare (Variable.bareName name) ⟨.scalar text, true⟩) c.symbols }

/-- Starts the body of a loop. -/
def openFrame (c : Context) : Context := { c with frames := c.frames ++ [c.ancestors.length] }

/-- Ends the body of a loop. -/
def closeFrame (c : Context) : Context := { c with frames := c.frames.dropLast }

/-- The text of one iteration, with the rules that its body made wait. -/
def iteration (body : Render String) (placement : Placement) (bindings : List (String × String)) :
    Render String := do
  modify (bindRow bindings)
  let mark := (← get).queue.length
  modify openFrame
  let text ← ensuring body closeFrame
  let c ← get
  set { c with queue := c.queue.take mark }
  let pulled := String.join ((c.queue.drop mark).map fun fragment => "\n" ++ trim fragment)
  return trim (bindings.foldl (fun text (name, value) => placement.apply text name value)
    (text ++ pulled))

/-- Runs a loop. -/
def unroll (body : Render String) (placement : Placement) (names : List String) (rows : Rows) :
    Render Unit := do
  let kept := (← get).bound.length
  modify (enterLoop placement names)
  let texts ← ensuring
    (iterate (fun i => iteration body placement (names.zip (rows.row i))) rows.count 0)
    (leaveLoop kept names)
  let fragment := "\n".intercalate texts
  if fragment ≠ "" then modify (Context.enqueue fragment)

/-- A bound of a counting loop. -/
def loopBound (node : Node) : Render Int := do
  let text ← value .fold node
  match Number.integer? (trim text) with
  | some n => return n
  | none => fail (.notABound (trim text))

/-- The last value of a counting loop, by the word before its bound. -/
def lastValue (word : String) (bound : Int) : Except Fault Int :=
  if word = "through" then .ok bound
  else if word = "to" then
    if Number.inRange (bound - 1) then .ok (bound - 1) else .error (.boundTooSmall bound)
  else .error (.unknownKeyword word)

/-- The rows of a loop over the keys and values of a map. -/
def mapRows (source : Node) : Render Rows := do
  if source.kind ≠ .reference then fail (.notAMapVariable (trim source.text))
  let name := Variable.bareName source.text
  match (← get).symbols.lookup name with
  | none => fail (.undeclaredVariable name)
  | some v =>
    match v.value.entries? with
    | some entries => return .ofList (entries.map fun (key, text) => [key, text])
    | none => fail (.notAMap name v.value.label)

/-- The parts of a text between its commas, trimmed, without those that are empty. -/
def textItems (text : String) : List String :=
  (Builtin.commaParts text.toList).map String.ofList

/-- The items that a list, or else the text of a node, gives to a loop. -/
def listItems (source : Node) : Render (List String) := do
  match source.kind with
  | .reference =>
    let items := ((← get).symbols.lookup source.text).bind (·.value.items?)
    return items.getD (textItems source.text)
  | .listDeclaration => source.children.mapM (value .fold)
  | _ => return textItems source.text

/-- The names and rows of a loop over a list or a map. -/
def eachRows (node : Node) : Render (List String × Rows) := do
  match node.children.length with
  | 4 =>
    let key ← ofExcept (node.childOf 0 .reference)
    let item ← ofExcept (node.childOf 1 .reference)
    let source ← ofExcept (node.child 2)
    return ([Variable.sigilName key.val.text, Variable.sigilName item.val.text],
      ← mapRows source)
  | 3 =>
    let item ← ofExcept (node.childOf 0 .reference)
    let source ← ofExcept (node.child 1)
    return ([Variable.sigilName item.val.text],
      .ofList ((← listItems source).map fun text => [text]))
  | _ => throw (node.malformed .loopVariables)

end Stylesheet.Render
