import Stylesheet.Render.Capture
import Stylesheet.Render.Loop

/-!
# Statements

A statement renders to the text that goes where it stands. A rule inside another goes after it: it
is queued until all rules are closed, unless it stands directly in the body of a loop, which wants
its text in place.
-/

namespace Stylesheet.Render

open Text

/-- A declaration of a property. -/
def declaration (node : Node) : Render String := do
  let property ← ofExcept node.name
  let node ← ofExcept (node.child 1)
  let text ← value .emit node
  return "\n" ++ (← get).options.indent ++ property ++ ": " ++ text ++ ";"

/-- A declaration of a variable. -/
def declareVariable (node : Node) : Render Unit := do
  let reference ← ofExcept (node.childOf 0 .reference)
  let node ← ofExcept (node.child 1)
  let temporary := (← get).inTemporaryScope
  let v : Variable := ⟨← declaredValue node, temporary⟩
  modify fun c =>
    { c with symbols := c.symbols.declare (Variable.bareName reference.val.text) v }

/-- A rule with a selector, whose block is rendered by `body`. -/
def rule (selector : String) (body : Render String) : Render String := do
  modify (Context.openRule selector)
  let text ← ensuring body Context.closeRule
  let c ← get
  let text := Selector.block (Selector.compose c.chain selector) text ++ "\n\n"
  if !c.isNested || c.isUnrollingChild then return text
  else
    modify (Context.enqueue text)
    return ""

/-- Whether the guard of a conditional holds. -/
def holds (guard : Node) : Render Bool := do
  return trim (← value .fold guard) == "true"

/-- The text of the first branch that gives one, or else the last resort. -/
def firstText : List (Render (Option String)) → Render String → Render String
  | [], rest => rest
  | branch :: branches, rest => do
    match ← branch with
    | some text => return text
    | none => firstText branches rest

mutual

/-- The text of a statement, one level deeper than the block around it. -/
def statement (node : Node) : Render String :=
  locating node.span do
    descend
    ensuring (perform node) Context.ascend
termination_by 3 * sizeOf node + 2

/-- What a statement does at its level, by its kind. -/
def perform (node : Node) : Render String :=
  match node.kind with
  | .rule => ruleStatement node
  | .declaration => declaration node
  | .variableDeclaration => do
    declareVariable node
    return ""
  | .mixinDeclaration => do
    declareMixin node
    return ""
  | .includeDeclaration => includeMixin node
  | .forLoop => forLoop node
  | .eachLoop => eachLoop node
  | .conditional => conditional node
  | kind => fail (.notAStatement kind)
termination_by 3 * sizeOf node + 1

/-- A rule. -/
def ruleStatement (node : Node) : Render String := do
  let ⟨group, _⟩ ← ofExcept (node.childOf 0 .selectorGroup)
  let ⟨body, _⟩ ← ofExcept (node.childOf 1 .block)
  rule group.selectorText (block body)
termination_by 3 * sizeOf node
decreasing_by
  have := Node.sizeOf_lt_of_mem ‹body ∈ _›
  omega

/-- A loop that counts. -/
def forLoop (node : Node) : Render String := do
  let ⟨counter, _⟩ ← ofExcept (node.childOf 0 .reference)
  let ⟨first, _⟩ ← ofExcept (node.child 1)
  let first ← loopBound first
  let ⟨word, _⟩ ← ofExcept (node.childOf 2 .keyword)
  let ⟨last, _⟩ ← ofExcept (node.child 3)
  let last ← loopBound last
  let ⟨body, _⟩ ← ofExcept (node.childOf 4 .block)
  let last ← lift id (lastValue (trim word.text) last)
  unroll (block body) .interpolated [Variable.sigilName counter.text] (.range first last)
  return ""
termination_by 3 * sizeOf node
decreasing_by
  have := Node.sizeOf_lt_of_mem ‹body ∈ _›
  omega

/-- A loop over a list or a map. -/
def eachLoop (node : Node) : Render String := do
  let ⟨body, _⟩ ← ofExcept node.body
  let (names, rows) ← eachRows node
  unroll (block body) .substituted names rows
  return ""
termination_by 3 * sizeOf node
decreasing_by
  have := Node.sizeOf_lt_of_mem ‹body ∈ _›
  omega

/-- A conditional. Where its guard fails, the first further branch that gives a text counts, and
then the one that is left. -/
def conditional (node : Node) : Render String := do
  let ⟨guard, _⟩ ← ofExcept (node.child 0)
  let ⟨body, _⟩ ← ofExcept (node.childOf 1 .block)
  if ← holds guard then block body
  else
    firstText ((node.filter .elseIf).attach.map fun ⟨branch, _⟩ => elseIfBranch branch)
      (match _h : node.find? .otherwise with
        | some branch => otherwiseBranch branch
        | none => return "")
termination_by 3 * sizeOf node
decreasing_by
  · have := Node.sizeOf_lt_of_mem ‹body ∈ _›
    omega
  · have := Node.sizeOf_lt_of_mem (Node.mem_of_mem_filter ‹branch ∈ _›)
    omega
  · have := Node.sizeOf_lt_of_mem (Node.mem_of_find?_eq_some _h)
    omega

/-- The text of a further branch. It gives none where its guard fails, and none where its block
renders to nothing. -/
def elseIfBranch (node : Node) : Render (Option String) := do
  let ⟨guard, _⟩ ← ofExcept (node.child 0)
  if ← holds guard then
    let ⟨body, _⟩ ← ofExcept (node.childOf 1 .block)
    let text ← block body
    return if text = "" then none else some text
  else return none
termination_by 3 * sizeOf node
decreasing_by
  have := Node.sizeOf_lt_of_mem ‹body ∈ _›
  omega

/-- The text of the branch that is left. -/
def otherwiseBranch (node : Node) : Render String := do
  let ⟨body, _⟩ ← ofExcept (node.childOf 0 .block)
  block body
termination_by 3 * sizeOf node
decreasing_by
  have := Node.sizeOf_lt_of_mem ‹body ∈ _›
  omega

/-- The texts of the statements of a block. -/
def block (node : Node) : Render String := do
  if node.kind ≠ .block then throw (node.malformed .notABlock)
  return String.join (← node.children.mapM statement)
termination_by 3 * sizeOf node
decreasing_by
  have := Node.sizeOf_lt_of_mem ‹_ ∈ node.children›
  omega

end

end Stylesheet.Render
