import Stylesheet.Render.Value

/-!
# Capturing mixins

The body of a mixin is captured when the mixin is declared. Its declarations keep the text of their
values, and its rules are flattened with the outermost parent marks left in place, so nothing in
them is resolved before the mixin is included.
-/

namespace Stylesheet.Render

open Text

/-- The texts of an inclusion, with the given arguments. -/
def expandMixin (mixins : MixinTable) (node : Node) (args : List String) :
    Except Diagnostic Fragments := do
  let name ← node.name
  match mixins.get? name with
  | none => .error { fault := .undeclaredMixin name }
  | some m => (m.expand name args).mapError fun fault => { fault := .mixin fault }

/-- A declaration with its value as it is written. -/
def rawDeclaration (node : Node) : Except Diagnostic String := do
  let property ← node.name
  let value ← node.child 1
  return property ++ ": " ++ trim value.val.text ++ ";"

/-- Where a statement of a mixin stands. -/
inductive Site where
  | body
  /-- In a rule with a selector. -/
  | rule (selector : String)

namespace Site

/-- A rule of an included mixin is placed under the rule that includes it. -/
def place : Site → Fragments → Fragments
  | body, fragments => fragments
  | rule selector, fragments =>
    { fragments with deferred := fragments.deferred.map (Selector.place selector) }

/-- The selector of a captured rule. Under an empty selector it stays as it is. -/
def compose (selector : String) : Site → String
  | body => selector
  | rule parent => if parent = "" then selector else Selector.compose parent selector

/-- The fault of a statement that may not stand here. -/
def fault (kind : Kind) : Site → Fault
  | body => .notInMixinBody kind
  | rule _ => .notInMixinRule kind

end Site

section

variable (mixins : MixinTable) (indent : String)

mutual

/-- The texts of a statement. -/
def captureStatement (site : Site) (node : Node) : Except Diagnostic Fragments :=
  match node.kind with
  | .declaration => return { direct := [← rawDeclaration node] }
  | .rule => return { deferred := ← captureRule site node }
  | .includeDeclaration => do
    let args := node.arguments.map fun arg => trim arg.text
    return site.place (← expandMixin mixins node args)
  | kind => .error (Diagnostic.locate { fault := site.fault kind } node.span)
termination_by 2 * sizeOf node + 1

/-- The texts of a block. -/
def captureBlock (site : Site) (block : Node) : Except Diagnostic Fragments :=
  return (← block.children.mapM (captureStatement site)).foldl (· ++ ·) {}
termination_by 2 * sizeOf block
decreasing_by
  have := Node.sizeOf_lt_of_mem ‹_ ∈ block.children›
  omega

/-- The text of a rule, followed by those of the rules in it. -/
def captureRule (site : Site) (node : Node) : Except Diagnostic (List String) := do
  let ⟨group, _⟩ ← node.childOf 0 .selectorGroup
  let selector := site.compose group.selectorText
  let ⟨block, _⟩ ← node.childOf 1 .block
  let fragments ← captureBlock (.rule selector) block
  return Selector.block selector (fragments.inline indent) :: fragments.deferred
termination_by 2 * sizeOf node
decreasing_by
  have := Node.sizeOf_lt_of_mem ‹block ∈ node.children›
  omega

end

end

/-- The names of parameters and their default values, which are folded. -/
def parameters (mixin : String) (node : Node) : Render (List String × Registry String) :=
  node.children.foldlM (fun (names, defaults) parameter => do
    if parameter.kind ≠ .parameter then fail (.unexpectedParameter parameter.kind mixin)
    let reference ← ofExcept (parameter.childOf 0 .reference)
    let name := Variable.sigilName reference.val.text
    match parameter.children[1]? with
    | some default => return (names ++ [name], defaults.insert name (← value .fold default))
    | none => return (names ++ [name], defaults)) ([], {})

/-- The mixin with the given parameters. One that takes all arguments is the only one. -/
def mixinWith (mixin : String) (node : Node) (body : Fragments) : Render Mixin := do
  match node.find? .restParameter with
  | some rest =>
    if node.children.length ≠ 1 then fail (.variadicParameters mixin)
    let reference ← ofExcept (rest.childOf 0 .reference)
    return .variadic (Variable.sigilName reference.val.text) body
  | none =>
    let (names, defaults) ← parameters mixin node
    lift .mixin (Mixin.fixed names defaults body)

/-- Declares a mixin. -/
def declareMixin (node : Node) : Render Unit := do
  let name ← ofExcept node.name
  let block ← ofExcept node.body
  let c ← get
  let body ← ofExcept (captureBlock c.mixins c.options.indent .body block)
  let mixin ←
    match node.find? .parameters with
    | some params => mixinWith name params body
    | none => lift .mixin (Mixin.fixed [] {} body)
  modify fun c => { c with mixins := c.mixins.insert name mixin }

/-- Includes a mixin. Its rules are placed under the open rules and wait; its lines are the
result. -/
def includeMixin (node : Node) : Render String := do
  let args ← node.arguments.mapM (value .fold)
  let c ← get
  let fragments ← ofExcept (expandMixin c.mixins node args)
  set { c with queue := c.queue ++ fragments.deferred.map (Selector.place c.chain · ++ "\n\n") }
  return fragments.inline c.options.indent

end Stylesheet.Render
