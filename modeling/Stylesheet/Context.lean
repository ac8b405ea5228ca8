import Stylesheet.Diagnostic
import Stylesheet.Options
import Stylesheet.Selector
import Stylesheet.SymbolTable

/-!
# The state of a compilation

What is declared, which rules and loops are open, and which rules wait until all open rules are
closed.
-/

namespace Stylesheet

/-- The state of a compilation. -/
structure Context where
  options : Options := {}
  /-- The document, for diagnostics. -/
  source : Option Source := none
  symbols : SymbolTable := {}
  mixins : MixinTable := {}
  /-- The selectors of the open rules, the outermost first. -/
  ancestors : List String := []
  /-- The rules that wait until all open rules are closed, in their order. -/
  queue : List String := []
  /-- The number of open loops. -/
  loopDepth : Nat := 0
  /-- For each open loop the number of rules that were open around its body. -/
  frames : List Nat := []
  /-- The names that the open loops over lists and maps bind. -/
  bound : List String := []
  /-- The level of nesting. -/
  depth : Nat := 0
deriving DecidableEq, Repr, Inhabited

namespace Context

/-- Forgets the document; the options and the source stay. -/
def reset (c : Context) : Context := { options := c.options, source := c.source }

/-- A rule is open. -/
def isNested (c : Context) : Bool := !c.ancestors.isEmpty

/-- A variable that is declared here is temporary. -/
def inTemporaryScope (c : Context) : Bool := c.isNested || 0 < c.loopDepth

/-- No rule was opened since the body of the innermost loop started. -/
def isUnrollingChild (c : Context) : Bool := c.frames.getLast? == some c.ancestors.length

/-- The selector of the innermost open rule, placed under those around it. -/
def chain (c : Context) : String := Selector.chain c.ancestors

/-- Opens a rule. -/
def openRule (selector : String) (c : Context) : Context :=
  { c with ancestors := c.ancestors ++ [selector] }

/-- Closes the innermost rule. -/
def closeRule (c : Context) : Context := { c with ancestors := c.ancestors.dropLast }

/-- Makes a rule wait. -/
def enqueue (fragment : String) (c : Context) : Context :=
  { c with queue := c.queue ++ [fragment] }

/-- The rules that need not wait any longer, and the state without them. While a rule is open all
have to wait. -/
def flush (c : Context) : List String × Context :=
  if c.isNested then ([], c) else (c.queue, { c with queue := [] })

/-- One level deeper. -/
def descend (c : Context) : Context := { c with depth := c.depth + 1 }

/-- One level up. -/
def ascend (c : Context) : Context := { c with depth := c.depth - 1 }

/-- The level is beyond what the options allow. -/
def tooDeep (c : Context) : Bool := c.options.maxDepth.toNat < c.depth

end Context

end Stylesheet
