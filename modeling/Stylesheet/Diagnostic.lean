import Stylesheet.Builtin
import Stylesheet.Expr.Fault
import Stylesheet.Mixin
import Stylesheet.Node.Basic

/-!
# Diagnostics

A fault is the reason why a document is not compiled; it has a category and a wording. A diagnostic
is a fault with the place where it arose. The first place that is given to it stays.
-/

namespace Stylesheet

/-- A category of faults. -/
inductive Category where
  | semantic
  | reference
  | argument
deriving DecidableEq, Repr

/-- The name of a category. -/
def Category.title : Category → String
  | semantic => "Semantic"
  | reference => "Reference"
  | argument => "Argument"

/-- How a tree departs from the layout of its kind. -/
inductive Flaw where
  | notAStylesheet
  | notABlock
  | missingChild (position : Nat)
  | unexpectedChild (expected : Kind) (position : Nat) (found : Kind)
  | missingBlock
  | loopVariables
deriving DecidableEq, Repr

/-- The wording of a flaw. -/
def Flaw.message : Flaw → String
  | notAStylesheet => "expected a stylesheet at the root"
  | notABlock => "expected a block"
  | missingChild position => s!"missing child at position {position}"
  | unexpectedChild expected position found =>
    s!"expected {expected.label} at position {position}, found {found.label}"
  | missingBlock => "missing block"
  | loopVariables => "expected one or two loop variables"

/-- Why a document is not compiled. -/
inductive Fault where
  | tooDeep (limit : UInt64)
  | malformed (kind : Kind) (flaw : Flaw)
  | notAStatement (kind : Kind)
  | notAValue (kind : Kind)
  | notAMapEntry (kind : Kind)
  | undeclaredVariable (name : String)
  | undeclaredMixin (name : String)
  | expression (fault : Expr.Fault)
  | builtin (fault : Builtin.Fault)
  | tooFewArguments (builtin : Builtin) (given : Nat)
  | notAListVariable (builtin : Builtin) (text : String)
  | mixin (fault : Mixin.Fault)
  | variadicParameters (mixin : String)
  | unexpectedParameter (kind : Kind) (mixin : String)
  | notInMixinBody (kind : Kind)
  | notInMixinRule (kind : Kind)
  | notABound (text : String)
  | boundTooSmall (bound : Int)
  | unknownKeyword (word : String)
  | notAMapVariable (text : String)
  | notAMap (name sort : String)
  /-- A fault that the caller words. -/
  | stated (category : Category) (message : String)
deriving DecidableEq, Repr

namespace Fault

/-- The category of a fault. -/
def category : Fault → Category
  | undeclaredVariable _ | undeclaredMixin _ => .reference
  | tooFewArguments .. => .argument
  | mixin (.tooFewArguments ..) | mixin (.missingArgument ..) => .argument
  | stated category _ => category
  | _ => .semantic

/-- The wording of a fault. -/
def message : Fault → String
  | tooDeep limit => s!"document nests deeper than {limit.toNat} levels"
  | malformed kind flaw => s!"malformed {kind.label}: {flaw.message}"
  | notAStatement kind => s!"{kind.label} is not allowed in statement position"
  | notAValue kind => s!"{kind.label} cannot be used as a value"
  | notAMapEntry kind => s!"map entries must be MapEntry nodes, found {kind.label}"
  | undeclaredVariable name => s!"undeclared variable ${name}"
  | undeclaredMixin name => s!"mixin `{name}` is not declared"
  | expression fault => fault.message
  | builtin fault => fault.message
  | tooFewArguments b given =>
    s!"`{b.name}` expects {b.arity} argument(s) but was called with {given}"
  | notAListVariable b text => s!"`{b.name}` expects a list variable, found `{text}`"
  | mixin fault => fault.message
  | variadicParameters name => s!"variadic mixin `{name}` must have exactly one parameter"
  | unexpectedParameter kind name => s!"unexpected {kind.label} in the parameters of `{name}`"
  | notInMixinBody kind => s!"{kind.label} is not allowed inside a mixin body"
  | notInMixinRule kind => s!"{kind.label} is not allowed inside a mixin rule"
  | notABound text => s!"`@for` bound `{text}` is not an integer"
  | boundTooSmall bound => s!"`@for` bound `{bound}` is out of range for `to`"
  | unknownKeyword word =>
    s!"unknown `@for` bound keyword `{word}`, expected `through` or `to`"
  | notAMapVariable text => s!"destructuring `@each` needs a map variable, found `{text}`"
  | notAMap name sort => s!"${name} is a {sort}, not a map"
  | stated _ message => message

end Fault

/-- A document with its name. -/
structure Source where
  name : String
  text : String
deriving DecidableEq, Repr, Inhabited

/-- A fault and where it arose. -/
structure Diagnostic where
  fault : Fault
  span : Option Span := none
  source : Option Source := none
  help : Option String := none
deriving DecidableEq, Repr

namespace Diagnostic

/-- Places a diagnostic that has no place yet. An empty span is no place. -/
def locate (d : Diagnostic) (span : Span) : Diagnostic :=
  if d.span.isNone ∧ !span.isEmpty then { d with span := some span } else d

/-- Gives a document to a diagnostic that has none yet. -/
def attach (d : Diagnostic) (source : Source) : Diagnostic :=
  { d with source := d.source.or (some source) }

/-- Gives a diagnostic a hint for its reader. -/
def advise (d : Diagnostic) (help : String) : Diagnostic := { d with help := some help }

/-- A diagnostic in one line. -/
def render (d : Diagnostic) : String := d.fault.category.title ++ " error: " ++ d.fault.message

/-- The part of the document to mark, with what to write there. A diagnostic without a document
marks nothing, and a mark has at least one character. -/
def label? (d : Diagnostic) : Option (Nat × Nat × String) := do
  let _ ← d.source
  let span ← d.span
  return (span.start.toNat, max 1 span.length, d.fault.message)

end Diagnostic

/-- A flaw of a node as a diagnostic, placed at the node. -/
def Node.malformed (node : Node) (flaw : Flaw) : Diagnostic :=
  Diagnostic.locate { fault := .malformed node.kind flaw } node.span

end Stylesheet
