import Stylesheet.Registry
import Stylesheet.Text.Substitution

/-!
# Mixins

A mixin is a template of texts: lines, which go where it is included, and whole rules, which go
after the rule that includes it. Including it binds arguments to its parameters and substitutes
them in these texts.
-/

namespace Stylesheet

/-- The texts of a mixin, or of an inclusion of it. -/
structure Fragments where
  /-- Lines for the block that includes the mixin. -/
  direct : List String := []
  /-- Rules whose selectors are still to be placed. -/
  deferred : List String := []
deriving DecidableEq, Repr, Inhabited

namespace Fragments

/-- Two bodies, one after the other. -/
def append (a b : Fragments) : Fragments :=
  { direct := a.direct ++ b.direct, deferred := a.deferred ++ b.deferred }

instance : Append Fragments := ⟨append⟩

/-- A function applied to each text. -/
def map (f : String → String) (body : Fragments) : Fragments :=
  { direct := body.direct.map f, deferred := body.deferred.map f }

/-- Lines of a block, each indented. -/
def indented (indent : String) (lines : List String) : String :=
  String.join (lines.map fun line => "\n" ++ indent ++ line)

/-- The lines for the block that includes a mixin. -/
def inline (indent : String) (body : Fragments) : String := indented indent body.direct

end Fragments

/-- How a mixin takes its arguments. -/
inductive Parameters where
  /-- Named parameters by position, of which some have default values. -/
  | fixed (names : List String) (defaults : Registry String)
  /-- One parameter that takes all arguments. -/
  | variadic (name : String)
deriving DecidableEq, Repr, Inhabited

/-- A mixin. -/
structure Mixin where
  parameters : Parameters := .fixed [] {}
  body : Fragments := {}
deriving DecidableEq, Repr, Inhabited

/-- The declared mixins. -/
abbrev MixinTable := Registry Mixin

namespace Mixin

/-- Why a mixin cannot be declared or included. -/
inductive Fault where
  | undeclaredParameter (name : String)
  | tooFewArguments (mixin : String) (required given : Nat)
  | missingArgument (parameter mixin : String)
deriving DecidableEq, Repr

/-- The wording of a fault. -/
def Fault.message : Fault → String
  | undeclaredParameter name => s!"default value given for undeclared parameter {name}"
  | tooFewArguments mixin required given =>
    s!"mixin `{mixin}` expects at least {required} argument(s) but was called with {given}"
  | missingArgument parameter mixin =>
    s!"missing value for parameter {parameter} of mixin `{mixin}`"

/-- A mixin with named parameters. A default value belongs to one of them. -/
def fixed (names : List String) (defaults : Registry String) (body : Fragments) :
    Except Fault Mixin :=
  match defaults.names.find? (· ∉ names) with
  | some stray => .error (.undeclaredParameter stray)
  | none => .ok ⟨.fixed names defaults, body⟩

/-- A mixin whose only parameter takes all arguments. -/
def variadic (name : String) (body : Fragments) : Mixin := ⟨.variadic name, body⟩

/-- Whether the only parameter takes all arguments. -/
def isVariadic (m : Mixin) : Bool := m.parameters matches .variadic _

/-- The number of arguments that an inclusion has to give. -/
def requiredArity (m : Mixin) : Nat :=
  match m.parameters with
  | .fixed names defaults => names.length - defaults.size
  | .variadic _ => 0

/-- The values of parameters, those by position first. -/
def bindNames (mixin : String) (defaults : Registry String) :
    List String → List String → Except Fault (List (String × String))
  | [], _ => .ok []
  | name :: names, args => do
    let value ←
      match args.head?.or (defaults.get? name) with
      | some value => .ok value
      | none => .error (.missingArgument name mixin)
    return (name, value) :: (← bindNames mixin defaults names args.tail)

/-- The values of the parameters in an inclusion. Arguments without a parameter are ignored. -/
def bind (m : Mixin) (name : String) (args : List String) :
    Except Fault (List (String × String)) :=
  match m.parameters with
  | .variadic parameter => .ok [(parameter, ", ".intercalate args)]
  | .fixed names defaults =>
    if args.length < m.requiredArity then
      .error (.tooFewArguments name m.requiredArity args.length)
    else bindNames name defaults names args

/-- A text with each parameter substituted, one after the other. -/
def substituteAll (bindings : List (String × String)) (text : String) : String :=
  bindings.foldl (fun text (name, value) => Text.substitute text name value) text

/-- The texts of an inclusion. -/
def expand (m : Mixin) (name : String) (args : List String) : Except Fault Fragments := do
  let bindings ← m.bind name args
  return m.body.map (substituteAll bindings)

end Mixin

end Stylesheet
