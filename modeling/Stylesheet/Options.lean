import Stylesheet.Node.Codec

/-!
# Options of the compiler
-/

namespace Stylesheet

/-- What a caller may choose. -/
structure Options where
  /-- What each line inside a block starts with. -/
  indent : String := "\t"
  /-- The selector of the block that defines the custom properties. -/
  rootSelector : String := ":root"
  /-- The number of levels to which a document may nest. -/
  maxDepth : UInt64 := 256
deriving DecidableEq, Repr, Inhabited

namespace Options

/-- The options as JSON. -/
def toJson (o : Options) : Json :=
  .record [("indent", .ofString o.indent), ("root_selector", .ofString o.rootSelector),
    ("max_depth", .ofNat o.maxDepth.toNat)]

/-- The options that are written; one that is left out has its default value. -/
def ofJson? (j : Json) : Option Options := do
  match ← j.fields? ["indent", "root_selector", "max_depth"] with
  | [indent, rootSelector, maxDepth] =>
    let defaults : Options := {}
    return {
      indent := ← (indent.map Json.text?).getD (some defaults.indent)
      rootSelector := ← (rootSelector.map Json.text?).getD (some defaults.rootSelector)
      maxDepth := ← (maxDepth.map Json.word?).getD (some defaults.maxDepth) }
  | _ => none

/-- The options that a JSON text writes. -/
def parse? (s : String) : Option Options := Json.parse? s >>= ofJson?

end Options

end Stylesheet
