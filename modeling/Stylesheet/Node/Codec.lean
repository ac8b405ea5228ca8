import Stylesheet.Json.Reader
import Stylesheet.Node.Basic

/-!
# Exchanging trees

A tree is exchanged as JSON. A node is a record of its tag, text, children and span, of which all
but the tag may be left out. What is read may nest to a limited number of levels.
-/

namespace Stylesheet

/-- The levels of nesting that are read. -/
def Json.levels : Nat := 127

namespace Span

/-- A span as JSON. -/
def toJson (s : Span) : Json :=
  .record [("start", .ofNat s.start.toNat), ("end", .ofNat s.stop.toNat)]

/-- The span that is written within a number of levels. -/
def ofJson? (levels : Nat) (j : Json) : Option Span := do
  guard (0 < levels)
  match ← j.fields? ["start", "end"] with
  | [some start, some stop] => return { start := ← start.word?, stop := ← stop.word? }
  | _ => none

end Span

/-- The kind that is written within a number of levels, as its tag or as an object with the tag for
its only key. -/
def Kind.ofJson? (levels : Nat) : Json → Option Kind
  | .string lexeme => do Kind.ofTag? (← Json.unquote? lexeme)
  | .object [(lexeme, .null)] => do
    guard (0 < levels)
    Kind.ofTag? (← Json.unquote? lexeme)
  | _ => none

namespace Node

/-- A tree as JSON. -/
def toJson (node : Node) : Json :=
  .record [("kind", .ofString node.kind.tag), ("text", .ofString node.text),
    ("children", .array (node.children.map toJson)), ("span", node.span.toJson)]
termination_by sizeOf node
decreasing_by exact sizeOf_lt_of_mem ‹_›

mutual

/-- The tree that is written within a number of levels. A node takes one level, and the list of its
children another. -/
def ofJson? : Nat → Json → Option Node
  | 0, _ => none
  | levels + 1, j => do
    match ← j.fields? ["kind", "text", "children", "span"] with
    | [some kind, text, children, span] =>
      return {
        kind := ← Kind.ofJson? levels kind
        text := ← (text.map Json.text?).getD (some "")
        children := ← (children.map (listOfJson? levels)).getD (some [])
        span := ← (span.map (Span.ofJson? levels)).getD (some {}) }
    | _ => none

/-- The trees that are written in a list within a number of levels. -/
def listOfJson? : Nat → Json → Option (List Node)
  | 0, _ => none
  | levels + 1, j => j.items? >>= List.mapM (ofJson? levels)

end

/-- The tree that a JSON text writes. -/
def parse? (s : String) : Option Node := Json.parse? s >>= ofJson? Json.levels

end Node

end Stylesheet
