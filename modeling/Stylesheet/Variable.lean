import Stylesheet.Json.Basic
import Stylesheet.Text.Blank

/-!
# Variables

A variable holds a scalar, a list or a map of texts, as they were when it was declared. It is
temporary if it was declared inside a rule or a loop.
-/

namespace Stylesheet

/-- What a variable holds. -/
inductive Value where
  | scalar (text : String)
  | list (items : List String)
  /-- The entries have distinct keys and keep their order. -/
  | map (entries : List (String × String))
deriving DecidableEq, Repr, Inhabited

namespace Value

/-- The map of a list of entries, in which the first of several entries with one key counts. -/
def ofEntries (entries : List (String × String)) : Value :=
  .map (entries.eraseDupsBy fun a b => a.1 == b.1)

/-- An entry of a map as text. -/
def entryText (entry : String × String) : String := entry.1 ++ ": " ++ entry.2

/-- A value as text. -/
def text : Value → String
  | scalar text => text
  | list items => ", ".intercalate items
  | map entries => ", ".intercalate (entries.map entryText)

/-- The name of a sort of values in a diagnostic. -/
def label : Value → String
  | scalar _ => "scalar"
  | list _ => "list"
  | map _ => "map"

/-- The name of a sort of values in an exchanged variable. -/
def tag : Value → String
  | scalar _ => "Scalar"
  | list _ => "List"
  | map _ => "Map"

/-- The items of a list. -/
def items? : Value → Option (List String)
  | list items => some items
  | _ => none

/-- The entries of a map. -/
def entries? : Value → Option (List (String × String))
  | map entries => some entries
  | _ => none

/-- A value as JSON, under the tag of its sort. -/
def toJson (v : Value) : Json :=
  .record [(v.tag, match v with
    | scalar text => .ofString text
    | list items => .array (items.map .ofString)
    | map entries => .record (entries.map fun (key, text) => (key, .ofString text)))]

end Value

/-- A declared variable. -/
structure Variable where
  value : Value
  /-- Declared inside a rule or a loop, and so no custom property of the document. -/
  temporary : Bool := false
deriving DecidableEq, Repr, Inhabited

namespace Variable

/-- A variable as JSON. -/
def toJson (v : Variable) : Json :=
  .record [("value", v.value.toJson), ("temporary", .bool v.temporary)]

/-- The name in a reference to a variable, without blanks around it and without its sigil. -/
def bareName (reference : String) : String :=
  String.ofList ((Text.trimChars reference.toList).dropWhile (· == '$'))

/-- The name in a reference with one sigil. -/
def sigilName (reference : String) : String := "$" ++ bareName reference

/-- The reference to a custom property in the output. -/
def property (name : String) : String := "var(--" ++ name ++ ")"

end Variable

end Stylesheet
