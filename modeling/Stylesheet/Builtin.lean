import Stylesheet.Number.Integer
import Stylesheet.Variable

/-!
# Built-in functions

The functions that the compiler computes itself. A call of any other function is written to the
output as it is.
-/

namespace Stylesheet

/-- A function that the compiler computes. -/
inductive Builtin where
  | length
  | nth
  | darken
  | lighten
  | linearGradient
deriving DecidableEq, Repr, Inhabited

namespace Builtin

/-- All built-in functions. -/
def all : List Builtin := [length, nth, darken, lighten, linearGradient]

/-- The name of a function. -/
def name : Builtin → String
  | length => "length"
  | nth => "nth"
  | darken => "darken"
  | lighten => "lighten"
  | linearGradient => "linear-gradient"

/-- The function with a name; blanks around it do not count. -/
def ofName? (name : String) : Option Builtin := all.find? (·.name == Text.trim name)

/-- The number of arguments that a function reads. -/
def arity : Builtin → Nat
  | length => 1
  | nth | darken | lighten => 2
  | linearGradient => 0

/-- Why a function has no value. -/
inductive Fault where
  | notAList (name : String) (sort : String)
  | notAnIndex (text : String)
  | outOfRange (index : Int) (name : String) (size : Nat)
deriving DecidableEq, Repr

/-- The wording of a fault. -/
def Fault.message : Fault → String
  | notAList name sort => s!"${name} is a {sort}, not a list"
  | notAnIndex text => s!"list index `{text}` is not an integer"
  | outOfRange index name size =>
    s!"index {index} is out of range for ${name} (length {size})"

/-- The items of a variable that has to be a list. -/
def listItems (name : String) (v : Variable) : Except Fault (List String) :=
  match v.value.items? with
  | some items => .ok items
  | none => .error (.notAList name v.value.label)

/-- The number of items of a list. -/
def lengthOf (name : String) (v : Variable) : Except Fault String := do
  return toString (← listItems name v).length

/-- The item of a list at a position, counted from one. -/
def nthOf (name : String) (v : Variable) (index : String) : Except Fault String := do
  let items ← listItems name v
  match Number.integer? (Text.trim index) with
  | none => .error (.notAnIndex (Text.trim index))
  | some position =>
    match (if 1 ≤ position then items[(position - 1).toNat]? else none) with
    | some item => .ok item
    | none => .error (.outOfRange position name items.length)

/-- A colour mixed with a part of another. -/
def mix (base colour amount : String) : String :=
  "color-mix(in srgb, " ++ base ++ " " ++ Text.trim amount ++ ", " ++ Text.trim colour ++ ")"

/-- A colour mixed with black. -/
def darker (colour amount : String) : String := mix "black" colour amount

/-- A colour mixed with white. -/
def lighter (colour amount : String) : String := mix "white" colour amount

/-- The sides to which a gradient may run. -/
def sides : List String := ["top", "bottom", "left", "right"]

/-- A part of a gradient, with one blank between a `to` at its start and the side after it. -/
def gradientPart (part : List Char) : List Char :=
  match "to".toList.isPrefixOf? part with
  | none => part
  | some rest =>
    let rest := rest.dropWhile Text.isBlank
    if sides.any (·.toList.isPrefixOf rest) then "to ".toList ++ rest else part

/-- The parts of a text between its commas, trimmed, without those that are empty. -/
def commaParts (cs : List Char) : List (List Char) :=
  ((cs.splitOnP (· == ',')).map Text.trimChars).filter (· ≠ [])

/-- A gradient with its arguments in normal form. -/
def gradient (args : List String) : String :=
  let parts := (commaParts (",".intercalate args).toList).map gradientPart
  "linear-gradient(" ++ ", ".intercalate (parts.map String.ofList) ++ ")"

/-- The call of a function that the compiler does not know. -/
def foreign (name : String) (args : List String) : String :=
  Text.trim name ++ "(" ++ ", ".intercalate args ++ ")"

end Builtin

end Stylesheet
