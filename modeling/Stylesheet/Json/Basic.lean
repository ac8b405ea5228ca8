import Stylesheet.Json.Quoted

/-!
# JSON values

A value keeps its numbers and string literals as they are written, so a reader may pass over a
literal that stands for no text. `compact` writes a value without white space.
-/

namespace Stylesheet

/-- A JSON value. Numbers, strings and the keys of an object are lexemes, strings without their
quotes. -/
inductive Json where
  | null
  | bool (b : Bool)
  | number (lexeme : String)
  | string (lexeme : String)
  | array (items : List Json)
  | object (members : List (String × Json))
deriving Repr, Inhabited

namespace Json

/-- The lexeme of a text. -/
def quote (s : String) : String := String.ofList (Quoted.encode s.toList)

/-- The text that a lexeme stands for. -/
def unquote? (lexeme : String) : Option String :=
  (Quoted.decode lexeme.toList).map String.ofList

/-- A text as a value. -/
def ofString (s : String) : Json := .string (quote s)

/-- A natural number as a value. -/
def ofNat (n : Nat) : Json := .number (toString n)

/-- An object with the given keys. -/
def record (members : List (String × Json)) : Json :=
  .object (members.map fun (key, value) => (quote key, value))

/-- The text of a string. -/
def text? : Json → Option String
  | .string lexeme => unquote? lexeme
  | _ => none

/-- The natural number that is written with digits only. -/
def natural? : Json → Option Nat
  | .number lexeme =>
    if lexeme.toList.all Char.isDigit then some (Nat.ofDigitChars 10 lexeme.toList 0) else none
  | _ => none

/-- The natural number of at most 64 bits that is written with digits only. -/
def word? (j : Json) : Option UInt64 :=
  (j.natural?.filter (· < UInt64.size)).map UInt64.ofNat

/-- The items of an array. -/
def items? : Json → Option (List Json)
  | .array items => some items
  | _ => none

/-- The value of one of several members with a key, if there is exactly one; no value if there is
none. Two are refused. -/
def member? (members : List (String × Json)) (key : String) : Option (Option Json) :=
  match members.filter (·.1 == key) with
  | [] => some none
  | [(_, value)] => some (some value)
  | _ => none

/-- The fields of a record. It is written as an object, in which other keys are passed over and
none of these is repeated, or as an array of the fields in their order, which may stop early. -/
def fields? (names : List String) : Json → Option (List (Option Json))
  | .array items =>
    if items.length ≤ names.length then
      some (items.map some ++ List.replicate (names.length - items.length) none)
    else none
  | .object members => do
    let members ← members.mapM fun (lexeme, value) => return (← unquote? lexeme, value)
    names.mapM (member? members)
  | _ => none

/-- The text of a value, without white space. -/
def compact : Json → String
  | .null => "null"
  | .bool b => if b then "true" else "false"
  | .number lexeme => lexeme
  | .string lexeme => "\"" ++ lexeme ++ "\""
  | .array items => "[" ++ ",".intercalate (items.map compact) ++ "]"
  | .object members =>
    "\x7b" ++ ",".intercalate (members.map fun m => "\"" ++ m.1 ++ "\":" ++ compact m.2) ++ "\x7d"
termination_by j => sizeOf j
decreasing_by
  · have := List.sizeOf_lt_of_mem ‹_ ∈ items›
    simp only [array.sizeOf_spec]
    omega
  · have h := List.sizeOf_lt_of_mem ‹m ∈ members›
    have : sizeOf m = 1 + sizeOf m.1 + sizeOf m.2 := rfl
    simp only [object.sizeOf_spec]
    omega

end Json

end Stylesheet
