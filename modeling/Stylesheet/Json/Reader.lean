import Stylesheet.Json.Basic

/-!
# Reading JSON

A strict reader: one value with white space around it and nothing else, no comma before a closing
bracket, no control character inside a string, and numbers as the grammar has them.
-/

namespace Stylesheet.Json

/-- White space between the tokens. -/
def isSpace (c : Char) : Bool := c == ' ' || c == '\n' || c == '\r' || c == '\t'

/-- A text from its first token on. -/
def skipSpace (cs : List Char) : List Char := cs.dropWhile isSpace

/-- A non-empty run of digits, and what follows it. -/
def scanDigits (cs : List Char) : Option (List Char × List Char) :=
  match cs.takeWhile Char.isDigit with
  | [] => none
  | ds => some (ds, cs.dropWhile Char.isDigit)

/-- The integral part of a number: a zero, or digits that start with none. -/
def scanWhole : List Char → Option (List Char × List Char)
  | '0' :: rest => some (['0'], rest)
  | cs => scanDigits cs

/-- The fraction of a number, which may be missing. -/
def scanFraction : List Char → Option (List Char × List Char)
  | '.' :: rest => (scanDigits rest).map fun (ds, rest) => ('.' :: ds, rest)
  | cs => some ([], cs)

/-- The digits of an exponent after an optional sign. -/
def scanSigned : List Char → Option (List Char × List Char)
  | '+' :: rest => (scanDigits rest).map fun (ds, rest) => ('+' :: ds, rest)
  | '-' :: rest => (scanDigits rest).map fun (ds, rest) => ('-' :: ds, rest)
  | cs => scanDigits cs

/-- The exponent of a number, which may be missing. -/
def scanExponent : List Char → Option (List Char × List Char)
  | 'e' :: rest => (scanSigned rest).map fun (ds, rest) => ('e' :: ds, rest)
  | 'E' :: rest => (scanSigned rest).map fun (ds, rest) => ('E' :: ds, rest)
  | cs => some ([], cs)

/-- A number without its sign. -/
def scanMagnitude (cs : List Char) : Option (List Char × List Char) := do
  let (whole, cs) ← scanWhole cs
  let (fraction, cs) ← scanFraction cs
  let (exponent, cs) ← scanExponent cs
  return (whole ++ fraction ++ exponent, cs)

/-- A number, and what follows it. -/
def scanNumber : List Char → Option (List Char × List Char)
  | '-' :: rest => (scanMagnitude rest).map fun (ds, rest) => ('-' :: ds, rest)
  | cs => scanMagnitude cs

mutual

/-- One value and what follows it. The first argument bounds the number of steps. -/
def readValue : Nat → List Char → Option (Json × List Char)
  | 0, _ => none
  | fuel + 1, cs =>
    match skipSpace cs with
    | 'n' :: 'u' :: 'l' :: 'l' :: rest => some (.null, rest)
    | 't' :: 'r' :: 'u' :: 'e' :: rest => some (.bool true, rest)
    | 'f' :: 'a' :: 'l' :: 's' :: 'e' :: rest => some (.bool false, rest)
    | '"' :: rest => do
      let (inside, rest) ← Quoted.scan rest
      return (.string (String.ofList inside), rest)
    | '[' :: rest =>
      match skipSpace rest with
      | ']' :: rest => some (.array [], rest)
      | rest => do
        let (items, rest) ← readItems fuel rest
        return (.array items, rest)
    | '\x7b' :: rest =>
      match skipSpace rest with
      | '\x7d' :: rest => some (.object [], rest)
      | rest => do
        let (members, rest) ← readMembers fuel rest
        return (.object members, rest)
    | cs => do
      let (lexeme, rest) ← scanNumber cs
      return (.number (String.ofList lexeme), rest)

/-- The items of an array, at least one, through its closing bracket. -/
def readItems : Nat → List Char → Option (List Json × List Char)
  | 0, _ => none
  | fuel + 1, cs => do
    let (item, rest) ← readValue fuel cs
    match skipSpace rest with
    | ']' :: rest => return ([item], rest)
    | ',' :: rest => do
      let (items, rest) ← readItems fuel rest
      return (item :: items, rest)
    | _ => none

/-- The members of an object, at least one, through its closing brace. -/
def readMembers : Nat → List Char → Option (List (String × Json) × List Char)
  | 0, _ => none
  | fuel + 1, cs =>
    match skipSpace cs with
    | '"' :: rest => do
      let (key, rest) ← Quoted.scan rest
      match skipSpace rest with
      | ':' :: rest => do
        let (value, rest) ← readValue fuel rest
        match skipSpace rest with
        | '\x7d' :: rest => return ([(String.ofList key, value)], rest)
        | ',' :: rest => do
          let (members, rest) ← readMembers fuel rest
          return ((String.ofList key, value) :: members, rest)
        | _ => none
      | _ => none
    | _ => none

end

/-- The value that a text writes. Each token takes at most two steps. -/
def parse? (s : String) : Option Json := do
  let cs := s.toList
  let (value, rest) ← readValue (2 * cs.length + 2) cs
  if skipSpace rest = [] then some value else none

end Stylesheet.Json
