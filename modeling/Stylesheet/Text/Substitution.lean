import Stylesheet.Text.Identifier
import Stylesheet.Text.Replace

/-!
# Substitution of names in a text

A name is written into a text in two ways: as a placeholder, which stands anywhere, and as a token,
which counts only where no identifier character continues it. So `$a` is no token in `$ab` or
`$a-b`. Substitution knows nothing else about the text.
-/

namespace Stylesheet.Text

/-- A name ends before this text: it is empty or starts with no identifier character. -/
def endsName (rest : List Char) : Bool := !rest.head?.any isIdentifier

/-- What is written for an occurrence of `name`: `value` where the name ends there, and the name
itself where it goes on. -/
def tokenValue (name value rest : List Char) : List Char := if endsName rest then value else name

/-- Every occurrence of a name that ends there is replaced. The empty name occurs nowhere. -/
def replaceToken (text name value : String) : String :=
  match name.toList with
  | [] => text
  | p :: ps =>
    String.ofList (replaceEach p ps (tokenValue (p :: ps) value.toList) text.toList)

/-- The placeholder of a name. -/
def placeholder (name : String) : String := "#\x7b" ++ name ++ "\x7d"

/-- Every placeholder of a name is replaced. -/
def interpolate (text name value : String) : String := replaceAll text (placeholder name) value

/-- Every placeholder of a name is replaced, and then every token. -/
def substitute (text name value : String) : String :=
  replaceToken (interpolate text name value) name value

end Stylesheet.Text
