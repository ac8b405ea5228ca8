import Stylesheet.Node.Basic
import Stylesheet.Text.Blank

/-!
# Building trees

One function for each layout of children that the compiler understands.
-/

namespace Stylesheet.Node

open Text

/-- A word that starts with the sigil of variables. -/
def hasSigil (word : String) : Bool := word.toList.head? == some '$'

/-- The name of a variable with its sigil, which may be left out. -/
def withSigil (name : String) : String := if hasSigil name then name else "$" ++ name

/-- A block of statements. -/
def block (body : List Node) : Node := branch .block body

/-- A document. -/
def stylesheet (statements : List Node) : Node := branch .stylesheet statements

/-- An identifier. -/
def identifier (name : String) : Node := leaf .identifier name

/-- A literal. -/
def literal (text : String) : Node := leaf .literal text

/-- A reference to a variable. -/
def reference (name : String) : Node := leaf .reference (withSigil name)

/-- An operator or a parenthesis of an expression. -/
def operator (token : String) : Node := leaf .operator token

/-- The word before the upper bound of a counting loop. -/
def keyword (word : String) : Node := leaf .keyword word

/-- A rule with its selectors and the statements of its block. -/
def rule (selectors : List String) (body : List Node) : Node :=
  let group := { branch .selectorGroup (selectors.map (leaf .selector)) with
    text := ", ".intercalate selectors }
  branch .rule [group, block body]

/-- A property and its value. -/
def declaration (property : String) (value : Node) : Node :=
  branch .declaration [identifier property, value]

/-- A value of elements with commas between them, each of parts with blanks between them. -/
def propertyValue (elements : List (List Node)) : Node :=
  let elements := elements.map (branch .listElement)
  { branch .propertyValue elements with text := ", ".intercalate (elements.map text) }

/-- An expression. -/
def expression (parts : List Node) : Node := branch .expression parts

/-- The words that stand for operators in a formula. -/
def operatorWords : List String :=
  ["*", "/", "+", "-", "and", "or", "not", "==", "<=", ">=", "<", ">", "(", ")"]

/-- A word of a formula: an operator, a reference or a literal. -/
def formulaPart (word : String) : Node :=
  if word ∈ operatorWords then operator word
  else if hasSigil word then reference word
  else literal word

/-- The expression that is written as words with blanks between them. -/
def formula (source : String) : Node := expression ((words source).map formulaPart)

/-- A call of a function. -/
def call (name : String) (args : List Node) : Node :=
  { branch .call [identifier name, branch .arguments args] with
    text := name ++ "(" ++ ", ".intercalate (args.map text) ++ ")" }

/-- The declaration of a variable. -/
def assignment (name : String) (value : Node) : Node :=
  branch .variableDeclaration [reference name, value]

/-- A list. -/
def list (items : List Node) : Node := branch .listDeclaration items

/-- A map. -/
def map (entries : List (String × Node)) : Node :=
  branch .mapDeclaration (entries.map fun (key, value) => branch .mapEntry [literal key, value])

/-- A parameter without a default value. -/
def parameter (name : String) : Node := branch .parameter [reference name]

/-- A parameter with a default value. -/
def defaultedParameter (name : String) (default : Node) : Node :=
  branch .parameter [reference name, default]

/-- A parameter that takes all arguments. -/
def restParameter (name : String) : Node := branch .restParameter [reference name]

/-- A node of a kind for a list that is not empty. -/
def unlessEmpty (kind : Kind) : List Node → List Node
  | [] => []
  | nodes => [branch kind nodes]

/-- The declaration of a mixin. -/
def mixin (name : String) (params body : List Node) : Node :=
  branch .mixinDeclaration ([identifier name] ++ unlessEmpty .parameters params ++ [block body])

/-- The inclusion of a mixin. -/
def inclusion (name : String) (args : List Node) : Node :=
  branch .includeDeclaration ([identifier name] ++ unlessEmpty .arguments args)

/-- A loop that counts. -/
def forLoop (name : String) (first : Node) (word : String) (bound : Node) (body : List Node) :
    Node :=
  branch .forLoop [reference name, first, keyword word, bound, block body]

/-- A loop over a list or a map. -/
def eachLoop (names : List String) (source : Node) (body : List Node) : Node :=
  branch .eachLoop (names.map reference ++ [source, block body])

/-- A conditional with its further branches and the one that is left. -/
def conditional (guard : Node) (body : List Node) (branches : List (Node × List Node))
    (rest : Option (List Node)) : Node :=
  branch .conditional ([guard, block body]
    ++ branches.map (fun (guard, body) => branch .elseIf [guard, block body])
    ++ (rest.map fun body => branch .otherwise [block body]).toList)

end Stylesheet.Node
