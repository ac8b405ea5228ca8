/-!
# Kinds of tree nodes

What a node of a stylesheet tree stands for. A kind has a tag, by which trees name it when they are
exchanged, and a label, by which diagnostics name it.
-/

namespace Stylesheet

/-- What a node of a stylesheet tree stands for. -/
inductive Kind where
  | stylesheet
  | rule
  | selectorGroup
  | selector
  | block
  | declaration
  | propertyValue
  | listElement
  | identifier
  | literal
  /-- A reference to a variable. -/
  | reference
  | expression
  | operator
  | call
  | arguments
  | variableDeclaration
  | listDeclaration
  | mapDeclaration
  | mapEntry
  | mixinDeclaration
  | parameters
  | parameter
  /-- A parameter that takes all arguments. -/
  | restParameter
  | includeDeclaration
  | forLoop
  /-- The word before the upper bound of a counting loop. -/
  | keyword
  | eachLoop
  | conditional
  | elseIf
  | otherwise
deriving DecidableEq, Repr, Inhabited

namespace Kind

/-- All kinds. -/
def all : List Kind :=
  [.stylesheet, .rule, .selectorGroup, .selector, .block, .declaration, .propertyValue,
    .listElement, .identifier, .literal, .reference, .expression, .operator, .call, .arguments,
    .variableDeclaration, .listDeclaration, .mapDeclaration, .mapEntry, .mixinDeclaration,
    .parameters, .parameter, .restParameter, .includeDeclaration, .forLoop, .keyword, .eachLoop,
    .conditional, .elseIf, .otherwise]

/-- The name of a kind in an exchanged tree. -/
def tag : Kind → String
  | stylesheet => "Stylesheet"
  | rule => "Ruleset"
  | selectorGroup => "SelectorGroup"
  | selector => "Selector"
  | block => "Block"
  | declaration => "PropertyDeclaration"
  | propertyValue => "PropertyValue"
  | listElement => "ListElement"
  | identifier => "Identifier"
  | literal => "Literal"
  | reference => "Variable"
  | expression => "Expression"
  | operator => "Operator"
  | call => "FunctionCall"
  | arguments => "Arguments"
  | variableDeclaration => "VariableDeclaration"
  | listDeclaration => "ListDeclaration"
  | mapDeclaration => "MapDeclaration"
  | mapEntry => "MapEntry"
  | mixinDeclaration => "MixinDeclaration"
  | parameters => "Parameters"
  | parameter => "Parameter"
  | restParameter => "RestParameter"
  | includeDeclaration => "IncludeDeclaration"
  | forLoop => "ForDeclaration"
  | keyword => "Keyword"
  | eachLoop => "EachDeclaration"
  | conditional => "IfDeclaration"
  | elseIf => "ElseIf"
  | otherwise => "Else"

/-- The kind with a tag. -/
def ofTag? (tag : String) : Option Kind := all.find? (·.tag == tag)

/-- The name of a kind in a diagnostic. -/
def label : Kind → String
  | stylesheet => "stylesheet"
  | rule => "ruleset"
  | selectorGroup => "selector group"
  | selector => "selector"
  | block => "block"
  | declaration => "property declaration"
  | propertyValue => "property value"
  | listElement => "list element"
  | identifier => "identifier"
  | literal => "literal"
  | reference => "variable"
  | expression => "expression"
  | operator => "operator"
  | call => "function call"
  | arguments => "arguments"
  | variableDeclaration => "variable declaration"
  | listDeclaration => "list declaration"
  | mapDeclaration => "map declaration"
  | mapEntry => "map entry"
  | mixinDeclaration => "@mixin"
  | parameters => "parameters"
  | parameter => "parameter"
  | restParameter => "rest parameter"
  | includeDeclaration => "@include"
  | forLoop => "@for"
  | keyword => "keyword"
  | eachLoop => "@each"
  | conditional => "@if"
  | elseIf => "@else if"
  | otherwise => "@else"

end Kind

end Stylesheet
