import Stylesheet.Render.Statement

/-!
# The compiler

A document is rendered statement by statement. After each, the rules that waited for it follow. The
block of the custom properties comes first, if the document declares any.
-/

namespace Stylesheet

namespace Render

open Text

/-- The rules that need not wait any longer, each followed by a blank line. -/
def flushed : Render String := do
  let (ready, c) := (← get).flush
  set c
  return String.join (ready.map fun fragment => trim fragment ++ "\n\n")

/-- The text of the rules with the block of the custom properties in front of it. -/
def withProperties (c : Context) (css : String) : String :=
  match c.symbols.properties.map fun (name, text) => "--" ++ name ++ ": " ++ text ++ ";" with
  | [] => trim css
  | lines =>
    trim (Selector.block c.options.rootSelector (Fragments.indented c.options.indent lines)
      ++ "\n\n" ++ css)

/-- The text of a document. -/
def document (root : Node) : Render String := do
  if root.kind ≠ .stylesheet then throw (root.malformed .notAStylesheet)
  let texts ← root.children.mapM fun node => do
    let text ← statement node
    return text ++ (← flushed)
  return withProperties (← get) (String.join texts)

end Render

/-- A compiler that compiles one document after the other. What a document declared can be looked
up until the next one is compiled. -/
structure Compiler where
  context : Context := {}
deriving DecidableEq, Repr, Inhabited

namespace Compiler

/-- A compiler with options and a source for its diagnostics. -/
def new (options : Options) (source : Option Source) : Compiler := ⟨{ options, source }⟩

/-- The variables that the last document left. -/
def symbols (c : Compiler) : SymbolTable := c.context.symbols

/-- Forgets the last document. -/
def reset (c : Compiler) : Compiler := ⟨c.context.reset⟩

/-- Compiles a document. The declarations of a document that is not compiled are kept as far as
they were read. -/
def compile (c : Compiler) (root : Node) : Except Diagnostic String × Compiler :=
  match Render.document root c.context.reset with
  | .ok css context => (.ok css, ⟨context⟩)
  | .error d context => (.error (context.source.elim d d.attach), ⟨context⟩)

end Compiler

/-- Compiles a document with the default options. -/
def compile (root : Node) : Except Diagnostic String := (Compiler.compile {} root).1

end Stylesheet
