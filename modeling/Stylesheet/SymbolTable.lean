import Stylesheet.Registry
import Stylesheet.Variable

/-!
# The symbol table

The variables of a document, in one name space and in the order of their declaration. A variable is
looked up by a reference, so the sigil may be there or not.
-/

namespace Stylesheet

/-- The declared variables. -/
abbrev SymbolTable := Registry Variable

namespace SymbolTable

/-- The variable that a reference names. -/
def lookup (table : SymbolTable) (reference : String) : Option Variable :=
  table.get? (Variable.bareName reference)

/-- Declares a name, or gives it a new value in its place. -/
def declare (table : SymbolTable) (name : String) (v : Variable) : SymbolTable :=
  table.insert name v

/-- Takes out the variable that a reference names. -/
def remove (table : SymbolTable) (reference : String) : SymbolTable :=
  table.erase (Variable.bareName reference)

/-- The custom property that an entry defines. Only a scalar that is not temporary defines one. -/
def entryProperty? (entry : String × Variable) : Option (String × String) :=
  match entry.2 with
  | ⟨.scalar text, false⟩ => some (entry.1, text)
  | _ => none

/-- The custom properties of the document, in the order of their declaration. -/
def properties (table : SymbolTable) : List (String × String) :=
  table.entries.filterMap entryProperty?

end SymbolTable

end Stylesheet
