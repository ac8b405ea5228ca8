/-!
# Registries

A registry holds one value for each of its names, in the order in which the names came into it.
Registering a name again replaces its value and leaves it in its place.
-/

namespace Stylesheet

/-- Named values in the order of their names' registration. -/
structure Registry (α : Type) where
  entries : List (String × α) := []
deriving DecidableEq, Repr, Inhabited

namespace Registry

variable {α : Type}

/-- The value of a name in a list of entries. -/
def findEntry (name : String) : List (String × α) → Option α
  | [] => none
  | e :: es => if e.1 = name then some e.2 else findEntry name es

/-- The value of a name. -/
def get? (r : Registry α) (name : String) : Option α := findEntry name r.entries

/-- Whether a name is registered. -/
def contains (r : Registry α) (name : String) : Bool := (r.get? name).isSome

/-- The names in their order. -/
def names (r : Registry α) : List String := r.entries.map Prod.fst

/-- The number of names. -/
def size (r : Registry α) : Nat := r.entries.length

/-- Whether no name is registered. -/
def isEmpty (r : Registry α) : Bool := r.entries.isEmpty

/-- A list of entries with a new value for a name: in its place if it has one, else at the end. -/
def insertEntry (name : String) (value : α) : List (String × α) → List (String × α)
  | [] => [(name, value)]
  | e :: es => if e.1 = name then (name, value) :: es else e :: insertEntry name value es

/-- Gives a name a value. -/
def insert (r : Registry α) (name : String) (value : α) : Registry α :=
  ⟨insertEntry name value r.entries⟩

/-- A list of entries without the first one of a name. -/
def eraseEntry (name : String) : List (String × α) → List (String × α)
  | [] => []
  | e :: es => if e.1 = name then es else e :: eraseEntry name es

/-- Takes a name out; the others keep their order. -/
def erase (r : Registry α) (name : String) : Registry α := ⟨eraseEntry name r.entries⟩

end Registry

end Stylesheet
