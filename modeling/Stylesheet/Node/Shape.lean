import Stylesheet.Diagnostic
import Stylesheet.Text.Blank

/-!
# The layout of a node

Access to the children that a kind of node should have. A child that is missing, or of another
kind, is a flaw of its parent.
-/

namespace Stylesheet.Node

/-- A child of a node. -/
abbrev Child (node : Node) := { child : Node // child ∈ node.children }

/-- The child at a position. -/
def child (node : Node) (position : Nat) : Except Diagnostic node.Child :=
  match h : node.children[position]? with
  | some child => .ok ⟨child, List.mem_of_getElem? h⟩
  | none => .error (node.malformed (.missingChild position))

/-- The child at a position, which has to be of a kind. -/
def childOf (node : Node) (position : Nat) (kind : Kind) : Except Diagnostic node.Child := do
  let child ← node.child position
  if child.val.kind = kind then .ok child
  else .error (node.malformed (.unexpectedChild kind position child.val.kind))

/-- The last child, which has to be a block. -/
def body (node : Node) : Except Diagnostic node.Child :=
  match h : node.children.getLast? with
  | some child =>
    if child.kind = .block then .ok ⟨child, List.mem_of_getLast? h⟩
    else .error (node.malformed .missingBlock)
  | none => .error (node.malformed .missingBlock)

/-- The name that the first child of a node gives it. -/
def name (node : Node) : Except Diagnostic String := do
  return Text.trim (← node.childOf 0 .identifier).val.text

/-- The selector of a rule: those of the group with commas between them, or the text of the group
if there are none. -/
def selectorText (group : Node) : String :=
  match (group.children.map fun s => Text.trim s.text).filter (· ≠ "") with
  | [] => Text.trim group.text
  | selectors => ", ".intercalate selectors

end Stylesheet.Node
