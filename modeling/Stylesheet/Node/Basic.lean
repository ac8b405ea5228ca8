import Stylesheet.Node.Kind

/-!
# Stylesheet trees

A node has a kind, the text that it covers, its children and its place in the document.
-/

namespace Stylesheet

/-- A stretch of a document, from an offset up to another. -/
structure Span where
  start : UInt64 := 0
  stop : UInt64 := 0
deriving DecidableEq, Repr, Inhabited

namespace Span

/-- The length of a span; one that ends before it starts has none. -/
def length (s : Span) : Nat := s.stop.toNat - s.start.toNat

/-- A span without length locates nothing. -/
def isEmpty (s : Span) : Bool := s.length == 0

end Span

/-- A node of a stylesheet tree. -/
structure Node where
  kind : Kind
  text : String := ""
  children : List Node := []
  span : Span := {}
deriving Repr, Inhabited

namespace Node

/-- A child is smaller than its parent. -/
theorem sizeOf_lt_of_mem {node child : Node} (h : child ∈ node.children) :
    sizeOf child < sizeOf node := by
  have := List.sizeOf_lt_of_mem h
  cases node
  simp only [mk.sizeOf_spec] at *
  omega

mutual

/-- Equality of two trees, decided from the root down. -/
def decEq (a b : Node) : Decidable (a = b) :=
  match a, b with
  | ⟨k, t, cs, s⟩, ⟨k', t', cs', s'⟩ =>
    match decEqList cs cs' with
    | isTrue h => decidable_of_iff (k = k' ∧ t = t' ∧ s = s') (by subst h; simp)
    | isFalse h => isFalse (by simp [h])

/-- Equality of two lists of trees. -/
def decEqList (as bs : List Node) : Decidable (as = bs) :=
  match as, bs with
  | [], [] => isTrue rfl
  | [], _ :: _ => isFalse (by simp)
  | _ :: _, [] => isFalse (by simp)
  | a :: as, b :: bs =>
    match decEq a b, decEqList as bs with
    | isTrue h, isTrue h' => isTrue (by rw [h, h'])
    | isFalse h, _ => isFalse (by simp [h])
    | _, isFalse h => isFalse (by simp [h])

end

instance : DecidableEq Node := decEq

/-- A node without children. -/
def leaf (kind : Kind) (text : String) : Node := { kind, text }

/-- A node that covers the texts of its children, those that are not empty, with a blank between
two. -/
def branch (kind : Kind) (children : List Node) : Node :=
  { kind, children, text := " ".intercalate ((children.map text).filter (· ≠ "")) }

/-- The first child of a kind. -/
def find? (node : Node) (kind : Kind) : Option Node := node.children.find? (·.kind == kind)

/-- The first child of a kind is a child. -/
theorem mem_of_find?_eq_some {node child : Node} {kind : Kind} (h : node.find? kind = some child) :
    child ∈ node.children := List.mem_of_find?_eq_some h

/-- The children of a kind, in their order. -/
def filter (node : Node) (kind : Kind) : List Node := node.children.filter (·.kind == kind)

/-- A child of a kind is a child. -/
theorem mem_of_mem_filter {node child : Node} {kind : Kind} (h : child ∈ node.filter kind) :
    child ∈ node.children := (List.mem_filter.1 h).1

/-- The arguments of a call or an inclusion: what is below the first child that holds arguments. -/
def arguments (node : Node) : List Node := ((node.find? .arguments).map children).getD []

/-- An argument is smaller than the node that is given it. -/
theorem sizeOf_lt_of_mem_arguments {node arg : Node} (h : arg ∈ node.arguments) :
    sizeOf arg < sizeOf node := by
  cases hf : node.find? .arguments with
  | none => simp [arguments, hf] at h
  | some holder =>
    have h₁ := sizeOf_lt_of_mem (mem_of_find?_eq_some hf)
    have h₂ := sizeOf_lt_of_mem (show arg ∈ holder.children by simpa [arguments, hf] using h)
    omega

/-- The tree with no node located. -/
def withoutSpans (node : Node) : Node :=
  { node with children := node.children.map withoutSpans, span := {} }
termination_by sizeOf node
decreasing_by exact sizeOf_lt_of_mem ‹_›

end Node

end Stylesheet
