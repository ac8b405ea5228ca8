import Stylesheet.Text.Blank

/-!
# Selectors

A nested rule is placed under the selector of the rules around it. Its own selector says where that
goes by the parent marker `&`; without one, it goes in front.
-/

namespace Stylesheet.Selector

open Text

/-- The mark for the selector of the enclosing rule. -/
def parentMark : Char := '&'

/-- A selector with another in the place of each parent mark. -/
def fill (parent selector : List Char) : List Char :=
  selector.flatMap fun c => if c = parentMark then parent else [c]

/-- A selector placed under another. -/
def compose (parent selector : String) : String :=
  let selector := trim selector
  if parentMark ∈ selector.toList then String.ofList (fill parent.toList selector.toList)
  else if parent = "" then selector
  else parent ++ " " ++ selector

/-- The selector of the innermost of nested rules, given from the outermost on. -/
def chain (selectors : List String) : String := selectors.foldl compose ""

/-- The text of a rule with the given selector and the lines of its block. -/
def block (selector body : String) : String := selector ++ "\x7b" ++ body ++ "\n\x7d"

/-- The text of a rule placed under a selector. The rule's own selector ends at its brace; a text
without a brace stays as it is. -/
def place (parent fragment : String) : String :=
  let cs := fragment.toList
  let isBrace := (· == '\x7b')
  match cs.dropWhile (!isBrace ·) with
  | [] => fragment
  | rest => compose parent (String.ofList (cs.takeWhile (!isBrace ·))) ++ String.ofList rest

end Stylesheet.Selector
