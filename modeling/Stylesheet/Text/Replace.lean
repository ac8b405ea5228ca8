/-!
# Replacing occurrences of a pattern

`replaceEach` walks a text from left to right, takes every occurrence of a non-empty pattern that
does not overlap the one before it, and writes for it what it is told to. The text that was
written is not searched again.
-/

namespace Stylesheet.Text

/-- What is left of a list after the pattern it starts with. -/
theorem append_of_isPrefixOf? {p s t : List Char} (h : p.isPrefixOf? s = some t) : s = p ++ t := by
  induction p generalizing s with
  | nil => exact Option.some.inj h
  | cons a p ih =>
    cases s with
    | nil => cases h
    | cons b s =>
      change (if a == b then p.isPrefixOf? s else none) = some t at h
      split at h
      · next hab => rw [ih h, eq_of_beq hab, List.cons_append]
      · simp at h

/-- Every occurrence of the pattern `p :: ps` is replaced by what `out` makes of the text after
it. -/
def replaceEach (p : Char) (ps : List Char) (out : List Char → List Char) :
    List Char → List Char
  | [] => []
  | c :: cs =>
    match _h : (p :: ps).isPrefixOf? (c :: cs) with
    | some rest => out rest ++ replaceEach p ps out rest
    | none => c :: replaceEach p ps out cs
termination_by cs => cs.length
decreasing_by
  · have := congrArg List.length (append_of_isPrefixOf? _h)
    simp only [List.length_cons, List.length_append] at this ⊢
    omega
  · simp

/-- Every occurrence of a pattern is replaced by a fixed text. The empty pattern occurs
nowhere. -/
def replaceAll (text pattern value : String) : String :=
  match pattern.toList with
  | [] => text
  | p :: ps => String.ofList (replaceEach p ps (fun _ => value.toList) text.toList)

end Stylesheet.Text
