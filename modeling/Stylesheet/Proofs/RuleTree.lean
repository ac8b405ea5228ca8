import Stylesheet.Node.Shape
import Stylesheet.Selector
import Stylesheet.Proofs.Basic
import Mathlib.Data.List.TakeWhile

/-!
# Trees of rules

`Body` is a block of declarations and rules, and `Written` relates it to the nodes that write it.
`Body.flattened` lists the rules of a document without their nesting: each outermost rule first,
then the rules below it, each after the rules inside it. No rule is lost or repeated by that:
`Body.flattened_perm`.
-/

namespace Stylesheet

/-- A block of declarations and rules. -/
inductive Body where
  | nil
  | declaration (property value : String) (rest : Body)
  | rule (selector : String) (inner rest : Body)
deriving DecidableEq, Repr

/-- A rule without its nesting: the selectors from the outermost rule around it down to its own, and
its declarations. -/
structure FlatRule where
  path : List String
  declarations : List (String × String)
deriving DecidableEq, Repr

namespace FlatRule

/-- The lines of declarations. -/
def lines (indent : String) (declarations : List (String × String)) : String :=
  String.join (declarations.map fun (property, value) =>
    "\n" ++ indent ++ property ++ ": " ++ value ++ ";")

/-- The block of a rule. -/
def text (indent : String) (r : FlatRule) : String :=
  Selector.block (Selector.chain r.path) (lines indent r.declarations)

/-- The block of a rule and the blank line after it. -/
def fragment (indent : String) (r : FlatRule) : String := r.text indent ++ "\n\n"

/-- A rule is outermost. -/
def isOutermost (r : FlatRule) : Bool := r.path.length == 1

/-- The block of a rule as it is written. A rule that had to wait is written without the blanks that
its selector may start with. -/
def written (indent : String) (r : FlatRule) : String :=
  if r.isOutermost then r.text indent else Text.trim (r.text indent)

end FlatRule

namespace Body

/-- The declarations of a block, without those of its rules. -/
def declarations : Body → List (String × String)
  | nil => []
  | declaration property value rest => (property, value) :: rest.declarations
  | rule _ _ rest => rest.declarations

/-- The number of levels to which the statements of a block nest. -/
def nesting : Body → Nat
  | nil => 0
  | declaration _ _ rest => max 1 rest.nesting
  | rule _ inner rest => max (inner.nesting + 1) rest.nesting

/-- The rules of a block at a path, in the order of the document. -/
def rules (path : List String) : Body → List FlatRule
  | nil => []
  | declaration _ _ rest => rest.rules path
  | rule selector inner rest =>
    ⟨path ++ [selector], inner.declarations⟩ :: inner.rules (path ++ [selector]) ++ rest.rules path

/-- The rules of a block at a path, each after the rules inside it. -/
def closing (path : List String) : Body → List FlatRule
  | nil => []
  | declaration _ _ rest => rest.closing path
  | rule selector inner rest =>
    inner.closing (path ++ [selector]) ++
      ⟨path ++ [selector], inner.declarations⟩ :: rest.closing path

/-- The rules of a document: each outermost rule, and after it the rules below it, each after the
rules inside it. -/
def flattened : Body → List FlatRule
  | nil => []
  | declaration _ _ rest => rest.flattened
  | rule selector inner rest =>
    ⟨[selector], inner.declarations⟩ :: inner.closing [selector] ++ rest.flattened

end Body

/-- A declaration with the name of its property and a literal as its value. -/
structure Node.IsDeclaration (node name value : Node) : Prop where
  kind : node.kind = .declaration
  name_at : node.children[0]? = some name
  name_kind : name.kind = .identifier
  value_at : node.children[1]? = some value
  value_kind : value.kind = .literal

/-- A rule with its selectors and its block. -/
structure Node.IsRule (node group block : Node) : Prop where
  kind : node.kind = .rule
  group_at : node.children[0]? = some group
  group_kind : group.kind = .selectorGroup
  block_at : node.children[1]? = some block
  block_kind : block.kind = .block

/-- Nodes and the block that they write. Blanks around a value and around the name of a property do
not count. -/
inductive Written : List Node → Body → Prop where
  | nil :
    Written [] .nil
  | declaration {node name value nodes rest} :
    Node.IsDeclaration node name value →
    Written nodes rest →
    Written (node :: nodes) (.declaration (Text.trim name.text) (Text.trim value.text) rest)
  | rule {node group block nodes inner rest} :
    Node.IsRule node group block →
    Written block.children inner →
    Written nodes rest →
    Written (node :: nodes) (.rule group.selectorText inner rest)

/-! ### Trimming -/

namespace Text

/-- Blanks at the end do not matter. -/
lemma trimChars_append {cs blanks : List Char} (h : ∀ c ∈ blanks, isBlank c) :
    trimChars (cs ++ blanks) = trimChars cs := by
  unfold trimChars
  rw [List.dropWhile_append]
  split
  · next he =>
    have hb : blanks.dropWhile isBlank = [] := List.dropWhile_eq_nil_iff.2 h
    rw [List.isEmpty_iff.1 he, hb]
  · have hb : ∀ c ∈ blanks.reverse, isBlank c := fun c hc => h c (List.mem_reverse.1 hc)
    rw [List.reverse_append, List.dropWhile_append_of_pos hb]

/-- Blanks at the end of a text do not matter. -/
lemma trim_append {s blanks : String} (h : ∀ c ∈ blanks.toList, isBlank c) :
    trim (s ++ blanks) = trim s := by
  rw [trim, String.toList_append, trimChars_append h, trim]

/-- What starts with no blank has none in front. -/
lemma dropWhile_isBlank_eq_self {cs : List Char} (h : ∀ c ∈ cs.head?, ¬isBlank c) :
    cs.dropWhile isBlank = cs := by
  cases cs with
  | nil => rfl
  | cons c cs => exact List.dropWhile_cons_of_neg (h c rfl)

/-- A text that neither starts nor ends with a blank is trimmed. -/
lemma trim_eq_self {s : String} (hs : ∀ c ∈ s.toList.head?, ¬isBlank c)
    (he : ∀ c ∈ s.toList.getLast?, ¬isBlank c) : trim s = s := by
  rw [← List.head?_reverse] at he
  rw [trim, trimChars, dropWhile_isBlank_eq_self hs, dropWhile_isBlank_eq_self he,
    List.reverse_reverse, String.ofList_toList]

end Text

/-! ### The order of the rules -/

namespace Body

/-- A rule inside a block is below the path of the block. -/
lemma length_lt_of_mem_closing {body : Body} {path : List String} {r : FlatRule}
    (h : r ∈ body.closing path) : path.length < r.path.length := by
  induction body generalizing path with
  | nil => cases h
  | declaration _ _ _ ih => exact ih h
  | rule selector inner rest ihi ih =>
    rcases List.mem_append.1 h with h | h
    · have := ihi h
      simp only [List.length_append, List.length_singleton] at this
      omega
    · rcases List.mem_cons.1 h with rfl | h
      · simp
      · exact ih h

/-- The rules in the order in which they close are the same rules. -/
lemma closing_perm (body : Body) (path : List String) :
    (body.closing path).Perm (body.rules path) := by
  induction body generalizing path with
  | nil => exact .nil
  | declaration _ _ _ ih => exact ih path
  | rule selector _ _ ihi ih =>
    refine List.perm_middle.trans (.cons _ ?_)
    exact (ihi (path ++ [selector])).append (ih path)

/-- Flattening neither loses nor repeats a rule. -/
lemma flattened_perm (body : Body) : body.flattened.Perm (body.rules []) := by
  induction body with
  | nil => exact .nil
  | declaration _ _ _ ih => exact ih
  | rule selector inner _ _ ih =>
    exact ((inner.closing_perm [selector]).append ih).cons _

end Body

namespace FlatRule

/-- A nested rule is written as its fragment without the blanks at its ends. -/
lemma written_of_mem_closing {body : Body} {selector indent : String} {r : FlatRule}
    (h : r ∈ body.closing [selector]) : r.written indent = Text.trim (r.fragment indent) := by
  have hl := Body.length_lt_of_mem_closing h
  have ho : r.isOutermost = false := by
    simp only [List.length_singleton] at hl
    simp only [isOutermost, beq_eq_false_iff_ne]
    omega
  have hb : ∀ c ∈ "\n\n".toList, Text.isBlank c := by
    intro c hc
    obtain rfl : c = '\n' := by simpa using hc
    decide
  rw [written, ho, fragment, Text.trim_append hb]
  rfl

/-- A block is trimmed unless its selector starts with a blank. -/
lemma written_eq_text {indent : String} {r : FlatRule}
    (h : r.isOutermost = false → ∀ c ∈ (Selector.chain r.path).toList.head?, ¬Text.isBlank c) :
    r.written indent = r.text indent := by
  unfold written
  split
  · rfl
  · next ho =>
    -- The block starts with its selector or, where that is empty, with a brace, and ends with one.
    refine Text.trim_eq_self (fun c hc => ?_) (fun c hc => ?_)
    · cases hl : (Selector.chain r.path).toList with
      | nil =>
        obtain rfl : c = '\x7b' := by simpa [text, Selector.block, hl, eq_comm] using hc
        decide
      | cons d ds =>
        obtain rfl : c = d := by simpa [text, Selector.block, hl, eq_comm] using hc
        exact h (by simpa using ho) c (by simp [hl])
    · have he : (r.text indent).toList = ((Selector.chain r.path).toList ++ '\x7b' ::
          (lines indent r.declarations).toList ++ ['\n']) ++ ['\x7d'] := by
        simp [text, Selector.block]
      rw [he, List.getLast?_concat] at hc
      cases hc
      decide

end FlatRule

end Stylesheet
