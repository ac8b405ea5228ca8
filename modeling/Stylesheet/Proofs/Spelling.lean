import Stylesheet.Proofs.Discipline
import Stylesheet.Proofs.RuleTree
import Mathlib.Data.List.Forall2

/-!
# Values that are spelled out

A value of literals and references, with blanks and commas between them, is rendered text by text: a
mode decides only what becomes of the references. `Node.spell` is such a value with any texts for
the references, and `value_of_spelled` says that both modes spell it. `Composed` relates the nodes
of a block to what they write where the values of its declarations are of this sort.
-/

namespace Stylesheet

open Text

namespace Node

/-- A value is made of literals and references with given properties of their texts. A value without
parts counts as a literal. -/
inductive Spelled (L R : String → Prop) : Node → Prop where
  | literal {node} :
    node.kind = .literal →
    L node.text →
    Spelled L R node
  | reference {node} :
    node.kind = .reference →
    R node.text →
    Spelled L R node
  | element {node} :
    node.kind = .listElement →
    (∀ part ∈ node.children, Spelled L R part) →
    Spelled L R node
  | bare {node} :
    node.kind = .propertyValue →
    node.children = [] →
    L node.text →
    Spelled L R node
  | elements {node} :
    node.kind = .propertyValue →
    node.children ≠ [] →
    (∀ part ∈ node.children, Spelled L R part) →
    Spelled L R node

/-- A value with a text for each reference. -/
def spell (ρ : String → String) (node : Node) : String :=
  match node.kind with
  | .reference => ρ node.text
  | .listElement => " ".intercalate (node.children.map (spell ρ))
  | .propertyValue =>
    if node.children.isEmpty then trim node.text
    else ", ".intercalate (node.children.map (spell ρ))
  | _ => trim node.text
termination_by sizeOf node
decreasing_by all_goals exact sizeOf_lt_of_mem ‹_›

variable {L R : String → Prop} {ρ σ : String → String} {node : Node}

/-- A literal is spelled as its text. -/
lemma spell_of_literal (h : node.kind = .literal) : node.spell ρ = trim node.text := by
  rw [spell, h]

/-- A reference is spelled as what it stands for. -/
lemma spell_of_reference (h : node.kind = .reference) : node.spell ρ = ρ node.text := by
  rw [spell, h]

/-- An element is spelled as its parts with blanks between them. -/
lemma spell_of_element (h : node.kind = .listElement) :
    node.spell ρ = " ".intercalate (node.children.map (spell ρ)) := by
  rw [spell, h]

/-- A bare value is spelled as its text. -/
lemma spell_of_bare (h : node.kind = .propertyValue) (hc : node.children = []) :
    node.spell ρ = trim node.text := by
  rw [spell, h]
  simp [hc]

/-- A value of elements is spelled as them with commas between. -/
lemma spell_of_elements (h : node.kind = .propertyValue) (hc : node.children ≠ []) :
    node.spell ρ = ", ".intercalate (node.children.map (spell ρ)) := by
  rw [spell, h]
  simp [hc]

/-- The texts of the references that a value has decide what it is. -/
lemma Spelled.spell_congr (h : node.Spelled L R) (hρ : ∀ text, R text → ρ text = σ text) :
    node.spell ρ = node.spell σ := by
  induction h with
  | literal hk _ => rw [spell_of_literal hk, spell_of_literal hk]
  | reference hk hr => rw [spell_of_reference hk, spell_of_reference hk, hρ _ hr]
  | element hk _ ih => rw [spell_of_element hk, spell_of_element hk, List.map_congr_left ih]
  | bare hk hc _ => rw [spell_of_bare hk hc, spell_of_bare hk hc]
  | elements hk hc _ ih =>
    rw [spell_of_elements hk hc, spell_of_elements hk hc, List.map_congr_left ih]

/-- A declaration with the name of its property and its value. -/
structure IsProperty (node name value : Node) : Prop where
  kind : node.kind = .declaration
  name_at : node.children[0]? = some name
  name_kind : name.kind = .identifier
  value_at : node.children[1]? = some value

end Node

/-- Nodes and the block that they write with a text for each reference. All other texts that count
have a property. -/
inductive Composed (L : String → Prop) (ρ : String → String) : List Node → Body → Prop where
  | nil :
    Composed L ρ [] .nil
  | declaration {node name value nodes rest} :
    Node.IsProperty node name value →
    L name.text →
    value.Spelled L (fun _ => True) →
    Composed L ρ nodes rest →
    Composed L ρ (node :: nodes) (.declaration (trim name.text) (value.spell ρ) rest)
  | rule {node group block nodes inner rest} :
    Node.IsRule node group block →
    (∀ part ∈ group :: group.children, L part.text) →
    Composed L ρ block.children inner →
    Composed L ρ nodes rest →
    Composed L ρ (node :: nodes) (.rule group.selectorText inner rest)

/-- Literals are written whatever the references are. -/
lemma Written.composed {nodes : List Node} {body : Body} (h : Written nodes body)
    (ρ : String → String) : Composed (fun _ => True) ρ nodes body := by
  induction h with
  | nil => exact .nil
  | @declaration node name value nodes rest hn _ ih =>
    have hv := Node.spell_of_literal (ρ := ρ) hn.value_kind
    rw [← hv]
    exact .declaration ⟨hn.kind, hn.name_at, hn.name_kind, hn.value_at⟩ trivial
      (.literal hn.value_kind trivial) ih
  | rule hn _ _ ihi ih => exact .rule hn (fun _ _ => trivial) ihi ih

/-- Other texts for the references leave the layout of a block. -/
lemma Composed.exists_respelled {L : String → Prop} {ρ : String → String} {nodes : List Node}
    {body : Body} (h : Composed L ρ nodes body) (σ : String → String) :
    ∃ body', Composed L σ nodes body' ∧ body'.nesting = body.nesting := by
  induction h with
  | nil => exact ⟨.nil, .nil, rfl⟩
  | declaration hn hp hv _ ih =>
    obtain ⟨rest', hr, nesting⟩ := ih
    exact ⟨_, .declaration hn hp hv hr, by rw [Body.nesting, Body.nesting, nesting]⟩
  | rule hn hs _ _ ihi ih =>
    obtain ⟨inner', hi, inside⟩ := ihi
    obtain ⟨rest', hr, nesting⟩ := ih
    exact ⟨_, .rule hn hs hi hr, by rw [Body.nesting, Body.nesting, inside, nesting]⟩

namespace Context

/-- A reference in the output. -/
def emitted (c : Context) (text : String) : String :=
  let name := Variable.bareName text
  if name ∈ c.bound then "$" ++ name
  else match c.symbols.lookup name with
    | some ⟨.scalar _, _⟩ => Variable.property name
    | some v => v.value.text
    | none => trim text

/-- What the variable of a reference holds. -/
def held (c : Context) (text : String) : String :=
  (c.symbols.lookup (Variable.bareName text)).elim (trim text) fun v => v.value.text

end Context

namespace Render

variable {L R : String → Prop} {ρ : String → String} {node : Node} {c : Context} {mode : Mode}

/-- A reference that is emitted is spelled as the state emits it. -/
lemma reference_emit (c : Context) (text : String) :
    reference .emit text c = .ok (c.emitted text) c := by
  unfold reference Context.emitted
  rw [get_bind_apply]
  dsimp only
  split
  · rfl
  · cases c.symbols.lookup (Variable.bareName text) with
    | none => rfl
    | some v =>
      obtain ⟨value, temporary⟩ := v
      cases value <;> rfl

/-- A reference to a declared variable that is folded is spelled as what it holds. -/
lemma reference_fold {text : String}
    (h : (c.symbols.lookup (Variable.bareName text)).isSome = true) :
    reference .fold text c = .ok (c.held text) c := by
  obtain ⟨v, hv⟩ := Option.isSome_iff_exists.1 h
  unfold reference Context.held
  rw [get_bind_apply]
  simp only [hv]
  rfl

/-- Steps that leave the state give their results one after the other. -/
lemma mapM_of_forall₂ {α β : Type} {step : α → Render β} {as : List α} {bs : List β}
    (h : List.Forall₂ (fun a b => step a c = .ok b c) as bs) : as.mapM step c = .ok bs c := by
  induction h with
  | nil => rfl
  | cons ha _ ih => exact mapM_cons_of_ok ha ih

/-- Steps that leave the state give their results one by one. -/
lemma mapM_of_unchanged {α β : Type} {step : α → Render β} {result : α → β} {as : List α}
    (h : ∀ a ∈ as, step a c = .ok (result a) c) : as.mapM step c = .ok (as.map result) c :=
  mapM_of_forall₂ (List.forall₂_map_right_iff.2 (List.forall₂_same.2 h))

/-- A value is spelled in a mode with what the mode makes of its references. -/
lemma value_of_spelled (h : node.Spelled L R)
    (hρ : ∀ text, R text → reference mode text c = .ok (ρ text) c) :
    value mode node c = .ok (node.spell ρ) c := by
  induction h with
  | literal hk _ =>
    rw [Node.spell_of_literal hk, value, hk]
    rfl
  | @reference node hk hr =>
    rw [Node.spell_of_reference hk, value, hk]
    exact hρ node.text hr
  | element hk _ ih =>
    rw [Node.spell_of_element hk, value, hk]
    dsimp only
    rw [bind_of_ok (mapM_of_unchanged ih)]
    rfl
  | bare hk hc _ =>
    rw [Node.spell_of_bare hk hc, value, hk]
    dsimp only
    rw [if_pos (List.isEmpty_iff.2 hc)]
    rfl
  | elements hk hc _ ih =>
    rw [Node.spell_of_elements hk hc, value, hk]
    dsimp only
    rw [if_neg (by simpa using hc), bind_of_ok (mapM_of_unchanged ih)]
    rfl

/-- In the output, a value is spelled with its references as they are emitted. -/
lemma value_emit_of_spelled (h : node.Spelled L R) (c : Context) :
    value .emit node c = .ok (node.spell c.emitted) c :=
  value_of_spelled h fun text _ => reference_emit c text

end Render

end Stylesheet
