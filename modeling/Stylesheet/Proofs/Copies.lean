import Stylesheet.Proofs.Blocks
import Stylesheet.Proofs.Position
import Stylesheet.Proofs.Template

/-!
# Copies of a block of rules

A copy of a tree has other texts in it. `Body.Rel` relates the blocks that a tree and its copy
write, text by text; their rules without their nesting are then related as well. For the copy that
puts a value in the place of the placeholders of a name, what is written for a rule and its copy is
alike.
-/

namespace Stylesheet

/-- A tree with something else for every text. -/
def Node.mapTexts (f : String → String) (node : Node) : Node :=
  { node with text := f node.text, children := node.children.map (mapTexts f) }
termination_by sizeOf node
decreasing_by exact sizeOf_lt_of_mem ‹_›

/-- Whether all texts in a tree pass a test. -/
def Node.allTexts (p : String → Bool) (node : Node) : Bool := node.every fun n => p n.text

namespace Node

variable (f : String → String) (node : Node)

/-- A change of the texts keeps the kind of a node. -/
@[simp] lemma kind_mapTexts : (node.mapTexts f).kind = node.kind := by
  rw [mapTexts]

/-- A change of the texts changes the text of a node. -/
@[simp] lemma text_mapTexts : (node.mapTexts f).text = f node.text := by
  rw [mapTexts]

/-- A change of the texts is one of what is below a node. -/
@[simp] lemma children_mapTexts :
    (node.mapTexts f).children = node.children.map (mapTexts f) := by
  rw [mapTexts]

end Node

namespace Body

/-- A block with something else for every text. -/
def map (f : String → String) : Body → Body
  | nil => nil
  | declaration property value rest => .declaration (f property) (f value) (rest.map f)
  | rule selector inner rest => .rule (f selector) (inner.map f) (rest.map f)

/-- The rules that stand directly in a block at a path. -/
def outer (path : List String) : Body → List FlatRule
  | nil => []
  | declaration _ _ rest => rest.outer path
  | rule selector inner rest => ⟨path ++ [selector], inner.declarations⟩ :: rest.outer path

/-- The rules inside the rules of a block at a path, each after the rules inside it. -/
def inner (path : List String) : Body → List FlatRule
  | nil => []
  | declaration _ _ rest => rest.inner path
  | rule selector inner rest => inner.closing (path ++ [selector]) ++ rest.inner path

end Body

/-- Two lists of declarations, related text by text, the values in a way of their own. -/
abbrev DeclarationsRel (R V : String → String → Prop) :
    List (String × String) → List (String × String) → Prop :=
  List.Forall₂ fun d d' => R d.1 d'.1 ∧ V d.2 d'.2

/-- Two blocks, related text by text, the values in a way of their own. -/
inductive Body.Rel (R V : String → String → Prop) : Body → Body → Prop where
  | nil :
    Rel R V .nil .nil
  | declaration {property property' value value' rest rest'} :
    R property property' →
    V value value' →
    Rel R V rest rest' →
    Rel R V (.declaration property value rest) (.declaration property' value' rest')
  | rule {selector selector' inner inner' rest rest'} :
    R selector selector' →
    Rel R V inner inner' →
    Rel R V rest rest' →
    Rel R V (.rule selector inner rest) (.rule selector' inner' rest')

/-- Two rules, related text by text, the values in a way of their own. -/
structure FlatRule.Rel (R V : String → String → Prop) (r r' : FlatRule) : Prop where
  path : List.Forall₂ R r.path r'.path
  declarations : DeclarationsRel R V r.declarations r'.declarations

namespace Body.Rel

variable {R V : String → String → Prop} {body body' : Body} {path path' : List String}

/-- The declarations of bodies that are related are related. -/
lemma declarations (h : Rel R V body body') :
    DeclarationsRel R V body.declarations body'.declarations := by
  induction h with
  | nil => exact .nil
  | declaration hp hv _ ih => exact .cons ⟨hp, hv⟩ ih
  | rule _ _ _ _ ih => exact ih

/-- Bodies that are related nest as deep as each other. -/
lemma nesting (h : Rel R V body body') : body'.nesting = body.nesting := by
  induction h with
  | nil => rfl
  | declaration _ _ _ ih => simp only [Body.nesting, ih]
  | rule _ _ _ ihi ih => simp only [Body.nesting, ihi, ih]

/-- The rules in bodies that are related are related in the order in which they close. -/
lemma closing (h : Rel R V body body') (hp : List.Forall₂ R path path') :
    List.Forall₂ (FlatRule.Rel R V) (body.closing path) (body'.closing path') := by
  induction h generalizing path path' with
  | nil => exact .nil
  | declaration _ _ _ ih => exact ih hp
  | rule hs hi _ ihi ih =>
    have hps := List.rel_append hp (List.Forall₂.cons hs .nil)
    exact List.rel_append (ihi hps) (.cons ⟨hps, hi.declarations⟩ (ih hp))

/-- The outer rules of bodies that are related are related. -/
lemma outer (h : Rel R V body body') (hp : List.Forall₂ R path path') :
    List.Forall₂ (FlatRule.Rel R V) (body.outer path) (body'.outer path') := by
  induction h with
  | nil => exact .nil
  | declaration _ _ _ ih => exact ih
  | rule hs hi _ _ ih =>
    exact .cons ⟨List.rel_append hp (List.Forall₂.cons hs .nil), hi.declarations⟩ ih

/-- The inner rules of bodies that are related are related. -/
lemma inner (h : Rel R V body body') (hp : List.Forall₂ R path path') :
    List.Forall₂ (FlatRule.Rel R V) (body.inner path) (body'.inner path') := by
  induction h with
  | nil => exact .nil
  | declaration _ _ _ ih => exact ih
  | rule hs hi _ _ ih =>
    exact List.rel_append (hi.closing (List.rel_append hp (List.Forall₂.cons hs .nil))) ih

/-- The flattened rules of bodies that are related are related. -/
lemma flattened (h : Rel R V body body') :
    List.Forall₂ (FlatRule.Rel R V) body.flattened body'.flattened := by
  induction h with
  | nil => exact .nil
  | declaration _ _ _ ih => exact ih
  | rule hs hi _ _ ih =>
    have hp := List.Forall₂.cons hs .nil
    exact .cons ⟨hp, hi.declarations⟩ (List.rel_append (hi.closing hp) ih)

/-- Texts that are related to what a function gives are mapped by it. -/
lemma eq_map {f : String → String} (hf : ∀ {s t}, R s t → f s = t) (h : Rel R R body body') :
    body' = body.map f := by
  induction h with
  | nil => rfl
  | declaration hp hv _ ih => simp only [Body.map, hf hp, hf hv, ih]
  | rule hs _ _ ihi ih => simp only [Body.map, hf hs, ihi, ih]

end Body.Rel

/-- The selectors of two groups are related if their texts are, by a relation that looks at the
texts no closer than selectors do. -/
lemma rel_selectorText {R : String → String → Prop} {group group' : Node}
    (he : ∀ {s t}, R s t → (s = "" ↔ t = ""))
    (hs : ∀ {s t texts texts'}, R s t → List.Forall₂ R texts texts' →
      R (", ".intercalate (s :: texts)) (", ".intercalate (t :: texts')))
    (hc : List.Forall₂ R (group.children.map fun s => Text.trim s.text)
      (group'.children.map fun s => Text.trim s.text))
    (ht : R (Text.trim group.text) (Text.trim group'.text)) :
    R group.selectorText group'.selectorText := by
  have written := List.rel_filter (p := (· ≠ "")) (q := (· ≠ ""))
    (fun s t hst => by simpa using (he hst).not) hc
  unfold Node.selectorText
  generalize (group.children.map fun s => Text.trim s.text).filter (· ≠ "") = selectors
    at written ⊢
  generalize List.filter (· ≠ "") _ = selectors' at written ⊢
  cases written with
  | nil => exact ht
  | cons first rest => exact hs first rest

/-! ### Filling placeholders -/

open Text

/-- A text, and what becomes of it when a value is put in the place of the placeholders of a name.
No brace is left then. -/
structure Fills (name value s t : String) : Prop where
  alike : Alike (fun _ : Unit => (placeholder name).toList) (fun _ => value.toList) s t
  unbraced : Over unbraced t

/-- What a relation says of its second side holds of a list that is related to another. -/
lemma forall_mem_of_forall₂ {α β : Type} {R : α → β → Prop} {P : β → Prop} {as : List α}
    {bs : List β} (hP : ∀ {a b}, R a b → P b) (h : List.Forall₂ R as bs) : ∀ b ∈ bs, P b :=
  ((List.forall₂_and_left bs as).1 (h.flip.imp fun _ _ hr => ⟨hP hr, hr⟩)).1

/-- A slot is filled in texts one after the other by filling it in each. -/
lemma fills_intercalate {name value sep : String} {texts texts' : List String}
    (hs : '$' ∉ sep.toList) (hu : Over Text.unbraced sep)
    (h : List.Forall₂ (Fills name value) texts texts') :
    Fills name value (sep.intercalate texts) (sep.intercalate texts') where
  alike := .intercalate hs (h.imp fun _ _ ht => ht.alike)
  unbraced := over_intercalate hu (forall_mem_of_forall₂ Fills.unbraced h)

/-- A name and a value that can stand for each other in selectors. -/
structure Fillable (name value : String) : Prop where
  sigil : ∃ word, name.toList = '$' :: word
  solidName : Solid (placeholder name).toList
  solidValue : Solid value.toList
  unbraced : Over unbraced value

namespace Fillable

variable {name value : String} (h : Fillable name value)
include h

/-- Interpolating a value fills the slots of a text. -/
lemma fills_interpolate {s : String} (hs : isSlotted name s = true) :
    Fills name value s (interpolate s name value) := by
  obtain ⟨word, hn⟩ := h.sigil
  refine ⟨alike_interpolate hn hs value, fun c hc => ⟨?_, ?_⟩⟩
  · rintro rfl
    exact not_mem_interpolate hn hs (by decide) (fun hv => (h.unbraced _ hv).1 rfl) hc
  · rintro rfl
    exact not_mem_interpolate hn hs (by decide) (fun hv => (h.unbraced _ hv).2 rfl) hc

/-- What fills the slots of a text is its interpolation. -/
lemma interpolate_eq {s t : String} (ht : Fills name value s t) : interpolate s name value = t := by
  obtain ⟨word, hn⟩ := h.sigil
  exact ht.alike.interpolate_eq hn

/-- Filling a slot leaves the blanks at the ends. -/
lemma fills_trim {s t : String} (ht : Fills name value s t) : Fills name value (trim s) (trim t) :=
  ⟨ht.alike.trim (fun _ => h.solidName) fun _ => h.solidValue, ht.unbraced.trim⟩

/-- The selector of a copy is filled as the selector of a rule is. -/
lemma fills_selectorText {group : Node} (hg : group.allTexts (isSlotted name) = true) :
    Fills name value group.selectorText
      (group.mapTexts fun s => interpolate s name value).selectorText := by
  have texts : List.Forall₂ (Fills name value) (group.children.map fun s => trim s.text)
      ((group.mapTexts fun s => interpolate s name value).children.map fun s => trim s.text) := by
    rw [Node.children_mapTexts, List.map_map, List.forall₂_map_left_iff,
      List.forall₂_map_right_iff, List.forall₂_same]
    intro child hc
    simp only [Function.comp_apply, Node.text_mapTexts]
    exact h.fills_trim (h.fills_interpolate (Node.every_self (Node.every_child hg hc)))
  refine rel_selectorText ?_ (fun h' h => fills_intercalate (by decide) ?_ (.cons h' h)) texts ?_
  · exact fun {s t} hst => hst.alike.eq_empty_iff (fun _ => h.solidName) fun _ => h.solidValue
  · exact ample_unbraced.over_of_isPlain rfl
  · rw [Node.text_mapTexts]
    exact h.fills_trim (h.fills_interpolate (Node.every_self hg))

/-- A copy writes a block in which every text is filled. -/
lemma written_copy {nodes : List Node} {body : Body} (hb : Written nodes body)
    (hs : ∀ node ∈ nodes, node.allTexts (isSlotted name) = true) :
    ∃ body', Written (nodes.map (Node.mapTexts fun s => interpolate s name value)) body' ∧
      Body.Rel (Fills name value) (Fills name value) body body' := by
  induction hb with
  | nil => exact ⟨.nil, .nil, .nil⟩
  | @declaration node property literal nodes rest hn _ ih =>
    rw [List.forall_mem_cons] at hs
    obtain ⟨rest', hw, hr⟩ := ih hs.2
    have hp := Node.every_self (Node.every_child hs.1 (List.mem_of_getElem? hn.name_at))
    have hv := Node.every_self (Node.every_child hs.1 (List.mem_of_getElem? hn.value_at))
    have hn' : (node.mapTexts fun s => interpolate s name value).IsDeclaration
        (property.mapTexts fun s => interpolate s name value)
        (literal.mapTexts fun s => interpolate s name value) := by
      constructor <;>
        simp [hn.kind, hn.name_at, hn.name_kind, hn.value_at, hn.value_kind]
    refine ⟨_, .declaration hn' hw, ?_⟩
    rw [Node.text_mapTexts, Node.text_mapTexts]
    exact .declaration (h.fills_trim (h.fills_interpolate hp))
      (h.fills_trim (h.fills_interpolate hv)) hr
  | @rule node group block nodes inner rest hn _ _ ihi ih =>
    rw [List.forall_mem_cons] at hs
    obtain ⟨rest', hw, hr⟩ := ih hs.2
    have hblock := Node.every_child hs.1 (List.mem_of_getElem? hn.block_at)
    obtain ⟨inner', hwi, hri⟩ := ihi fun node hm => Node.every_child hblock hm
    have hn' : (node.mapTexts fun s => interpolate s name value).IsRule
        (group.mapTexts fun s => interpolate s name value)
        (block.mapTexts fun s => interpolate s name value) := by
      constructor <;>
        simp [hn.kind, hn.group_at, hn.group_kind, hn.block_at, hn.block_kind]
    refine ⟨_, .rule hn' (by rwa [Node.children_mapTexts]) hw, .rule ?_ hri hr⟩
    exact h.fills_selectorText
      (Node.every_child hs.1 (List.mem_of_getElem? hn.group_at))

end Fillable

/-- The block of a rule: its selector without the blanks around it, and the text between its
braces. -/
def FlatRule.asBlock (indent : String) (r : FlatRule) : String × String :=
  (trim (Selector.chain r.path), FlatRule.lines indent r.declarations ++ "\n")

namespace FlatRule.Rel

variable {name value indent indent' : String} {r r' : FlatRule}

/-- What is written for a rule and its copy is alike. -/
lemma alike_fragment (hf : Fillable name value)
    (hi : Alike (fun _ : Unit => (placeholder name).toList) (fun _ => value.toList) indent indent')
    (h : FlatRule.Rel (Fills name value) (Fills name value) r r') :
    Alike (fun _ : Unit => (placeholder name).toList) (fun _ => value.toList) (r.fragment indent)
      (r'.fragment indent') := by
  have plain {s : String} (hs : '$' ∉ s.toList) :
      Alike (fun _ : Unit => (placeholder name).toList) (fun _ => value.toList) s s :=
    .refl_of_not_mem hs
  have lines : Alike (fun _ : Unit => (placeholder name).toList) (fun _ => value.toList)
      (lines indent r.declarations) (lines indent' r'.declarations) := by
    refine .join ?_
    rw [List.forall₂_map_left_iff, List.forall₂_map_right_iff]
    refine h.declarations.imp fun d d' hd => ?_
    exact ((((plain (by decide)).append hi).append hd.1.alike).append
      (plain (by decide)) |>.append hd.2.alike).append (plain (by decide))
  have chain := Alike.chain (fun _ => hf.solidName) (fun _ => hf.solidValue)
    (h.path.imp fun _ _ ht => ht.alike)
  exact (chain.block lines).append (plain (by decide))

/-- A rule whose texts hold no brace is written as one block. -/
lemma blocked_fragment (hi : Over unbraced indent)
    (h : FlatRule.Rel (Fills name value) (Fills name value) r r') :
    Blocked [r'.asBlock indent] (r'.fragment indent) := by
  have plain {s : String} (hs : isPlain s = true) : Over unbraced s :=
    ample_unbraced.over_of_isPlain hs
  have texts : ∀ d ∈ r'.declarations, Over unbraced d.1 ∧ Over unbraced d.2 :=
    forall_mem_of_forall₂ (fun hd => ⟨hd.1.unbraced, hd.2.unbraced⟩) h.declarations
  have lines : Over unbraced (lines indent r'.declarations ++ "\n") := by
    refine over_append.2 ⟨over_join fun t ht => ?_, plain rfl⟩
    obtain ⟨d, hd, rfl⟩ := List.mem_map.1 ht
    obtain ⟨hp, hv⟩ := texts d hd
    simp only [over_append]
    exact ⟨⟨⟨⟨⟨plain rfl, hi⟩, hp⟩, plain rfl⟩, hv⟩, over_semicolon⟩
  have chain := over_chain ample_unbraced (forall_mem_of_forall₂ Fills.unbraced h.path)
  have block := Blocked.block chain lines (.blank blank_newlines)
  simp only [fragment, text, Selector.block, String.append_assoc] at block ⊢
  exact block

/-- The blanks that a rule loses when it has to wait are not part of its block. -/
lemma blocked_written (hi : Over unbraced indent)
    (h : FlatRule.Rel (Fills name value) (Fills name value) r r') :
    Blocked [r'.asBlock indent] (r'.written indent ++ "\n\n") := by
  have hb := h.blocked_fragment hi
  unfold written
  split
  · exact hb
  · rw [← trim_append blank_newlines]
    exact hb.trim.append (.blank blank_newlines)

end FlatRule.Rel

end Stylesheet
