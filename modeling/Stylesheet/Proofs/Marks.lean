import Stylesheet.Compiler
import Stylesheet.Node.Build
import Stylesheet.Proofs.Capturing
import Stylesheet.Proofs.Course
import Stylesheet.Proofs.Position
import Stylesheet.Proofs.Slots
import Stylesheet.Proofs.Wording

/-!
# No parent mark is left

A rule is placed under the rules around it, where its parent marks are replaced by their selector. A
rule of a mixin waits for that until the mixin is included, and is then placed by the text before
its first brace. `Node.placesRules` says of a mixin that this text has all its marks. In a document
whose mixins pass this check, and whose marks are in selectors, no mark is left:
`Compiler.parent_marks_are_replaced`. A mark behind a placeholder of a loop is not found:
`Compiler.mark_behind_placeholder_is_left`.
-/

namespace Stylesheet

open Text
open Selector (parentMark)

/-! ### Trees -/

namespace Node

/-- The node is there for the statements in it. -/
def holdsStatements (node : Node) : Bool :=
  node.kind ∈ [.stylesheet, .block, .rule, .mixinDeclaration, .forLoop, .eachLoop, .conditional,
    .elseIf, .otherwise]

/-- The texts of a tree, selectors aside, are over alphabets: those of declarations are over the
first, and all other names, values and arguments over the second. What a loop runs over is a value,
whatever its kind. -/
def isWorded (lines values : Char → Bool) (node : Node) : Bool :=
  if node.holdsStatements then
    (node.kind != .eachLoop || node.children.dropLast.all (·.isOver values)) &&
      node.children.attach.all fun ⟨child, _⟩ => child.isWorded lines values
  else
    match node.kind with
    | .selectorGroup => true
    | .declaration => node.children.all (·.isOver lines)
    | .variableDeclaration | .includeDeclaration => node.children.all (·.isOver values)
    | _ => node.isOver values
termination_by sizeOf node
decreasing_by exact sizeOf_lt_of_mem ‹_›

/-- The rules of a statement in a mixin can be placed. The text of a rule up to its first brace has
all its parent marks, and a rule that includes a mixin has marks or braces but not both, slots of
parameters aside. -/
def isPlaceable (names : List String) (site : Render.Site) (node : Node) : Bool :=
  match node.kind with
  | .rule =>
    match node.children[0]?, _h : node.children[1]? with
    | some group, some block =>
      isLed names (site.compose group.selectorText) &&
        block.children.attach.all fun ⟨child, _⟩ =>
          child.isPlaceable names (.rule (site.compose group.selectorText))
    | _, _ => true
  | .includeDeclaration =>
    match site with
    | .body => true
    | .rule selector => isSettled names selector
  | _ => true
termination_by sizeOf node
decreasing_by
  have := sizeOf_lt_of_mem ‹child ∈ block.children›
  have := sizeOf_lt_of_mem (List.mem_of_getElem? _h)
  omega

/-- If the node is a mixin, its rules can be placed wherever it is included. -/
def placesRules (node : Node) : Bool :=
  node.kind != .mixinDeclaration ||
    node.ownNames.all (·.toList.tail.all isIdentifier) &&
      node.children.all fun block =>
        block.kind != .block || block.children.all (·.isPlaceable node.ownNames .body)

/-- The texts of a node are over the alphabets, and its mixins place their rules. -/
structure IsClear (node : Node) : Prop where
  worded : node.isWorded isUnmarked isBare = true
  places : node.every placesRules = true

namespace IsClear

variable {node other : Node}

/-- What is below a node that is there for its statements is clear. -/
lemma child (h : node.IsClear) (hs : node.holdsStatements = true) (hc : other ∈ node.children) :
    other.IsClear := by
  refine ⟨?_, every_child h.places hc⟩
  have hw := h.worded
  rw [isWorded, if_pos hs, Bool.and_eq_true, List.all_eq_true] at hw
  exact hw.2 ⟨other, hc⟩ (List.mem_attach _ _)

/-- The texts of the name of a loop, and of parameters. -/
lemma over_bare (h : node.IsClear) (hk : node.kind = .reference ∨ node.kind = .parameters) :
    node.Over (isBare ·) := by
  have hw := h.worded
  rw [isWorded] at hw
  refine over_of_isOver (fun _ => id) node ?_
  rcases hk with hk | hk <;> simpa [holdsStatements, hk] using hw

/-- The texts of a declaration. -/
lemma over_line (h : node.IsClear) (hk : node.kind = .declaration) (hc : other ∈ node.children) :
    other.Over (isUnmarked ·) := by
  have hw := h.worded
  rw [isWorded] at hw
  have hall : ∀ child ∈ node.children, child.isOver isUnmarked = true := by
    simpa [holdsStatements, hk] using hw
  exact over_of_isOver (fun _ => id) other (hall other hc)

/-- The texts of a declaration of a variable, and of an inclusion. -/
lemma over_value (h : node.IsClear)
    (hk : node.kind = .variableDeclaration ∨ node.kind = .includeDeclaration)
    (hc : other ∈ node.children) : other.Over (isBare ·) := by
  have hw := h.worded
  rw [isWorded] at hw
  have hall : ∀ child ∈ node.children, child.isOver isBare = true := by
    rcases hk with hk | hk <;> simpa [holdsStatements, hk] using hw
  exact over_of_isOver (fun _ => id) other (hall other hc)

/-- The texts of what a loop runs over. -/
lemma over_source (h : node.IsClear) (hk : node.kind = .eachLoop)
    (hc : other ∈ node.children.dropLast) : other.Over (isBare ·) := by
  have hw := h.worded
  rw [isWorded] at hw
  have hall : ∀ child ∈ node.children.dropLast, child.isOver isBare = true := by
    simp only [holdsStatements, hk] at hw
    simp at hw
    exact hw.1
  exact over_of_isOver (fun _ => id) other (hall other hc)

/-- The statements of a block that is entered are clear. -/
lemma entered {body : Node} {via : List Node} {c m : Context} (h : node.IsClear)
    (he : Render.Enters node c via body m) (hc : other ∈ body.children) : other.IsClear := by
  have holds {n : Node} (hk : n.kind = .rule ∨ n.kind = .conditional ∨ n.kind = .elseIf ∨
      n.kind = .otherwise ∨ n.kind = .block) : n.holdsStatements = true := by
    obtain hk | hk | hk | hk | hk := hk <;> simp [holdsStatements, hk]
  have hbody : body.IsClear := by
    cases he with
    | rule hn => exact h.child (holds (.inl hn.kind)) (List.mem_of_getElem? hn.block_at)
    | round hu =>
      have hl := hu.loopNames.isLoop
      refine h.child ?_ hu.mem_children
      rw [isLoop] at hl
      cases hk : node.kind <;> simp_all [holdsStatements]
    | firstBranch hk _ hb => exact h.child (holds (by simp [hk])) (List.mem_of_getElem? hb)
    | @elseIf guard first passed branch rest other _ _ _ hk _ _ _ _ hs _ _ _ hb =>
      have hm : branch ∈ node.filter .elseIf := by simp [hs]
      have hbranch := h.child (holds (by simp [hk])) (mem_of_mem_filter hm)
      exact hbranch.child (holds (by simp [Render.kind_of_mem_filter hm]))
        (List.mem_of_getElem? hb)
    | @otherwise guard first branch _ _ _ hk _ _ _ _ _ ho hb =>
      have hbk : branch.kind = .otherwise := by simpa using List.find?_some ho
      have hbranch := h.child (holds (by simp [hk])) (mem_of_find?_eq_some ho)
      exact hbranch.child (holds (by simp [hbk])) (List.mem_of_getElem? hb)
  exact hbody.child (holds (by simp [he.kind_block])) hc

end IsClear

/-- The names of a loop stand before its block. -/
lemma LoopNames.exists_source {node : Node} {names : List String} (h : node.LoopNames names)
    (hk : node.kind = .eachLoop) :
    ∀ name ∈ names, ∃ source ∈ node.children.dropLast, name = Variable.sigilName source.text := by
  have front {i : Nat} {source : Node} (hi : i + 1 < node.children.length)
      (hs : node.children[i]? = some source) : source ∈ node.children.dropLast := by
    refine List.mem_of_getElem? (i := i) ?_
    rw [List.getElem?_dropLast, if_pos (by omega), hs]
  intro name hn
  cases h with
  | counter hf =>
    rw [hk] at hf
    cases hf
  | item _ hl hi => exact ⟨_, front (by omega) hi, List.mem_singleton.1 hn⟩
  | entry _ hl hkey hi =>
    rcases List.mem_pair.1 hn with rfl | rfl
    · exact ⟨_, front (by omega) hkey, rfl⟩
    · exact ⟨_, front (by omega) hi, rfl⟩

/-- A rule that can be placed has a selector that can be, and so have the rules in it. -/
lemma isPlaceable_rule {node group block : Node} {names : List String} {site : Render.Site}
    (hr : node.IsRule group block) (h : node.isPlaceable names site = true) :
    isLed names (site.compose group.selectorText) = true ∧ ∀ child ∈ block.children,
      child.isPlaceable names (.rule (site.compose group.selectorText)) = true := by
  rw [isPlaceable.eq_def, hr.kind] at h
  dsimp only at h
  split at h
  · next found body hg hb =>
    cases hr.group_at.symm.trans hg
    cases hr.block_at.symm.trans hb
    rw [Bool.and_eq_true, List.all_eq_true] at h
    exact ⟨h.1, fun child hc => h.2 ⟨child, hc⟩ (List.mem_attach _ _)⟩
  · next hnone => exact (hnone group block hr.group_at hr.block_at).elim

/-- The names of parameters that are written as identifiers are names. -/
lemma isName_of_ownNames {node : Node} (h : node.ownNames.all (·.toList.tail.all isIdentifier)) :
    ∀ name ∈ node.ownNames, IsName name := by
  intro name hn
  have hi := List.all_eq_true.1 (List.all_eq_true.1 h name hn)
  obtain ⟨-, -, -, -, reference, -, rfl⟩ := exists_of_mem_ownNames hn
  rw [toList_sigilName] at hi
  exact ⟨_, toList_sigilName _, hi⟩

end Node

/-! ### Mixins -/

/-- No line of a mixin has parent marks, and its rules have them in front of all braces,
placeholders of names aside. -/
structure Fragments.Clear (N : String → Prop) (body : Fragments) : Prop where
  direct : ∀ line ∈ body.direct, Over (isUnmarked ·) line
  deferred : ∀ rule ∈ body.deferred, Led N rule.toList ∧ Opens rule.toList

/-- A mixin can be included anywhere. -/
structure Mixin.Clear (m : Mixin) : Prop where
  parameters : m.parameters.Sorted IsName (Over (isBare ·))
  body : m.body.Clear (· ∈ m.parameters.names)

/-- Indented lines are none or start on a line of their own. -/
lemma Fragments.indented_cases (indent : String) (lines : List String) :
    Fragments.indented indent lines = "" ∨
      ∃ rest, Fragments.indented indent lines = "\n" ++ rest := by
  cases lines with
  | nil => exact .inl rfl
  | cons line lines =>
    refine .inr ⟨indent ++ line ++ Fragments.indented indent lines, ?_⟩
    simp [Fragments.indented, String.append_assoc]

namespace Mixin

variable {m : Mixin} {mixin : String} {args : List String} {bindings : List (String × String)}
  {fragments : Fragments}

/-- The names that are bound are those of the parameters. -/
lemma map_fst_of_bind (h : m.bind mixin args = .ok bindings) :
    bindings.map Prod.fst = m.parameters.names := by
  cases hp : m.parameters with
  | fixed names defaults => exact (bind_eq_ok_of_fixed hp h).1
  | variadic name =>
    rw [Mixin.bind, hp] at h
    cases h
    rfl

/-- A name has no parent mark. -/
lemma over_isName {name : String} (hn : IsName name) : Over (isUnmarked ·) name := by
  obtain ⟨word, hw, hi⟩ := hn
  rw [over_isUnmarked_iff, hw]
  simpa using ⟨by decide, not_mem_of_isIdentifier hi (by decide)⟩

end Mixin

namespace Render

/-- Including a mixin substitutes all its parameters, so that marks are in front of all braces. -/
lemma clear_expandMixin {mixins : MixinTable} {node : Node} {args : List String}
    {fragments : Fragments} (hm : ∀ e ∈ mixins.entries, e.2.Clear)
    (ha : ∀ arg ∈ args, Over (isBare ·) arg) (h : expandMixin mixins node args = .ok fragments) :
    fragments.Clear fun _ => False := by
  obtain ⟨name, m, bindings, -, hg, hb, rfl⟩ := exists_of_expandMixin h
  have hm := hm _ (Registry.mem_of_get? hg)
  have hcomma : Over (isBare ·) ", " := ample_isBare.over_of_isPlain rfl
  have hbound := Mixin.forall_of_bind hm.parameters ha (over_intercalate hcomma ha) hb
  have hnames := Mixin.map_fst_of_bind hb
  refine ⟨fun line hl => ?_, fun rule hr => ?_⟩
  · obtain ⟨source, hs, rfl⟩ := List.mem_map.1 hl
    refine Mixin.substituteAll_keeps (fun b hm t ht => ?_) (hm.body.direct source hs)
    obtain ⟨word, hw, -⟩ := (hbound b hm).1
    refine ht.substitute hw (Mixin.over_isName (hbound b hm).1) fun c hc => ?_
    exact isUnmarked_of_isBare c ((hbound b hm).2 c hc)
  · obtain ⟨source, hs, rfl⟩ := List.mem_map.1 hr
    obtain ⟨hled, hopens⟩ := hm.body.deferred source hs
    refine ⟨hled.substituteAll (fun name hn => ?_) hbound, ?_⟩
    · rw [← hnames] at hn
      obtain ⟨b, hb, rfl⟩ := List.mem_map.1 hn
      exact ⟨(hbound b hb).1, hn⟩
    · exact Mixin.substituteAll_keeps (P := fun t => Opens t.toList)
        (fun b hm t ht => ht.substitute (hbound b hm).1) hopens

/-- A semicolon is no parent mark. -/
lemma over_unmarked_semicolon : Over (isUnmarked ·) ";" := over_isUnmarked_iff.2 (by decide)

/-- A block has no parent marks, if its selector and its lines have none. -/
lemma over_block {selector body : String} (hs : Over (isUnmarked ·) selector)
    (hb : Over (isUnmarked ·) body) : Over (isUnmarked ·) (Selector.block selector body) := by
  refine over_append.2 ⟨over_append.2 ⟨over_append.2 ⟨hs, ?_⟩, hb⟩, ?_⟩
  · exact over_isUnmarked_iff.2 (by decide)
  · exact over_isUnmarked_iff.2 (by decide)

/-- The name of a declaration has no parent marks. -/
lemma over_propertyName {node : Node} {property : String} (hc : node.IsClear)
    (hk : node.kind = .declaration) (h : node.name = .ok property) :
    Over (isUnmarked ·) property := by
  obtain ⟨identifier, hm, rfl⟩ := Node.exists_of_name h
  exact (hc.over_line hk hm).text.trim

/-- A rule that includes a mixin can have its rules placed under it. -/
lemma isSettled_of_isPlaceable {node : Node} {names : List String} {site : Site}
    (hk : node.kind = .includeDeclaration) (h : node.isPlaceable names site = true) :
    ∀ selector, site = .rule selector → isSettled names selector = true := by
  rintro selector rfl
  rw [Node.isPlaceable, hk] at h
  exact h

/-- The rules of an included mixin are placed where the inclusion stands. -/
lemma clear_place {names : List String} {found : Fragments} {site : Site}
    (hn : ∀ name ∈ names, IsName name) (h : found.Clear fun _ => False)
    (hs : ∀ selector, site = .rule selector → isSettled names selector = true) :
    (site.place found).Clear (· ∈ names) := by
  cases site with
  | body =>
    refine ⟨h.direct, fun rule hr => ⟨?_, (h.deferred rule hr).2⟩⟩
    exact (h.deferred rule hr).1.mono (fun _ => False.elim) fun _ => id
  | rule selector =>
    have hsettled := hs selector rfl
    have hp : parentMark ∉ selector.toList ∨ Slotted (· ∈ names) (· = []) selector.toList := by
      rw [isSettled, Bool.or_eq_true] at hsettled
      refine hsettled.imp (fun hm => ?_) fun hb => ?_
      · exact mark_not_mem_of_unslotted hn (by simpa using hm)
      · exact slotted_of_unslotted hn (by simpa using hb)
    refine ⟨h.direct, fun rule hr => ?_⟩
    obtain ⟨source, hm, rfl⟩ := List.mem_map.1 hr
    exact Selector.led_place hp (h.deferred source hm).1 (h.deferred source hm).2

/-- What is captured of a statement that can be placed has its marks in front of all braces. -/
lemma captures_clear {mixins : MixinTable} {indent : String} {names : List String}
    (hn : ∀ name ∈ names, IsName name) (hi : Over (isUnmarked ·) indent)
    (hm : ∀ e ∈ mixins.entries, e.2.Clear) :
    Captures mixins indent fun site node fragments => node.IsClear →
      node.isPlaceable names site = true → fragments.Clear (· ∈ names) where
  declaration hk h hc _ := by
    obtain ⟨property, item, hp, hitem, rfl⟩ := exists_of_rawDeclaration h
    refine ⟨List.forall_mem_singleton.2 ?_, by simp⟩
    exact over_line ample_isUnmarked over_unmarked_semicolon (over_propertyName hc hk hp)
      (hc.over_line hk (List.mem_of_getElem? hitem)).text.trim
  rule {site node group block parts} hr h hc hp := by
    obtain ⟨hled, hbelow⟩ := Node.isPlaceable_rule hr hp
    have hblock := hc.child (by simp [Node.holdsStatements, hr.kind])
      (List.mem_of_getElem? hr.block_at)
    have hchild (child : Node) (hch : child ∈ block.children) : child.IsClear :=
      hblock.child (by simp [Node.holdsStatements, hr.block_kind]) hch
    have hlines : ∀ line ∈ parts.flatMap Fragments.direct, Over (isUnmarked ·) line :=
      forall_mem_flatMap h fun child hch _ hpart =>
        (hpart (hchild child hch) (hbelow child hch)).direct
    refine ⟨by simp, List.forall_mem_cons.2 ⟨⟨?_, ?_⟩, ?_⟩⟩
    · refine Selector.led_block (led_of_isLed hn hled) ?_
      exact over_isUnmarked_iff.1 (over_indented ample_isUnmarked hi hlines)
    · exact Selector.opens_block (Fragments.indented_cases indent _)
    · exact forall_mem_flatMap h fun child hch _ hpart =>
        (hpart (hchild child hch) (hbelow child hch)).deferred
  inclusion hk h hc hp := by
    refine clear_place hn (clear_expandMixin hm (fun arg ha => ?_) h)
      (isSettled_of_isPlaceable hk hp)
    obtain ⟨given, hg, rfl⟩ := List.mem_map.1 ha
    obtain ⟨holder, hh, hg⟩ := Node.mem_children_of_mem_arguments hg
    exact ((hc.over_value (.inr hk) hh).child hg).text.trim

end Render

/-! ### States -/

/-- No parent mark is in what has been read and what waits, but in the rules of mixins. -/
structure Context.Clear (c : Context) : Prop where
  symbols : ∀ e ∈ c.symbols.entries, Text.Over (isBare ·) e.1 ∧ e.2.value.Over (isBare ·)
  bound : ∀ name ∈ c.bound, Text.Over (isBare ·) name
  indent : Text.Over (isUnmarked ·) c.options.indent
  rootSelector : Text.Over (isUnmarked ·) c.options.rootSelector
  mixins : ∀ e ∈ c.mixins.entries, e.2.Clear
  queue : ∀ fragment ∈ c.queue, Text.Over (isUnmarked ·) fragment

namespace Context.Clear

variable {c : Context}

/-- What is in scope has neither marks nor braces. -/
lemma chars (h : c.Clear) : c.Over (isBare ·) := ⟨h.symbols, h.bound⟩

/-- What is in scope has no marks. -/
lemma unmarked (h : c.Clear) : c.Over (isUnmarked ·) := h.chars.mono isUnmarked_of_isBare

/-- One level deeper. -/
lemma descend (h : c.Clear) : c.descend.Clear := { h with }

/-- Texts without marks may wait. -/
lemma enqueue {fragments : List String} (h : c.Clear)
    (hf : ∀ fragment ∈ fragments, Text.Over (isUnmarked ·) fragment) :
    Context.Clear { c with queue := c.queue ++ fragments } :=
  { h with queue := List.forall_mem_append.2 ⟨h.queue, hf⟩ }

/-- A mixin is declared that can be included anywhere. -/
lemma define (name : String) {m : Mixin} (h : c.Clear) (hm : m.Clear) :
    Context.Clear { c with mixins := c.mixins.insert name m } :=
  { h with
    mixins := by
      intro e he
      rcases Registry.mem_insert he with rfl | he
      · exact hm
      · exact h.mixins e he }

/-- What need not wait any longer has no marks. -/
lemma flush (h : c.Clear) :
    (∀ fragment ∈ c.flush.1, Text.Over (isUnmarked ·) fragment) ∧ c.flush.2.Clear := by
  unfold Context.flush
  split
  · exact ⟨by simp, h⟩
  · exact ⟨h.queue, { h with queue := by simp }⟩

end Context.Clear

namespace Render

/-! ### Statements -/

/-- A statement of a clear document renders to text without marks. -/
def Clears (node : Node) (c : Context) (text : String) (c' : Context) : Prop :=
  node.IsClear → c.Clear → c'.Clear ∧ Over (isUnmarked ·) text

section

variable {node body group : Node} {via : List Node} {c m c' : Context} {text : String}

/-- A declaration renders to a line without marks. -/
lemma clears_declaration (hk : node.kind = .declaration)
    (h : declaration node c.descend = .ok text c.descend) : Clears node c text c := by
  intro hn hc
  obtain ⟨property, item, v, hp, hitem, hv, rfl⟩ := exists_of_declaration h
  have hval := (yields_value ample_isUnmarked .emit
    (hn.over_line hk (List.mem_of_getElem? hitem)) hc.descend.unmarked hv).2
  refine ⟨hc, over_indented ample_isUnmarked hc.indent (List.forall_mem_singleton.2 ?_)⟩
  exact over_line ample_isUnmarked over_unmarked_semicolon (over_propertyName hn hk hp) hval

/-- A variable gets a value without marks. -/
lemma clears_declare {target item : Node} {v : Value} (hk : node.kind = .variableDeclaration)
    (ht : node.children[0]? = some target) (hitem : node.children[1]? = some item)
    (hv : declaredValue item c.descend = .ok v c.descend) :
    Clears node c "" { c with
      symbols := c.symbols.declare (Variable.bareName target.text) ⟨v, c.inTemporaryScope⟩ } := by
  intro hn hc
  have hname := (hn.over_value (.inl hk) (List.mem_of_getElem? ht)).text.bareName
  have hval := (yields_declaredValue ample_isBare
    (hn.over_value (.inl hk) (List.mem_of_getElem? hitem)) hc.descend.chars hv).2
  exact ⟨{ hc with symbols := (hc.chars.declare hname hval).symbols }, over_empty⟩

/-- A mixin is declared that can be included anywhere. -/
lemma clears_define (hk : node.kind = .mixinDeclaration)
    (h : declareMixin node c.descend = .ok ⟨⟩ m) : Clears node c "" m.ascend := by
  intro hn hc
  have hs : node.holdsStatements = true := by simp [Node.holdsStatements, hk]
  obtain ⟨name, block, mixin, -, hblock, hcapture, htakes, rfl⟩ := exists_of_declareMixin h
  have hplaces := Node.every_self hn.places
  rw [Node.placesRules, hk] at hplaces
  simp only [bne_self_eq_false, Bool.false_or, Bool.and_eq_true] at hplaces
  have hnames := Node.isName_of_ownNames hplaces.1
  have hbk := Node.kind_of_body hblock
  have hplaced : ∀ child ∈ block.1.children, child.isPlaceable node.ownNames .body = true := by
    simpa [hbk] using List.all_eq_true.1 hplaces.2 block.1 block.2
  obtain ⟨parts, hparts, hbody⟩ := (captures_clear hnames hc.indent hc.mixins).block hcapture
  have hchild (child : Node) (hch : child ∈ block.1.children) : child.IsClear :=
    (hn.child hs block.2).child (by simp [Node.holdsStatements, hbk]) hch
  refine ⟨{ hc.descend.define name ⟨?_, ?_⟩ with }, over_empty⟩
  · refine htakes.sorted hnames fun params names defaults hp hrun => ?_
    have hkind : params.kind = .parameters := by simpa using List.find?_some hp
    have hover := (hn.child hs (Node.mem_of_find?_eq_some hp)).over_bare (.inr hkind)
    exact (yields_parameters ample_isBare name hover hc.descend.chars hrun).2.2
  · rw [hbody, htakes.names_eq]
    constructor
    · exact forall_mem_flatMap hparts fun child hch _ hpart =>
        (hpart (hchild child hch) (hplaced child hch)).direct
    · exact forall_mem_flatMap hparts fun child hch _ hpart =>
        (hpart (hchild child hch) (hplaced child hch)).deferred

/-- An inclusion places the rules of its mixin, so that no marks are left. -/
lemma clears_inclusion (hk : node.kind = .includeDeclaration)
    (h : includeMixin node c.descend = .ok text m) : Clears node c text m.ascend := by
  intro hn hc
  obtain ⟨args, found, hargs, hexpand, rfl, rfl⟩ := exists_of_includeMixin h
  have hover (arg : String) (ha : arg ∈ args) : Over (isBare ·) arg := by
    refine (yields_mapM (fun given hg => ?_) hc.descend.chars hargs).2 arg ha
    obtain ⟨holder, hh, hg⟩ := Node.mem_children_of_mem_arguments hg
    exact yields_value ample_isBare .fold ((hn.over_value (.inr hk) hh).child hg)
  have hfound := clear_expandMixin hc.mixins hover hexpand
  refine ⟨{ hc.descend.enqueue fun fragment hm => ?_ with }, ?_⟩
  · obtain ⟨source, hs, rfl⟩ := List.mem_map.1 hm
    obtain ⟨hled, hopens⟩ := hfound.deferred source hs
    have hchain := Selector.mark_not_mem_chain c.ancestors
    have hplaced := Selector.mark_not_mem_place hchain hled hopens
    exact over_append.2 ⟨over_isUnmarked_iff.2 hplaced, ample_isUnmarked.over_of_isPlain rfl⟩
  · exact over_indented ample_isUnmarked hc.indent hfound.direct

/-- The statements of a block that is entered render to texts without marks. -/
lemma Each.clears {texts : List String} (hn : node.IsClear) (he : Enters node c via body m)
    (hm : m.Clear) (h : Each (InTurn Clears body m) body.children m texts c') :
    c'.Clear ∧ ∀ t ∈ texts, Over (isUnmarked ·) t :=
  h.yields hm fun _ hc _ _ _ ht hm => ht.holds (hn.entered he hc) hm

/-- A rule renders to a block without marks. -/
lemma clears_rule {texts : List String} (hr : node.IsRule group body)
    (h : Each (InTurn Clears body (c.descend.openRule group.selectorText)) body.children
      (c.descend.openRule group.selectorText) texts m) :
    Clears node c (deliver group.selectorText (String.join texts) m.closeRule).1
      (deliver group.selectorText (String.join texts) m.closeRule).2.ascend := by
  intro hn hc
  have hopen : (c.descend.openRule group.selectorText).Clear := { hc with }
  obtain ⟨hm, htexts⟩ := h.clears hn (.rule hr) hopen
  have hclosed : m.closeRule.Clear := { hm with }
  have hblock : Over (isUnmarked ·)
      (Selector.block (Selector.compose m.closeRule.chain group.selectorText) (String.join texts) ++
        "\n\n") := by
    have hs : parentMark ∉ (Selector.compose m.closeRule.chain group.selectorText).toList :=
      Selector.mark_not_mem_compose (Selector.mark_not_mem_chain m.closeRule.ancestors)
    refine over_append.2 ⟨over_block (over_isUnmarked_iff.2 hs) (over_join htexts), ?_⟩
    exact ample_isUnmarked.over_of_isPlain rfl
  obtain ⟨-, hd⟩ | ⟨-, hd⟩ := deliver_cases group.selectorText (String.join texts) m.closeRule
  · rw [hd]
    exact ⟨{ hclosed with }, hblock⟩
  · rw [hd]
    exact ⟨{ hclosed.enqueue (List.forall_mem_singleton.2 hblock) with }, over_empty⟩

/-- A conditional renders to the texts of its branches. -/
lemma clears_conditional {es : List Entrance} {texts : List String}
    (h : Each (Opened Clears node c.descend) es c.descend texts m) :
    Clears node c (String.join texts) m.ascend := by
  intro hn hc
  obtain ⟨nodes, own, h, hjoin⟩ := h.entered
  rw [hjoin]
  obtain ⟨hm, htexts⟩ := h.yields hc.descend fun _ _ _ _ _ ht hm => by
    obtain ⟨via, body, m₀, he, hturn⟩ := ht
    exact hturn.holds (hn.entered he hturn.runs.mem) hm
  exact ⟨{ hm with }, over_join htexts⟩

/-- The names of a loop and the texts in its rows have neither marks nor braces. -/
lemma Unrolls.bare {placement : Placement} {names : List String} {rows : Rows}
    (h : Unrolls node c body placement names rows) (hn : node.IsClear) (hc : c.Clear) :
    (∀ name ∈ names, (∃ word, name.toList = '$' :: word) ∧ Over (isBare ·) name) ∧
      ∀ i, ∀ t ∈ rows.row i, Over (isBare ·) t := by
  cases h with
  | counting hl =>
    have hs : node.holdsStatements = true := by simp [Node.holdsStatements, hl.kind]
    have hcounter := hn.child hs (List.mem_of_getElem? hl.counter_at)
    have hover := hcounter.over_bare (.inl hl.counter_kind)
    refine ⟨List.forall_mem_singleton.2 ⟨⟨_, toList_sigilName _⟩, ?_⟩, fun i => ?_⟩
    · exact ample_isBare.sigilName hover.text
    · exact List.forall_mem_singleton.2 (ample_isBare.numeric.over_int _)
  | through hk _ _ he =>
    refine ⟨fun name hname => ?_, ?_⟩
    · obtain ⟨source, hm, rfl⟩ := (loopNames_of_eachRows hk he).exists_source hk name hname
      exact ⟨⟨_, toList_sigilName source.text⟩, ample_isBare.sigilName (hn.over_source hk hm).text⟩
    · have hsources : ∀ source ∈ node.children.dropLast, source.Over (isBare ·) :=
        fun source => hn.over_source hk
      exact (yields_eachRows_of_sources ample_isBare hsources hc.chars he).2

/-- An iteration gives a text without marks. -/
lemma clears_round {placement : Placement} {names : List String} {rows : Rows} {n : Nat}
    (hn : node.IsClear) (hc : c.Clear)
    (hu : Unrolls node c body placement names rows)
    (h : Round Clears body placement names rows (enterLoop placement names c) n m text c')
    (hm : m.Clear) : c'.Clear ∧ Over (isUnmarked ·) text := by
  obtain ⟨hlt, ⟨done, hdone⟩, texts, m₁, hstatements, rfl, rfl⟩ := h
  obtain ⟨hnames, hrows⟩ := hu.bare hn hc
  have hbound (b : String × String) (hb : b ∈ names.zip (rows.row n)) :
      (∃ word, b.1.toList = '$' :: word) ∧ Over (isBare ·) b.1 ∧ Over (isBare ·) b.2 := by
    obtain ⟨hname, hval⟩ := List.of_mem_zip hb
    exact ⟨(hnames _ hname).1, (hnames _ hname).2, hrows n _ hval⟩
  have hrow : (startIteration (names.zip (rows.row n)) m).Clear :=
    { hm with symbols := (hm.chars.bindRow fun b hb => (hbound b hb).2).symbols }
  obtain ⟨hm₁, htexts⟩ := hstatements.clears hn (.round hu hlt hdone) hrow
  refine ⟨{ hm₁ with
    queue := fun fragment hf => hm₁.queue fragment (List.mem_of_mem_take hf) }, Over.trim ?_⟩
  refine List.foldlRecOn _ _ (over_append.2 ⟨over_join htexts, over_join fun t ht => ?_⟩)
    fun t ht b hb => ?_
  · obtain ⟨fragment, hf, rfl⟩ := List.mem_map.1 ht
    refine over_append.2 ⟨ample_isUnmarked.over_of_isPlain rfl, Over.trim ?_⟩
    exact hm₁.queue fragment (List.mem_of_mem_drop hf)
  · obtain ⟨⟨word, hw⟩, hname, hvalue⟩ := hbound b hb
    have unmark {text : String} (h : Over (isBare ·) text) : Over (isUnmarked ·) text :=
      fun c hc => isUnmarked_of_isBare c (h c hc)
    cases placement with
    | interpolated => exact ht.interpolate b.1 (unmark hvalue)
    | substituted => exact ht.substitute hw (unmark hname) (unmark hvalue)

/-- A loop makes a text without marks wait. -/
lemma clears_loop {placement : Placement} {names : List String} {rows : Rows} {texts : List String}
    (hu : Unrolls node c.descend body placement names rows)
    (h : Each (Round Clears body placement names rows (enterLoop placement names c.descend))
      (List.range rows.count) (enterLoop placement names c.descend) texts m) :
    Clears node c "" ((leaveLoop c.bound.length names m).enqueueAll
      (["\n".intercalate texts].filter (· ≠ ""))).ascend := by
  intro hn hc
  have hnames := (hu.bare hn hc.descend).1
  have henter : (enterLoop placement names c.descend).Clear :=
    { hc with
      bound := (hc.descend.chars.enterLoop fun name hm => (hnames name hm).2).bound }
  obtain ⟨hm, htexts⟩ := h.yields henter fun _ _ _ _ _ hround hm =>
    clears_round hn hc.descend hu hround hm
  have hleft : (leaveLoop c.bound.length names m).Clear :=
    { hm with symbols := hm.chars.leaveLoop.symbols, bound := hm.chars.leaveLoop.bound }
  refine ⟨{ hleft.enqueue fun fragment hf => ?_ with }, over_empty⟩
  rw [List.mem_singleton.1 (List.mem_of_mem_filter hf)]
  exact over_intercalate (ample_isUnmarked.over_of_isPlain rfl) htexts

end

/-- Every statement of a clear document renders to text without marks. -/
lemma course_clears : Course Clears where
  declaration hk _ h := clears_declaration hk h
  declare hk _ ht _ hitem hv := clears_declare hk ht hitem hv
  define hk _ h := clears_define hk h
  inclusion hk _ h := clears_inclusion hk h
  rule hr _ h := clears_rule hr h
  conditional _ _ h := clears_conditional h
  loop hu _ h := clears_loop hu h

/-! ### Documents -/

/-- The block of custom properties has no marks. -/
lemma over_withProperties {c : Context} {css : String} (hc : c.Clear)
    (h : Over (isUnmarked ·) css) : Over (isUnmarked ·) (withProperties c css) := by
  unfold withProperties
  split
  · exact h.trim
  · refine (over_append.2 ⟨over_append.2 ⟨?_, ample_isUnmarked.over_of_isPlain rfl⟩, h⟩).trim
    refine over_block hc.rootSelector (over_indented ample_isUnmarked hc.indent fun line hl => ?_)
    obtain ⟨⟨name, text⟩, hp, rfl⟩ := List.mem_map.1 hl
    exact over_definition ample_isUnmarked over_unmarked_semicolon hc.unmarked.symbols hp

/-- A clear document is compiled to text without marks. -/
lemma over_document {root : Node} {start c' : Context} {css : String} (hn : root.IsClear)
    (hc : start.Clear) (h : document root start = .ok css c') : Over (isUnmarked ·) css := by
  obtain ⟨texts, hsteps, rfl⟩ := course_clears.document h
  have hs : root.holdsStatements = true := by
    simp [Node.holdsStatements, kind_of_document h]
  obtain ⟨hc', htexts⟩ := hsteps.yields hc fun node hnode m t m' hstep hm => by
    obtain ⟨-, own, m₁, hclears, -, rfl, rfl⟩ := hstep
    obtain ⟨hm₁, hown⟩ := hclears (hn.child hs hnode) hm
    obtain ⟨hready, hflushed⟩ := hm₁.flush
    refine ⟨hflushed, over_append.2 ⟨hown, over_join fun t ht => ?_⟩⟩
    obtain ⟨fragment, hf, rfl⟩ := List.mem_map.1 ht
    exact over_append.2 ⟨(hready fragment hf).trim, ample_isUnmarked.over_of_isPlain rfl⟩
  exact over_withProperties hc' (over_join htexts)

end Render

namespace Compiler

/-- If the parent marks of a document are in its selectors, and its mixins place their rules, then
no mark is in its text. -/
theorem parent_marks_are_replaced {compiler : Compiler} {root : Node} {css : String}
    (hi : parentMark ∉ compiler.context.options.indent.toList)
    (hs : parentMark ∉ compiler.context.options.rootSelector.toList)
    (hw : root.isWorded isUnmarked isBare = true) (hp : root.every Node.placesRules = true)
    (h : (compiler.compile root).1 = .ok css) : parentMark ∉ css.toList := by
  have hc : compiler.context.reset.Clear :=
    { symbols := by simp [Context.reset]
      bound := by simp [Context.reset]
      indent := over_isUnmarked_iff.2 hi
      rootSelector := over_isUnmarked_iff.2 hs
      mixins := by simp [Context.reset]
      queue := by simp [Context.reset] }
  unfold compile at h
  split at h
  · next hd =>
    cases h
    exact over_isUnmarked_iff.1 (Render.over_document ⟨hw, hp⟩ hc hd)
  · cases h

/-- A mixin with a placeholder of its parameter before the mark, included by a rule of another one,
which in turn is included in a loop by a rule under an interpolated selector. -/
def markedMixins : Node :=
  .stylesheet
    [.mixin "i" [.parameter "p"]
      [.rule [".x-#\x7b$p\x7d &"] [.declaration "x" (.reference "p"), .rule ["&:h"] []]],
     .mixin "o" [] [.rule [".o &"] [.inclusion "i" [.literal "2"]]],
     .forLoop "k" (.literal "1") "through" (.literal "1")
       [.rule [".l-#\x7b$k\x7d"] [.rule ["b &"] [.inclusion "o" []]]]]

/-- No parent mark is left of mixins that are included in nested rules. -/
theorem parent_marks_are_replaced_markedMixins :
    ∃ css, (Compiler.compile {} markedMixins).1 = .ok css ∧ parentMark ∉ css.toList := by
  have hrun : (Compiler.compile {} markedMixins).1 = .ok
      (".l-1\x7b\n\x7d\n\n\n.o b .l-1\x7b\n\x7d\n.x-2 .o b .l-1\x7b\n\tx: 2;\n\x7d\n" ++
        ".x-2 .o b .l-1:h\x7b\n\x7d\nb .l-1\x7b\n\x7d") := by
    decide +kernel
  refine ⟨_, hrun, parent_marks_are_replaced ?_ ?_ ?_ ?_ hrun⟩
  · decide
  · decide
  · decide +kernel
  · decide +kernel

/-- A mixin whose rule has the placeholder of a loop before the mark. -/
def markBehindPlaceholder : Node :=
  .stylesheet
    [.mixin "m" [] [.rule [".x-#\x7b$i\x7d &"] []],
     .forLoop "i" (.literal "1") "through" (.literal "1") [.rule ["a"] [.inclusion "m" []]]]

/-- A rule of a mixin is cut at the brace of the placeholder to be placed, so that the mark behind
it is left. -/
theorem mark_behind_placeholder_is_left :
    markBehindPlaceholder.isWorded isUnmarked isUnmarked = true ∧
      (Compiler.compile {} markBehindPlaceholder).1 =
        .ok "a\x7b\n\x7d\n\n\na .x-1 &\x7b\n\x7d" := by
  decide +kernel

end Compiler

end Stylesheet
