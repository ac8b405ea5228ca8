import Stylesheet.Proofs.Capturing
import Stylesheet.Proofs.Course
import Stylesheet.Proofs.Position
import Stylesheet.Proofs.Sheet
import Stylesheet.Proofs.Wording

/-!
# The blocks that a document writes

`Emits` says which blocks a statement writes, each by its selector and the text between its braces.
A rule writes its own block, which holds the lines of the declarations that are in no rule nearer to
them, under the selectors of the rules around it. In each iteration of a loop the names of the loop
are replaced in the selector and in the lines alike. An inclusion writes the rules that are captured
where its mixin is declared, with its arguments in the place of the parameters.

`Laid` is the form that all texts outside a rule have while a document is compiled, and `Held` the
form of those inside. Both say more of a document in which every declaration is housed.
-/

namespace Stylesheet

open Text

namespace Render

/-! ### Where blocks come from -/

/-- A line that a statement puts into the rule around it: that of a declaration, or one from a
branch of a conditional. -/
inductive Line : Node → Context → String → Prop where
  | declaration {node c line} :
    node.kind = .declaration →
    declaration node c.descend = .ok line c.descend →
    Line node c line
  | branch {node via body child c m c' line} :
    node.kind = .conditional →
    Enters node c.descend via body m →
    Runs body m child c' →
    Line child c' line →
    Line node c line

mutual

/-- A rule that is captured of a statement in a mixin, with the mixins that are declared before
it. -/
inductive Captured (root : Node) (start : Context) :
    MixinTable → Site → Node → String → String → Prop where
  | rule {mixins site node group block lines} :
    node.IsRule group block →
    List.Forall₂ (fun child line => rawDeclaration child = .ok line) (block.filter .declaration)
      lines →
    Captured root start mixins site node (site.compose group.selectorText)
      (Fragments.indented start.options.indent lines ++ "\n")
  | nested {mixins site node group block child selector body} :
    node.IsRule group block →
    child ∈ block.children →
    Captured root start mixins (.rule (site.compose group.selectorText)) child selector body →
    Captured root start mixins site node selector body
  | included {mixins node name selector body} :
    node.kind = .includeDeclaration →
    node.name = .ok name →
    Brings root start mixins name (node.arguments.map fun arg => trim arg.text) selector body →
    Captured root start mixins .body node selector body
  | placed {mixins parent node name selector body} :
    node.kind = .includeDeclaration →
    node.name = .ok name →
    Brings root start mixins name (node.arguments.map fun arg => trim arg.text) selector body →
    Captured root start mixins (.rule parent) node (Selector.compose parent selector) body

/-- A rule that an inclusion brings, by the name of the mixin and the arguments. It is captured
where the document declares the mixin of this name, and the arguments are put in. -/
inductive Brings (root : Node) (start : Context) :
    MixinTable → String → List String → String → String → Prop where
  | intro {mixins name args m bindings above c node block child selector body} :
    mixins.get? name = some m →
    m.bind name args = .ok bindings →
    Reaches root start above c node →
    node.kind = .mixinDeclaration →
    declareMixin node c.descend = .ok ⟨⟩ { c.descend with mixins := c.mixins.insert name m } →
    node.body = .ok block →
    child ∈ block.1.children →
    Captured root start c.mixins .body child selector body →
    Brings root start mixins name args (Mixin.substituteAll bindings selector)
      (Mixin.substituteAll bindings body)

end

/-- A block that a statement writes, below rules with the given selectors, the outermost first. -/
inductive Emits (root : Node) (start : Context) :
    List String → Node → Context → String → String → Prop where
  | rule {path node group block lines c m} :
    node.IsRule group block →
    Render.block block (c.descend.openRule group.selectorText) = .ok (String.join lines) m →
    (∀ line ∈ lines, ∃ child c',
      Runs block (c.descend.openRule group.selectorText) child c' ∧ Line child c' line) →
    Emits root start path node c (Selector.chain (path ++ [group.selectorText]))
      (String.join lines ++ "\n")
  | nested {path node group block child c c' selector body} :
    node.IsRule group block →
    Runs block (c.descend.openRule group.selectorText) child c' →
    Emits root start (path ++ [group.selectorText]) child c' selector body →
    Emits root start path node c selector body
  | branch {path node via block child c m c' selector body} :
    node.kind = .conditional →
    Enters node c.descend via block m →
    Runs block m child c' →
    Emits root start path child c' selector body →
    Emits root start path node c selector body
  | round {path node block placement names rows n texts child c m c' selector body} :
    Unrolls node c.descend block placement names rows →
    n < rows.count →
    iterate (Render.round block placement names rows) n 0 (enterLoop placement names c.descend) =
      .ok texts m →
    Runs block (startIteration (names.zip (rows.row n)) m) child c' →
    Emits root start path child c' selector body →
    Emits root start path node c (placement.applyAll (names.zip (rows.row n)) selector)
      (placement.applyAll (names.zip (rows.row n)) body)
  | included {path node name args c selector body} :
    node.kind = .includeDeclaration →
    node.name = .ok name →
    node.arguments.mapM (value .fold) c.descend = .ok args c.descend →
    Brings root start c.mixins name args selector body →
    Emits root start path node c (Selector.compose (Selector.chain path) selector) body

end Render

/-! ### The form of texts -/

/-- A text outside all rules. It is blank if every declaration is housed. -/
structure Outside (root : Node) (text : String) : Prop where
  chars : Over unbraced text
  blank : root.AllHoused → Blank text

/-- The text of statements in a rule. It consists of certain lines if every declaration is
housed. -/
structure Held (root : Node) (L : String → Prop) (text : String) : Prop where
  chars : Over unbraced text
  head : ∀ c ∈ text.toList.head?, c = '\n'
  lines : root.AllHoused → ∃ lines, text = String.join lines ∧ ∀ line ∈ lines, L line

/-- A selector and the text between the braces of its block. It is one of certain blocks if every
declaration is housed. -/
structure Boxed (root : Node) (W : String → String → Prop) (selector body : String) : Prop where
  overSelector : Over unbraced selector
  overBody : Over unbraced body
  head : ∀ c ∈ body.toList.head?, c = '\n'
  block : root.AllHoused → W selector body

/-- A block whose selector may have lost blanks at its start. -/
def Block (root : Node) (W : String → String → Prop) (selector body : String) : Prop :=
  ∃ blanks, Blank blanks ∧ Boxed root W (blanks ++ selector) body

/-- A text of certain blocks and of text outside them. -/
def Laid (root : Node) (W : String → String → Prop) : String → Prop :=
  Sheet (Outside root) (Block root W)

/-- A rule of a mixin. -/
def Framed (root : Node) (W : String → String → Prop) (text : String) : Prop :=
  ∃ selector body, text = selector ++ "\x7b" ++ body ++ "\x7d" ∧ Boxed root W selector body

/-- A line of a mixin outside its rules. There is none if every declaration is housed. -/
structure Loose (root : Node) (line : String) : Prop where
  chars : Over unbraced line
  unhoused : ¬root.AllHoused

/-- A name that loops and mixins replace in texts. -/
structure Variable.Replaceable (name : String) : Prop where
  sigil : ∃ word, name.toList = '$' :: word
  chars : Over unbraced name

variable {root : Node} {text a b selector body name value : String} {L L' : String → Prop}
  {W W' : String → String → Prop}

/-- The name that a reference is written with is replaceable. -/
lemma Variable.replaceable_sigilName {reference : String} (h : Over unbraced reference) :
    Variable.Replaceable (Variable.sigilName reference) :=
  ⟨⟨_, toList_sigilName reference⟩, ample_unbraced.sigilName h⟩

namespace Outside

/-- Texts outside all rules are put together. -/
lemma append (ha : Outside root a) (hb : Outside root b) : Outside root (a ++ b) where
  chars := over_append.2 ⟨ha.chars, hb.chars⟩
  blank h := by
    rw [Blank, String.toList_append, List.forall_mem_append]
    exact ⟨ha.blank h, hb.blank h⟩

/-- A text outside all rules may lose its blanks in front. -/
lemma trimStart (h : Outside root text) : Outside root (trimStart text) where
  chars := h.chars.trimStart
  blank hh := Over.trimStart (h.blank hh)

/-- A text outside all rules may lose its blanks behind. -/
lemma trimEnd (h : Outside root text) : Outside root (trimEnd text) where
  chars := h.chars.trimEnd
  blank hh := Over.trimEnd (h.blank hh)

/-- A name is replaced in a text outside all rules. -/
lemma replaceToken (hn : Variable.Replaceable name) (hv : Over unbraced value)
    (h : Outside root text) : Outside root (replaceToken text name value) := by
  obtain ⟨word, hw⟩ := hn.sigil
  refine ⟨h.chars.replaceToken hw hn.chars hv, fun hh => ?_⟩
  rw [replaceToken_eq_self hw (sigil_not_mem_of_blank (h.blank hh))]
  exact h.blank hh

/-- A loose line is text outside all rules. -/
lemma of_unhoused (h : Over unbraced text) (hh : ¬root.AllHoused) : Outside root text :=
  ⟨h, fun h => absurd h hh⟩

/-- Blanks are text outside all rules. -/
lemma of_blank (h : Blank text) : Outside root text := ⟨unbraced_of_blank h, fun _ => h⟩

/-- There may be no text outside the rules. -/
lemma nil : Outside root "" := of_blank (by simp [Blank])

end Outside

namespace Held

/-- No lines are held. -/
lemma nil : Held root L "" where
  chars := over_empty
  head := by simp
  lines _ := ⟨[], rfl, by simp⟩

/-- Lines follow others. -/
lemma append (ha : Held root L a) (hb : Held root L b) : Held root L (a ++ b) where
  chars := over_append.2 ⟨ha.chars, hb.chars⟩
  head c hc := by
    rw [String.toList_append] at hc
    cases hl : a.toList with
    | nil =>
      rw [hl, List.nil_append] at hc
      exact hb.head c hc
    | cons d ds =>
      rw [hl] at hc
      exact ha.head c (by rw [hl]; exact hc)
  lines h := by
    obtain ⟨las, rfl, hla⟩ := ha.lines h
    obtain ⟨lbs, rfl, hlb⟩ := hb.lines h
    exact ⟨las ++ lbs, by rw [String.join_append], List.forall_mem_append.2 ⟨hla, hlb⟩⟩

/-- The texts of statements that hold lines hold them together. -/
lemma join {texts : List String} (h : ∀ t ∈ texts, Held root L t) :
    Held root L (String.join texts) := by
  induction texts with
  | nil => exact nil
  | cons t texts ih =>
    rw [String.join_cons]
    rw [List.forall_mem_cons] at h
    exact h.1.append (ih h.2)

/-- Lines that are held are lines of a wider sort. -/
lemma mono (h : Held root L text) (hl : ∀ line, L line → L' line) : Held root L' text :=
  { h with
    lines := fun hh => by
      obtain ⟨lines, ht, hlines⟩ := h.lines hh
      exact ⟨lines, ht, fun line hm => hl line (hlines line hm)⟩ }

/-- Lines that are indented are held. -/
lemma indented {indent : String} {lines : List String} (hi : Over unbraced indent)
    (hc : ∀ line ∈ lines, Over unbraced line)
    (hl : root.AllHoused → ∀ line ∈ lines, L ("\n" ++ indent ++ line)) :
    Held root L (Fragments.indented indent lines) where
  chars := over_indented ample_unbraced hi hc
  head c hc := by
    cases lines with
    | nil => simp [Fragments.indented] at hc
    | cons line lines => simpa [Fragments.indented, eq_comm] using hc
  lines hh := by
    refine ⟨_, rfl, fun line hm => ?_⟩
    obtain ⟨source, hs, rfl⟩ := List.mem_map.1 hm
    exact hl hh source hs

end Held

namespace Boxed

/-- A block is one of more blocks. -/
lemma mono (h : Boxed root W selector body) (hw : ∀ s b, W s b → W' s b) :
    Boxed root W' selector body :=
  { h with block := fun hh => hw _ _ (h.block hh) }

/-- Lines make up the block of a rule. -/
lemma of_held (hs : Over unbraced selector) (h : Held root L body)
    (hw : root.AllHoused → W selector (body ++ "\n")) : Boxed root W selector (body ++ "\n") where
  overSelector := hs
  overBody := over_append.2 ⟨h.chars, ample_unbraced.over_of_isPlain rfl⟩
  head c hc := by
    rw [String.toList_append] at hc
    cases hl : body.toList with
    | nil =>
      rw [hl] at hc
      simpa [eq_comm] using hc
    | cons d ds =>
      rw [hl] at hc
      exact h.head c (by rw [hl]; exact hc)
  block := hw

/-- A name is replaced in the selector and in the lines alike. -/
lemma replaceToken (hn : Variable.Replaceable name) (hv : Over unbraced value)
    (hw : W selector body → W' (replaceToken selector name value) (replaceToken body name value))
    (h : Boxed root W selector body) :
    Boxed root W' (replaceToken selector name value) (replaceToken body name value) := by
  obtain ⟨word, hword⟩ := hn.sigil
  refine ⟨h.overSelector.replaceToken hword hn.chars hv,
    h.overBody.replaceToken hword hn.chars hv, fun c hc => ?_, fun hh => hw (h.block hh)⟩
  rw [toList_replaceToken hword] at hc
  cases hl : body.toList with
  | nil =>
    rw [hl, replaceEach_nil] at hc
    cases hc
  | cons d ds =>
    obtain rfl : d = '\n' := h.head d (by rw [hl]; rfl)
    rw [hl, replaceEach_copy] at hc
    · cases hc
      rfl
    · intro hp
      exact absurd (List.cons_prefix_cons.1 hp).1 (by decide)

/-- What is between the braces of a block does not start with a sigil. -/
lemma head_ne (h : Boxed root W selector body) : ∀ c ∈ body.toList.head?, c ≠ '$' := by
  intro c hc
  rw [h.head c hc]
  decide

end Boxed

namespace Block

/-- A block is one of more blocks. -/
lemma mono (h : Block root W selector body) (hw : ∀ s b, W s b → W' s b) :
    Block root W' selector body := by
  obtain ⟨blanks, hb, h⟩ := h
  exact ⟨blanks, hb, h.mono hw⟩

/-- The selector of a block may lose blanks in front. -/
lemma trimStart (h : Block root W selector body) : Block root W (trimStart selector) body := by
  obtain ⟨blanks, hb, h⟩ := h
  obtain ⟨more, hm, hs⟩ := exists_blank_append_trimStart selector
  refine ⟨blanks ++ more, ?_, ?_⟩
  · rw [Blank, String.toList_append, List.forall_mem_append]
    exact ⟨hb, hm⟩
  · rw [String.append_assoc, ← hs]
    exact h

/-- A name is replaced in a block and the text before it. In a document in which declarations may
stand outside all rules, that text may come to belong to the selector. -/
lemma replaceToken (hn : Variable.Replaceable name) (hv : Over unbraced value)
    (hw : ∀ s b, Over unbraced s → Over unbraced b → W s b →
      W' (replaceToken s name value) (replaceToken b name value)) {before : String}
    (ho : Outside root before) (h : Block root W selector body) :
    ∃ before' selector', Outside root before' ∧
      Block root W' selector' (replaceToken body name value) ∧
      Text.replaceToken (before ++ selector) name value = before' ++ selector' := by
  obtain ⟨blanks, hb, h⟩ := h
  obtain ⟨word, hword⟩ := hn.sigil
  have hboxed := h.replaceToken hn hv (hw _ _ h.overSelector h.overBody)
  by_cases hh : root.AllHoused
  · refine ⟨before, Text.replaceToken selector name value, ho, ⟨blanks, hb, ?_⟩, ?_⟩
    · rwa [replaceToken_append_of_not_mem hword (sigil_not_mem_of_blank hb)] at hboxed
    · exact replaceToken_append_of_not_mem hword (sigil_not_mem_of_blank (ho.blank hh))
  · refine ⟨"", Text.replaceToken (before ++ selector) name value, .nil,
      ⟨"", by simp [Blank], ?_⟩, by simp⟩
    have hs := (over_append.1 h.overSelector).2
    refine ⟨?_, hboxed.overBody, hboxed.head, fun h => absurd h hh⟩
    rw [String.empty_append]
    exact (over_append.2 ⟨ho.chars, hs⟩).replaceToken hword hn.chars hv

end Block

namespace Laid

/-- Blanks are laid out. -/
lemma of_blank (h : Blank text) : Laid root W text := .plain (.of_blank h)

/-- Nothing is laid out. -/
lemma nil : Laid root W "" := of_blank (by simp [Blank])

/-- The blocks of a text are some of more blocks. -/
lemma mono (h : Laid root W text) (hw : ∀ s b, W s b → W' s b) : Laid root W' text :=
  Sheet.mono h (fun _ => id) fun _ _ hb => hb.mono hw

/-- Texts are laid out one after the other. -/
lemma append (ha : Laid root W a) (hb : Laid root W b) : Laid root W (a ++ b) :=
  Sheet.append (fun _ _ => Outside.append) ha hb

/-- Any number of texts are laid out one after the other. -/
lemma join {texts : List String} (h : ∀ t ∈ texts, Laid root W t) :
    Laid root W (String.join texts) := by
  induction texts with
  | nil => exact nil
  | cons t texts ih =>
    rw [String.join_cons]
    rw [List.forall_mem_cons] at h
    exact h.1.append (ih h.2)

/-- Texts are laid out with line breaks between them. -/
lemma intercalate {texts : List String} (h : ∀ t ∈ texts, Laid root W t) :
    Laid root W ("\n".intercalate texts) := by
  have hs : Laid root W "\n" := of_blank (by simp [Blank]; decide)
  induction texts with
  | nil => exact nil
  | cons t texts ih =>
    rw [List.forall_mem_cons] at h
    cases texts with
    | nil => simpa using h.1
    | cons u texts =>
      rw [String.intercalate_cons_cons]
      exact (h.1.append hs).append (ih h.2)

/-- A text may lose its blanks in front and behind. -/
lemma trim (h : Laid root W text) : Laid root W (trim text) := by
  rw [trim_eq_trimEnd]
  refine Sheet.trimEnd (fun _ => Outside.trimEnd) ?_
  exact Sheet.trimStart (fun _ => Outside.trimStart) .nil
    (fun _ _ => Block.trimStart) h

/-- No placeholder is in a text that is laid out. -/
lemma shut (h : Laid root W text) : Shut text.toList := by
  refine Sheet.shut (fun _ => Outside.chars) (fun selector body hb => ?_) h
  obtain ⟨blanks, -, hb⟩ := hb
  exact ⟨(over_append.1 hb.overSelector).2, hb.overBody, hb.head_ne⟩

/-- The value of a loop variable gets into the text of an iteration. -/
lemma apply (placement : Render.Placement) (hn : Variable.Replaceable name)
    (hv : Over unbraced value)
    (hw : ∀ s b, W s b → W' (placement.apply s name value) (placement.apply b name value))
    (h : Laid root W text) : Laid root W' (placement.apply text name value) := by
  obtain ⟨word, hword⟩ := hn.sigil
  have hi : interpolate text name value = text := interpolate_eq_self hword h.shut
  have hs {t : String} (ht : Over unbraced t) : interpolate t name value = t :=
    interpolate_of_unbraced hword ht
  cases placement with
  | interpolated =>
    change Laid root W' (interpolate text name value)
    rw [hi]
    refine Sheet.mono h (fun _ => id) fun selector body hb => ?_
    obtain ⟨blanks, hblanks, hb⟩ := hb
    refine ⟨blanks, hblanks, { hb with block := fun hh => ?_ }⟩
    have hwritten := hw _ _ (hb.block hh)
    change W' (interpolate _ _ _) (interpolate _ _ _) at hwritten
    rwa [hs hb.overSelector, hs hb.overBody] at hwritten
  | substituted =>
    change Laid root W' (substitute text name value)
    rw [substitute, hi]
    refine Sheet.replaceToken hword hn.chars (fun _ => Outside.replaceToken hn hv)
      (fun before selector body => Block.replaceToken hn hv fun s b hos hob hwr => ?_) h
    have hwritten := hw s b hwr
    change W' (substitute _ _ _) (substitute _ _ _) at hwritten
    rwa [substitute, substitute, hs hos, hs hob] at hwritten

/-- All values of an iteration get into its text. -/
lemma applyAll (placement : Render.Placement) {bindings : List (String × String)}
    (hn : ∀ b ∈ bindings, Variable.Replaceable b.1 ∧ Over unbraced b.2)
    (hw : ∀ s b, W s b → W' (placement.applyAll bindings s) (placement.applyAll bindings b))
    (h : Laid root W text) : Laid root W' (placement.applyAll bindings text) := by
  induction bindings generalizing text W with
  | nil => exact h.mono hw
  | cons b bindings ih =>
    rw [List.forall_mem_cons] at hn
    have first : Laid root (fun s body => ∃ s' body', W s' body' ∧
        s = placement.apply s' b.1 b.2 ∧ body = placement.apply body' b.1 b.2)
        (placement.apply text b.1 b.2) :=
      h.apply placement hn.1.1 hn.1.2 fun s body hwr => ⟨s, body, hwr, rfl, rfl⟩
    refine ih hn.2 ?_ first
    rintro _ _ ⟨s, body, hwr, rfl, rfl⟩
    exact hw s body hwr

end Laid

/-- A block is written as its selector and its body between braces. -/
lemma block_eq (selector body : String) :
    Selector.block selector body = selector ++ "\x7b" ++ (body ++ "\n") ++ "\x7d" := by
  simp only [Selector.block, String.append_assoc]
  rfl

/-- A selector and a body between braces, before blanks, are laid out as a block. -/
lemma laid_of_boxed {blanks : String} (hb : Blank blanks) (h : Boxed root W selector body) :
    Laid root W (selector ++ "\x7b" ++ body ++ "\x7d" ++ blanks) := by
  rw [← String.empty_append (s := selector)]
  refine .block .nil ⟨"", by simp [Blank], ?_⟩ (Laid.of_blank hb)
  rwa [String.empty_append]

/-- A line break is blank. -/
lemma blank_lines : Blank "\n\n" := by
  simp [Blank]
  decide

/-! ### Rules of mixins -/

/-- A rule is placed by its selector, which ends at the brace. -/
lemma place_of_unbraced {parent : String} (h : Over unbraced selector) :
    Selector.place parent (selector ++ "\x7b" ++ body ++ "\x7d") =
      Selector.compose parent selector ++ "\x7b" ++ body ++ "\x7d" := by
  have hb : '\x7b' ∉ selector.toList := fun hc => (h _ hc).1 rfl
  rw [String.append_assoc, Selector.place_of_not_mem hb, ← String.append_assoc]

namespace Framed

/-- A rule of a mixin is one of more rules. -/
lemma mono (h : Framed root W text) (hw : ∀ s b, W s b → W' s b) : Framed root W' text := by
  obtain ⟨selector, body, ht, h⟩ := h
  exact ⟨selector, body, ht, h.mono hw⟩

/-- A parameter is replaced in the selector and in the lines of a rule alike. -/
lemma substitute (hn : Variable.Replaceable name) (hv : Over unbraced value)
    (hw : ∀ s b, W s b → W' (substitute s name value) (substitute b name value))
    (h : Framed root W text) : Framed root W' (substitute text name value) := by
  obtain ⟨selector, body, rfl, h⟩ := h
  obtain ⟨word, hword⟩ := hn.sigil
  -- The rule is a sheet of one block, with nothing around it.
  have hs : Sheet (· = "") (Boxed root W)
      ("" ++ selector ++ "\x7b" ++ body ++ "\x7d" ++ "") := .block rfl h (.plain rfl)
  rw [String.empty_append, String.append_empty] at hs
  have hshut := hs.shut (by rintro _ rfl; exact over_empty) fun selector body hb =>
    ⟨hb.overSelector, hb.overBody, hb.head_ne⟩
  refine ⟨replaceToken selector name value, replaceToken body name value, ?_,
    h.replaceToken hn hv fun hwr => ?_⟩
  · have hl : '\x7b' ∉ name.toList := fun h => (hn.chars _ h).1 rfl
    have hm : '\x7d' ∉ name.toList := fun h => (hn.chars _ h).2 rfl
    rw [Text.substitute, interpolate_eq_self hword hshut,
      ← String.append_empty (s := selector ++ "\x7b" ++ body ++ "\x7d"),
      replaceToken_append hword (show "\x7d".toList = ['\x7d'] by decide) hm (by decide),
      replaceToken_append hword (show "\x7b".toList = ['\x7b'] by decide) hl (by decide),
      replaceToken_eq_self hword (show '$' ∉ "".toList by decide), String.append_empty]
  · have hwritten := hw selector body hwr
    rwa [Text.substitute, Text.substitute, interpolate_of_unbraced hword h.overSelector,
      interpolate_of_unbraced hword h.overBody] at hwritten

/-- All arguments of an inclusion get into a rule. -/
lemma substituteAll {bindings : List (String × String)}
    (hn : ∀ b ∈ bindings, Variable.Replaceable b.1 ∧ Over unbraced b.2)
    (hw : ∀ s b, W s b → W' (Mixin.substituteAll bindings s) (Mixin.substituteAll bindings b))
    (h : Framed root W text) : Framed root W' (Mixin.substituteAll bindings text) := by
  induction bindings generalizing text W with
  | nil => exact h.mono hw
  | cons b bindings ih =>
    rw [List.forall_mem_cons] at hn
    have first : Framed root (fun s body => ∃ s' body', W s' body' ∧
        s = Text.substitute s' b.1 b.2 ∧ body = Text.substitute body' b.1 b.2)
        (Text.substitute text b.1 b.2) :=
      h.substitute hn.1.1 hn.1.2 fun s body hwr => ⟨s, body, hwr, rfl, rfl⟩
    refine ih hn.2 ?_ first
    rintro _ _ ⟨s, body, hwr, rfl, rfl⟩
    exact hw s body hwr

/-- A rule of a mixin is placed under a selector. -/
lemma place {parent : String} (hp : Over unbraced parent)
    (hw : ∀ s b, W s b → W' (Selector.compose parent s) b) (h : Framed root W text) :
    Framed root W' (Selector.place parent text) := by
  obtain ⟨selector, body, rfl, h⟩ := h
  refine ⟨Selector.compose parent selector, body, place_of_unbraced h.overSelector, ?_⟩
  exact ⟨over_compose ample_unbraced hp h.overSelector, h.overBody, h.head,
    fun hh => hw _ _ (h.block hh)⟩

/-- A rule of a mixin is laid out as a block. -/
lemma laid (h : Framed root W text) : Laid root W (text ++ "\n\n") := by
  obtain ⟨selector, body, rfl, h⟩ := h
  exact laid_of_boxed blank_lines h

end Framed

end Stylesheet
