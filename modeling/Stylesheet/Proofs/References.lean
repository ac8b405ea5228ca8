import Stylesheet.Node.Build
import Stylesheet.Proofs.Steady
import Stylesheet.Proofs.Weaving

/-!
# References to custom properties

A reference to a scalar is written as one to a custom property when it is read, and the custom
properties are found in the symbol table at the end. So a reference that is written is to a name
that is declared in the end, but its last declaration may stand in a rule, or make it a list or a
map. If all declarations of a name are steady, the document defines what it refers to.
-/

namespace Stylesheet

/-- The line that defines a custom property. -/
def Variable.definition (name text : String) : String := "--" ++ name ++ ": " ++ text ++ ";"

namespace Text

variable {cs word : List Char}

/-- What does not start with a blank is not lost with the blanks in front. -/
lemma infix_dropWhile (hw : word ≠ []) (hb : ∀ c ∈ word.head?, isBlank c = false)
    (h : word <:+: cs) : word <:+: cs.dropWhile isBlank := by
  obtain ⟨before, after, rfl⟩ := h
  rw [List.append_assoc, List.dropWhile_append]
  split
  · cases word with
    | nil => exact absurd rfl hw
    | cons c word =>
      rw [List.cons_append, List.dropWhile_cons_of_neg (by simp [hb c rfl])]
      exact ⟨[], after, rfl⟩
  · exact ⟨_, after, List.append_assoc _ _ _⟩

/-- What neither starts nor ends with a blank is not lost at the ends of a text. -/
lemma infix_trim {text : String} (hw : word ≠ []) (hb : ∀ c ∈ word.head?, isBlank c = false)
    (hl : ∀ c ∈ word.getLast?, isBlank c = false) (h : word <:+: text.toList) :
    word <:+: (trim text).toList := by
  rw [toList_trim, trimChars, ← List.reverse_infix, List.reverse_reverse]
  refine infix_dropWhile (by simpa using hw) ?_ ?_
  · rwa [List.head?_reverse]
  · exact List.reverse_infix.2 (infix_dropWhile hw hb h)

end Text

open Text

/-- The characters of a definition. -/
lemma Variable.toList_definition (name text : String) :
    (Variable.definition name text).toList =
      '-' :: ('-' :: name.toList ++ ':' :: ' ' :: text.toList) ++ [';'] := by
  simp [Variable.definition]

/-- A line of a block is in its text. -/
lemma Fragments.infix_indented (indent : String) {line : String} {lines : List String}
    (h : line ∈ lines) : line.toList <:+: (Fragments.indented indent lines).toList := by
  rw [Fragments.indented, String.toList_join, List.flatMap_def, List.map_map]
  refine List.IsInfix.trans ?_ (List.infix_of_mem_flatten (List.mem_map_of_mem h))
  rw [Function.comp_apply, String.toList_append]
  exact (List.suffix_append _ _).isInfix

/-- The lines of a rule are in its text. -/
lemma Selector.infix_block (selector body : String) :
    body.toList <:+: (Selector.block selector body).toList := by
  rw [Selector.block, String.toList_append, String.toList_append]
  exact ⟨_, _, rfl⟩

/-- Each custom property is defined in the text. -/
lemma Render.definition_infix_withProperties {c : Context} {css name text : String}
    (h : (name, text) ∈ c.symbols.properties) :
    (Variable.definition name text).toList <:+: (withProperties c css).toList := by
  unfold withProperties
  split
  · next hnil =>
    rw [List.map_eq_nil_iff] at hnil
    rw [hnil] at h
    cases h
  · refine infix_trim ?_ ?_ ?_ ?_
    · simp [Variable.toList_definition]
    · rw [Variable.toList_definition]
      rintro c ⟨⟩
      rfl
    · rw [Variable.toList_definition, List.getLast?_concat]
      rintro c ⟨⟩
      rfl
    · rw [String.toList_append, String.toList_append, List.append_assoc]
      refine List.IsInfix.trans ?_ (List.prefix_append _ _).isInfix
      refine List.IsInfix.trans ?_ (Selector.infix_block _ _)
      exact Fragments.infix_indented _ (List.mem_map.2 ⟨(name, text), h, rfl⟩)

namespace Compiler

/-- A compiler that compiles a document to text has run it. -/
lemma document_of_compile {compiler : Compiler} {root : Node} {css : String}
    (h : (compiler.compile root).1 = .ok css) :
    Render.document root compiler.context.reset = .ok css (compiler.compile root).2.context := by
  unfold compile at h ⊢
  split at h
  · next hd =>
    rw [hd, ← Except.ok.inj h]
  · cases h

/-- Tame declarations declare names as references look them up. -/
lemma isBare_of_isTame {root : Node} {start : Context} (ht : root.every Node.isTame = true) :
    ∀ change ∈ Render.changes (Render.stops root start), change.IsBare := by
  intro change hm
  obtain ⟨s, hs, hchange⟩ := List.mem_filterMap.1 hm
  obtain ⟨name, v, hname, rfl⟩ := Render.Stop.exists_of_change? hchange
  have htame : s.node.every Node.isTame = true := by
    obtain ⟨turn, hturn, hs⟩ := List.mem_flatMap.1 hs
    exact Render.every_of_mem_stopsAt (Node.every_child ht (Render.mem_of_mem_turns hturn)) hs
  obtain ⟨target, hc, hk, rfl⟩ := Node.exists_of_declaredName? hname
  exact (Node.isPlain_of_isTame (Node.every_self (Node.every_child htame hc)) hk).stable

/-- If the text of a document without loops holds a reference to a custom property, then the
document has declared a variable of that name. Its last declaration decides: the name is a custom
property exactly if that declaration stands in no rule and gives it a scalar. The text defines each
custom property. A name whose declarations are all steady is one. -/
theorem references_are_declared (compiler : Compiler) {root : Node} {css name : String}
    (hi : ¬HasOpening (compiler.context.options.indent ++ "--"))
    (hr : ¬HasOpening compiler.context.options.rootSelector)
    (hl : root.isLoopless = true) (ht : root.every Node.isTame = true)
    (hp : ∀ s ∈ Render.stops root compiler.context.reset, s.isPlain = true)
    (hc : (compiler.compile root).1 = .ok css) (hn : ')' ∉ name.toList)
    (hv : (Variable.property name).toList <:+: css.toList) :
    let table := (compiler.compile root).2.symbols
    (∃ s v, Render.DeclaresLast (Render.stops root compiler.context.reset) name s v ∧
      ∀ text, (name, text) ∈ table.properties ↔
        v = .scalar text ∧ Node.isInRule s.above = false) ∧
    (∀ property ∈ table.properties,
      (Variable.definition property.1 property.2).toList <:+: css.toList) ∧
    ∀ names, root.isSteady names = true → name ∈ names →
      ∃ text, (name, text) ∈ table.properties := by
  intro table
  have hd := document_of_compile hc
  have start : compiler.context.reset.Woven compiler.context.options :=
    ⟨rfl, rfl, by simp [Context.reset, Registry.names], by simp [Context.reset],
      by simp [Context.reset, MixinTable.texts], by simp [Context.reset]⟩
  obtain ⟨hwoven, hback⟩ := Render.backed_of_document hl ht hp hi hr start hd
  have hname : name ∈ table.names :=
    hback.of_property (fun other ho => (hwoven.proper other ho).parenthesis) hn hv
  -- The table is what the history of the declarations makes it.
  have htable : table = SymbolTable.after (Render.changes _) :=
    Render.symbols_eq_after hl rfl rfl hd
  have hrecorded : SymbolTable.Recorded _ table := htable ▸ SymbolTable.recorded_after
    (isBare_of_isTame ht)
  obtain ⟨⟨_, v⟩, he, rfl⟩ := List.mem_map.1 hname
  have hget := (Registry.get?_eq_some_iff hrecorded.nodup).2 he
  obtain ⟨s, hlast, htemporary⟩ := Render.exists_declaresLast ((hrecorded.current _ _).1 hget)
  refine ⟨⟨s, v.value, hlast, fun text => ?_⟩, fun property hproperty => ?_, fun names hs hm => ?_⟩
  · rw [SymbolTable.mem_properties_iff, ← Registry.get?_eq_some_iff hrecorded.nodup, hget,
      Option.some.injEq, ← htemporary]
    exact ⟨fun h => by rw [h]; exact ⟨rfl, rfl⟩, fun h => by cases v; simp_all⟩
  · obtain ⟨texts, -, rfl⟩ := (Render.chronicle_records).document hl hd
    exact Render.definition_infix_withProperties hproperty
  · obtain ⟨text, hv⟩ := compiler.symbols_lasting hs hl _ he hm
    exact ⟨text, SymbolTable.mem_properties_iff.2 (hv ▸ he)⟩

/-- A sheet in which a variable is declared again in a branch and read in another variable, in a
rule and by a mixin, also in a default value that another mixin captures, and in which texts look
like parts of references. -/
def sharedSizes : Node :=
  .stylesheet
    [.assignment "g" (.literal "4px"),
      .assignment "my-var" (.call "calc" [.reference "g"]),
      .assignment "var" (.literal "1"),
      .mixin "k" [.defaultedParameter "u" (.reference "my-var")]
        [.declaration "w" (.literal "$u")],
      .mixin "m" [.parameter "s"]
        [.declaration "x" (.literal "$s"), .inclusion "k" [],
          .rule ["&:h"] [.declaration "y" (.literal "-#\x7b$s\x7d")]],
      .conditional (.literal "true") [.assignment "g" (.literal "8px")] [] none,
      .rule ["var"]
        [.declaration "r" (.reference "var"), .inclusion "m" [.reference "my-var"],
          .rule ["&.a"] [.assignment "t" (.literal "2"), .declaration "z" (.reference "g")]]]

/-- The text of that sheet. -/
def sharedSizesText : String :=
  ":root\x7b\n\t--g: 8px;\n\t--my-var: calc(var(--g));\n\t--var: 1;\n\x7d\n\n" ++
    "var\x7b\n\tr: var(--var);\n\tx: calc(var(--g));\n\tw: calc(var(--g));\n\x7d\n\n" ++
    "var:h\x7b\n\ty: -calc(var(--g));\n\x7d\n\nvar.a\x7b\n\tz: var(--g);\n\x7d"

/-- The sheet refers to the variable that a branch declares last, and defines it. -/
theorem references_are_declared_sharedSizes :
    sharedSizes.isLoopless = true ∧ sharedSizes.every Node.isTame = true ∧
      (∀ s ∈ Render.stops sharedSizes (Context.reset {}), s.isPlain = true) ∧
      (Compiler.compile {} sharedSizes).1 = .ok sharedSizesText ∧
      (Variable.property "g").toList <:+: sharedSizesText.toList ∧
      (∃ s v, Render.DeclaresLast (Render.stops sharedSizes (Context.reset {})) "g" s v) ∧
      sharedSizes.isSteady ["g", "my-var"] = true ∧
      ∃ text, ("g", text) ∈ (Compiler.compile {} sharedSizes).2.symbols.properties := by
  have hl : sharedSizes.isLoopless = true := by decide +kernel
  have ht : sharedSizes.every Node.isTame = true := by decide +kernel
  have hp : ∀ s ∈ Render.stops sharedSizes (Context.reset {}), s.isPlain = true := by
    decide +kernel
  have hs : sharedSizes.isSteady ["g", "my-var"] = true := by decide +kernel
  have hc : (Compiler.compile {} sharedSizes).1 = .ok sharedSizesText := by decide +kernel
  have hv : (Variable.property "g").toList <:+: sharedSizesText.toList := by decide +kernel
  obtain ⟨⟨s, v, hlast, -⟩, -, hsteady⟩ :=
    references_are_declared {} (by decide) (by decide) hl ht hp hc (by decide) hv
  exact ⟨hl, ht, hp, hc, hv, ⟨s, v, hlast⟩, hs, hsteady ["g", "my-var"] hs (by decide)⟩

/-- A rule that declares a variable and reads it. -/
def temporarySize : Node :=
  .stylesheet
    [.rule ["a"] [.assignment "t" (.literal "1"), .declaration "x" (.reference "t")]]

/-- A variable that is declared in a rule is referred to there, and defined nowhere. -/
theorem temporary_reference_dangles :
    temporarySize.isLoopless = true ∧ temporarySize.every Node.isTame = true ∧
      (∀ s ∈ Render.stops temporarySize (Context.reset {}), s.isPlain = true) ∧
      (Compiler.compile {} temporarySize).1 = .ok "a\x7b\n\tx: var(--t);\n\x7d" ∧
      (Compiler.compile {} temporarySize).2.symbols.properties = [] := by
  decide +kernel

end Compiler

end Stylesheet
