import Stylesheet.Node.Build
import Stylesheet.Proofs.Layout

/-!
# Blocks of the output

A document without braces in its texts compiles to a sheet, so the braces of the output alternate:
`Compiler.braces_alternate`. Where each declaration is housed, nothing but blanks stands outside the
blocks, and each block holds the lines of its own rule: `Compiler.declarations_stay_in_rules`. A
declaration that a loop separates from its rule is written outside of it:
`Compiler.looped_declaration_leaves_rule`.
-/

namespace Stylesheet

open Text

/-- The block of the custom properties of a document. Its selector may have lost blanks at its
start. -/
structure CustomBlock (opts : Options) (symbols : SymbolTable) (selector body : String) : Prop where
  root : ∃ blanks, Blank blanks ∧ opts.rootSelector = blanks ++ selector
  lines : body = Fragments.indented opts.indent
    (symbols.properties.map fun (name, text) => "--" ++ name ++ ": " ++ text ++ ";") ++ "\n"

/-- A block that a statement of a document writes. -/
def EmittedBlock (root : Node) (start : Context) (selector body : String) : Prop :=
  ∃ node c, Render.Reaches root start [root] c node ∧
    Render.Emits root start [] node c selector body

/-- A block of the output. -/
structure OutputBlock (root : Node) (start : Context) (symbols : SymbolTable)
    (selector body : String) : Prop where
  overSelector : Over unbraced selector
  overBody : Over unbraced body
  source : Block root (EmittedBlock root start) selector body ∨
    CustomBlock start.options symbols selector body

variable {root : Node} {start : Context} {symbols : SymbolTable}

namespace OutputBlock

/-- A block that a statement writes is one of the output. -/
lemma of_block {selector body : String} (h : Block root (EmittedBlock root start) selector body) :
    OutputBlock root start symbols selector body := by
  obtain ⟨blanks, hb, hh⟩ := h
  exact ⟨(over_append.1 hh.overSelector).2, hh.overBody, .inl ⟨blanks, hb, hh⟩⟩

/-- The first block of the output may lose blanks in front. -/
lemma trimStart {selector body : String} (h : OutputBlock root start symbols selector body) :
    OutputBlock root start symbols (trimStart selector) body := by
  refine ⟨h.overSelector.trimStart, h.overBody, ?_⟩
  rcases h.source with hb | ⟨⟨blanks, hb, hs⟩, hl⟩
  · exact .inl hb.trimStart
  · obtain ⟨more, hm, ht⟩ := exists_blank_append_trimStart selector
    refine .inr ⟨⟨blanks ++ more, ?_, ?_⟩, hl⟩
    · rw [Blank, String.toList_append, List.forall_mem_append]
      exact ⟨hb, hm⟩
    · rw [String.append_assoc, ← ht]
      exact hs

end OutputBlock

/-- Only declared names and values get into the lines of the custom properties. -/
lemma over_properties (hs : ∀ e ∈ symbols.entries, Over unbraced e.1 ∧ e.2.value.Over unbraced) :
    ∀ line ∈ symbols.properties.map fun (name, text) => "--" ++ name ++ ": " ++ text ++ ";",
      Over unbraced line := by
  intro line hl
  obtain ⟨⟨name, text⟩, hp, rfl⟩ := List.mem_map.1 hl
  exact over_definition ample_unbraced over_semicolon hs hp

namespace Render

/-- The block of the custom properties comes first, if there is one. -/
lemma sheet_withProperties {c : Context} {text : String} (hc : Settled root start c)
    (hi : Over unbraced start.options.indent) (hs : Over unbraced start.options.rootSelector)
    (h : Laid root (EmittedBlock root start) text) :
    Sheet (Outside root) (OutputBlock root start c.symbols) (withProperties c text) := by
  have trim {text : String} (h : Sheet (Outside root) (OutputBlock root start c.symbols) text) :
      Sheet (Outside root) (OutputBlock root start c.symbols) (trim text) := by
    rw [trim_eq_trimEnd]
    refine Sheet.trimEnd (fun _ => Outside.trimEnd) ?_
    exact Sheet.trimStart (fun _ => Outside.trimStart) .nil
      (fun _ _ => OutputBlock.trimStart) h
  have hsheet : Sheet (Outside root) (OutputBlock root start c.symbols) text :=
    Sheet.mono h (fun _ => id) fun _ _ => OutputBlock.of_block
  have hlines := over_properties hc.symbols
  unfold withProperties
  rw [hc.options]
  split
  · exact trim hsheet
  · generalize hl : c.symbols.properties.map _ = lines at hlines
    have hbody : Over unbraced (Fragments.indented start.options.indent lines ++ "\n") := by
      refine over_append.2 ⟨over_indented ample_unbraced hi hlines, ?_⟩
      exact ample_unbraced.over_of_isPlain rfl
    have hblock : OutputBlock root start c.symbols start.options.rootSelector
        (Fragments.indented start.options.indent lines ++ "\n") := by
      refine ⟨hs, hbody, .inr ⟨⟨"", by simp [Blank], by simp⟩, ?_⟩⟩
      rw [hl]
    have hfirst := Sheet.block .nil hblock
      (Sheet.append (fun _ _ => Outside.append) (.plain (.of_blank blank_lines)) hsheet)
    rw [String.empty_append] at hfirst
    rw [block_eq, String.append_assoc]
    exact trim hfirst

end Render

/-! ### Documents without braces -/

/-- A brace. -/
def Text.isBrace (c : Char) : Bool := c == '\x7b' || c == '\x7d'

/-- What is no brace is an unbraced character. -/
lemma over_of_not_isBrace (c : Char) (h : (!isBrace c) = true) : unbraced c := by
  simpa [isBrace, unbraced] using h

/-- A text of unbraced characters has no braces. -/
lemma filter_isBrace_of_over {text : String} (h : Over unbraced text) :
    text.toList.filter isBrace = [] := by
  rw [List.filter_eq_nil_iff]
  intro c hc
  have := h c hc
  simp [isBrace, this.1, this.2]

/-- The braces of a sheet whose parts have none alternate. -/
lemma Sheet.exists_braces {outside : String → Prop} {block : String → String → Prop} {text : String}
    (ho : ∀ t, outside t → Over unbraced t)
    (hb : ∀ selector body, block selector body → Over unbraced selector ∧ Over unbraced body)
    (h : Sheet outside block text) :
    ∃ n, text.toList.filter isBrace = (List.replicate n ['\x7b', '\x7d']).flatten := by
  induction h with
  | plain h => exact ⟨0, by simpa using filter_isBrace_of_over (ho _ h)⟩
  | @block before selector body rest h₁ h₂ _ ih =>
    obtain ⟨n, hn⟩ := ih
    obtain ⟨hs, hbody⟩ := hb _ _ h₂
    refine ⟨n + 1, ?_⟩
    simp only [String.toList_append, List.filter_append, hn, filter_isBrace_of_over (ho _ h₁),
      filter_isBrace_of_over hs, filter_isBrace_of_over hbody, List.replicate_succ,
      List.flatten_cons]
    rfl

namespace Compiler

/-- What a compiled document is, if its texts have no braces. -/
lemma sheet_of_compile {compiler : Compiler} {css : String} (hr : root.Over unbraced)
    (hi : Over unbraced compiler.context.options.indent)
    (hs : Over unbraced compiler.context.options.rootSelector)
    (h : (compiler.compile root).1 = .ok css) :
    Sheet (Outside root) (OutputBlock root compiler.context.reset
      (compiler.compile root).2.symbols) css := by
  have hc : Settled root compiler.context.reset compiler.context.reset :=
    ⟨rfl, by simp [Context.reset], by simp [Context.reset], by simp [Context.reset],
      by simp [Context.reset]⟩
  have hm : compiler.context.reset.Mirrors [] := ⟨rfl, rfl⟩
  have hi : Over unbraced compiler.context.reset.options.indent := hi
  unfold compile at h ⊢
  cases hd : Render.document root compiler.context.reset with
  | ok text c' =>
    rw [hd] at h
    cases h
    obtain ⟨hc', text, rfl, hlaid⟩ := Render.laid_of_document hr hi hm hc rfl hd
    exact Render.sheet_withProperties hc' hi hs hlaid
  | error d c' =>
    rw [hd] at h
    cases h

/-- The braces of the output alternate, and every block is closed. -/
theorem braces_alternate (compiler : Compiler) {root : Node} {css : String}
    (hr : root.Over unbraced) (hi : Over unbraced compiler.context.options.indent)
    (hs : Over unbraced compiler.context.options.rootSelector)
    (h : (compiler.compile root).1 = .ok css) :
    ∃ n, css.toList.filter isBrace = (List.replicate n ['\x7b', '\x7d']).flatten := by
  refine Sheet.exists_braces (fun _ => Outside.chars) (fun selector body hb => ?_)
    (sheet_of_compile hr hi hs h)
  exact ⟨hb.overSelector, hb.overBody⟩

/-- A document in which loops and a mixin hold declarations that are in none of their rules. -/
def strayDeclarations : Node :=
  .stylesheet
    [.mixin "note" [] [.declaration "y" (.literal "2"), .rule ["b"] []],
      .rule ["a"]
        [.eachLoop ["v"] (.literal "c")
          [.declaration "x" (.reference "v"), .rule [".$v"] [.inclusion "note" []],
            .inclusion "note" []]]]

/-- The braces alternate in a sheet that declares properties outside of rules. -/
theorem braces_alternate_strayDeclarations :
    ∃ css, (Compiler.compile {} strayDeclarations).1 = .ok css ∧
      ∃ n, css.toList.filter isBrace = (List.replicate n ['\x7b', '\x7d']).flatten := by
  have hrun : (Compiler.compile {} strayDeclarations).1 = .ok
      ("a\x7b\n\x7d\n\nx: c;a .c\x7b\n\ty: 2;\n\x7d\n\n\n\ty: 2;\n" ++
        "a .c b\x7b\n\x7d\na b\x7b\n\x7d") := by
    decide +kernel
  refine ⟨_, hrun, braces_alternate {} (Node.over_of_isOver over_of_not_isBrace _ ?_) ?_ ?_ hrun⟩
  · decide +kernel
  · exact ample_unbraced.over_of_isPlain rfl
  · exact ample_unbraced.over_of_isPlain rfl

/-- In a document whose declarations are all housed, the output is made of blanks and of blocks,
each of which a statement of the document writes or holds the custom properties. -/
theorem declarations_stay_in_rules (compiler : Compiler) {root : Node} {css : String}
    (hr : root.Over unbraced) (hi : Over unbraced compiler.context.options.indent)
    (hs : Over unbraced compiler.context.options.rootSelector) (hh : root.AllHoused)
    (h : (compiler.compile root).1 = .ok css) :
    Sheet Blank (fun selector body => Over unbraced selector ∧ Over unbraced body ∧
      ((∃ blanks, Blank blanks ∧
          EmittedBlock root compiler.context.reset (blanks ++ selector) body) ∨
        CustomBlock compiler.context.options (compiler.compile root).2.symbols selector body))
      css := by
  refine (sheet_of_compile hr hi hs h).mono (fun _ ho => ho.blank hh) fun selector body hb => ?_
  refine ⟨hb.overSelector, hb.overBody, hb.source.imp_left ?_⟩
  rintro ⟨blanks, hblank, hboxed⟩
  exact ⟨blanks, hblank, hboxed.block hh⟩

/-- A mixin that includes another one in a rule of its own, in a rule that a loop unrolls. -/
def mixinsInLoop : Node :=
  .stylesheet
    [.assignment "g" (.literal "1"),
      .mixin "b" [.parameter "w"] [.rule ["&:h"] [.declaration "x" (.reference "w")]],
      .mixin "c" [] [.rule [".i"] [.inclusion "b" [.literal "2"]]],
      .eachLoop ["s"] (.literal "l")
        [.rule [".$s"]
          [.inclusion "c" [],
            .conditional (.literal "true") [.declaration "y" (.reference "s")] [] none]]]

/-- The rules that a loop includes from mixins are the blocks that the document emits. -/
theorem declarations_stay_in_rules_mixinsInLoop :
    ∃ css, (Compiler.compile {} mixinsInLoop).1 = .ok css ∧
      Sheet Blank (fun selector body => Over unbraced selector ∧ Over unbraced body ∧
        ((∃ blanks, Blank blanks ∧ EmittedBlock mixinsInLoop {} (blanks ++ selector) body) ∨
          CustomBlock {} (Compiler.compile {} mixinsInLoop).2.symbols selector body)) css := by
  have hrun : (Compiler.compile {} mixinsInLoop).1 = .ok
      (":root\x7b\n\t--g: 1;\n\x7d\n\n.l\x7b\n\ty: l;\n\x7d\n\n\n.l .i\x7b\n\x7d\n" ++
        ".l .i:h\x7b\n\tx: 2;\n\x7d") := by
    decide +kernel
  refine ⟨_, hrun, declarations_stay_in_rules {} (Node.over_of_isOver over_of_not_isBrace _ ?_)
    ?_ ?_ ?_ hrun⟩
  · decide +kernel
  · exact ample_unbraced.over_of_isPlain rfl
  · exact ample_unbraced.over_of_isPlain rfl
  · exact Node.allHoused_of_all (by decide +kernel)

/-- A rule whose only declaration is in a loop. -/
def loopedDeclaration : Node :=
  .stylesheet
    [.rule ["a"]
      [.forLoop "i" (.literal "1") "through" (.literal "1") [.declaration "x" (.literal "1")]]]

/-- The declaration follows the block of the rule that it was written in. -/
theorem looped_declaration_leaves_rule :
    (Compiler.compile {} loopedDeclaration).1 = .ok ("a\x7b\n\x7d\n\n" ++ "x: 1;") := by
  decide +kernel

end Compiler

end Stylesheet
