import Stylesheet.Proofs.Composition
import Stylesheet.Proofs.Flattening
import Stylesheet.Proofs.Position

/-!
# Inclusions and what they stand for

A mixin without parameters is included in a rule as if its statements were written there:
`Render.inclusion_writes_in_place`. The rules of a mixin are placed under each other when it is
captured, and under the rules around the inclusion afterwards, while rules in a document are placed
from the outermost one on. `Body.Placeable` says of the selectors in a mixin that the two orders
agree. Where they do not, the rules differ: `Compiler.captured_mark_misses_includer`.
-/

namespace Stylesheet

open Text

/-! ### The rules of a mixin -/

/-- A rule of a mixin. Its selector is placed under those of the rules around it in the mixin. -/
structure CapturedRule where
  selector : String
  declarations : List (String × String)

/-- The block of a rule of a mixin. -/
def CapturedRule.text (indent : String) (r : CapturedRule) : String :=
  Selector.block r.selector (FlatRule.lines indent r.declarations)

/-- A selector in a mixin that is included under an outer selector can be placed under the one
around it first. -/
def Render.Site.Admits (outer selector : String) : Render.Site → Prop
  | body => True
  | rule parent => parent ≠ "" ∧ selector ≠ "" ∧ Selector.compose outer parent ≠ "" ∧
      (Selector.parentMark ∈ parent.toList ∨ Selector.parentMark ∉ selector.toList.tail)

namespace Body

/-- The rules of a block at a place in a mixin, in the order of the document. -/
def captured (site : Render.Site) : Body → List CapturedRule
  | nil => []
  | declaration _ _ rest => rest.captured site
  | rule selector inner rest =>
    ⟨site.compose selector, inner.declarations⟩ ::
      inner.captured (.rule (site.compose selector)) ++ rest.captured site

/-- The selectors of a block at a place in a mixin can be placed in the order in which a mixin that
is included under an outer selector does it. None holds a brace. -/
def Placeable (outer : String) (site : Render.Site) : Body → Prop
  | nil => True
  | declaration _ _ rest => rest.Placeable outer site
  | rule selector inner rest =>
    '\x7b' ∉ selector.toList ∧ site.Admits outer selector ∧
      inner.Placeable outer (.rule (site.compose selector)) ∧ rest.Placeable outer site

end Body

/-- A mixin without parameters. -/
structure Node.IsMixin (node name block : Node) : Prop where
  kind : node.kind = .mixinDeclaration
  name_at : node.children[0]? = some name
  name_kind : name.kind = .identifier
  parameterless : ∀ parameters ∈ node.find? .parameters, parameters.children = []
  block_at : node.children.getLast? = some block
  block_kind : block.kind = .block

/-- An inclusion without arguments. -/
structure Node.IsInclusion (node name : Node) : Prop where
  kind : node.kind = .includeDeclaration
  name_at : node.children[0]? = some name
  name_kind : name.kind = .identifier
  arguments : node.arguments = []

/-! ### Capturing -/

namespace Fragments

/-- Nothing is added to the texts of a mixin. -/
lemma append_empty (a : Fragments) : a ++ ({} : Fragments) = a := by
  change Fragments.mk (a.direct ++ []) (a.deferred ++ []) = a
  rw [List.append_nil, List.append_nil]

/-- The texts of a mixin are put together in any grouping. -/
lemma append_assoc (a b c : Fragments) : a ++ b ++ c = a ++ (b ++ c) :=
  congrArg₂ Fragments.mk (List.append_assoc ..) (List.append_assoc ..)

end Fragments

namespace Render

variable {mixins : MixinTable} {indent : String} {site : Site} {node : Node}

/-- What a block gives to a mixin. -/
def Site.capture (indent : String) (site : Site) (body : Body) : Fragments where
  direct := body.declarations.map fun (property, value) => property ++ ": " ++ value ++ ";"
  deferred := (body.captured site).map (·.text indent)

/-- The lines that are captured of a body are those of its declarations. -/
lemma inline_capture (body : Body) :
    (site.capture indent body).inline indent = FlatRule.lines indent body.declarations := by
  rw [Fragments.inline, Fragments.indented, Site.capture, FlatRule.lines, List.map_map]
  refine congrArg String.join (List.map_congr_left fun d _ => ?_)
  simp only [Function.comp_apply, String.append_assoc]

/-- A rule is captured with its selector composed. -/
lemma capture_rule (selector : String) (inner rest : Body) :
    site.capture indent (.rule selector inner rest) =
      { deferred := Selector.block (site.compose selector) (FlatRule.lines indent
          inner.declarations) ::
            (Site.capture indent (.rule (site.compose selector)) inner).deferred } ++
        site.capture indent rest := by
  change Fragments.mk _ _ = Fragments.mk _ _
  simp [Body.captured, Body.declarations, Site.capture, CapturedRule.text]

/-- A declaration is captured as a line. -/
lemma captureStatement_of_declaration {name literal : Node} (h : node.IsDeclaration name literal) :
    captureStatement mixins indent site node =
      .ok { direct := [trim name.text ++ ": " ++ trim literal.text ++ ";"] } := by
  rw [captureStatement, h.kind]
  simp only [rawDeclaration, Node.name_of_getElem? h.name_at h.name_kind,
    Node.child_of_getElem? h.value_at]
  rfl

/-- A rule is captured with its lines, and the rules in it after it. -/
lemma captureStatement_of_rule {group block : Node} {fragments : Fragments}
    (h : node.IsRule group block)
    (hb : captureBlock mixins indent (.rule (site.compose group.selectorText)) block =
      .ok fragments) :
    captureStatement mixins indent site node =
      .ok { deferred := Selector.block (site.compose group.selectorText)
              (fragments.inline indent) :: fragments.deferred } := by
  rw [captureStatement, h.kind]
  simp only [captureRule, Node.childOf_of_getElem? h.group_at h.group_kind,
    Node.childOf_of_getElem? h.block_at h.block_kind]
  simp only [bind, Except.bind, hb]
  rfl

/-- A block is captured by capturing its statements. -/
lemma captureBlock_of_mapM {block : Node} {parts : List Fragments} {fragments : Fragments}
    (h : block.children.mapM (captureStatement mixins indent site) = .ok parts)
    (hf : parts.foldl (· ++ ·) {} = fragments) :
    captureBlock mixins indent site block = .ok fragments := by
  rw [captureBlock, h, ← hf]
  rfl

/-- The statements of a block are captured one after the other. -/
lemma mapM_captureStatement_of_written {nodes : List Node} {body : Body} (h : Written nodes body)
    (site : Site) :
    ∃ parts, nodes.mapM (captureStatement mixins indent site) = .ok parts ∧
      ∀ before : Fragments, parts.foldl (· ++ ·) before = before ++ site.capture indent body := by
  induction h generalizing site with
  | nil => exact ⟨[], rfl, fun before => before.append_empty.symm⟩
  | @declaration node name value nodes rest hn _ ih =>
    obtain ⟨parts, hp, hf⟩ := ih site
    refine ⟨{ direct := [trim name.text ++ ": " ++ trim value.text ++ ";"] } :: parts, ?_,
      fun before => ?_⟩
    · rw [List.mapM_cons, captureStatement_of_declaration hn, hp]
      rfl
    · rw [List.foldl_cons, hf, Fragments.append_assoc]
      rfl
  | @rule node group block nodes inner rest hn _ _ ihi ih =>
    obtain ⟨inside, hi, hfi⟩ := ihi (.rule (site.compose group.selectorText))
    obtain ⟨parts, hp, hf⟩ := ih site
    have hb := captureBlock_of_mapM hi (hfi {})
    have hs := captureStatement_of_rule hn hb
    generalize hpart : Fragments.mk [] _ = part at hs
    refine ⟨part :: parts, ?_, fun before => ?_⟩
    · rw [List.mapM_cons, hs, hp]
      rfl
    · rw [List.foldl_cons, hf, Fragments.append_assoc, capture_rule, ← hpart, ← inline_capture]
      rfl

/-- Nested rules that are written out are captured as a whole. -/
lemma captureBlock_of_written {block : Node} {body : Body} (h : Written block.children body) :
    captureBlock mixins indent site block = .ok (site.capture indent body) := by
  obtain ⟨parts, hp, hf⟩ := mapM_captureStatement_of_written h site
  exact captureBlock_of_mapM hp (hf {})

/-! ### Declaring and including -/

variable {name block : Node} {body : Body} {c : Context}

/-- A mixin without parameters takes none. -/
lemma mixinWith_of_parameterless {mixin : String} {fragments : Fragments} (h : node.children = [])
    (c : Context) : mixinWith mixin node fragments c = .ok ⟨.fixed [] {}, fragments⟩ c := by
  have hr : node.find? .restParameter = none := by rw [Node.find?, h, List.find?_nil]
  rw [mixinWith, hr, parameters, h]
  rfl

/-- A mixin without parameters is declared with what its block gives. -/
lemma perform_of_mixin (h : node.IsMixin name block) (hb : Written block.children body)
    (c : Context) :
    perform node c = .ok "" { c with
      mixins := c.mixins.insert (trim name.text)
        ⟨.fixed [] {}, Site.capture c.options.indent .body body⟩ } := by
  have hn := Node.name_of_getElem? h.name_at h.name_kind
  have hd : declareMixin node c = .ok ⟨⟩ { c with
      mixins := c.mixins.insert (trim name.text)
        ⟨.fixed [] {}, Site.capture c.options.indent .body body⟩ } := by
    simp only [declareMixin, hn, Node.body_of_getLast? h.block_at h.block_kind,
      captureBlock_of_written hb, ofExcept, pure_bind, get_bind_apply]
    cases hp : node.find? .parameters with
    | some parameters =>
      exact bind_of_ok (mixinWith_of_parameterless (h.parameterless _ hp) c)
    | none => rfl
  rw [perform, h.kind]
  exact bind_of_ok hd

/-- Without parameters nothing is replaced in the texts of a mixin. -/
lemma expand_of_parameterless (mixin : String) (fragments : Fragments) :
    Mixin.expand ⟨.fixed [] {}, fragments⟩ mixin [] = .ok fragments := by
  change Except.ok (Fragments.mk (fragments.direct.map id) (fragments.deferred.map id)) = _
  rw [List.map_id, List.map_id]

/-- An inclusion of a mixin without parameters gives its lines, and its rules wait under the
selector of the rules around it. -/
lemma perform_of_inclusion {fragments : Fragments} (h : node.IsInclusion name)
    (hm : c.mixins.get? (trim name.text) = some ⟨.fixed [] {}, fragments⟩) :
    perform node c = .ok (fragments.inline c.options.indent)
      (c.enqueueAll (fragments.deferred.map (Selector.place c.chain · ++ "\n\n"))) := by
  have hn := Node.name_of_getElem? h.name_at h.name_kind
  have he : expandMixin c.mixins node [] = .ok fragments := by
    rw [expandMixin, hn]
    simp only [bind, Except.bind, hm, expand_of_parameterless]
    rfl
  rw [perform, h.kind]
  simp only [includeMixin, h.arguments, List.mapM_nil, pure_bind, get_bind_apply, he, ofExcept]
  rfl

/-! ### Placing rules of a mixin -/

/-- Where a rule of a mixin stands in the document that includes it. -/
def Site.At (outer : String) (path : List String) : Site → Prop
  | .body => Selector.chain path = outer
  | .rule selector => Trimmed selector ∧ Selector.chain path = Selector.compose outer selector

/-- A selector that is placed in the mixin first, and under the outer selector then, is the one of
the rule in place. -/
lemma Site.At.rule {outer selector : String} {path : List String} (h : site.At outer path)
    (ht : Trimmed selector) (ha : site.Admits outer selector) :
    Site.At outer (path ++ [selector]) (.rule (site.compose selector)) := by
  have hp : Selector.chain (path ++ [selector]) =
      Selector.compose (Selector.chain path) selector := by simp [Selector.chain]
  cases site with
  | body => exact ⟨ht, by rw [hp, h]; rfl⟩
  | rule parent =>
    obtain ⟨hne, hs, hos, hm⟩ := ha
    have hc : Site.compose selector (.rule parent) = Selector.compose parent selector := if_neg hne
    rw [hc]
    refine ⟨Selector.trimmed_compose h.1 ht hne hs, ?_⟩
    rw [hp, h.2, Selector.compose_assoc h.1 ht hne hs hos hm]

/-- All characters but an opening brace are ample. -/
lemma ample_braceless : Ample (· ≠ '\x7b') := by
  rintro c hc rfl
  exact hc (by decide)

/-- The rules of a mixin, placed under the rules around its inclusion, are the rules in place. -/
lemma map_place_captured {nodes : List Node} {outer : String} {path : List String}
    (h : Written nodes body) (hs : site.At outer path) (hp : body.Placeable outer site)
    (ho : site.Within (Over (· ≠ '\x7b'))) :
    (body.captured site).map (fun r => Selector.place outer (r.text indent)) =
      (body.rules path).map (·.text indent) := by
  induction h generalizing site path with
  | nil => rfl
  | declaration _ _ ih => exact ih hs hp ho
  | @rule node group block nodes inner rest _ _ _ ihi ih =>
    obtain ⟨hb, ha, hi, hr⟩ := hp
    have hat := hs.rule group.trimmed_selectorText ha
    have hover := over_siteCompose ample_braceless ho fun c hc he => hb (he ▸ hc)
    have hplace : Selector.place outer (CapturedRule.text indent
        ⟨site.compose group.selectorText, inner.declarations⟩) =
        FlatRule.text indent ⟨path ++ [group.selectorText], inner.declarations⟩ := by
      rw [CapturedRule.text, Selector.place_block fun hc => hover _ hc rfl, FlatRule.text, hat.2]
    simp only [Body.captured, Body.rules, List.cons_append, List.map_cons, List.map_append]
    rw [hplace, ihi hat hi hover, ih hs hr ho]

/-- An inclusion gives the lines of the mixin, and makes the rules of the mixin wait as they would
be in place. -/
lemma statement_of_inclusion (h : node.IsInclusion name) {nodes : List Node}
    (hb : Written nodes body)
    (hm : c.mixins.get? (trim name.text) =
      some ⟨.fixed [] {}, Site.capture c.options.indent .body body⟩)
    (hp : body.Placeable c.chain .body) (hd : c.depth < c.options.maxDepth.toNat) :
    statement node c = .ok (FlatRule.lines c.options.indent body.declarations)
      (c.enqueueAll ((body.rules c.ancestors).map (·.fragment c.options.indent))) := by
  have hr : (body.captured .body).map
        (fun r => Selector.place c.chain (r.text c.options.indent)) =
      (body.rules c.ancestors).map (·.text c.options.indent) :=
    map_place_captured hb rfl hp trivial
  have hw : (Site.capture c.options.indent .body body).deferred.map
        (Selector.place c.chain · ++ "\n\n") =
      (body.rules c.ancestors).map (·.fragment c.options.indent) := by
    have := congrArg (List.map (· ++ "\n\n")) hr
    simpa only [List.map_map, Function.comp_def, Site.capture, FlatRule.fragment] using this
  have hl : (Site.capture c.options.indent .body body).inline c.options.indent =
      FlatRule.lines c.options.indent body.declarations := inline_capture body
  rw [← hw, ← hl]
  exact statement_of_perform hd (perform_of_inclusion (c := c.descend) h hm)

/-- A mixin without parameters is included in a rule as if its statements were written there: the
rule gets the same lines, and the same rules wait. They are in another order, a rule of a mixin
being before the rules inside it. -/
theorem inclusion_writes_in_place {mixin inclusion word : Node} (before : Context)
    (hm : mixin.IsMixin name block) (hb : Written block.children body)
    (hi : inclusion.IsInclusion word) (hn : trim word.text = trim name.text)
    (hd : before.depth < before.options.maxDepth.toNat) :
    ∃ m : Mixin,
      statement mixin before =
        .ok "" { before with mixins := before.mixins.insert (trim name.text) m } ∧
      ∀ c : Context, c.mixins.get? (trim name.text) = some m → c.options = before.options →
        c.Deferring → body.Placeable c.chain .body →
        c.depth + max 1 body.nesting ≤ c.options.maxDepth.toNat →
        ∃ texts,
          statement inclusion c = .ok (String.join texts)
            (c.enqueueAll ((body.rules c.ancestors).map (·.fragment c.options.indent))) ∧
          block.children.mapM statement c = .ok texts
            (c.enqueueAll ((body.closing c.ancestors).map (·.fragment c.options.indent))) ∧
          (body.rules c.ancestors).Perm (body.closing c.ancestors) := by
  refine ⟨⟨.fixed [] {}, Site.capture before.options.indent .body body⟩,
    statement_of_perform hd (perform_of_mixin hm hb before.descend), ?_⟩
  intro c hf ho hc hp hl
  obtain ⟨texts, ht, hj⟩ := mapM_statement_of_written hb hc (by omega)
  refine ⟨texts, ?_, ht, (body.closing_perm c.ancestors).symm⟩
  rw [← ho, ← hn] at hf
  rw [hj]
  exact statement_of_inclusion hi hb hf hp (by omega)

/-- A rule of a mixin with rules inside, one of which puts a mark at its end. -/
def themedRules : List Node :=
  [.declaration "x" (.literal "1"),
    .rule ["& a"] [.rule [".t &"] [.declaration "y" (.literal "2")], .rule ["b"] []]]

/-- A mixin of nested rules writes what stands in its place. -/
theorem inclusion_writes_in_place_themedRules :
    ∃ m : Mixin,
      statement (.mixin "m" [] themedRules) {} = .ok "" { mixins := Registry.insert {} "m" m } ∧
      ∃ texts,
        statement (.inclusion "m" [])
            { mixins := Registry.insert {} "m" m, ancestors := ["nav", ".x &"] } =
          .ok (String.join texts)
            { mixins := Registry.insert {} "m" m, ancestors := ["nav", ".x &"],
              queue := [".x nav a\x7b\n\x7d\n\n", ".t .x nav a\x7b\n\ty: 2;\n\x7d\n\n",
                ".x nav a b\x7b\n\x7d\n\n"] } ∧
        themedRules.mapM statement
            { mixins := Registry.insert {} "m" m, ancestors := ["nav", ".x &"] } =
          .ok texts
            { mixins := Registry.insert {} "m" m, ancestors := ["nav", ".x &"],
              queue := [".t .x nav a\x7b\n\ty: 2;\n\x7d\n\n", ".x nav a b\x7b\n\x7d\n\n",
                ".x nav a\x7b\n\x7d\n\n"] } := by
  obtain ⟨body, h, hb⟩ : ∃ body, Written themedRules body ∧
      body = .declaration "x" "1" (.rule "& a" (.rule ".t &" (.declaration "y" "2" .nil)
        (.rule "b" .nil .nil)) .nil) := by
    refine ⟨_, .declaration ⟨rfl, rfl, rfl, rfl, rfl⟩ (.rule ⟨rfl, rfl, rfl, rfl, rfl⟩
      (.rule ⟨rfl, rfl, rfl, rfl, rfl⟩ (.declaration ⟨rfl, rfl, rfl, rfl, rfl⟩ .nil)
        (.rule ⟨rfl, rfl, rfl, rfl, rfl⟩ .nil .nil)) .nil), by decide +kernel⟩
  have hm : (Node.mixin "m" [] themedRules).IsMixin (.identifier "m") (.block themedRules) :=
    ⟨rfl, rfl, rfl, fun _ hp => (Option.some_ne_none _ hp.symm).elim, rfl, rfl⟩
  have hi : (Node.inclusion "m" []).IsInclusion (.identifier "m") := ⟨rfl, rfl, rfl, rfl⟩
  have hn : trim "m" = "m" := by decide +kernel
  have hc : Selector.chain ["nav", ".x &"] = ".x nav" := by decide +kernel
  have hp : body.Placeable (Selector.chain ["nav", ".x &"]) .body := by
    rw [hb, hc]
    exact ⟨by decide, trivial,
      ⟨by decide, ⟨by decide, by decide, by decide +kernel, .inl (by decide +kernel)⟩, trivial,
        by decide, ⟨by decide, by decide, by decide +kernel, .inl (by decide +kernel)⟩, trivial,
        trivial⟩, trivial⟩
  have hl : 0 + max 1 body.nesting ≤ 256 := by
    rw [hb]
    decide
  have hr : (body.rules ["nav", ".x &"]).map (·.fragment "\t") =
      [".x nav a\x7b\n\x7d\n\n", ".t .x nav a\x7b\n\ty: 2;\n\x7d\n\n",
        ".x nav a b\x7b\n\x7d\n\n"] := by
    rw [hb]
    decide +kernel
  have hw : (body.closing ["nav", ".x &"]).map (·.fragment "\t") =
      [".t .x nav a\x7b\n\ty: 2;\n\x7d\n\n", ".x nav a b\x7b\n\x7d\n\n",
        ".x nav a\x7b\n\x7d\n\n"] := by
    rw [hb]
    decide +kernel
  obtain ⟨m, hd, h⟩ := inclusion_writes_in_place {} hm h hi rfl (by decide)
  rw [show (Node.identifier "m").text = "m" from rfl, hn] at hd h
  obtain ⟨texts, hs, ht, -⟩ := h
    { mixins := Registry.insert {} "m" m, ancestors := ["nav", ".x &"] }
    (by simp [Registry.get?_insert]) rfl ⟨by simp, by simp⟩ hp hl
  rw [← hr, ← hw]
  exact ⟨m, hd, texts, hs, ht⟩

end Render

namespace Compiler

/-- A rule with a mark at its end, in a rule without one. -/
def markedRules : List Node := [.rule ["a"] [.rule [".x &"] [.declaration "x" (.literal "1")]]]

/-- The mark stands for the rule of the mixin alone, and the rule that includes the mixin goes in
front. In place the mark stands for both. -/
theorem captured_mark_misses_includer :
    (Compiler.compile {} (.stylesheet [.mixin "m" [] markedRules,
      .rule ["nav"] [.inclusion "m" []]])).1 =
        .ok "nav\x7b\n\x7d\n\nnav a\x7b\n\x7d\n\nnav .x a\x7b\n\tx: 1;\n\x7d" ∧
    (Compiler.compile {} (.stylesheet [.rule ["nav"] markedRules])).1 =
        .ok "nav\x7b\n\x7d\n\n.x nav a\x7b\n\tx: 1;\n\x7d\n\nnav a\x7b\n\x7d" := by
  decide +kernel

end Compiler

end Stylesheet
