import Stylesheet.Compiler
import Stylesheet.Node.Build
import Stylesheet.Proofs.Discipline
import Stylesheet.Proofs.Spelling

/-!
# Flattening

A document of rules compiles to its rules without their nesting: `Compiler.flattens_nested_rules`.
The proof follows the queue. The statements of a block give its own lines and make the rules below
it wait, in the order of `Body.closing`; when the outermost rule is closed, they follow it.
-/

namespace Stylesheet

/-! ### Statements that succeed -/

namespace Context

/-- Makes rules wait. -/
def enqueueAll (fragments : List String) (c : Context) : Context :=
  { c with queue := c.queue ++ fragments }

/-- Nothing is added to what waits. -/
@[simp] lemma enqueueAll_nil (c : Context) : c.enqueueAll [] = c := by
  simp [enqueueAll]

/-- What waits is added to one after the other. -/
lemma enqueueAll_enqueueAll (c : Context) (fragments more : List String) :
    (c.enqueueAll fragments).enqueueAll more = c.enqueueAll (fragments ++ more) := by
  simp [enqueueAll]

/-- What waits does not depend on the rule that is open. -/
lemma closeRule_enqueueAll_openRule (c : Context) (selector : String) (fragments : List String) :
    ((c.openRule selector).enqueueAll fragments).closeRule = c.enqueueAll fragments := by
  simp [openRule, enqueueAll, closeRule]

/-- A rule that is opened here has to wait: others are open, and it does not stand directly in the
body of a loop. -/
structure Deferring (c : Context) : Prop where
  nested : c.ancestors ≠ []
  unframed : ∀ n ∈ c.frames.getLast?, n < c.ancestors.length

/-- Inside a rule that is opened, rules have to wait. -/
lemma deferring_openRule {c : Context} (h : ∀ n ∈ c.frames.getLast?, n ≤ c.ancestors.length)
    (selector : String) : (c.openRule selector).Deferring where
  nested := by simp [openRule]
  unframed n hn := by
    have := h n hn
    simp only [openRule, List.length_append, List.length_singleton]
    omega

/-- A rule in a state that defers waits. -/
lemma Deferring.in_place_eq_false {c : Context} (h : c.Deferring) :
    (!c.isNested || c.isUnrollingChild) = false := by
  have hn : c.frames.getLast? ≠ some c.ancestors.length := fun he =>
    Nat.lt_irrefl _ (h.unframed _ he)
  simp [isNested, isUnrollingChild, h.nested, hn]

end Context

namespace Render

open Text

variable {node : Node} {c m : Context} {text : String}

/-- A statement within the limit is performed one level deeper. -/
lemma statement_of_perform (hd : c.depth < c.options.maxDepth.toNat)
    (h : perform node c.descend = .ok text m) : statement node c = .ok text m.ascend := by
  have hl : ¬c.descend.tooDeep := by
    rw [Context.tooDeep, decide_eq_true_eq]
    exact Nat.not_lt.2 hd
  have hr : descend c = .ok ⟨⟩ c.descend := by rw [descend_apply, if_neg hl]
  rw [statement]
  simp only [locating, bind_of_ok hr, ensuring, h]

/-- A block gives the texts of its statements one after the other. -/
lemma block_of_mapM {texts : List String} (hk : node.kind = .block)
    (h : node.children.mapM statement c = .ok texts m) :
    block node c = .ok (String.join texts) m := by
  rw [block]
  simp [hk, bind_of_ok h]

/-- A declaration of a property gives a line. -/
lemma perform_of_property {name given : Node} (hn : node.IsProperty name given)
    (hv : value .emit given c = .ok text c) :
    perform node c =
      .ok ("\n" ++ c.options.indent ++ trim name.text ++ ": " ++ text ++ ";") c := by
  have hp : node.name = .ok (trim name.text) := by
    rw [Node.name, Node.childOf_of_getElem? hn.name_at hn.name_kind]
    rfl
  rw [perform, hn.kind]
  simp only [declaration, hp, Node.child_of_getElem? hn.value_at, ofExcept, pure_bind_apply,
    bind_of_ok hv, get_bind_apply, pure_apply]

/-- A rule is performed by rendering its block under its selector. -/
lemma perform_of_rule {group body : Node} (hn : node.IsRule group body) :
    perform node = rule group.selectorText (block body) := by
  rw [perform, hn.kind]
  simp only [ruleStatement, Node.childOf_of_getElem? hn.group_at hn.group_kind,
    Node.childOf_of_getElem? hn.block_at hn.block_kind, ofExcept, pure_bind]

/-- The text of a rule goes where it stands, or has to wait for the rules around it. -/
lemma rule_of_body {selector : String} {body : Render String}
    {declarations : List (String × String)} {fragments : List String}
    (h : body (c.openRule selector) =
      .ok (FlatRule.lines c.options.indent declarations)
        ((c.openRule selector).enqueueAll fragments)) :
    rule selector body c =
      if !c.isNested || c.isUnrollingChild then
        .ok (FlatRule.fragment c.options.indent ⟨c.ancestors ++ [selector], declarations⟩)
          (c.enqueueAll fragments)
      else .ok "" (c.enqueueAll (fragments ++
        [FlatRule.fragment c.options.indent ⟨c.ancestors ++ [selector], declarations⟩])) := by
  have hb : ensuring body Context.closeRule (c.openRule selector) =
      .ok (FlatRule.lines c.options.indent declarations) (c.enqueueAll fragments) := by
    simp only [ensuring, h, Context.closeRule_enqueueAll_openRule]
  have hp : Selector.chain (c.ancestors ++ [selector]) = Selector.compose c.chain selector := by
    simp [Selector.chain, Context.chain]
  simp only [FlatRule.fragment, FlatRule.text, hp, ← Context.enqueueAll_enqueueAll]
  rw [rule, modify_bind_apply, bind_of_ok hb, get_bind_apply]
  -- Where the text goes depends on the stacks alone, and the body has only changed the queue.
  change (if !c.isNested || c.isUnrollingChild then _ else _ : Render String) _ = _
  split <;> rfl

/-- A rule gives its block where it stands, or makes it wait after the rules inside. -/
lemma statement_of_rule {group body : Node} {texts fragments : List String}
    {declarations : List (String × String)} (hn : node.IsRule group body)
    (hd : c.depth < c.options.maxDepth.toNat)
    (ht : body.children.mapM statement (c.descend.openRule group.selectorText) =
      .ok texts ((c.descend.openRule group.selectorText).enqueueAll fragments))
    (hj : String.join texts = FlatRule.lines c.options.indent declarations) :
    statement node c =
      if !c.isNested || c.isUnrollingChild then
        .ok (FlatRule.fragment c.options.indent
          ⟨c.ancestors ++ [group.selectorText], declarations⟩) (c.enqueueAll fragments)
      else .ok "" (c.enqueueAll (fragments ++ [FlatRule.fragment c.options.indent
        ⟨c.ancestors ++ [group.selectorText], declarations⟩])) := by
  have hr := rule_of_body (hj ▸ block_of_mapM hn.block_kind ht)
  rw [← perform_of_rule hn] at hr
  change _ = if !c.isNested || c.isUnrollingChild then _ else _ at hr
  split at hr
  · next hp =>
    rw [if_pos hp]
    exact statement_of_perform hd hr
  · next hp =>
    rw [if_neg hp]
    exact statement_of_perform hd hr

/-- The statements of a block in which rules wait give its lines, and the rules below it wait. -/
lemma mapM_statement_of_composed {L : String → Prop} {ρ : String → String} {nodes : List Node}
    {body : Body} (h : Composed L ρ nodes body) (hc : c.Deferring) (hρ : c.emitted = ρ)
    (hd : body.nesting ≤ c.options.maxDepth.toNat - c.depth) :
    ∃ texts,
      nodes.mapM statement c =
        .ok texts (c.enqueueAll ((body.closing c.ancestors).map (·.fragment c.options.indent))) ∧
      String.join texts = FlatRule.lines c.options.indent body.declarations := by
  induction h generalizing c with
  | nil => exact ⟨[], by simp [Body.closing], by simp [FlatRule.lines, Body.declarations]⟩
  | @declaration node name value nodes rest hn _ hv _ ih =>
    simp only [Body.nesting] at hd
    obtain ⟨texts, ht, hj⟩ := ih hc hρ (by omega)
    have he : c.descend.emitted = ρ := hρ
    have hp := perform_of_property hn (value_emit_of_spelled hv c.descend)
    rw [he] at hp
    have hs : statement node c = .ok _ c := statement_of_perform (by omega) hp
    refine ⟨_, mapM_cons_of_ok hs ht, ?_⟩
    rw [String.join_cons, hj]
    simp [FlatRule.lines, Body.declarations, Context.descend]
  | @rule node group body nodes inner rest hn _ _ _ ihi ih =>
    simp only [Body.nesting] at hd
    -- The rules inside wait first, then the rule itself, and then those of the statements after it.
    have ho := Context.deferring_openRule (c := c.descend)
      (fun n hn => Nat.le_of_lt (hc.unframed n hn)) group.selectorText
    obtain ⟨inside, hti, hji⟩ := ihi ho hρ (by simp only [Context.openRule, Context.descend]; omega)
    have hr := statement_of_rule hn (by omega) hti hji
    rw [hc.in_place_eq_false, if_neg (by decide)] at hr
    generalize hw : _ ++ [FlatRule.fragment _ _] = waiting at hr
    obtain ⟨texts, ht, hj⟩ := ih (c := c.enqueueAll waiting) ⟨hc.nested, hc.unframed⟩ hρ
      (by change _ ≤ c.options.maxDepth.toNat - c.depth; omega)
    refine ⟨"" :: texts, ?_, ?_⟩
    · rw [mapM_cons_of_ok hr ht, Context.enqueueAll_enqueueAll, ← hw]
      simp [Body.closing, Context.openRule, Context.descend, Context.enqueueAll]
    · simpa [Body.declarations, Context.enqueueAll] using hj

/-- Nested rules that are written out give the lines of the outermost one, and the others wait. -/
lemma mapM_statement_of_written {nodes : List Node} {body : Body} (h : Written nodes body)
    (hc : c.Deferring) (hd : c.depth + body.nesting ≤ c.options.maxDepth.toNat) :
    ∃ texts,
      nodes.mapM statement c =
        .ok texts (c.enqueueAll ((body.closing c.ancestors).map (·.fragment c.options.indent))) ∧
      String.join texts = FlatRule.lines c.options.indent body.declarations :=
  mapM_statement_of_composed (h.composed c.emitted) hc rfl (by omega)

/-! ### Documents -/

/-- Outside of all rules, what has waited is written. -/
lemma flushed_of_outermost (hc : c.ancestors = []) :
    flushed c = .ok (String.join (c.queue.map fun fragment => trim fragment ++ "\n\n"))
      { c with queue := [] } := by
  have hn : c.flush = (c.queue, { c with queue := [] }) := by
    simp [Context.flush, Context.isNested, hc]
  rw [flushed, get_bind_apply, hn]
  rfl

/-- A statement of a document and the rules that waited for it. -/
def outermost (node : Node) : Render String := do
  let text ← statement node
  return text ++ (← flushed)

/-- An outermost statement is followed by what it makes wait. -/
lemma outermost_of_statement {fragments : List String} (hc : c.ancestors = []) (hq : c.queue = [])
    (h : statement node c = .ok text (c.enqueueAll fragments)) :
    outermost node c =
      .ok (text ++ String.join (fragments.map fun fragment => trim fragment ++ "\n\n")) c := by
  have hf := flushed_of_outermost (c := c.enqueueAll fragments) hc
  have hw : (c.enqueueAll fragments).queue = fragments := by simp [Context.enqueueAll, hq]
  have he : { c.enqueueAll fragments with queue := [] } = c := by
    rw [← hq]
    rfl
  rw [hw, he] at hf
  rw [outermost, bind_of_ok h, bind_of_ok hf]
  rfl

/-- The rules that waited leave the queue, so a property that does not look at it is kept. -/
lemma Discipline.respects_outermost {P : Context → Prop}
    (hs : (invariant P).Respects (statement node)) (hq : ∀ c, P c → P c.flush.2) :
    (invariant P).Respects (outermost node) := by
  refine hs.bind fun text => ?_
  refine Respects.bind ⟨fun {c _ c'} h => ?_, fun h => by cases h⟩ fun _ => respects_pure _
  cases h
  exact hq c

/-- A document keeps an invariant that its statements keep. -/
lemma Discipline.respects_document {root : Node} {P : Context → Prop}
    (hs : root.kind = .stylesheet →
      ∀ node ∈ root.children, (invariant P).Respects (statement node))
    (hq : ∀ c, P c → P c.flush.2) : (invariant P).Respects (document root) := by
  unfold document
  split
  · have ha : (invariant P).Admits (root.malformed .notAStylesheet) := fun c h => h
    refine (respects_throw ha).bind_of_yields ?_
    intro c a m h
    cases h
  · next hk =>
    refine Respects.bind (respects_mapM fun node hn => ?_) fun texts => ?_
    · exact respects_outermost (hs (by simpa using hk) node hn) hq
    · exact respects_get.bind fun c => respects_pure _

/-- A document of rules gives its rules without their nesting, and leaves the state as it was. -/
lemma mapM_outermost_of_written {nodes : List Node} {body : Body} (h : Written nodes body)
    (hr : ∀ node ∈ nodes, node.kind = .rule) (hc : c.ancestors = []) (hq : c.queue = [])
    (hf : c.frames = []) (hd : c.depth + body.nesting ≤ c.options.maxDepth.toNat) :
    ∃ texts, nodes.mapM outermost c = .ok texts c ∧
      String.join texts =
        String.join (body.flattened.map fun r => r.written c.options.indent ++ "\n\n") := by
  induction h with
  | nil => exact ⟨[], rfl, rfl⟩
  | declaration hn =>
    have hk := hr _ List.mem_cons_self
    rw [hn.kind] at hk
    cases hk
  | @rule node group body nodes inner rest hn hi _ _ ih =>
    simp only [Body.nesting] at hd
    -- No rule is open around this one, so its block goes where it stands and the queue, which only
    -- holds the rules below it, is written right after it.
    obtain ⟨texts, ht, hj⟩ := ih (fun node hm => hr node (List.mem_cons_of_mem _ hm)) (by omega)
    have ho := Context.deferring_openRule (c := c.descend) (by simp [Context.descend, hf])
      group.selectorText
    obtain ⟨inside, hti, hji⟩ := mapM_statement_of_written hi ho
      (by change c.depth + 1 + _ ≤ c.options.maxDepth.toNat; omega)
    have hr := statement_of_rule hn (by omega) hti hji
    rw [if_pos (by simp [Context.isNested, hc])] at hr
    refine ⟨_, mapM_cons_of_ok (outermost_of_statement hc hq hr) ht, ?_⟩
    have hw : (inner.closing [group.selectorText]).map
          (fun r => r.written c.options.indent ++ "\n\n") =
        (inner.closing [group.selectorText]).map
          (fun r => trim (r.fragment c.options.indent) ++ "\n\n") :=
      List.map_congr_left fun r hm => by rw [FlatRule.written_of_mem_closing hm]
    simp only [Body.flattened, List.cons_append, List.map_cons, List.map_append, hw,
      String.join_cons, String.join_append, hj]
    simp [FlatRule.written, FlatRule.isOutermost, FlatRule.fragment, hc, Context.descend,
      Context.openRule, String.append_assoc, Function.comp_def]

/-- The text of a document is trimmed; the custom properties come first only if there are any. -/
lemma document_of_written {root : Node} {body : Body} (hk : root.kind = .stylesheet)
    (h : Written root.children body) (hr : ∀ node ∈ root.children, node.kind = .rule)
    (options : Options) (source : Option Source)
    (hd : body.nesting ≤ options.maxDepth.toNat) :
    document root { options, source } =
      .ok (trim (String.join (body.flattened.map fun r => r.written options.indent ++ "\n\n")))
        { options, source } := by
  obtain ⟨texts, ht, hj⟩ := mapM_outermost_of_written (c := { options, source }) h hr rfl rfl rfl
    (by simpa using hd)
  simp only [document, hk, ne_eq, not_true_eq_false, if_false]
  refine (bind_of_ok ht).trans ?_
  rw [get_bind_apply, hj]
  rfl

end Render

namespace Compiler

/-- A document of rules that nest within the limit compiles to its rules without their nesting, each
exactly once. Only the blanks that the selector of a waiting rule starts with are lost: where there
are none, the blocks are written as they are. -/
theorem flattens_nested_rules (compiler : Compiler) {root : Node} {body : Body}
    (hk : root.kind = .stylesheet) (hr : ∀ node ∈ root.children, node.kind = .rule)
    (h : Written root.children body)
    (hd : body.nesting ≤ compiler.context.options.maxDepth.toNat) :
    (compiler.compile root).1 =
        .ok (Text.trim (String.join
          (body.flattened.map fun r => r.written compiler.context.options.indent ++ "\n\n"))) ∧
      body.flattened.Perm (body.rules []) ∧
      ((∀ r ∈ body.flattened, r.isOutermost = false →
          ∀ c ∈ (Selector.chain r.path).toList.head?, ¬Text.isBlank c) →
        (compiler.compile root).1 =
          .ok (Text.trim (String.join
            (body.flattened.map (·.fragment compiler.context.options.indent))))) := by
  have hc : (compiler.compile root).1 = .ok (Text.trim (String.join
      (body.flattened.map fun r => r.written compiler.context.options.indent ++ "\n\n"))) := by
    simp only [compile, Context.reset, Render.document_of_written hk h hr _ _ hd]
  refine ⟨hc, body.flattened_perm, fun hs => ?_⟩
  have hw : (body.flattened.map fun r => r.written compiler.context.options.indent ++ "\n\n") =
      body.flattened.map (·.fragment compiler.context.options.indent) :=
    List.map_congr_left fun r hm => by rw [FlatRule.written_eq_text (hs r hm), FlatRule.fragment]
  rw [hc, hw]

/-- A rule below another one below a third. -/
def threeLevels : Node :=
  .stylesheet
    [.rule [".a"]
      [.declaration "x" (.literal "1"),
        .rule [".b"] [.rule ["&:hover"] [.declaration "z" (.literal "3")],
          .declaration "y" (.literal "2")],
        .declaration "w" (.literal "4")],
      .rule ["p"] []]

/-- Three levels of rules are flattened. -/
theorem flattens_nested_rules_threeLevels :
    (Compiler.compile {} threeLevels).1 =
      .ok (".a\x7b\n\tx: 1;\n\tw: 4;\n\x7d\n\n.a .b:hover\x7b\n\tz: 3;\n\x7d\n\n" ++
        ".a .b\x7b\n\ty: 2;\n\x7d\n\np\x7b\n\x7d") := by
  obtain ⟨body, h, hb⟩ : ∃ body, Written threeLevels.children body ∧
      body = .rule ".a" (.declaration "x" "1" (.rule ".b" (.rule "&:hover"
        (.declaration "z" "3" .nil) (.declaration "y" "2" .nil)) (.declaration "w" "4" .nil)))
        (.rule "p" .nil .nil) := by
    refine ⟨_, .rule ⟨rfl, rfl, rfl, rfl, rfl⟩ (.declaration ⟨rfl, rfl, rfl, rfl, rfl⟩
      (.rule ⟨rfl, rfl, rfl, rfl, rfl⟩
        (.rule ⟨rfl, rfl, rfl, rfl, rfl⟩ (.declaration ⟨rfl, rfl, rfl, rfl, rfl⟩ .nil)
          (.declaration ⟨rfl, rfl, rfl, rfl, rfl⟩ .nil))
        (.declaration ⟨rfl, rfl, rfl, rfl, rfl⟩ .nil)))
      (.rule ⟨rfl, rfl, rfl, rfl, rfl⟩ .nil .nil), by decide +kernel⟩
  have hd : body.nesting ≤ 256 := by
    rw [hb]
    decide
  rw [(flattens_nested_rules {} rfl (by decide) h hd).1, hb]
  decide +kernel

/-- A rule below an outermost rule whose selector starts with the parent mark. -/
def spacedSelector : Node := .stylesheet [.rule ["x"] [], .rule ["& b"] [.rule ["c"] []]]

/-- The selector of the rule that waits is written without the blank that it starts with. -/
theorem waiting_rule_loses_blank :
    ∃ body, Written spacedSelector.children body ∧ body.nesting ≤ 256 ∧
      (∀ node ∈ spacedSelector.children, node.kind = .rule) ∧
      (Compiler.compile {} spacedSelector).1 ≠
        .ok (Text.trim (String.join (body.flattened.map (·.fragment "\t")))) := by
  obtain ⟨body, h, hb⟩ : ∃ body, Written spacedSelector.children body ∧
      body = .rule "x" .nil (.rule "& b" (.rule "c" .nil .nil) .nil) := by
    refine ⟨_, .rule ⟨rfl, rfl, rfl, rfl, rfl⟩ .nil (.rule ⟨rfl, rfl, rfl, rfl, rfl⟩
      (.rule ⟨rfl, rfl, rfl, rfl, rfl⟩ .nil .nil) .nil), by decide +kernel⟩
  refine ⟨body, h, ?_, by decide, ?_⟩
  · rw [hb]
    decide
  · rw [hb]
    decide +kernel

end Compiler

end Stylesheet
