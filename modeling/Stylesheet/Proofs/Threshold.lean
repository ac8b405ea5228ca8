import Stylesheet.Proofs.Limit
import Stylesheet.Proofs.Reach
import Mathlib.Order.Bounds.Basic

/-!
# Where the limit is exceeded

A statement and an expression need one level more than what is inside them. `Needs` says that a step
succeeds, and keeps the level, if the levels that it needs are left, and that it fails for want of
them otherwise. Documents of rules and declarations need as many levels as statements and
expressions lie on a path into them, so they compile exactly if the options allow so many
(`compiles_iff_levels_le`).
-/

namespace Stylesheet

/-- The nodes that are rendered one level deeper than what is around them. -/
def Kind.isLevel : Kind → Bool
  | .rule | .declaration | .variableDeclaration | .mixinDeclaration | .includeDeclaration
  | .forLoop | .eachLoop | .conditional | .expression => true
  | _ => false

namespace Node

/-- The largest number of statements and expressions on a path from a node into its tree. -/
def levels (node : Node) : ℕ :=
  (if node.kind.isLevel then 1 else 0) + (node.children.map levels).foldr max 0
termination_by sizeOf node
decreasing_by exact sizeOf_lt_of_mem ‹_›

/-- A path from a node into its tree, without the node itself. -/
def IsPath (node : Node) (nodes : List Node) : Prop :=
  (node :: nodes).IsChain fun parent child => child ∈ parent.children

/-- The numbers of statements and expressions on the paths from a node into its tree. -/
def pathLevels (node : Node) : Set ℕ :=
  {n | ∃ nodes, node.IsPath nodes ∧ (node :: nodes).countP (·.kind.isLevel) = n}

/-- A value is a literal, or an expression with such a value as its only operand. -/
inductive IsOperand : Node → Prop where
  | literal {node} :
    node.kind = .literal →
    node.children = [] →
    IsOperand node
  | expression {node operand} :
    node.kind = .expression →
    node.children = [operand] →
    IsOperand operand →
    IsOperand node

/-- A statement is a declaration of a property, or a rule with such statements. -/
inductive IsStatement : Node → Prop where
  | declaration {node name value} :
    node.kind = .declaration →
    node.children = [name, value] →
    name.kind = .identifier →
    name.children = [] →
    IsOperand value →
    IsStatement node
  | rule {node group block} :
    node.kind = .rule →
    node.children = [group, block] →
    group.kind = .selectorGroup →
    (∀ selector ∈ group.children, selector.kind = .selector ∧ selector.children = []) →
    block.kind = .block →
    (∀ child ∈ block.children, IsStatement child) →
    IsStatement node

variable {node : Node}

/-! ### Levels of a tree -/

/-- The number of levels is the largest on any path. -/
lemma isGreatest_levels (node : Node) : IsGreatest node.pathLevels node.levels := by
  induction node using childInduction with
  | step node ih =>
    rw [levels]
    constructor
    · obtain h | h := foldr_max_mem (node.children.map levels)
      · refine ⟨[], .singleton node, ?_⟩
        rw [h, List.countP_cons, List.countP_nil, Nat.add_comm]
      · obtain ⟨child, hc, hl⟩ := List.mem_map.1 h
        obtain ⟨nodes, path, hn⟩ := (ih child hc).1
        refine ⟨child :: nodes, path.cons_cons hc, ?_⟩
        rw [List.countP_cons, hn, hl, Nat.add_comm]
    · rintro _ ⟨nodes, path, rfl⟩
      rw [List.countP_cons, Nat.add_comm]
      refine Nat.add_le_add_left ?_ _
      cases nodes with
      | nil => exact Nat.zero_le _
      | cons child nodes =>
        obtain ⟨hc, path⟩ := List.isChain_cons_cons.1 path
        have widest : child.levels ≤ (node.children.map levels).foldr max 0 :=
          foldr_max_le.1 le_rfl _ (List.mem_map_of_mem hc)
        exact ((ih child hc).2 ⟨nodes, path, rfl⟩).trans widest

/-- A leaf that is no level has none. -/
lemma levels_of_leaf (hk : node.kind.isLevel = false) (hc : node.children = []) :
    node.levels = 0 := by
  rw [levels, hk, hc]
  rfl

/-- An expression is one level more than its operand. -/
lemma levels_of_expression {operand : Node} (hk : node.kind = .expression)
    (hc : node.children = [operand]) : node.levels = operand.levels + 1 := by
  rw [levels, hk, hc]
  simp [Kind.isLevel, Nat.add_comm]

/-- A declaration is one level more than its value. -/
lemma levels_of_declaration {name value : Node} (hk : node.kind = .declaration)
    (hc : node.children = [name, value]) (hn : name.kind = .identifier)
    (hl : name.children = []) : node.levels = value.levels + 1 := by
  have leaf : name.levels = 0 := levels_of_leaf (by rw [hn]; rfl) hl
  rw [levels, hk, hc]
  simp [Kind.isLevel, leaf, Nat.add_comm]

/-- A rule is one level more than what is in its block. -/
lemma levels_of_rule {group block : Node} (hk : node.kind = .rule)
    (hc : node.children = [group, block]) (hg : group.kind = .selectorGroup)
    (hs : ∀ selector ∈ group.children, selector.kind = .selector ∧ selector.children = [])
    (hb : block.kind = .block) :
    node.levels = (block.children.map levels).foldr max 0 + 1 := by
  have flat : group.levels = 0 := by
    rw [levels, hg]
    obtain h | h := foldr_max_mem (group.children.map levels)
    · simpa [Kind.isLevel] using h
    · obtain ⟨selector, hm, hl⟩ := List.mem_map.1 h
      rw [← hl, levels_of_leaf (by rw [(hs selector hm).1]; rfl) (hs selector hm).2]
      rfl
  have inside : block.levels = (block.children.map levels).foldr max 0 := by
    rw [levels, hb]
    simp [Kind.isLevel]
  rw [levels, hk, hc]
  simp [Kind.isLevel, flat, inside, Nat.add_comm]

end Node

namespace Render

/-- A step needs a number of levels: it succeeds and keeps the level if they are left, and it fails
for want of them if they are not. -/
structure Needs {α : Type} (levels : ℕ) (step : Render α) : Prop where
  ok : ∀ c, c.depth + levels ≤ c.options.maxDepth.toNat → ∃ a m, step c = .ok a m ∧ c.Level m
  fails : ∀ c, c.depth ≤ c.options.maxDepth.toNat →
    c.options.maxDepth.toNat < c.depth + levels → FailsWith step c (.tooDeep c.options.maxDepth)

variable {α β : Type} {step : Render α} {k l : ℕ}

/-- A step that keeps the level wherever it starts needs none. -/
lemma needs_zero (h : ∀ c, ∃ a m, step c = .ok a m ∧ c.Level m) : Needs 0 step where
  ok c _ := h c
  fails c hd hl := by omega

/-- A result that is given needs no levels. -/
lemma needs_pure (a : α) : Needs 0 (pure a : Render α) := needs_zero fun c => ⟨a, c, rfl, .refl c⟩

/-- Reading the state needs no levels. -/
lemma needs_get : Needs 0 (get : Render Context) := needs_zero fun c => ⟨c, c, rfl, .refl c⟩

/-- A change on the same level needs none. -/
lemma needs_modify {f : Context → Context} (h : ∀ c : Context, c.Level (f c)) :
    Needs 0 (modify f) :=
  needs_zero fun c => ⟨⟨⟩, f c, rfl, h c⟩

/-- A sequence needs the levels of the part that needs more. -/
lemma Needs.bind {next : α → Render β} (hs : Needs k step) (hn : ∀ a, Needs l (next a)) :
    Needs (max k l) (step >>= next) where
  ok c h := by
    obtain ⟨a, m, ha, level⟩ := hs.ok c (by omega)
    obtain ⟨b, m', hb, level'⟩ := (hn a).ok m (by rw [level.depth, level.options]; omega)
    exact ⟨b, m', by rw [bind_of_ok ha, hb], level.trans level'⟩
  fails c hd h := by
    by_cases hk : c.options.maxDepth.toNat < c.depth + k
    · exact (hs.fails c hd hk).bind next
    · obtain ⟨a, m, ha, level⟩ := hs.ok c (by omega)
      have fails := (hn a).fails m
      rw [level.depth, level.options] at fails
      exact failsWith_bind_of_ok ha (fails hd (by omega))

/-- What is done after a step on the same level needs none. -/
lemma Needs.ensuring {after : Context → Context} (hs : Needs k step)
    (h : ∀ c : Context, c.Level (after c)) : Needs k (ensuring step after) where
  ok c hd := by
    obtain ⟨a, m, ha, level⟩ := hs.ok c hd
    exact ⟨a, after m, ensuring_eq_ok_iff.2 ⟨m, ha, rfl⟩, level.trans (h m)⟩
  fails c hd hl := (hs.fails c hd hl).ensuring after

/-- Locating a diagnostic needs no levels. -/
lemma Needs.locating (hs : Needs k step) (span : Span) : Needs k (locating span step) where
  ok c hd := by
    obtain ⟨a, m, ha, level⟩ := hs.ok c hd
    exact ⟨a, m, locating_eq_ok_iff.2 ha, level⟩
  fails c hd hl := (hs.fails c hd hl).locating span

/-- One level deeper is reached where one is left. -/
lemma descend_of_lt {c : Context} (h : c.depth < c.options.maxDepth.toNat) :
    descend c = .ok ⟨⟩ c.descend := by
  rw [descend_apply, if_neg]
  rw [Context.tooDeep, decide_eq_true_eq]
  exact Nat.not_lt.2 h

/-- One level deeper is too deep where none is left. -/
lemma failsWith_descend {c : Context} (h : c.options.maxDepth.toNat ≤ c.depth) :
    FailsWith descend c (.tooDeep c.options.maxDepth) := by
  have deep : c.descend.tooDeep = true := decide_eq_true (Nat.lt_succ_of_le h)
  unfold FailsWith
  rw [descend_apply, if_pos deep]
  exact ⟨_, _, rfl, rfl⟩

/-- A step that is made one level deeper needs one level more. -/
lemma Needs.deeper (hs : Needs k step) :
    Needs (k + 1) (do descend; Render.ensuring step Context.ascend) where
  ok c hd := by
    obtain ⟨a, m, ha, level⟩ := hs.ok c.descend (by simp only [Context.descend]; omega)
    refine ⟨a, m.ascend, ?_, ?_, level.options⟩
    · rw [bind_of_ok (descend_of_lt (by omega))]
      exact ensuring_eq_ok_iff.2 ⟨m, ha, rfl⟩
    · rw [Context.ascend, level.depth]
      rfl
  fails c hd hl := by
    by_cases hc : c.depth < c.options.maxDepth.toNat
    · have fails := hs.fails c.descend hc (by simp only [Context.descend]; omega)
      exact failsWith_bind_of_ok (descend_of_lt hc) (fails.ensuring Context.ascend)
    · exact (failsWith_descend (by omega)).bind _

/-- Steps over a list need the levels of the one that needs most. -/
lemma needs_mapM {as : List α} {step : α → Render β} {levels : α → ℕ}
    (h : ∀ a ∈ as, Needs (levels a) (step a)) :
    Needs ((as.map levels).foldr max 0) (as.mapM step) := by
  induction as with
  | nil => exact needs_pure []
  | cons a as ih =>
    rw [List.forall_mem_cons] at h
    rw [List.mapM_cons, List.map_cons, List.foldr_cons]
    have rest (b : β) : Needs ((as.map levels).foldr max 0)
        (do return b :: (← as.mapM step)) := by
      simpa using (ih h.2).bind fun bs => needs_pure (b :: bs)
    exact h.1.bind rest

/-! ### Values -/

variable {node : Node}

/-- An expression with a single operand is written as the operand is. -/
lemma value_of_expression (mode : Mode) {operand : Node} (hk : node.kind = .expression)
    (hc : node.children = [operand]) (ho : operand.kind ≠ .operator) :
    value mode node = (do
      descend
      ensuring (locating node.span do return Text.trim (← value .fold operand))
        Context.ascend) := by
  rw [value, hk]
  simp only [evaluateExpression, hc, locating_ensuring, List.mapM_cons, List.mapM_nil, ho, if_false,
    bind_assoc, pure_bind, List.isEmpty_cons, Bool.false_eq_true]
  rfl

/-- A value needs its levels. -/
lemma needs_value (h : node.IsOperand) (mode : Mode) : Needs node.levels (value mode node) := by
  induction h generalizing mode with
  | literal hk hc =>
    rw [Node.levels_of_leaf (by rw [hk]; rfl) hc]
    exact needs_zero fun c => ⟨_, c, value_of_literal mode hk c, .refl c⟩
  | @expression node operand hk hc ho ih =>
    have kind : operand.kind ≠ .operator := by
      cases ho with
      | literal h => simp [h]
      | expression h => simp [h]
    have inside : Needs operand.levels (do return Text.trim (← value .fold operand)) := by
      simpa using (ih .fold).bind fun text => needs_pure (Text.trim text)
    rw [Node.levels_of_expression hk hc, value_of_expression mode hk hc kind]
    exact (inside.locating node.span).deeper

/-! ### Statements -/

/-- A declaration needs the levels of its value. -/
lemma needs_declaration {name given : Node} (hn : node.IsProperty name given)
    (hv : given.IsOperand) : Needs given.levels (perform node) := by
  have property : node.name = .ok (Text.trim name.text) := by
    rw [Node.name, Node.childOf_of_getElem? hn.name_at hn.name_kind]
    rfl
  rw [perform, hn.kind]
  simp only [declaration, property, Node.child_of_getElem? hn.value_at, ofExcept, pure_bind]
  simpa using (needs_value hv .emit).bind fun text => needs_get.bind fun c => needs_pure _

/-- A rule needs the levels of its body. -/
lemma needs_rule {body : Render String} (hb : Needs k body) (selector : String) :
    Needs k (rule selector body) := by
  have place (text : String) (c : Context) : Needs 0 (do
      if !c.isNested || c.isUnrollingChild then return text
      else
        modify (Context.enqueue text)
        return "") := by
    split
    · exact needs_pure text
    · have queued : Needs 0 (modify (Context.enqueue text)) := needs_modify fun c => ⟨rfl, rfl⟩
      exact queued.bind fun _ => needs_pure ""
  have opened : Needs 0 (modify (Context.openRule selector)) := needs_modify fun c => ⟨rfl, rfl⟩
  have inside : Needs k (ensuring body Context.closeRule) := hb.ensuring fun c => ⟨rfl, rfl⟩
  simpa [rule] using opened.bind fun _ => inside.bind fun text => needs_get.bind fun c => place _ c

/-- A block needs the levels of the statement that needs most. -/
lemma needs_block (hk : node.kind = .block)
    (h : ∀ child ∈ node.children, Needs child.levels (statement child)) :
    Needs ((node.children.map Node.levels).foldr max 0) (block node) := by
  rw [block]
  simp only [hk, ne_eq, not_true_eq_false, if_false]
  simpa using (needs_mapM h).bind fun texts => needs_pure (String.join texts)

/-- A statement needs as many levels as lie on a path into it. -/
lemma needs_statement (h : node.IsStatement) : Needs node.levels (statement node) := by
  have deeper {node : Node} {k : ℕ} (h : Needs k (perform node)) :
      Needs (k + 1) (statement node) := by
    rw [statement]
    exact h.deeper.locating node.span
  induction h with
  | @declaration node name value hk hc hn hl hv =>
    have property : node.IsProperty name value := ⟨hk, by rw [hc]; rfl, hn, by rw [hc]; rfl⟩
    rw [Node.levels_of_declaration hk hc hn hl]
    exact deeper (needs_declaration property hv)
  | @rule node group block hk hc hg hs hb _ ih =>
    have rule : node.IsRule group block := ⟨hk, by rw [hc]; rfl, hg, by rw [hc]; rfl, hb⟩
    rw [Node.levels_of_rule hk hc hg hs hb]
    refine deeper ?_
    rw [perform_of_rule rule]
    exact needs_rule (needs_block hb ih) group.selectorText

/-- An outermost statement needs its levels. -/
lemma needs_outermost (h : node.IsStatement) : Needs node.levels (outermost node) := by
  have rest (text : String) : Needs 0 (do return text ++ (← flushed)) := by
    refine needs_zero fun c => ⟨_, c.flush.2, rfl, (Context.Level.refl c).flush⟩
  simpa [outermost] using (needs_statement h).bind rest

/-- So does a document. -/
lemma needs_document {root : Node} (hk : root.kind = .stylesheet)
    (h : ∀ node ∈ root.children, node.IsStatement) : Needs root.levels (document root) := by
  have levels : root.levels = (root.children.map Node.levels).foldr max 0 := by
    rw [Node.levels, hk]
    simp [Kind.isLevel]
  have texts : Needs root.levels (root.children.mapM outermost) := by
    rw [levels]
    exact needs_mapM fun node hn => needs_outermost (h node hn)
  have written := texts.bind fun texts => needs_get.bind fun c =>
    needs_pure (withProperties c (String.join texts))
  rw [Nat.max_self, Nat.max_zero] at written
  rw [document]
  simp only [hk, ne_eq, not_true_eq_false, if_false]
  exact written

end Render

namespace Compiler

/-- A document of rules and declarations, whose values are literals or expressions with one operand,
compiles exactly if the statements and expressions on any path into it are within the limit.
Otherwise the diagnostic says that it nests too deep. -/
theorem compiles_iff_levels_le (compiler : Compiler) {root : Node} (hk : root.kind = .stylesheet)
    (h : ∀ node ∈ root.children, node.IsStatement) :
    let limit := compiler.context.options.maxDepth.toNat
    IsGreatest root.pathLevels root.levels ∧
      ((∃ css, (compiler.compile root).1 = .ok css) ↔ root.levels ≤ limit) ∧
      (limit < root.levels → ∃ d, (compiler.compile root).1 = .error d ∧
        d.fault.category = .semantic ∧
        d.fault.message = s!"document nests deeper than {limit} levels") := by
  intro limit
  have needs := Render.needs_document hk h
  have fails (hl : limit < root.levels) : ∃ d, (compiler.compile root).1 = .error d ∧
      d.fault = .tooDeep compiler.context.options.maxDepth := by
    obtain ⟨d, m, hd, hf⟩ := needs.fails compiler.context.reset (Nat.zero_le _)
      (by simpa [Context.reset] using hl)
    refine ⟨m.source.elim d d.attach, by rw [compile, hd], ?_⟩
    cases m.source with
    | none => exact hf
    | some source => exact hf
  refine ⟨root.isGreatest_levels, ⟨?_, ?_⟩, fun hl => ?_⟩
  · rintro ⟨css, hc⟩
    by_contra hl
    obtain ⟨d, hd, -⟩ := fails (Nat.lt_of_not_le hl)
    rw [hd] at hc
    cases hc
  · intro hl
    obtain ⟨css, m, hd, -⟩ := needs.ok compiler.context.reset (by simpa [Context.reset] using hl)
    exact ⟨css, by rw [compile, hd]⟩
  · obtain ⟨d, hd, hf⟩ := fails hl
    exact ⟨d, hd, by rw [hf]; rfl, by rw [hf]; rfl⟩

/-- A declaration with an expression in an expression, in a rule, and a declaration outside. -/
def nestedOperands : Node :=
  .stylesheet
    [.rule ["a", "b"] [.rule [] [], .declaration "x" (.expression [.expression [.literal "1"]])],
      .declaration "y" (.literal "2")]

/-- A document of four levels compiles under a limit of four and under no lower one. -/
theorem compiles_iff_levels_le_nestedOperands :
    nestedOperands.levels = 4 ∧
      (∃ css, (Compiler.compile (.new { maxDepth := 4 } none) nestedOperands).1 = .ok css) ∧
      ∃ d, (Compiler.compile (.new { maxDepth := 3 } none) nestedOperands).1 = .error d ∧
        d.fault.category = .semantic ∧
        d.fault.message = "document nests deeper than 3 levels" := by
  have levels : nestedOperands.levels = 4 := by
    simp [nestedOperands, Node.levels, Node.stylesheet, Node.rule, Node.block, Node.declaration,
      Node.expression, Node.literal, Node.identifier, Node.branch, Node.leaf, Kind.isLevel]
  have operand : (Node.expression [.expression [.literal "1"]]).IsOperand :=
    .expression rfl rfl (.expression rfl rfl (.literal rfl rfl))
  have leaf {selectors : List String} : ∀ selector ∈ selectors.map (Node.leaf .selector),
      selector.kind = .selector ∧ selector.children = [] := by
    simp [Node.leaf]
  have kind : nestedOperands.kind = .stylesheet := rfl
  have statements : ∀ node ∈ nestedOperands.children, node.IsStatement := by
    refine List.forall_mem_cons.2 ⟨.rule rfl rfl rfl leaf rfl ?_, List.forall_mem_singleton.2 ?_⟩
    · refine List.forall_mem_cons.2 ⟨.rule rfl rfl rfl leaf rfl ?_, List.forall_mem_singleton.2 ?_⟩
      · exact fun _ h => absurd h List.not_mem_nil
      · exact .declaration rfl rfl rfl rfl operand
    · exact .declaration rfl rfl rfl rfl (.literal rfl rfl)
  obtain ⟨-, compiles, -⟩ := compiles_iff_levels_le (.new { maxDepth := 4 } none) kind statements
  obtain ⟨-, -, fails⟩ := compiles_iff_levels_le (.new { maxDepth := 3 } none) kind statements
  exact ⟨levels, compiles.2 levels.le, fails (by rw [levels]; decide)⟩

end Compiler

end Stylesheet
