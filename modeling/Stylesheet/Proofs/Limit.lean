import Stylesheet.Proofs.Course
import Stylesheet.Proofs.Inclusion
import Stylesheet.Proofs.Stack
import Mathlib.Data.List.Chain

/-!
# The nesting limit

A statement that is rendered lies within the limit of the options, and so do the statements around
it. The body of a mixin is captured and not rendered, and capturing counts no levels: of statements
inside each other only those up to the declaration of a mixin are bounded.
-/

namespace Stylesheet

namespace Node

/-- A statement stands directly in the block of a rule or in the body of a mixin. -/
inductive Surrounds : Node → Node → Prop where
  | rule {parent group block child} :
    parent.IsRule group block →
    child ∈ block.children →
    Surrounds parent child
  | mixin {parent : Node} {block child} :
    parent.kind = .mixinDeclaration →
    parent.body = .ok block →
    child ∈ block.1.children →
    Surrounds parent child

/-- Statements of a document that stand inside each other, the outermost first. -/
structure Nests (root : Node) (nodes : List Node) : Prop where
  outermost : ∀ node ∈ nodes.head?, node ∈ root.children
  inside : nodes.IsChain Surrounds

/-- Of statements that stand inside each other those that are rendered: what is in a mixin is
captured with its declaration. -/
def rendered : List Node → List Node
  | [] => []
  | node :: nodes => if node.kind = .mixinDeclaration then [node] else node :: rendered nodes

end Node

/-- The level and the options are as before. -/
structure Context.Level (c c' : Context) : Prop where
  depth : c'.depth = c.depth
  options : c'.options = c.options

namespace Context.Level

variable {c m c' : Context}

/-- A state is on its own level. -/
lemma refl (c : Context) : c.Level c := ⟨rfl, rfl⟩

/-- States on the level of a third are on one level. -/
lemma trans (h₁ : c.Level m) (h₂ : m.Level c') : c.Level c' :=
  ⟨h₂.depth.trans h₁.depth, h₂.options.trans h₁.options⟩

/-- What waits does not matter for the level. -/
lemma flush (h : c.Level c') : c.Level c'.flush.2 := by
  unfold Context.flush
  split
  · exact h
  · exact ⟨h.depth, h.options⟩

end Context.Level

namespace Render

variable {c c' : Context} {node : Node} {text : String}

/-- Steps of which each keeps the level succeed one after the other at the same level. -/
lemma exists_of_mapM_eq_ok {α β : Type} {step : α → Render β} {as : List α} {bs : List β}
    (hk : ∀ {a c b c'}, step a c = .ok b c' → c.Level c') (h : as.mapM step c = .ok bs c') :
    ∀ a ∈ as, ∃ b m m', step a m = .ok b m' ∧ c.Level m := by
  induction as generalizing c c' bs with
  | nil => simp
  | cons a as ih =>
    rw [List.mapM_cons] at h
    obtain ⟨b, m, hb, h⟩ := bind_eq_ok_iff.1 h
    obtain ⟨bs, m', hbs, -⟩ := bind_eq_ok_iff.1 h
    refine List.forall_mem_cons.2 ⟨⟨b, c, m, hb, .refl c⟩, fun a ha => ?_⟩
    obtain ⟨b, n, n', hn, level⟩ := ih hbs a ha
    exact ⟨b, n, n', hn, (hk hb).trans level⟩

/-- Steps that succeed from the states of a set, and do not leave it, succeed one after the
other. -/
lemma exists_mapM_of_step {α β : Type} {step : α → Render β} {P : Context → Prop} {as : List α}
    (hs : ∀ a ∈ as, ∀ c, P c → ∃ b m, step a c = .ok b m ∧ P m) (hc : P c) :
    ∃ bs m, as.mapM step c = .ok bs m := by
  induction as generalizing c with
  | nil => exact ⟨[], c, rfl⟩
  | cons a as ih =>
    rw [List.forall_mem_cons] at hs
    obtain ⟨b, m, hb, hm⟩ := hs.1 c hc
    obtain ⟨bs, m', hbs⟩ := ih hs.2 hm
    exact ⟨b :: bs, m', mapM_cons_of_ok hb hbs⟩

/-- A statement that succeeds is within the limit. -/
lemma lt_maxDepth_of_statement (h : statement node c = .ok text c') :
    c.depth < c.options.maxDepth.toNat ∧ ∃ m, perform node c.descend = .ok text m := by
  rw [statement, locating_eq_ok_iff] at h
  refine ⟨?_, ?_⟩
  · obtain ⟨_, m, hd, -⟩ := bind_eq_ok_iff.1 h
    rw [descend_apply] at hd
    split at hd
    · cases hd
    · next ht =>
      rw [Context.tooDeep, decide_eq_true_eq, Nat.not_lt] at ht
      exact ht
  · obtain ⟨m, hp, -⟩ := descend_ensuring_eq_ok h
    exact ⟨m, hp⟩

/-- A statement that succeeds leaves the level and the options. -/
lemma level_of_statement (h : statement node c = .ok text c') : c.Level c' := by
  obtain ⟨kept, depth⟩ := (Discipline.stack_respectsAt node).statement.ok h
  exact ⟨depth, kept.options⟩

/-- So does a statement of a document, with the rules that waited for it. -/
lemma level_of_outermost (h : outermost node c = .ok text c') : c.Level c' := by
  obtain ⟨before, m, hs, h⟩ := bind_eq_ok_iff.1 h
  obtain ⟨after, m', hf, h⟩ := bind_eq_ok_iff.1 h
  cases h
  cases hf
  exact (level_of_statement hs).flush

/-- A rule that succeeds renders the statements of its block one level deeper. -/
lemma exists_mapM_inside {group body : Node} (hn : node.IsRule group body)
    (h : statement node c = .ok text c') :
    ∃ texts m, body.children.mapM statement (c.descend.openRule group.selectorText) =
      .ok texts m := by
  obtain ⟨-, m, hp⟩ := lt_maxDepth_of_statement h
  rw [perform_of_rule hn] at hp
  obtain ⟨text, m, hb, -⟩ := exists_of_rule hp
  obtain ⟨texts, hm, -⟩ := mapM_of_block hb
  exact ⟨texts, m, hm⟩

/-- A statement in a rule that succeeds has succeeded one level deeper. -/
lemma exists_statement_inside {group body child : Node} (hn : node.IsRule group body)
    (hc : child ∈ body.children) (h : statement node c = .ok text c') :
    ∃ text m m', statement child m = .ok text m' ∧ c.descend.Level m := by
  obtain ⟨texts, m, hb⟩ := exists_mapM_inside hn h
  obtain ⟨text, m, m', hs, level⟩ := exists_of_mapM_eq_ok level_of_statement hb child hc
  exact ⟨text, m, m', hs, level.depth, level.options⟩

/-- The statements that are rendered inside one that succeeds are within the limit. -/
lemma length_rendered_le {nodes : List Node} (hn : (node :: nodes).IsChain Node.Surrounds)
    (h : statement node c = .ok text c') :
    c.depth + (Node.rendered (node :: nodes)).length ≤ c.options.maxDepth.toNat := by
  have within := (lt_maxDepth_of_statement h).1
  -- The chain is followed inwards, as long as the statements are rendered.
  induction nodes generalizing node c text c' with
  | nil =>
    have only : Node.rendered [node] = [node] := by simp [Node.rendered]
    rw [only]
    exact within
  | cons child nodes ih =>
    rw [Node.rendered]
    split
    · exact within
    · next hk =>
      obtain ⟨surrounds, hn⟩ := List.isChain_cons_cons.1 hn
      cases surrounds with
      | rule hr hc =>
        obtain ⟨text, m, m', hs, level⟩ := exists_statement_inside hr hc h
        have inside := ih hn hs (lt_maxDepth_of_statement hs).1
        rw [level.depth, level.options] at inside
        change c.depth + 1 + _ ≤ c.options.maxDepth.toNat at inside
        rw [List.length_cons]
        omega
      | mixin hm => exact absurd hm hk

/-- The statements that are rendered inside each other in a document that succeeds are within the
limit. -/
lemma length_rendered_le_of_document {root : Node} {nodes : List Node} (hn : root.Nests nodes)
    (hd : c.depth = 0) (h : document root c = .ok text c') :
    (Node.rendered nodes).length ≤ c.options.maxDepth.toNat := by
  cases nodes with
  | nil => exact Nat.zero_le _
  | cons node nodes =>
    unfold document at h
    split at h
    · obtain ⟨_, _, h, -⟩ := bind_eq_ok_iff.1 h
      cases h
    · obtain ⟨texts, m, h, -⟩ := bind_eq_ok_iff.1 h
      obtain ⟨text, m, m', hs, level⟩ :=
        exists_of_mapM_eq_ok level_of_outermost h node (hn.outermost node rfl)
      obtain ⟨text, m', hs, -⟩ := bind_eq_ok_iff.1 hs
      have within := length_rendered_le hn.inside hs
      rwa [level.depth, level.options, hd, Nat.zero_add] at within

/-- A mixin of rules and declarations that nest to whatever depth is declared at any level within
the limit. -/
lemma exists_outermost_of_mixin {name block : Node} {body : Body} (h : node.IsMixin name block)
    (hb : Written block.children body) (hd : c.depth < c.options.maxDepth.toNat) :
    ∃ text m, outermost node c = .ok text m :=
  ⟨_, _, bind_of_ok (statement_of_perform hd (perform_of_mixin h hb c.descend))⟩

/-- Declaring mixins needs one level. -/
lemma exists_mapM_of_mixins {nodes : List Node}
    (h : ∀ node ∈ nodes, ∃ name block body,
      node.IsMixin name block ∧ Written block.children body)
    (hd : c.depth < c.options.maxDepth.toNat) :
    ∃ texts m, nodes.mapM outermost c = .ok texts m := by
  refine exists_mapM_of_step (P := c.Level) (fun node hn m level => ?_) (.refl c)
  obtain ⟨name, block, body, hm, hb⟩ := h node hn
  obtain ⟨text, m', ht⟩ := exists_outermost_of_mixin hm hb (by rwa [level.depth, level.options])
  exact ⟨text, m', ht, level.trans (level_of_outermost ht)⟩

end Render

namespace Compiler

/-- Where a document compiles, the statements that are rendered inside each other are within the
limit. What a mixin captures is not: a document of mixins compiles however deep their bodies
nest. -/
theorem limit_bounds_rendering (compiler : Compiler) (root : Node) :
    (∀ css nodes, (compiler.compile root).1 = .ok css → root.Nests nodes →
      (Node.rendered nodes).length ≤ compiler.context.options.maxDepth.toNat) ∧
    (0 < compiler.context.options.maxDepth.toNat → root.kind = .stylesheet →
      (∀ node ∈ root.children, ∃ name block body,
        node.IsMixin name block ∧ Written block.children body) →
      ∃ css, (compiler.compile root).1 = .ok css) := by
  constructor
  · intro css nodes h hn
    unfold compile at h
    split at h
    · next hd =>
      exact Render.length_rendered_le_of_document (c := compiler.context.reset) hn rfl hd
    · cases h
  · intro hd hk h
    obtain ⟨texts, m, ht⟩ := Render.exists_mapM_of_mixins (c := compiler.context.reset) h hd
    obtain ⟨css, hd⟩ : ∃ css, Render.document root compiler.context.reset = .ok css m := by
      simp only [Render.document, hk, ne_eq, not_true_eq_false, if_false]
      exact ⟨_, Render.bind_of_ok ht⟩
    exact ⟨css, by rw [compile, hd]⟩

/-- A mixin with a rule and the statements inside it, the outermost first. -/
def mixinOfRule : List Node :=
  let declaration := Node.declaration "x" (.literal "1")
  let rule := Node.rule ["a"] [declaration]
  [.mixin "m" [] [rule], rule, declaration]

/-- The nodes around the rule of a mixin form a chain. -/
lemma isChain_mixinOfRule : mixinOfRule.IsChain Node.Surrounds :=
  .cons_cons (.mixin rfl rfl List.mem_cons_self)
    (.cons_cons (.rule ⟨rfl, rfl, rfl, rfl, rfl⟩ List.mem_cons_self) (.singleton _))

/-- Of the four statements inside each other the two outermost are rendered. The three innermost
compile even where the limit is one. -/
theorem limit_bounds_rendering_mixinInRule :
    (Compiler.compile (.new { maxDepth := 2 } none)
        (.stylesheet [.rule ["b"] (mixinOfRule.take 1)])).1 = .ok "b\x7b\n\x7d" ∧
      (Node.rendered (.rule ["b"] (mixinOfRule.take 1) :: mixinOfRule)).length ≤ 2 ∧
      ∃ css, (Compiler.compile (.new { maxDepth := 1 } none)
        (.stylesheet (mixinOfRule.take 1))).1 = .ok css := by
  have compiles : (Compiler.compile (.new { maxDepth := 2 } none)
      (.stylesheet [.rule ["b"] (mixinOfRule.take 1)])).1 = .ok "b\x7b\n\x7d" := by
    decide +kernel
  refine ⟨compiles, (limit_bounds_rendering _ _).1 _ _ compiles ⟨?_, ?_⟩,
    (limit_bounds_rendering _ _).2 (by decide) rfl (List.forall_mem_singleton.2 ?_)⟩
  · intro node hn
    cases hn
    exact List.mem_cons_self
  · exact isChain_mixinOfRule.cons_cons (.rule ⟨rfl, rfl, rfl, rfl, rfl⟩ List.mem_cons_self)
  · exact ⟨_, _, _, ⟨rfl, rfl, rfl, fun _ hp => (Option.some_ne_none _ hp.symm).elim, rfl, rfl⟩,
      .rule ⟨rfl, rfl, rfl, rfl, rfl⟩ (.declaration ⟨rfl, rfl, rfl, rfl, rfl⟩ .nil) .nil⟩

/-- The declaration in a rule of a mixin is captured at the third level, where the limit is two. -/
theorem captured_declaration_exceeds_limit :
    (Compiler.compile (.new { maxDepth := 2 } none) (.stylesheet (mixinOfRule.take 1))).1 =
        .ok "" ∧
      (Node.stylesheet (mixinOfRule.take 1)).Nests mixinOfRule ∧ 2 < mixinOfRule.length := by
  refine ⟨by decide +kernel, ⟨fun node hn => ?_, isChain_mixinOfRule⟩, by decide⟩
  cases hn
  exact List.mem_cons_self

end Compiler

end Stylesheet
