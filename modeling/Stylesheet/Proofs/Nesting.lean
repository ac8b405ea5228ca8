import Stylesheet.Proofs.Reach
import Mathlib.Data.List.Chain

/-!
# Frames and the shape of the tree

Whether a rule is written in its place is decided by two numbers: how many rules are open, and how
many were when the body of the innermost loop started. `Context.Mirrors` says what the stacks hold
at a statement: they are read off the nodes around it. So the two numbers tell whether the nearest
rule or loop around a rule is a loop (`frames_mirror_nesting`).
-/

namespace Stylesheet

namespace Node

/-- The number of rules among the nodes around a statement. -/
def rulesIn (above : List Node) : Nat := above.countP (·.kind == .rule)

/-- For each loop among the nodes around a statement the number of rules around it, the outermost
loop first. -/
def loopFrames : List Node → List Nat
  | [] => []
  | node :: above => if node.isLoop then loopFrames above ++ [rulesIn above] else loopFrames above

/-- The nearest rule or loop around a statement is a loop. -/
def isInLoop (above : List Node) : Bool := (above.find? opensScope).any isLoop

/-- A rule is around a statement. -/
def isInRule (above : List Node) : Bool := above.any (·.kind == .rule)

variable {node : Node} {above : List Node}

/-- A rule is no loop. -/
lemma isLoop_of_kind_rule (h : node.kind = .rule) : node.isLoop = false := by
  simp [isLoop, h]

/-- A rule counts among the rules around what is in it. -/
lemma rulesIn_cons_of_rule (h : node.kind = .rule) :
    rulesIn (node :: above) = rulesIn above + 1 := by
  simp [rulesIn, h]

/-- What is no rule does not count among them. -/
lemma rulesIn_cons_of_not_rule (h : node.kind ≠ .rule) :
    rulesIn (node :: above) = rulesIn above := by
  simp [rulesIn, h]

/-- What is no loop has no frame. -/
lemma loopFrames_cons_of_not_loop (h : node.isLoop = false) :
    loopFrames (node :: above) = loopFrames above := by
  simp [loopFrames, h]

/-- A loop has a frame at the rules around it. -/
lemma loopFrames_cons_of_loop (h : node.isLoop = true) :
    loopFrames (node :: above) = loopFrames above ++ [rulesIn above] := by
  simp [loopFrames, h]

/-- A loop is no rule. -/
lemma kind_ne_rule_of_isLoop (h : node.isLoop = true) : node.kind ≠ .rule := by
  intro hk
  simp [isLoop, hk] at h

/-- There are as many rules around a node as around its parent, or more. -/
lemma rulesIn_le_cons : rulesIn above ≤ rulesIn (node :: above) := by
  unfold rulesIn
  rw [List.countP_cons]
  exact Nat.le_add_right _ _

/-- No loop has more rules around it than there are. -/
lemma le_of_mem_loopFrames {n : Nat} (h : n ∈ loopFrames above) : n ≤ rulesIn above := by
  induction above with
  | nil => cases h
  | cons node above ih =>
    refine Nat.le_trans ?_ rulesIn_le_cons
    cases hl : node.isLoop with
    | false =>
      rw [loopFrames_cons_of_not_loop hl] at h
      exact ih h
    | true =>
      rw [loopFrames_cons_of_loop hl] at h
      obtain h | h := List.mem_append.1 h
      · exact ih h
      · exact Nat.le_of_eq (List.mem_singleton.1 h)

/-- A loop has at least the rules around it that the loops around it have. -/
lemma loopFrames_ordered (above : List Node) : (loopFrames above).Pairwise (· ≤ ·) := by
  induction above with
  | nil => exact .nil
  | cons node above ih =>
    cases hl : node.isLoop with
    | false =>
      rw [loopFrames_cons_of_not_loop hl]
      exact ih
    | true =>
      rw [loopFrames_cons_of_loop hl]
      refine List.pairwise_append.2 ⟨ih, List.pairwise_singleton _ _, fun n hn k hk => ?_⟩
      rw [List.mem_singleton.1 hk]
      exact le_of_mem_loopFrames hn

/-- The innermost loop has all the rules around it exactly if none is nearer than it. -/
lemma getLast?_loopFrames (above : List Node) :
    (loopFrames above).getLast? = some (rulesIn above) ↔ isInLoop above = true := by
  induction above with
  | nil => simp [loopFrames, isInLoop]
  | cons node above ih =>
    cases hl : node.isLoop with
    | true =>
      rw [loopFrames_cons_of_loop hl, rulesIn_cons_of_not_rule (kind_ne_rule_of_isLoop hl)]
      simp [isInLoop, opensScope, hl]
    | false =>
      rw [loopFrames_cons_of_not_loop hl]
      by_cases hk : node.kind = .rule
      · -- The rule is nearer than every loop, and the frames of the loops do not count it.
        have hn : (loopFrames above).getLast? ≠ some (rulesIn above + 1) := by
          intro he
          have := le_of_mem_loopFrames (List.mem_of_getLast? he)
          omega
        rw [rulesIn_cons_of_rule hk]
        simp [isInLoop, opensScope, hk, hl, hn]
      · rw [rulesIn_cons_of_not_rule hk, ih]
        simp [isInLoop, opensScope, hk, hl]

/-- There is a rule around a node exactly if it is in one. -/
lemma rulesIn_pos : 0 < rulesIn above ↔ isInRule above = true := by
  simp [rulesIn, isInRule, List.countP_pos_iff]

end Node

/-- The stacks hold what the nodes around a statement say. -/
structure Context.Mirrors (above : List Node) (c : Context) : Prop where
  rules : c.ancestors.length = Node.rulesIn above
  frames : c.frames = Node.loopFrames above

namespace Context.Mirrors

variable {above : List Node} {node : Node} {c c' : Context}

/-- What is kept between statements mirrors the same nodes. -/
lemma of_kept (h : c.Mirrors above) (hk : c.Kept c') : c'.Mirrors above where
  rules := by rw [hk.ancestors, h.rules]
  frames := by rw [hk.frames, h.frames]

/-- A node that is neither a rule nor a loop makes no difference. -/
lemma cons_plain (h : c.Mirrors above) (hn : node.opensScope = false) :
    c.Mirrors (node :: above) := by
  have hk : node.kind ≠ .rule := by
    rintro hk
    simp [Node.opensScope, hk] at hn
  have hl : node.isLoop = false := by simpa [Node.opensScope, hk] using hn
  exact ⟨by rw [Node.rulesIn_cons_of_not_rule hk, h.rules],
    by rw [Node.loopFrames_cons_of_not_loop hl, h.frames]⟩

/-- One level deeper the state mirrors the same nodes. -/
lemma descend (h : c.Mirrors above) : c.descend.Mirrors above := ⟨h.rules, h.frames⟩

/-- Entering a loop mirrors the same nodes, before its frames are opened. -/
lemma enterLoop {placement : Render.Placement} {names : List String} (h : c.Mirrors above) :
    (Render.enterLoop placement names c).Mirrors above :=
  ⟨h.rules, h.frames⟩

/-- What waits does not matter for what the state mirrors. -/
lemma flush (h : c.Mirrors above) : c.flush.2.Mirrors above := by
  unfold Context.flush
  split <;> exact ⟨h.rules, h.frames⟩

/-- An open rule mirrors the rule. -/
lemma openRule (h : c.Mirrors above) (hk : node.kind = .rule) (selector : String) :
    (c.openRule selector).Mirrors (node :: above) where
  rules := by simp [Context.openRule, h.rules, Node.rulesIn_cons_of_rule hk]
  frames := by
    rw [Node.loopFrames_cons_of_not_loop (Node.isLoop_of_kind_rule hk)]
    exact h.frames

/-- An iteration mirrors the loop. -/
lemma startIteration (h : c.Mirrors above) (hl : node.isLoop = true)
    (bindings : List (String × String)) :
    (Render.startIteration bindings c).Mirrors (node :: above) where
  rules := by
    rw [Node.rulesIn_cons_of_not_rule (Node.kind_ne_rule_of_isLoop hl)]
    exact h.rules
  frames := by
    rw [Node.loopFrames_cons_of_loop hl, ← h.rules, ← h.frames]
    rfl

/-- The state is unrolling a child exactly if the nearest rule or loop around is a loop. -/
lemma isUnrollingChild_iff (h : c.Mirrors above) :
    c.isUnrollingChild = true ↔ Node.isInLoop above = true := by
  rw [← Node.getLast?_loopFrames, ← h.rules, ← h.frames]
  simp [isUnrollingChild]

/-- A rule is open exactly if the node is in one. -/
lemma isNested_iff (h : c.Mirrors above) : c.isNested = true ↔ Node.isInRule above = true := by
  rw [← Node.rulesIn_pos, ← h.rules]
  simp [isNested, List.length_pos_iff]

/-- The frames are ordered, and none counts more rules than are open. -/
lemma ordered (h : c.Mirrors above) :
    c.frames.Pairwise (· ≤ ·) ∧ ∀ n ∈ c.frames, n ≤ c.ancestors.length := by
  rw [h.frames, h.rules]
  exact ⟨Node.loopFrames_ordered above, fun n => Node.le_of_mem_loopFrames⟩

end Context.Mirrors

namespace Render

/-- A rule whose block was rendered decides in a state where its text goes. -/
def Decides (node : Node) (c d : Context) : Prop :=
  ∃ group body text, node.IsRule group body ∧
    ensuring (block body) Context.closeRule (c.descend.openRule group.selectorText) = .ok text d

/-- The states that a statement passes on its way, without those inside the statements below it. -/
inductive Passes (node : Node) (c : Context) : Context → Prop where
  | started :
    Passes node c c
  | done {text c'} :
    statement node c = .ok text c' →
    Passes node c c'
  | failed {d c'} :
    statement node c = .error d c' →
    Passes node c c'
  | entered {via body m} :
    Enters node c.descend via body m →
    Passes node c m
  | left {via body text m m'} :
    Enters node c.descend via body m →
    block body m = .ok text m' →
    Passes node c m'
  | leftFailing {via body d m m'} :
    Enters node c.descend via body m →
    block body m = .error d m' →
    Passes node c m'
  | rounds {body placement names rows n texts m} :
    Unrolls node c.descend body placement names rows →
    iterate (round body placement names rows) n 0 (enterLoop placement names c.descend) =
      .ok texts m →
    Passes node c m
  | decided {d} :
    Decides node c d →
    Passes node c d

variable {node body : Node} {above via : List Node} {c m c' d : Context}

/-! ### The stacks on the way down -/

/-- The iterations of a loop keep the state that it was entered in. -/
lemma kept_of_rounds {placement : Placement} {names : List String} {rows : Rows} {n : Nat}
    {texts : List String} (hl : node.LoopNames names) (hr : node.TargetsReferences)
    (h : iterate (round body placement names rows) n 0 (enterLoop placement names c) =
      .ok texts m) :
    (enterLoop placement names c).Kept m :=
  ((Discipline.stack_walk.respects_rounds (s := ()) placement rows trivial hl hr
    (Discipline.stack_respectsAt body).block n 0).ok h).1

/-- Branches that are passed keep the state. -/
lemma Skipped.kept {branches : List Node} (h : Skipped branches c m)
    (hk : ∀ branch ∈ branches, branch.kind = .elseIf) : c.Kept m := by
  induction h with
  | nil => exact .refl _
  | @cons branch branches c m c' hb _ ih =>
    have first := ((Discipline.stack_respectsAt branch).elseIf (hk _ List.mem_cons_self)).ok hb
    exact first.1.trans (ih fun other ho => hk other (List.mem_cons_of_mem _ ho))

/-- The children of a kind are of that kind. -/
lemma kind_of_mem_filter {child : Node} {kind : Kind} (h : child ∈ node.filter kind) :
    child.kind = kind := by
  simpa using (List.mem_filter.1 h).2

/-- The nodes from a statement down to a block that it enters stand below each other. -/
lemma Enters.chain (h : Enters node c via body m) :
    (body :: via ++ [node]).IsChain (· ∈ ·.children) := by
  cases h with
  | rule hn => exact .cons_cons (List.mem_of_getElem? hn.block_at) (.singleton _)
  | round hu => exact .cons_cons hu.mem_children (.singleton _)
  | firstBranch _ _ hb => exact .cons_cons (List.mem_of_getElem? hb) (.singleton _)
  | @elseIf guard first passed branch rest other _ _ _ _ _ _ _ _ hs _ _ _ hb =>
    have hm : branch ∈ node.filter .elseIf := by simp [hs]
    exact .cons_cons (List.mem_of_getElem? hb)
      (.cons_cons (Node.mem_of_mem_filter hm) (.singleton _))
  | otherwise _ _ _ _ _ _ ho hb =>
    exact .cons_cons (List.mem_of_getElem? hb)
      (.cons_cons (Node.mem_of_find?_eq_some ho) (.singleton _))

/-- Between a statement and a block that it enters is nothing but a branch of a conditional. -/
lemma Enters.kind_of_mem_via (h : Enters node c via body m) :
    ∀ branch ∈ via, branch.kind = .elseIf ∨ branch.kind = .otherwise := by
  cases h with
  | rule | round | firstBranch => simp
  | @elseIf _ _ passed branch rest _ _ _ _ _ _ _ _ _ hs =>
    have hm : branch ∈ node.filter .elseIf := by simp [hs]
    exact List.forall_mem_singleton.2 (.inl (kind_of_mem_filter hm))
  | otherwise _ _ _ _ _ _ ho =>
    exact List.forall_mem_singleton.2 (.inr (by simpa using List.find?_some ho))

/-- A block is entered in a state that mirrors the nodes around it. -/
lemma Enters.mirrors (h : Enters node c via body m) (hc : c.Mirrors above) :
    m.Mirrors (body :: via ++ node :: above) := by
  have plain {n : Node} (hk : n.kind = .block ∨ n.kind = .elseIf ∨ n.kind = .otherwise ∨
      n.kind = .conditional) : n.opensScope = false := by
    obtain hk | hk | hk | hk := hk <;> simp [Node.opensScope, Node.isLoop, hk]
  have hb := plain (.inl h.kind_block)
  cases h with
  | rule hn => exact (hc.openRule hn.kind _).cons_plain hb
  | round hu _ hi =>
    have hm := hc.enterLoop.of_kept (kept_of_rounds hu.loopNames hu.targetsReferences hi)
    exact (hm.startIteration hu.loopNames.isLoop _).cons_plain hb
  | firstBranch hk => exact (hc.cons_plain (plain (by simp [hk]))).cons_plain hb
  | @elseIf guard first passed branch rest other _ _ _ hk _ _ _ _ hs hp =>
    have hm (other : Node) (ho : other ∈ passed ++ branch :: rest) : other.kind = .elseIf :=
      kind_of_mem_filter (hs ▸ ho)
    have hkept := hp.kept fun other ho => hm other (List.mem_append_left _ ho)
    have hbranch := plain (.inr (.inl (hm branch (by simp))))
    exact (((hc.of_kept hkept).cons_plain (plain (by simp [hk]))).cons_plain hbranch).cons_plain hb
  | @otherwise guard first branch _ _ _ hk _ _ _ _ hp ho =>
    have hkept := hp.kept fun other ho => kind_of_mem_filter ho
    have hbk : branch.kind = .otherwise := by simpa using List.find?_some ho
    have hbranch := plain (.inr (.inr (.inl hbk)))
    exact (((hc.of_kept hkept).cons_plain (plain (by simp [hk]))).cons_plain hbranch).cons_plain hb

/-- A statement leaves the state as it mirrored the nodes around. -/
lemma Discipline.mirrors_statement (above : List Node) (node : Node) :
    (invariant (Context.Mirrors above)).Respects (statement node) where
  ok h hm := hm.of_kept ((stack_respectsAt node).statement.ok h).1
  error h hm := hm.of_kept ((stack_respectsAt node).statement.error h).1

/-- A rule decides where it goes in a state that mirrors the nodes around it. -/
lemma Decides.mirrors (h : Decides node c d) (hc : c.Mirrors above) : d.Mirrors above := by
  obtain ⟨group, body, text, -, h⟩ := h
  obtain ⟨m, hb, rfl⟩ := ensuring_eq_ok_iff.1 h
  have hk := ((Discipline.stack_respectsAt body).block.ok hb).1
  exact hc.descend.of_kept hk.closeRule

/-- The stacks at a statement that is reached hold what the nodes around it say. -/
lemma Reaches.mirrors {root : Node} {start : Context} (h : Reaches root start above c node)
    (hs : start.Mirrors []) : c.Mirrors above := by
  induction h with
  | @outermost before node after texts c hk hc hb =>
    have keep : (Discipline.invariant (Context.Mirrors [root])).Respects
        (before.mapM Render.outermost) :=
      Discipline.respects_mapM fun node _ =>
        Discipline.respects_outermost (Discipline.mirrors_statement [root] node)
          fun c h => h.flush
    exact keep.ok hb (hs.cons_plain (by simp [Node.opensScope, Node.isLoop, hk]))
  | @deeper above parent via body before node after texts c m c' _ _ he _ hb ih =>
    have hm := he.mirrors ih.descend
    exact (Discipline.respects_mapM fun node _ => Discipline.mirrors_statement _ node).ok hb hm

/-- The nodes around a statement that is reached lead up to the root. -/
lemma Reaches.chain {root : Node} {start : Context} (h : Reaches root start above c node) :
    (node :: above).IsChain (· ∈ ·.children) ∧ above.getLast? = some root := by
  induction h with
  | outermost _ hc _ =>
    refine ⟨.cons_cons ?_ (.singleton _), rfl⟩
    rw [hc]
    simp
  | @deeper above parent via body before node after texts c m c' _ _ he hc _ ih =>
    have hn : node ∈ body.children := by
      rw [hc]
      simp
    refine ⟨.cons_cons hn (List.isChain_split.2 ⟨he.chain, ih.1⟩), ?_⟩
    simp [List.getLast?_append, List.getLast?_cons, ih.2]

/-- What passes from nodes to their children passes from a document to the statements that it
reaches. -/
lemma Reaches.inherits {root : Node} {start : Context} {P : Node → Prop}
    (h : Reaches root start above c node) (hr : P root)
    (hp : ∀ parent, P parent → ∀ child ∈ parent.children, P child) : P node := by
  obtain ⟨hc, hl⟩ := h.chain
  clear h
  induction above generalizing node with
  | nil => cases hl
  | cons parent above ih =>
    obtain ⟨hn, hc⟩ := List.isChain_cons_cons.1 hc
    refine hp parent ?_ node hn
    cases above with
    | nil =>
      cases hl
      exact hr
    | cons => exact ih hc (by simpa using hl)

/-- The frames are ordered in every state that a statement passes. -/
lemma Passes.ordered (h : Passes node c m) (hc : c.Mirrors above) :
    m.frames.Pairwise (· ≤ ·) ∧ ∀ n ∈ m.frames, n ≤ m.ancestors.length := by
  cases h with
  | started => exact hc.ordered
  | done h => exact ((Discipline.mirrors_statement above node).ok h hc).ordered
  | failed h => exact ((Discipline.mirrors_statement above node).error h hc).ordered
  | entered he => exact (he.mirrors hc.descend).ordered
  | @left _ body _ _ _ he hb =>
    have hk := ((Discipline.stack_respectsAt body).block.ok hb).1
    exact ((he.mirrors hc.descend).of_kept hk).ordered
  | @leftFailing _ body _ _ _ he hb =>
    have hk := ((Discipline.stack_respectsAt body).block.error hb).1
    exact ((he.mirrors hc.descend).of_kept hk).ordered
  | rounds hu hi =>
    have hkept := kept_of_rounds hu.loopNames hu.targetsReferences hi
    exact (hc.descend.enterLoop.of_kept hkept).ordered
  | decided hd => exact (hd.mirrors hc).ordered

/-- Compiling a document gets to a statement only through the nodes around it. If it is a rule,
then where it decides on the place of its text, it counts as directly inside a loop exactly if
the nearest rule or loop around it is a loop, and as nested exactly if a rule is around it. In
all states that the statement passes the frames are ordered, and none counts more rules than are
open. -/
theorem frames_mirror_nesting (compiler : Compiler) {root : Node}
    (h : Reaches root compiler.context.reset above c node) :
    ((node :: above).IsChain (· ∈ ·.children) ∧ above.getLast? = some root) ∧
      (∀ d, Decides node c d →
        (d.isUnrollingChild = true ↔ Node.isInLoop above = true) ∧
          (d.isNested = true ↔ Node.isInRule above = true)) ∧
      ∀ m, Passes node c m →
        m.frames.Pairwise (· ≤ ·) ∧ ∀ n ∈ m.frames, n ≤ m.ancestors.length := by
  have hc : c.Mirrors above := h.mirrors ⟨rfl, rfl⟩
  refine ⟨h.chain, fun d hd => ?_, fun m hm => hm.ordered hc⟩
  exact ⟨(hd.mirrors hc).isUnrollingChild_iff, (hd.mirrors hc).isNested_iff⟩

/-- A rule in a conditional in a loop in a rule in a loop. -/
def ruleInLoops : Node :=
  .stylesheet
    [.forLoop "i" (.literal "1") "through" (.literal "2")
      [.rule ["a"]
        [.forLoop "j" (.literal "1") "to" (.literal "3")
          [.conditional (.literal "true") [.rule ["b"] []] [] none]]]]

/-- A rule in loops in a rule decides with the frames of the loops. -/
theorem frames_mirror_nesting_ruleInLoops :
    ∃ above c d, Reaches ruleInLoops (Context.reset {}) above c (.rule ["b"] []) ∧
      Decides (.rule ["b"] []) c d ∧ above.length = 9 ∧ d.isUnrollingChild = true ∧
      d.isNested = true ∧ d.frames.Pairwise (· ≤ ·) := by
  have bound {c : Context} {n : Int} {text : String}
      (h : Number.integer? (Text.trim text) = some n) : loopBound (.literal text) c = .ok n c := by
    refine loopBound_of_literal rfl ?_ c
    simpa only [Node.literal, Node.leaf] using h
  have one : Number.integer? (Text.trim "1") = some 1 := by decide +kernel
  have two : Number.integer? (Text.trim "2") = some 2 := by decide +kernel
  have three : Number.integer? (Text.trim "3") = some 3 := by decide +kernel
  have holds {c : Context} : holds (.literal "true") c = .ok true c := by
    rw [Render.holds, bind_of_ok (value_of_literal .fold rfl c)]
    rfl
  have start : Reaches ruleInLoops (Context.reset {}) _ _ _ := .first _ rfl rfl
  have rule := start.enter rfl (.round (n := 0) (.counting
    ⟨rfl, rfl, rfl, rfl, rfl, rfl, rfl, rfl, rfl⟩ (bound one) (bound two) rfl) (by decide) rfl) rfl
  have loop := rule.enter rfl (.rule ⟨rfl, rfl, rfl, rfl, rfl⟩) rfl
  have branch := loop.enter rfl (.round (n := 0) (.counting
    ⟨rfl, rfl, rfl, rfl, rfl, rfl, rfl, rfl, rfl⟩ (bound one) (bound three) rfl) (by decide) rfl)
    rfl
  have inner := branch.enter rfl (.firstBranch rfl rfl rfl rfl holds) rfl
  obtain ⟨-, hd, hp⟩ := frames_mirror_nesting {} inner
  have decided (c : Context) : Decides (.rule ["b"] []) c c.descend := by
    refine ⟨_, _, _, ⟨rfl, rfl, rfl, rfl, rfl⟩, ensuring_eq_ok_iff.2 ⟨_, block_of_mapM rfl rfl, ?_⟩⟩
    simp [Context.closeRule, Context.openRule]
  refine ⟨_, _, _, inner, decided _, rfl, (hd _ (decided _)).1.2 ?_, (hd _ (decided _)).2.2 ?_,
    (hp _ (.decided (decided _))).1⟩
  · decide
  · decide

end Render

end Stylesheet
