import Stylesheet.Proofs.Composition
import Stylesheet.Proofs.Flattening
import Stylesheet.Proofs.Stack

/-!
# The statements that a document reaches

`Reaches` says that compiling a document gets to a statement, from which state, and which nodes are
around it. The blocks that a statement gets to are those of `Enters`: the block of a rule, of a
branch of a conditional, or of a loop once for each row. A statement that is reached and fails makes
the document fail (`Reaches.document_fails`).
-/

namespace Stylesheet

/-- A loop that counts, with its parts. -/
structure Node.IsCounting (node counter first word last body : Node) : Prop where
  kind : node.kind = .forLoop
  counter_at : node.children[0]? = some counter
  counter_kind : counter.kind = .reference
  first_at : node.children[1]? = some first
  word_at : node.children[2]? = some word
  word_kind : word.kind = .keyword
  last_at : node.children[3]? = some last
  body_at : node.children[4]? = some body
  body_kind : body.kind = .block

namespace Render

/-- The iterations of a loop, by their number. -/
def round (body : Node) (placement : Placement) (names : List String) (rows : Rows) (i : Nat) :
    Render String :=
  iteration (block body) placement (names.zip (rows.row i))

/-- A loop runs its body for rows of values that are bound to its names. -/
inductive Unrolls : Node → Context → Node → Placement → List String → Rows → Prop where
  | counting {node counter first word last body lower bound upper c} :
    Node.IsCounting node counter first word last body →
    loopBound first c = .ok lower c →
    loopBound last c = .ok bound c →
    lastValue (Text.trim word.text) bound = .ok upper →
    Unrolls node c body .interpolated [Variable.sigilName counter.text] (.range lower upper)
  | through {node body names rows c} :
    node.kind = .eachLoop →
    node.children.getLast? = some body →
    body.kind = .block →
    eachRows node c = .ok (names, rows) c →
    Unrolls node c body .substituted names rows

/-- Further branches of a conditional that give no text, one after the other. -/
inductive Skipped : List Node → Context → Context → Prop where
  | nil {c} :
    Skipped [] c c
  | cons {branch branches c m c'} :
    elseIfBranch branch c = .ok none m →
    Skipped branches m c' →
    Skipped (branch :: branches) c c'

/-- A statement gets to a block, which then starts from the second state. The list holds the branch
of a conditional between the two. -/
inductive Enters : Node → Context → List Node → Node → Context → Prop where
  | rule {node group body c} :
    Node.IsRule node group body →
    Enters node c [] body (c.openRule group.selectorText)
  | round {node body placement names rows n texts c m} :
    Unrolls node c body placement names rows →
    n < rows.count →
    iterate (round body placement names rows) n 0 (enterLoop placement names c) = .ok texts m →
    Enters node c [] body (startIteration (names.zip (rows.row n)) m)
  | firstBranch {node guard body c} :
    node.kind = .conditional →
    node.children[0]? = some guard →
    node.children[1]? = some body →
    body.kind = .block →
    holds guard c = .ok true c →
    Enters node c [] body c
  | elseIf {node guard first passed branch rest other body c m} :
    node.kind = .conditional →
    node.children[0]? = some guard →
    node.children[1]? = some first →
    first.kind = .block →
    holds guard c = .ok false c →
    node.filter .elseIf = passed ++ branch :: rest →
    Skipped passed c m →
    branch.children[0]? = some other →
    holds other m = .ok true m →
    branch.children[1]? = some body →
    body.kind = .block →
    Enters node c [branch] body m
  | otherwise {node guard first branch body c m} :
    node.kind = .conditional →
    node.children[0]? = some guard →
    node.children[1]? = some first →
    first.kind = .block →
    holds guard c = .ok false c →
    Skipped (node.filter .elseIf) c m →
    node.find? .otherwise = some branch →
    branch.children[0]? = some body →
    body.kind = .block →
    Enters node c [branch] body m

/-- Compiling a document from a state gets to a statement and starts it from the given state. The
list holds the nodes around the statement, the innermost first. -/
inductive Reaches (root : Node) (start : Context) : List Node → Context → Node → Prop where
  | outermost {before node after texts c} :
    root.kind = .stylesheet →
    root.children = before ++ node :: after →
    before.mapM outermost start = .ok texts c →
    Reaches root start [root] c node
  | deeper {above parent via body before node after texts c m c'} :
    Reaches root start above c parent →
    c.descend.tooDeep = false →
    Enters parent c.descend via body m →
    body.children = before ++ node :: after →
    before.mapM statement m = .ok texts c' →
    Reaches root start (body :: via ++ parent :: above) c' node

/-- The first statement of a document is reached. -/
lemma Reaches.first {root node : Node} {rest : List Node} (start : Context)
    (hk : root.kind = .stylesheet) (hc : root.children = node :: rest) :
    Reaches root start [root] start node :=
  .outermost hk (hc.trans (List.nil_append _).symm) rfl

/-- The first statement of a block that is entered is reached. -/
lemma Reaches.enter {root parent body node : Node} {start c m : Context}
    {above via rest : List Node} (h : Reaches root start above c parent)
    (hd : c.descend.tooDeep = false) (he : Enters parent c.descend via body m)
    (hc : body.children = node :: rest) :
    Reaches root start (body :: via ++ parent :: above) m node :=
  h.deeper hd he (hc.trans (List.nil_append _).symm) rfl

/-! ### What is reached is run -/

/-- A step fails with a fault, wherever it is located. -/
def FailsWith {α : Type} (step : Render α) (c : Context) (fault : Fault) : Prop :=
  ∃ d c', step c = .error d c' ∧ d.fault = fault

section

variable {α β : Type} {step : Render α} {c m : Context} {fault : Fault}

/-- A sequence fails where its first step does. -/
lemma FailsWith.bind (h : FailsWith step c fault) (next : α → Render β) :
    FailsWith (step >>= next) c fault := by
  obtain ⟨d, c', h, hd⟩ := h
  exact ⟨d, c', bind_eq_error_iff.2 (.inl h), hd⟩

/-- A sequence fails where its second step does. -/
lemma failsWith_bind_of_ok {a : α} {next : α → Render β} (h : step c = .ok a m)
    (hn : FailsWith (next a) m fault) : FailsWith (step >>= next) c fault := by
  obtain ⟨d, c', hn, hd⟩ := hn
  exact ⟨d, c', bind_eq_error_iff.2 (.inr ⟨a, m, h, hn⟩), hd⟩

/-- What is done after a step does not keep it from failing. -/
lemma FailsWith.ensuring (h : FailsWith step c fault) (after : Context → Context) :
    FailsWith (ensuring step after) c fault := by
  obtain ⟨d, c', h, hd⟩ := h
  exact ⟨d, after c', ensuring_eq_error_iff.2 ⟨c', h, rfl⟩, hd⟩

/-- Locating a diagnostic keeps the fault. -/
lemma FailsWith.locating (h : FailsWith step c fault) (span : Span) :
    FailsWith (locating span step) c fault := by
  obtain ⟨d, c', h, hd⟩ := h
  exact ⟨d.locate span, c', by simp only [Render.locating, h], by simpa using hd⟩

/-- Steps over a list fail where one of them does. -/
lemma failsWith_mapM {f : α → Render β} {before after : List α} {a : α} {bs : List β}
    (hb : before.mapM f c = .ok bs m) (h : FailsWith (f a) m fault) :
    FailsWith ((before ++ a :: after).mapM f) c fault := by
  rw [List.mapM_append]
  refine failsWith_bind_of_ok hb (FailsWith.bind ?_ _)
  rw [List.mapM_cons]
  exact h.bind _

/-- A loop fails where an iteration does. -/
lemma failsWith_iterate {step : Nat → Render String} {n count index : Nat} {texts : List String}
    (hn : n < count) (hi : iterate step n index c = .ok texts m)
    (h : FailsWith (step (index + n)) m fault) : FailsWith (iterate step count index) c fault := by
  -- The iterations before the one that fails are run off one by one.
  induction n generalizing count index c texts with
  | zero =>
    obtain ⟨count, rfl⟩ : ∃ k, count = k + 1 := ⟨count - 1, by omega⟩
    cases hi
    exact h.bind _
  | succ n ih =>
    obtain ⟨count, rfl⟩ : ∃ k, count = k + 1 := ⟨count - 1, by omega⟩
    obtain ⟨text, c₁, ht, hi⟩ := bind_eq_ok_iff.1 hi
    obtain ⟨rest, c₂, hr, hi⟩ := bind_eq_ok_iff.1 hi
    cases hi
    refine failsWith_bind_of_ok ht (FailsWith.bind ?_ _)
    exact ih (by omega) hr (by rwa [show index + 1 + n = index + (n + 1) by omega])

end

variable {node body : Node} {via : List Node} {c m : Context} {fault : Fault}

/-- A literal is rendered as its text. -/
lemma value_of_literal (mode : Mode) (hk : node.kind = .literal) (c : Context) :
    value mode node c = .ok (Text.trim node.text) c := by
  rw [value, hk]
  rfl

/-- A literal that is a whole number is a bound. -/
lemma loopBound_of_literal {n : Int} (hk : node.kind = .literal)
    (hn : Number.integer? (Text.trim node.text) = some n) (c : Context) :
    loopBound node c = .ok n c := by
  simp only [loopBound, bind_of_ok (value_of_literal .fold hk c), (Text.trimmed_trim _).trim_eq,
    hn, pure_apply]

/-- A loop does what its rows make of its body. -/
lemma perform_of_unrolls {placement : Placement} {names : List String} {rows : Rows}
    (h : Unrolls node c body placement names rows) :
    perform node c = (unroll (block body) placement names rows >>= fun _ => pure "") c := by
  cases h with
  | counting hn hf hl hu =>
    rw [perform, hn.kind]
    simp only [forLoop, Node.childOf_of_getElem? hn.counter_at hn.counter_kind,
      Node.child_of_getElem? hn.first_at, Node.childOf_of_getElem? hn.word_at hn.word_kind,
      Node.child_of_getElem? hn.last_at, Node.childOf_of_getElem? hn.body_at hn.body_kind,
      ofExcept, pure_bind, bind_of_ok hf, bind_of_ok hl, hu, lift, id_eq]
  | through hk hb hbk hr =>
    rw [perform, hk]
    simp only [eachLoop, Node.body_of_getLast? hb hbk, ofExcept, pure_bind, bind_of_ok hr]

/-- A loop that unrolls has names. -/
lemma Unrolls.loopNames {placement : Placement} {names : List String} {rows : Rows}
    (h : Unrolls node c body placement names rows) : node.LoopNames names := by
  cases h with
  | counting hn => exact .counter hn.kind hn.counter_at
  | through hk _ _ hr => exact loopNames_of_eachRows hk hr

/-- A loop that unrolls targets references. -/
lemma Unrolls.targetsReferences {placement : Placement} {names : List String} {rows : Rows}
    (h : Unrolls node c body placement names rows) : node.TargetsReferences := by
  cases h with
  | counting hn => exact targetsReferences_of_counter hn.kind hn.counter_at hn.counter_kind
  | through hk _ _ hr => exact targetsReferences_of_eachRows hk hr

/-- The body of a loop that unrolls is one of its children. -/
lemma Unrolls.mem_children {placement : Placement} {names : List String} {rows : Rows}
    (h : Unrolls node c body placement names rows) : body ∈ node.children := by
  cases h with
  | counting hn => exact List.mem_of_getElem? hn.body_at
  | through _ hb => exact List.mem_of_getLast? hb

/-- A loop fails where the block of an iteration does. -/
lemma failsWith_unroll {placement : Placement} {names : List String} {rows : Rows} {n : Nat}
    {texts : List String} (hn : n < rows.count)
    (hi : iterate (round body placement names rows) n 0 (enterLoop placement names c) =
      .ok texts m)
    (h : FailsWith (block body) (startIteration (names.zip (rows.row n)) m) fault) :
    FailsWith (unroll (block body) placement names rows) c fault := by
  have hr : FailsWith (round body placement names rows (0 + n)) m fault := by
    rw [Nat.zero_add]
    exact (h.ensuring closeFrame).bind _
  exact ((failsWith_iterate hn hi hr).ensuring _).bind _

/-- A conditional whose guard fails decides among its further branches and what is left. -/
lemma conditional_of_false {guard first : Node} (hg : node.children[0]? = some guard)
    (hf : node.children[1]? = some first) (hk : first.kind = .block)
    (hh : holds guard c = .ok false c) :
    conditional node c = firstText ((node.filter .elseIf).map elseIfBranch)
      (match node.find? .otherwise with
        | some branch => otherwiseBranch branch
        | none => return "") c := by
  rw [conditional]
  simp only [Node.child_of_getElem? hg, Node.childOf_of_getElem? hf hk, ofExcept, pure_bind,
    bind_of_ok hh, Bool.false_eq_true, if_false, List.map_attach_eq_pmap, List.pmap_eq_map]
  congr 1
  split <;> next h => rw [h]

/-- Branches that are passed give no text. -/
lemma firstText_of_skipped {branches : List Node} (h : Skipped branches c m) (rest : List Node)
    (last : Render String) :
    firstText ((branches ++ rest).map elseIfBranch) last c =
      firstText (rest.map elseIfBranch) last m := by
  induction h with
  | nil => rfl
  | cons hb _ ih => exact (bind_of_ok hb).trans ih

/-- A block that is entered and fails makes the statement fail. -/
lemma Enters.perform_fails (h : Enters node c via body m) (hb : FailsWith (block body) m fault) :
    FailsWith (perform node) c fault := by
  cases h with
  | rule hn =>
    rw [perform_of_rule hn]
    exact (hb.ensuring Context.closeRule).bind _
  | round hu hn hi =>
    unfold FailsWith
    rw [perform_of_unrolls hu]
    exact (failsWith_unroll hn hi hb).bind _
  | firstBranch hk hg hf hbk hh =>
    rw [perform, hk]
    simp only [conditional, Node.child_of_getElem? hg, Node.childOf_of_getElem? hf hbk, ofExcept,
      pure_bind]
    exact failsWith_bind_of_ok hh hb
  | elseIf hk hg hf hfk hh hs hp ho hho hb' hbk =>
    unfold FailsWith
    rw [perform, hk]
    simp only [conditional_of_false hg hf hfk hh, hs, firstText_of_skipped hp]
    refine FailsWith.bind ?_ _
    rw [elseIfBranch]
    simp only [Node.child_of_getElem? ho, Node.childOf_of_getElem? hb' hbk, ofExcept, pure_bind]
    exact failsWith_bind_of_ok hho (hb.bind _)
  | @otherwise guard first branch _ _ _ hk hg hf hfk hh hp ho hb' hbk =>
    have hs := firstText_of_skipped hp [] (otherwiseBranch branch)
    rw [List.append_nil] at hs
    unfold FailsWith
    rw [perform, hk]
    simp only [conditional_of_false hg hf hfk hh, ho, hs]
    change FailsWith (otherwiseBranch branch) m fault
    rw [otherwiseBranch]
    simp only [Node.childOf_of_getElem? hb' hbk, ofExcept, pure_bind]
    exact hb

/-- What is entered is a block. -/
lemma Enters.kind_block (h : Enters node c via body m) : body.kind = .block := by
  cases h with
  | rule hn => exact hn.block_kind
  | round hu =>
    cases hu with
    | counting hn => exact hn.body_kind
    | through _ _ hk => exact hk
  | firstBranch _ _ _ hk => exact hk
  | elseIf _ _ _ _ _ _ _ _ _ _ hk => exact hk
  | otherwise _ _ _ _ _ _ _ _ hk => exact hk

/-- A document fails where a statement that it reaches does. -/
theorem Reaches.document_fails {root : Node} {start : Context} {above : List Node}
    (h : Reaches root start above c node) (hf : FailsWith (statement node) c fault) :
    FailsWith (document root) start fault := by
  induction h with
  | outermost hk hc hb =>
    unfold document
    simp only [hk, ne_eq, not_true_eq_false, if_false]
    refine FailsWith.bind ?_ _
    rw [hc]
    exact failsWith_mapM hb (hf.bind _)
  | @deeper above parent via body before node after texts c m c' _ hd he hc hb ih =>
    refine ih ?_
    have hblock : FailsWith (block body) m fault := by
      rw [block]
      simp only [he.kind_block, ne_eq, not_true_eq_false, if_false]
      refine FailsWith.bind ?_ _
      rw [hc]
      exact failsWith_mapM hb hf
    rw [statement]
    have hs : descend c = .ok ⟨⟩ c.descend := by
      rw [descend_apply, hd]
      rfl
    exact (failsWith_bind_of_ok hs ((he.perform_fails hblock).ensuring _)).locating _

end Render

end Stylesheet
