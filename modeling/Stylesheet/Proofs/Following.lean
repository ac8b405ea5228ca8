import Stylesheet.Proofs.Frame
import Stylesheet.Proofs.Nesting
import Stylesheet.Proofs.Position

/-!
# Following what waits

`Visits` holds of the states that compiling a document goes through. A property of the mixins and of
the fragments that wait holds in all of them if the steps that add to either keep it: a rule that
has to wait, a mixin that is declared or included, and a loop that is done. `Follows` lists these
steps, each with the statement of the document that makes it, and `Follows.visits` is the
conclusion.
-/

namespace Stylesheet

/-- The body that is found is the last child. -/
lemma Node.getLast?_of_body {node : Node} {block : node.Child} (h : node.body = .ok block) :
    node.children.getLast? = some block.1 := by
  unfold body at h
  split at h
  · next child hc =>
    split at h
    · cases h
      exact hc
    · cases h
  · cases h

/-- The mixins are the same, and nothing waits that did not wait before. -/
structure Context.Sheds (c c' : Context) : Prop where
  mixins : c'.mixins = c.mixins
  queue : c'.queue ⊆ c.queue

namespace Render

variable {α β : Type} {I : Context → Prop} {c m : Context}

/-! ### The states that steps leave -/

/-- The state after a step that succeeds is the one it gives. -/
lemma after_of_ok {step : Render α} {a : α} (h : step c = .ok a m) : after step c = m := by
  rw [after, h]

/-- The state after a step that fails is the one it leaves. -/
lemma after_of_error {step : Render α} {d : Diagnostic} (h : step c = .error d m) :
    after step c = m := by
  rw [after, h]

/-- Steps that end in the same way leave the same state. -/
lemma after_congr {step other : Render α} {c' : Context} (h : step c = other c') :
    after step c = after other c' := by
  rw [after, h, after]

/-- What is done after a step is done whether or not it fails. -/
@[simp] lemma after_ensuring (step : Render α) (f : Context → Context) (c : Context) :
    after (ensuring step f) c = f (after step c) := by
  simp only [after, ensuring]
  cases step c <;> rfl

/-- Locating a diagnostic does not matter for the state. -/
@[simp] lemma after_locating (span : Span) (step : Render α) (c : Context) :
    after (locating span step) c = after step c := by
  simp only [after, locating]
  cases step c <;> rfl

/-- A result that does not depend on the state leaves it. -/
@[simp] lemma after_ofExcept (result : Except Diagnostic α) (c : Context) :
    after (ofExcept result) c = c := by
  cases result <;> rfl

/-- One level deeper is reached even where that is too deep. -/
lemma after_descend (c : Context) : after descend c = c.descend := by
  by_cases h : c.descend.tooDeep = true
  · apply after_of_error
    rw [descend_apply, if_pos h]
  · apply after_of_ok
    rw [descend_apply, if_neg h]

/-- What holds after a step, and after the next one if it is run, holds after both. -/
lemma after_bind {step : Render α} {next : α → Render β} (hs : I (after step c))
    (hn : ∀ a m, step c = .ok a m → I m → I (after (next a) m)) :
    I (after (step >>= next) c) := by
  cases h : step c with
  | ok a m =>
    rw [after_of_ok h] at hs
    rw [after_congr (bind_of_ok h)]
    exact hn a m h hs
  | error d m =>
    rw [after_of_error h] at hs
    rwa [after_of_error (bind_of_error h)]

/-- After a result, an invariant has to hold after what follows it. -/
lemma after_ofExcept_bind {result : Except Diagnostic α} {next : α → Render β} (hc : I c)
    (hn : ∀ a, result = .ok a → I (after (next a) c)) :
    I (after (ofExcept result >>= next) c) := by
  apply after_bind
  · rwa [after_ofExcept]
  · intro a m h _
    obtain ⟨hr, rfl⟩ := ofExcept_eq_ok_iff.1 h
    exact hn a hr

/-- A step that keeps to an invariant leaves a state with it. -/
lemma Discipline.Respects.after {step : Render α} (h : (invariant I).Respects step) (hc : I c) :
    I (after step c) := by
  cases hs : step c with
  | ok a m =>
    rw [after_of_ok hs]
    exact h.ok hs hc
  | error d m =>
    rw [after_of_error hs]
    exact h.error hs hc

/-- What follows a step that only reads the state starts in the same state. -/
lemma after_reading_bind {step : Render α} {next : α → Render β}
    (hs : ∀ {D : Discipline}, D.Lenient → D.Respects step) (hI : (Discipline.invariant I).Lenient)
    (hc : I c) (hn : ∀ a, step c = .ok a c → I (after (next a) c)) :
    I (after (step >>= next) c) := by
  apply after_bind ((hs hI).after hc)
  intro a m h _
  obtain rfl := (hs Discipline.reading_lenient).ok h
  exact hn a h

/-- A property holds after steps that run one after the other if each of them keeps it where those
before it have succeeded. -/
lemma after_mapM {f : α → Render β} {as : List α} (hc : I c)
    (hs : ∀ done a rest bs m, as = done ++ a :: rest → done.mapM f c = .ok bs m → I m →
      I (after (f a) m)) : I (after (as.mapM f) c) := by
  have go (done rest : List α) (bs : List β) (m : Context) (ha : as = done ++ rest)
      (hd : done.mapM f c = .ok bs m) (hm : I m) : I (after (rest.mapM f) m) := by
    induction rest generalizing done bs m with
    | nil => exact hm
    | cons a rest ih =>
      rw [List.mapM_cons]
      apply after_bind (hs done a rest bs m ha hd hm)
      intro b m' hb hm'
      have hd' : (done ++ [a]).mapM f c = .ok (bs ++ [b]) m' := by
        rw [List.mapM_append, bind_of_ok hd, bind_of_ok (mapM_cons_of_ok hb rfl)]
        rfl
      apply after_bind (ih (done ++ [a]) (bs ++ [b]) m' (by simp [ha]) hd' hm')
      intro bs' m'' _ hm''
      exact hm''
  exact go [] as [] c rfl rfl hc

/-- The iterations of a loop are run one after the other. -/
lemma iterate_eq_mapM (step : Nat → Render String) (count index : Nat) :
    iterate step count index = (List.range' index count).mapM step := by
  induction count generalizing index with
  | zero => rfl
  | succ count ih => rw [List.range'_succ, List.mapM_cons, ← ih, iterate]

/-- An invariant holds after a loop if each iteration keeps it. -/
lemma after_iterate {step : Nat → Render String} {count : Nat} (hc : I c)
    (hs : ∀ n texts m, n < count → iterate step n 0 c = .ok texts m → I m →
      I (after (step n) m)) : I (after (iterate step count 0) c) := by
  rw [iterate_eq_mapM]
  apply after_mapM hc
  intro done n rest texts m hr hd hm
  obtain ⟨k, hk, hdone, hrest⟩ := List.range'_eq_append_iff.1 hr
  obtain ⟨rfl, hpos, -⟩ := List.range'_eq_cons_iff.1 hrest.symm
  apply hs _ texts m _ _ hm
  · omega
  · rw [iterate_eq_mapM]
    simpa [hdone] using hd

/-- An invariant holds after a block if each statement keeps it. -/
lemma after_block {body : Node} (hk : body.kind = .block) (hc : I c)
    (hs : ∀ done child rest texts m, body.children = done ++ child :: rest →
      done.mapM statement c = .ok texts m → I m → I (after (statement child) m)) :
    I (after (block body) c) := by
  rw [block]
  simp only [hk, ne_eq, not_true_eq_false, if_false]
  apply after_bind (after_mapM hc hs)
  intro texts m _ hm
  exact hm

/-- Steps that only read the state keep what is about the mixins and what waits. -/
lemma Discipline.Lenient.of_sheds (h : ∀ {c c'}, I c → c.Sheds c' → I c') :
    (invariant I).Lenient where
  ok hs hc := h (hs (h hc ⟨rfl, List.Subset.refl _⟩)) ⟨rfl, List.Subset.refl _⟩
  error hs hc := h (hs (h hc ⟨rfl, List.Subset.refl _⟩)) ⟨rfl, List.Subset.refl _⟩
  limit _ hc := h hc ⟨rfl, List.Subset.refl _⟩
  admits _ _ := id
  locate _ h := h

/-! ### The states of a compilation -/

/-- Compiling a document goes through a state: there a statement starts or ends, or a block that it
enters does, or an iteration of a loop, or the document ends. -/
inductive Visits (root : Node) (start : Context) : Context → Prop where
  | reached {above node c} :
    Reaches root start above c node →
    Visits root start c
  | done {above node c} :
    Reaches root start above c node →
    Visits root start (after (statement node) c)
  | entered {above via node body c m} :
    Reaches root start above c node →
    c.descend.tooDeep = false →
    Enters node c.descend via body m →
    Visits root start m
  | left {above via node body c m} :
    Reaches root start above c node →
    c.descend.tooDeep = false →
    Enters node c.descend via body m →
    Visits root start (after (block body) m)
  | round {above node body placement names rows n texts c m} :
    Reaches root start above c node →
    c.descend.tooDeep = false →
    Unrolls node c.descend body placement names rows →
    n ≤ rows.count →
    iterate (round body placement names rows) n 0 (enterLoop placement names c.descend) =
      .ok texts m →
    Visits root start m
  | compiled :
    Visits root start (after (document root) start)

/-- A loop of the document is run, and its iterations give texts. -/
inductive Loops (root : Node) (start : Context) : List String → Prop where
  | intro {above node body placement names rows texts c m} :
    Reaches root start above c node →
    c.descend.tooDeep = false →
    Unrolls node c.descend body placement names rows →
    iterate (Render.round body placement names rows) rows.count 0
      (enterLoop placement names c.descend) = .ok texts m →
    Loops root start texts

/-- What keeps a property of the mixins and of the fragments that wait, wherever the compilation of
a document adds to them. -/
structure Follows (root : Node) (start : Context) (I : Context → Prop) : Prop where
  sheds : ∀ {c c'}, I c → c.Sheds c' → I c'
  rule : ∀ {c} selector text, I c → I (c.enqueue (Selector.block selector text ++ "\n\n"))
  define : ∀ {above c node}, Reaches root start above c node → node.kind = .mixinDeclaration →
    I c.descend → I (after (declareMixin node) c.descend)
  expand : ∀ {above c node}, Reaches root start above c node → node.kind = .includeDeclaration →
    I c.descend → I (after (includeMixin node) c.descend)
  loop : ∀ {texts c}, Loops root start texts → I c → "\n".intercalate texts ≠ "" →
    I (c.enqueue ("\n".intercalate texts))

/-- A conditional goes on to its further branches, since its guard fails. -/
structure Declines (node guard : Node) (c : Context) : Prop where
  kind : node.kind = .conditional
  guard_at : node.children[0]? = some guard
  body : ∃ first, node.children[1]? = some first ∧ first.kind = .block ∧
    holds guard c = .ok false c

namespace Skipped

variable {branches : List Node} {branch : Node} {c' : Context}

/-- One more branch is passed that gives no text. -/
lemma concat (h : Skipped branches c m) (hb : elseIfBranch branch m = .ok none c') :
    Skipped (branches ++ [branch]) c c' := by
  induction h with
  | nil => exact .cons hb .nil
  | cons ho _ ih => exact .cons ho (ih hb)

end Skipped

/-- What stands in a block that a statement enters is smaller than the statement. -/
lemma Enters.sizeOf_lt {node body child : Node} {via : List Node} (h : Enters node c via body m)
    (hc : child ∈ body.children) : sizeOf child < sizeOf node := by
  have hs := (List.isChain_map sizeOf).2 (h.chain.imp fun _ _ => Node.sizeOf_lt_of_mem)
  have hb : sizeOf body < sizeOf node := (List.pairwise_cons.1 hs.pairwise).1 _ (by simp)
  exact Nat.lt_trans (Node.sizeOf_lt_of_mem hc) hb

namespace Follows

variable {root node : Node} {start : Context} {above : List Node} (F : Follows root start I)
include F

/-- The property is about the mixins and what waits only. -/
lemma same {c' : Context} (h : I c) (hm : c'.mixins = c.mixins) (hq : c'.queue = c.queue) : I c' :=
  F.sheds h ⟨hm, hq ▸ List.Subset.refl _⟩

/-- The invariant is a lenient discipline. -/
lemma lenient : (Discipline.invariant I).Lenient := .of_sheds F.sheds

/-- A declaration of a variable keeps the invariant. -/
lemma declareVariable (hc : I c) : I (after (declareVariable node) c) := by
  unfold Render.declareVariable
  apply after_ofExcept_bind hc
  intro reference _
  apply after_ofExcept_bind hc
  intro item _
  change I (after (declaredValue item.1 >>= _) c)
  apply after_reading_bind (fun hD => hD.declaredValue item.1) F.lenient hc
  intro v _
  exact F.same hc rfl rfl

/-- A rule leaves the state of its block without the rule, and may add its own text. -/
lemma rule_of_body {body : Render String} {selector : String}
    (hb : I (after body (c.openRule selector))) : I (after (Render.rule selector body) c) := by
  have closed : I (after (ensuring body Context.closeRule) (c.openRule selector)) := by
    rw [after_ensuring]
    exact F.same hb rfl rfl
  change I (after (ensuring body Context.closeRule >>= _) (c.openRule selector))
  apply after_bind closed
  intro text m _ hm
  change I (after (if !m.isNested || m.isUnrollingChild then _ else _) m)
  split
  · exact hm
  · exact F.rule _ _ hm

/-- An iteration leaves the state of its body without its frame and without what it made wait. -/
lemma iteration_of_body {body : Render String} {bindings : List (String × String)}
    (placement : Placement) (hb : I (after body (startIteration bindings c))) :
    I (after (iteration body placement bindings) c) := by
  have closed : I (after (ensuring body closeFrame) (startIteration bindings c)) := by
    rw [after_ensuring]
    exact F.same hb rfl rfl
  change I (after (ensuring body closeFrame >>= _) (startIteration bindings c))
  apply after_bind closed
  intro text m _ hm
  exact F.sheds hm ⟨rfl, List.take_subset _ _⟩

/-- A counting loop that does not come to its iterations has only read the state. -/
lemma forLoop_of_not_unrolls (hk : node.kind = .forLoop) (hc : I c)
    (hn : ∀ body placement names rows, ¬Unrolls node c body placement names rows) :
    I (after (forLoop node) c) := by
  rw [Render.forLoop]
  apply after_ofExcept_bind hc
  rintro ⟨counter, _⟩ hcounter
  apply after_ofExcept_bind hc
  rintro ⟨first, _⟩ hfirst
  apply after_reading_bind (fun hD => hD.loopBound first) F.lenient hc
  intro lower hlower
  apply after_ofExcept_bind hc
  rintro ⟨word, _⟩ hword
  apply after_ofExcept_bind hc
  rintro ⟨last, _⟩ hlast
  apply after_reading_bind (fun hD => hD.loopBound last) F.lenient hc
  intro bound hbound
  apply after_ofExcept_bind hc
  rintro ⟨body, _⟩ hbody
  cases hu : lastValue (Text.trim word.text) bound with
  | error fault => exact hc
  | ok upper =>
    obtain ⟨hcounter, hck⟩ := Node.getElem?_of_childOf hcounter
    obtain ⟨hword, hwk⟩ := Node.getElem?_of_childOf hword
    obtain ⟨hbody, hbk⟩ := Node.getElem?_of_childOf hbody
    have parts : Node.IsCounting node counter first word last body :=
      ⟨hk, hcounter, hck, Node.getElem?_of_child hfirst, hword, hwk, Node.getElem?_of_child hlast,
        hbody, hbk⟩
    exact absurd (.counting parts hlower hbound hu) (hn _ _ _ _)

/-- A loop that does not get to unroll keeps the invariant. -/
lemma eachLoop_of_not_unrolls (hk : node.kind = .eachLoop) (hc : I c)
    (hn : ∀ body placement names rows, ¬Unrolls node c body placement names rows) :
    I (after (eachLoop node) c) := by
  rw [Render.eachLoop]
  apply after_ofExcept_bind hc
  rintro ⟨body, _⟩ hbody
  apply after_reading_bind (fun hD => hD.eachRows node) F.lenient hc
  rintro ⟨names, rows⟩ hrows
  have hu : Unrolls node c body .substituted names rows :=
    .through hk (Node.getLast?_of_body hbody) (Node.kind_of_body hbody) hrows
  exact absurd hu (hn _ _ _ _)

/-! ### Blocks that are entered

The lemmas of this part are about one statement, and suppose that the blocks which it enters keep
the property. -/

section

variable (hb : ∀ {via body m}, Enters node c via body m → I m → I (after (block body) m))
include hb

/-- A rule keeps the invariant. -/
lemma ruleStatement (hk : node.kind = .rule) (hc : I c) : I (after (ruleStatement node) c) := by
  rw [Render.ruleStatement]
  apply after_ofExcept_bind hc
  rintro ⟨group, _⟩ hg
  apply after_ofExcept_bind hc
  rintro ⟨body, _⟩ hbody
  obtain ⟨hg, hgk⟩ := Node.getElem?_of_childOf hg
  obtain ⟨hbody, hbk⟩ := Node.getElem?_of_childOf hbody
  have he : Enters node c [] body _ := .rule ⟨hk, hg, hgk, hbody, hbk⟩
  exact F.rule_of_body (hb he (F.same hc rfl rfl))

section

variable {placement : Placement} {names : List String} {rows : Rows} {body : Node}

/-- The iterations of a loop keep the property, one after the other. -/
lemma rounds (hu : Unrolls node c body placement names rows) (hc : I c) {n : Nat}
    (hn : n ≤ rows.count) :
    I (after (iterate (Render.round body placement names rows) n 0)
      (enterLoop placement names c)) := by
  have entered : I (enterLoop placement names c) := F.same hc rfl rfl
  apply after_iterate entered
  intro k texts m hk hi hm
  apply F.iteration_of_body
  exact hb (.round hu (Nat.lt_of_lt_of_le hk hn) hi) (F.same hm rfl rfl)

/-- A loop keeps the invariant if its iterations do. -/
lemma unroll (hu : Unrolls node c body placement names rows) (hc : I c)
    (hl : ∀ texts m, iterate (Render.round body placement names rows) rows.count 0
      (enterLoop placement names c) = .ok texts m → Loops root start texts) :
    I (after (unroll (block body) placement names rows) c) := by
  have done : I (after (ensuring (iterate (Render.round body placement names rows) rows.count 0)
      (leaveLoop c.bound.length names)) (enterLoop placement names c)) := by
    rw [after_ensuring]
    exact F.same (F.rounds hb hu hc (Nat.le_refl _)) rfl rfl
  change I (after (ensuring (iterate (Render.round body placement names rows) rows.count 0)
    (leaveLoop c.bound.length names) >>= _) (enterLoop placement names c))
  apply after_bind done
  intro texts m h hm
  obtain ⟨m', hi, -⟩ := ensuring_eq_ok_iff.1 h
  change I (after (if "\n".intercalate texts ≠ "" then _ else _) m)
  split
  · next ht => exact F.loop (hl texts m' hi) hm ht
  · exact hm

end

section

variable {guard : Node} {passed rest : List Node} (hd : Declines node guard c)
include hd

/-- A further branch runs where those before it have given no text. -/
lemma elseIfBranch {branch : Node} (hs : node.filter .elseIf = passed ++ branch :: rest)
    (hp : Skipped passed c m) (hm : I m) : I (after (elseIfBranch branch) m) := by
  obtain ⟨hk, hg, first, hf, hfk, hh⟩ := hd
  rw [Render.elseIfBranch]
  apply after_ofExcept_bind hm
  rintro ⟨other, _⟩ ho
  apply after_reading_bind (fun hD => hD.holds other) F.lenient hm
  intro answer ha
  cases answer with
  | false => exact hm
  | true =>
    apply after_ofExcept_bind hm
    rintro ⟨body, _⟩ hbody
    obtain ⟨hbody, hbk⟩ := Node.getElem?_of_childOf hbody
    have he : Enters node c [branch] body m :=
      .elseIf hk hg hf hfk hh hs hp (Node.getElem?_of_child ho) ha hbody hbk
    apply after_bind (hb he hm)
    intro text m' _ hm'
    exact hm'

/-- Branches that are passed keep the invariant. -/
lemma skipped (hs : node.filter .elseIf = passed ++ rest) (hp : Skipped passed c m) (hc : I c) :
    I m := by
  have go (done : List Node) {todo : List Node} {m m' : Context} (ht : Skipped todo m m')
      (hs : node.filter .elseIf = done ++ todo ++ rest) (hp : Skipped done c m) (hm : I m) :
      I m' := by
    induction ht generalizing done with
    | nil => exact hm
    | @cons branch branches m m₁ m' hbranch _ ih =>
      have hm₁ := F.elseIfBranch hb hd (by simpa using hs) hp hm
      rw [after_of_ok hbranch] at hm₁
      exact ih (done ++ [branch]) (by simpa using hs) (hp.concat hbranch) hm₁
  exact go [] hp (by simpa using hs) .nil hc

omit F in
/-- The branch that is left runs where no further one has given a text. -/
lemma otherwiseBranch {branch : Node} (hbranch : node.find? .otherwise = some branch)
    (hp : Skipped (node.filter .elseIf) c m) (hm : I m) : I (after (otherwiseBranch branch) m) := by
  obtain ⟨hk, hg, first, hf, hfk, hh⟩ := hd
  rw [Render.otherwiseBranch]
  apply after_ofExcept_bind hm
  rintro ⟨body, _⟩ hbody
  obtain ⟨hbody, hbk⟩ := Node.getElem?_of_childOf hbody
  exact hb (.otherwise hk hg hf hfk hh hp hbranch hbody hbk) hm

/-- The further branches keep the invariant. -/
lemma firstText {last : Render String} (hc : I c)
    (hl : ∀ m, Skipped (node.filter .elseIf) c m → I m → I (after last m)) :
    I (after (firstText ((node.filter .elseIf).map Render.elseIfBranch) last) c) := by
  have go (passed rest : List Node) (m : Context) (hs : node.filter .elseIf = passed ++ rest)
      (hp : Skipped passed c m) (hm : I m) :
      I (after (Render.firstText (rest.map Render.elseIfBranch) last) m) := by
    induction rest generalizing passed m with
    | nil =>
      rw [List.append_nil] at hs
      exact hl m (hs ▸ hp) hm
    | cons branch rest ih =>
      apply after_bind (F.elseIfBranch hb hd hs hp hm)
      intro answer m' hbranch hm'
      cases answer with
      | none => exact ih (passed ++ [branch]) m' (by simpa using hs) (hp.concat hbranch) hm'
      | some text => exact hm'
  exact go [] (node.filter .elseIf) c rfl .nil hc

/-- A conditional whose first branch is not taken keeps the invariant. -/
lemma conditional_of_declines (hc : I c) : I (after (conditional node) c) := by
  obtain ⟨first, hf, hfk, hh⟩ := hd.body
  rw [after_congr (conditional_of_false hd.guard_at hf hfk hh)]
  apply F.firstText hb hd hc
  intro m hp hm
  split
  · next branch hbranch => exact otherwiseBranch hb hd hbranch hp hm
  · exact hm

end

/-- A conditional keeps the invariant. -/
lemma conditional (hk : node.kind = .conditional) (hc : I c) : I (after (conditional node) c) := by
  by_cases hd : ∃ guard, Declines node guard c
  · obtain ⟨guard, hd⟩ := hd
    exact F.conditional_of_declines hb hd hc
  · rw [Render.conditional]
    apply after_ofExcept_bind hc
    rintro ⟨guard, _⟩ hguard
    apply after_ofExcept_bind hc
    rintro ⟨body, _⟩ hbody
    have hg := Node.getElem?_of_child hguard
    obtain ⟨hbody, hbk⟩ := Node.getElem?_of_childOf hbody
    apply after_reading_bind (fun hD => hD.holds guard) F.lenient hc
    intro answer ha
    cases answer with
    | true => exact hb (.firstBranch hk hg hbody hbk ha) hc
    | false => exact absurd ⟨guard, hk, hg, body, hbody, hbk, ha⟩ hd

end

/-! ### Statements -/

/-- Performing a statement keeps the invariant if its blocks do. -/
lemma perform (hr : Reaches root start above c node) (hd : c.descend.tooDeep = false)
    (hb : ∀ {via body m}, Enters node c.descend via body m → I m → I (after (block body) m))
    (hc : I c.descend) : I (after (perform node) c.descend) := by
  by_cases hu : ∃ body placement names rows, Unrolls node c.descend body placement names rows
  · obtain ⟨body, placement, names, rows, hu⟩ := hu
    rw [after_congr (perform_of_unrolls hu)]
    apply after_bind (F.unroll hb hu hc fun texts m hi => .intro hr hd hu hi)
    intro _ m _ hm
    exact hm
  · simp only [not_exists] at hu
    rw [Render.perform]
    cases hk : node.kind <;> dsimp only
    case rule => exact F.ruleStatement hb hk hc
    case declaration => exact (F.lenient.declaration node).after hc
    case variableDeclaration =>
      apply after_bind (F.declareVariable hc)
      intro _ m _ hm
      exact hm
    case mixinDeclaration =>
      apply after_bind (F.define hr hk hc)
      intro _ m _ hm
      exact hm
    case includeDeclaration => exact F.expand hr hk hc
    case forLoop => exact F.forLoop_of_not_unrolls hk hc hu
    case eachLoop => exact F.eachLoop_of_not_unrolls hk hc hu
    case conditional => exact F.conditional hb hk hc
    all_goals exact hc

/-- A statement runs where it is reached, one level deeper, unless the options forbid it. -/
lemma statement_of_perform (hc : I c)
    (hp : c.descend.tooDeep = false → I c.descend → I (after (Render.perform node) c.descend)) :
    I (after (statement node) c) := by
  have hc' : I c.descend := F.same hc rfl rfl
  rw [Render.statement, after_locating]
  apply after_bind
  · rwa [after_descend]
  · intro _ m h _
    rw [descend_apply] at h
    split at h
    · cases h
    · next ht =>
      cases h
      rw [after_ensuring]
      exact F.same (hp (by simpa using ht) hc') rfl rfl

/-- A statement that is reached keeps the property. -/
lemma statement (hr : Reaches root start above c node) (hc : I c) :
    I (after (statement node) c) := by
  -- A statement is run after those before it in its block, so the induction is on its size and not
  -- on how it is reached.
  induction hn : sizeOf node using Nat.strong_induction_on generalizing node above c with
  | _ n ih =>
    apply F.statement_of_perform hc
    intro hd hc'
    apply F.perform hr hd _ hc'
    intro via body m he hm
    apply after_block he.kind_block hm
    intro done child rest texts m' hs hm' hI
    have hmem : child ∈ body.children := by simp [hs]
    exact ih (sizeOf child) (hn ▸ he.sizeOf_lt hmem) (hr.deeper hd he hs hm') hI rfl

/-- The block that a statement enters keeps the invariant. -/
lemma block {body : Node} {via : List Node} (hr : Reaches root start above c node)
    (hd : c.descend.tooDeep = false) (he : Enters node c.descend via body m) (hm : I m) :
    I (after (block body) m) := by
  apply after_block he.kind_block hm
  intro done child rest texts m' hs hm' hI
  exact F.statement (hr.deeper hd he hs hm') hI

/-! ### All states -/

/-- A block is entered in a state with the invariant. -/
lemma enters {body : Node} {via : List Node} (hr : Reaches root start above c node)
    (hd : c.descend.tooDeep = false) (he : Enters node c.descend via body m) (hc : I c) : I m := by
  have hc' : I c.descend := F.same hc rfl rfl
  have hb {via body m} (he : Enters node c.descend via body m) := F.block hr hd he
  cases he with
  | rule hn => exact F.same hc' rfl rfl
  | round hu hn hi =>
    have done := F.rounds hb hu hc' (Nat.le_of_lt hn)
    rw [after_of_ok hi] at done
    exact F.same done rfl rfl
  | firstBranch => exact hc'
  | elseIf hk hg hf hfk hh hs hp => exact F.skipped hb ⟨hk, hg, _, hf, hfk, hh⟩ hs hp hc'
  | otherwise hk hg hf hfk hh hp =>
    exact F.skipped hb ⟨hk, hg, _, hf, hfk, hh⟩ (List.append_nil _).symm hp hc'

/-- An outermost statement keeps the invariant. -/
lemma outermost {before rest : List Node} {texts : List String} (hk : root.kind = .stylesheet)
    (hs : root.children = before ++ node :: rest)
    (hb : before.mapM Render.outermost start = .ok texts c) (hc : I c) :
    I (after (outermost node) c) := by
  apply after_bind (F.statement (.outermost hk hs hb) hc)
  intro text m _ hm
  apply F.sheds hm
  change m.Sheds m.flush.2
  unfold Context.flush
  split
  · exact ⟨rfl, List.Subset.refl _⟩
  · exact ⟨rfl, List.nil_subset _⟩

/-- A document ends in a state with the invariant. -/
lemma document (hs : I start) : I (after (document root) start) := by
  unfold Render.document
  split
  · exact hs
  · next hk =>
    apply after_bind
    · exact after_mapM hs fun before node rest texts c hn hb =>
        F.outermost (by simpa using hk) hn hb
    · intro texts m _ hm
      exact hm

/-- Every statement is reached in a state with the invariant. -/
lemma reaches (hs : I start) (hr : Reaches root start above c node) : I c := by
  induction hr with
  | @outermost before node rest texts c hk hc hb =>
    have done : I (after (before.mapM Render.outermost) start) := by
      apply after_mapM hs
      intro done child others texts m hn hd hm
      exact F.outermost hk (by rw [hc, hn, List.append_assoc]; rfl) hd hm
    rwa [after_of_ok hb] at done
  | @deeper above parent via body before node rest texts c m c' hr hd he hc hb ih =>
    have done : I (after (before.mapM Render.statement) m) := by
      apply after_mapM (F.enters hr hd he ih)
      intro done child others texts m' hn hd' hm
      exact F.statement (hr.deeper hd he (by rw [hc, hn, List.append_assoc]; rfl) hd') hm
    rwa [after_of_ok hb] at done

/-- A property that the document follows holds in all states that it visits. -/
theorem visits (hs : I start) (h : Visits root start m) : I m := by
  cases h with
  | reached hr => exact F.reaches hs hr
  | done hr => exact F.statement hr (F.reaches hs hr)
  | entered hr hd he => exact F.enters hr hd he (F.reaches hs hr)
  | left hr hd he => exact F.block hr hd he (F.enters hr hd he (F.reaches hs hr))
  | round hr hd hu hn hi =>
    have done := F.rounds (F.block hr hd) hu (F.same (F.reaches hs hr) rfl rfl) hn
    rwa [after_of_ok hi] at done
  | compiled => exact F.document hs

end Follows

end Render

end Stylesheet
