import Stylesheet.Proofs.Value

/-!
# The walk over the statements

`Discipline.Walk` lists the changes that the walk over the statements of a document makes to the
state. A discipline that allows each of them is kept to by every statement and every block,
whether they succeed or fail (`Walk.respectsAt`).
-/

namespace Stylesheet

/-- All nodes of a tree pass a check. -/
def Node.every (p : Node → Bool) (node : Node) : Bool :=
  p node && node.children.attach.all fun ⟨child, _⟩ => child.every p
termination_by sizeOf node
decreasing_by exact Node.sizeOf_lt_of_mem ‹_›

section

variable {p : Node → Bool} {node child : Node}

/-- A tree passes a check if its root and the trees below it do. -/
lemma Node.every_iff :
    node.every p = true ↔ p node = true ∧ ∀ child ∈ node.children, child.every p = true := by
  rw [every, Bool.and_eq_true, List.all_eq_true]
  refine and_congr_right fun _ => ⟨fun h child hc => ?_, fun h child _ => h child.1 child.2⟩
  exact h ⟨child, hc⟩ (List.mem_attach _ _)

/-- The root of a tree that passes a check does. -/
lemma Node.every_self (h : node.every p = true) : p node = true := (every_iff.1 h).1

/-- What is below a node passes the checks that the whole tree passes. -/
lemma Node.every_child (h : node.every p = true) (hc : child ∈ node.children) :
    child.every p = true :=
  (every_iff.1 h).2 child hc

end

/-- The names that a loop binds, as its layout gives them. -/
inductive Node.LoopNames (node : Node) : List String → Prop where
  | counter {counter : Node} :
    node.kind = .forLoop →
    node.children[0]? = some counter →
    LoopNames node [Variable.sigilName counter.text]
  | item {item : Node} :
    node.kind = .eachLoop →
    node.children.length = 3 →
    node.children[0]? = some item →
    LoopNames node [Variable.sigilName item.text]
  | entry {key item : Node} :
    node.kind = .eachLoop →
    node.children.length = 4 →
    node.children[0]? = some key →
    node.children[1]? = some item →
    LoopNames node [Variable.sigilName key.text, Variable.sigilName item.text]

/-- The children that name the variables which a node declares or binds, as its layout gives
them. -/
def Node.targets (node : Node) : List Node :=
  match node.kind, node.children.length with
  | .variableDeclaration, _ | .forLoop, _ | .eachLoop, 3 => node.children.take 1
  | .eachLoop, 4 => node.children.take 2
  | _, _ => []

/-- The variables that a node declares or binds are named by references. -/
def Node.TargetsReferences (node : Node) : Prop := ∀ target ∈ node.targets, target.kind = .reference

/-- The name that a declaration of a variable declares. -/
def Node.declaredName? (node : Node) : Option String :=
  match node.kind, node.children with
  | .variableDeclaration, target :: _ =>
    if target.kind = .reference then some (Variable.bareName target.text) else none
  | _, _ => none

/-- A declaration declares the name in the reference that it starts with. -/
lemma Node.declaredName?_eq_some {node target : Node} (hk : node.kind = .variableDeclaration)
    (ht : node.children[0]? = some target) (hr : target.kind = .reference) :
    node.declaredName? = some (Variable.bareName target.text) := by
  unfold declaredName?
  rw [hk]
  cases hc : node.children with
  | nil => simp [hc] at ht
  | cons first rest =>
    obtain rfl : first = target := by simpa [hc] using ht
    simp [hr]

/-- A declaration that declares a name starts with a reference to it. -/
lemma Node.exists_of_declaredName? {node : Node} {name : String}
    (h : node.declaredName? = some name) :
    ∃ target ∈ node.children, target.kind = .reference ∧ name = Variable.bareName target.text := by
  unfold declaredName? at h
  split at h
  · next target rest _ hc =>
    split at h
    · next hk =>
      cases h
      exact ⟨target, by simp [hc], hk, rfl⟩
    · cases h
  · cases h

/-- A loop. -/
def Node.isLoop (node : Node) : Bool := node.kind == .forLoop || node.kind == .eachLoop

/-- A node with the names of a loop is one. -/
lemma Node.LoopNames.isLoop {node : Node} {names : List String} (h : node.LoopNames names) :
    node.isLoop = true := by
  cases h <;> simp_all [Node.isLoop]

/-- No loop is in a tree. -/
def Node.isLoopless (node : Node) : Bool := node.every fun n => !n.isLoop

/-- A node that binds names as a loop does is one. -/
lemma Node.LoopNames.not_isLoopless {node : Node} {names : List String} (h : node.LoopNames names) :
    ¬node.isLoopless = true := by
  intro hn
  have hl := every_self hn
  simp [h.isLoop] at hl

/-- A node that opens a scope for what is below it: a rule or a loop. -/
def Node.opensScope (node : Node) : Bool := node.kind == .rule || node.isLoop

namespace Render

/-- The state after a variable is declared by a reference to it. -/
def declared (reference : String) (value : Value) (c : Context) : Context :=
  { c with symbols :=
      c.symbols.declare (Variable.bareName reference) ⟨value, c.inTemporaryScope⟩ }

/-- The state before the body of an iteration is rendered. -/
def startIteration (bindings : List (String × String)) (c : Context) : Context :=
  openFrame (bindRow bindings c)

/-- The state after the body of an iteration is rendered, without the rules that it made wait. -/
def endIteration (mark : Nat) (c : Context) : Context :=
  { closeFrame c with queue := c.queue.take mark }

/-- The changes to the state that a walk over nodes makes, all of them allowed by a discipline.
Which one it is depends on the scope: `inside` gives the scope of what is below a node, where only
rules and loops make a difference, and `S` the nodes that may stand in a scope. -/
structure Discipline.Walk {σ : Type} (D : σ → Discipline) (inside : σ → Node → σ)
    (S : σ → Node → Prop) : Prop where
  lenient : ∀ s, (D s).Lenient
  below : ∀ {s node child}, S s node → child ∈ node.children → S (inside s node) child
  plain : ∀ {node} s, node.opensScope = false → inside s node = s
  rule : ∀ {s node c c'} selector, S s node → node.kind = .rule →
    (D (inside s node)).onOk (c.openRule selector) c' → (D s).onOk c c'.closeRule
  ruleError : ∀ {s node c d c'} selector, S s node → node.kind = .rule →
    (D (inside s node)).onError (c.openRule selector) d c' → (D s).onError c d c'.closeRule
  enqueue : ∀ s c fragments, (D s).onOk c { c with queue := c.queue ++ fragments }
  declare : ∀ {s node target item c v}, S s node → node.kind = .variableDeclaration →
    node.children[0]? = some target → target.kind = .reference →
    node.children[1]? = some item → declaredValue item c = .ok v c →
    (D s).onOk c (declared target.text v c)
  define : ∀ {s node name} c mixin, S s node → node.kind = .mixinDeclaration →
    node.name = .ok name → (D s).onOk c { c with mixins := c.mixins.insert name mixin }
  loop : ∀ {s node names c c'} placement, S s node → node.LoopNames names →
    node.TargetsReferences → (D (inside s node)).onOk (enterLoop placement names c) c' →
    (D s).onOk c (leaveLoop c.bound.length names c')
  loopError : ∀ {s node names c d c'} placement, S s node → node.LoopNames names →
    node.TargetsReferences → (D (inside s node)).onError (enterLoop placement names c) d c' →
    (D s).onError c d (leaveLoop c.bound.length names c')
  iteration : ∀ {s node names c c'} values, S s node → node.LoopNames names →
    node.TargetsReferences → (D (inside s node)).onOk (startIteration (names.zip values) c) c' →
    (D (inside s node)).onOk c (endIteration c.queue.length c')
  iterationError : ∀ {s node names c d c'} values, S s node → node.LoopNames names →
    node.TargetsReferences →
    (D (inside s node)).onError (startIteration (names.zip values) c) d c' →
    (D (inside s node)).onError c d (closeFrame c')

namespace Discipline.Lenient

variable {D : Discipline} (hD : D.Lenient)
include hD

/-! ### Parts of statements that only read the state -/

/-- A condition keeps to a lenient discipline. -/
lemma holds (guard : Node) : D.Respects (holds guard) :=
  (hD.value .fold guard).bind fun _ => respects_pure _

/-- A declaration keeps to a lenient discipline. -/
lemma declaration (node : Node) : D.Respects (declaration node) := by
  refine (hD.layout node.name_fails).bind fun property => ?_
  refine (hD.layout (node.child_fails 1)).bind fun item => ?_
  refine (hD.value .emit item.1).bind fun text => ?_
  exact respects_get.bind fun _ => respects_pure _

/-- The bound of a loop keeps to a lenient discipline. -/
lemma loopBound (node : Node) : D.Respects (loopBound node) := by
  refine (hD.value .fold node).bind fun text => ?_
  split
  · exact respects_pure _
  · exact hD.fail (by simp)

/-- The rows of a map keep to a lenient discipline. -/
lemma mapRows (source : Node) : D.Respects (mapRows source) := by
  unfold Render.mapRows
  refine Respects.check (hD.fail (by simp)) fun _ => ?_
  refine respects_get.bind fun c => ?_
  dsimp only
  split
  · exact hD.fail (by simp)
  · split
    · exact respects_pure _
    · exact hD.fail (by simp)

/-- The items of a list keep to a lenient discipline. -/
lemma listItems (source : Node) : D.Respects (listItems source) := by
  unfold Render.listItems
  split
  · exact respects_get.bind fun _ => respects_pure _
  · exact respects_mapM fun item _ => hD.value .fold item
  · exact respects_pure _

/-- The rows of a loop keep to a lenient discipline. -/
lemma eachRows (node : Node) : D.Respects (eachRows node) := by
  unfold Render.eachRows
  split
  · refine (hD.layout (node.childOf_fails 0 _)).bind fun key => ?_
    refine (hD.layout (node.childOf_fails 1 _)).bind fun item => ?_
    refine (hD.layout (node.child_fails 2)).bind fun source => ?_
    exact (hD.mapRows source.1).bind fun _ => respects_pure _
  · refine (hD.layout (node.childOf_fails 0 _)).bind fun item => ?_
    refine (hD.layout (node.child_fails 1)).bind fun source => ?_
    exact (hD.listItems source.1).bind fun _ => respects_pure _
  · exact respects_throw (hD.admits (node.not_isLimit_malformed _))

/-- Parameters keep to a lenient discipline. -/
lemma parameters (mixin : String) (node : Node) : D.Respects (parameters mixin node) := by
  refine respects_foldlM fun found parameter _ => ?_
  refine Respects.check (hD.fail (by simp)) fun _ => ?_
  refine (hD.layout (parameter.childOf_fails 0 _)).bind fun reference => ?_
  dsimp only
  split
  · exact (hD.value .fold _).bind fun _ => respects_pure _
  · exact respects_pure _

/-- A mixin with parameters keeps to a lenient discipline. -/
lemma mixinWith (mixin : String) (node : Node) (body : Fragments) :
    D.Respects (mixinWith mixin node body) := by
  unfold Render.mixinWith
  split
  · rename_i rest _
    refine Respects.check (hD.fail (by simp)) fun _ => ?_
    exact (hD.layout (rest.childOf_fails 0 _)).bind fun _ => respects_pure _
  · refine (hD.parameters mixin node).bind fun _ => ?_
    exact hD.lift (by simp)

end Discipline.Lenient

/-- What is among the first of a list stands at one of their positions. -/
lemma mem_take_iff_getElem? {α : Type} {as : List α} {a : α} {count : Nat} :
    a ∈ as.take count ↔ ∃ i < count, as[i]? = some a := by
  simp [List.mem_iff_getElem?, List.getElem?_take]

/-- A loop with a counter targets a reference. -/
lemma targetsReferences_of_counter {node counter : Node} (hk : node.kind = .forLoop)
    (hc : node.children[0]? = some counter) (hr : counter.kind = .reference) :
    node.TargetsReferences := by
  intro target ht
  rw [Node.targets, hk] at ht
  obtain ⟨i, hi, ht⟩ := mem_take_iff_getElem?.1 ht
  obtain rfl : i = 0 := by omega
  simp_all

/-- A loop whose rows are found names its variables by references. -/
lemma targetsReferences_of_eachRows {node : Node} {c c' : Context} {found : List String × Rows}
    (hk : node.kind = .eachLoop) (h : eachRows node c = .ok found c') :
    node.TargetsReferences := by
  intro target ht
  rw [Node.targets, hk] at ht
  unfold eachRows at h
  generalize node.children.length = count at h ht
  split at h
  · obtain ⟨key, hkey, h⟩ := ofExcept_bind_eq_ok_iff.1 h
    obtain ⟨item, hitem, -⟩ := ofExcept_bind_eq_ok_iff.1 h
    obtain ⟨hkey, hkr⟩ := Node.getElem?_of_childOf hkey
    obtain ⟨hitem, hir⟩ := Node.getElem?_of_childOf hitem
    obtain ⟨i, hi, ht⟩ := mem_take_iff_getElem?.1 ht
    obtain rfl | rfl : i = 0 ∨ i = 1 := by omega
    · simp_all
    · simp_all
  · obtain ⟨item, hitem, -⟩ := ofExcept_bind_eq_ok_iff.1 h
    obtain ⟨hitem, hir⟩ := Node.getElem?_of_childOf hitem
    obtain ⟨i, hi, ht⟩ := mem_take_iff_getElem?.1 ht
    obtain rfl : i = 0 := by omega
    simp_all
  · cases h

/-- The names of the rows are those of the loop. -/
lemma loopNames_of_eachRows {node : Node} {c c' : Context} {names : List String} {rows : Rows}
    (hk : node.kind = .eachLoop) (h : eachRows node c = .ok (names, rows) c') :
    node.LoopNames names := by
  unfold eachRows at h
  generalize hl : node.children.length = count at h
  split at h
  · obtain ⟨key, hkey, h⟩ := ofExcept_bind_eq_ok_iff.1 h
    obtain ⟨item, hitem, h⟩ := ofExcept_bind_eq_ok_iff.1 h
    obtain ⟨source, -, h⟩ := ofExcept_bind_eq_ok_iff.1 h
    obtain ⟨rows', _, -, h⟩ := bind_eq_ok_iff.1 h
    cases h
    exact .entry hk hl (Node.getElem?_of_childOf hkey).1 (Node.getElem?_of_childOf hitem).1
  · obtain ⟨item, hitem, h⟩ := ofExcept_bind_eq_ok_iff.1 h
    obtain ⟨source, -, h⟩ := ofExcept_bind_eq_ok_iff.1 h
    obtain ⟨items, _, -, h⟩ := bind_eq_ok_iff.1 h
    cases h
    exact .item hk hl (Node.getElem?_of_childOf hitem).1
  · cases h

namespace Discipline

variable {D : Discipline}

/-- Iterations keep to a discipline if each does. -/
lemma respects_iterate {step : Nat → Render String} (hs : ∀ i, D.Respects (step i))
    (count index : Nat) : D.Respects (iterate step count index) := by
  induction count generalizing index with
  | zero => exact respects_pure _
  | succ count ih =>
    refine (hs index).bind fun text => ?_
    exact (ih (index + 1)).bind fun texts => respects_pure _

/-- Branches keep to a discipline if each does. -/
lemma respects_firstText {branches : List (Render (Option String))} {rest : Render String}
    (hb : ∀ branch ∈ branches, D.Respects branch) (hr : D.Respects rest) :
    D.Respects (firstText branches rest) := by
  induction branches with
  | nil => exact hr
  | cons branch branches ih =>
    refine (hb branch List.mem_cons_self).bind fun text => ?_
    split
    · exact respects_pure _
    · exact ih fun b h => hb b (List.mem_cons_of_mem _ h)

/-- The walk keeps to a discipline at a node, which it may meet as a statement, as a block or as a
branch of a conditional. -/
structure RespectsAt (D : Discipline) (node : Node) : Prop where
  statement : D.Respects (statement node)
  block : D.Respects (block node)
  elseIf : node.kind = .elseIf → D.Respects (elseIfBranch node)
  otherwise : node.kind = .otherwise → D.Respects (otherwiseBranch node)

namespace Walk

variable {σ : Type} {D : σ → Discipline} {inside : σ → Node → σ} {S : σ → Node → Prop}
  (hD : Walk D inside S) {s : σ} {node : Node} {body : Render String}
include hD

/-! ### Statements that change the state -/

/-- A declaration of a variable keeps to the discipline of a walk. -/
lemma declareVariable (hn : S s node) (hk : node.kind = .variableDeclaration) :
    (D s).Respects (declareVariable node) := by
  have hL := hD.lenient s
  unfold Render.declareVariable
  refine (hL.layout (node.childOf_fails 0 _)).bind_of_yields fun {_ target _} ht => ?_
  obtain ⟨ht, htk⟩ := Node.getElem?_of_childOf (ofExcept_eq_ok_iff.1 ht).1
  refine (hL.layout (node.child_fails 1)).bind_of_yields fun {_ item _} hi => ?_
  have hi := Node.getElem?_of_child (ofExcept_eq_ok_iff.1 hi).1
  -- The scope is looked up before the value is rendered and the variable declared after it. Values
  -- only read the state, so both happen in the same one.
  constructor
  · intro c _ c' h
    rw [get_bind_apply] at h
    obtain ⟨v, hv, h⟩ := (reading_lenient.declaredValue item.1).bind_eq_ok h
    cases h
    exact hD.declare hn hk ht htk hi hv
  · intro c d c' h
    rw [get_bind_apply] at h
    obtain h | ⟨v, m, hv, h⟩ := bind_eq_error_iff.1 h
    · exact (hL.declaredValue item.1).error h
    · cases h

/-- A declaration of a mixin keeps to the discipline of a walk. -/
lemma declareMixin (hn : S s node) (hk : node.kind = .mixinDeclaration) :
    (D s).Respects (declareMixin node) := by
  have hL := hD.lenient s
  unfold Render.declareMixin
  refine (hL.layout node.name_fails).bind_of_yields fun {_ name _} hname => ?_
  refine (hL.layout node.body_fails).bind fun block => ?_
  refine respects_get.bind fun c => ?_
  refine (hL.ofExcept (capture_fails _ _ _ _).2).bind fun fragments => ?_
  have define (mixin : Mixin) :
      (D s).Respects (modify fun c => { c with mixins := c.mixins.insert name mixin }) :=
    respects_modify fun c => hD.define c mixin hn hk (ofExcept_eq_ok_iff.1 hname).1
  dsimp only
  split
  · exact (hL.mixinWith name _ fragments).bind define
  · exact (hL.lift (by simp)).bind define

/-- An inclusion keeps to the discipline of a walk. -/
lemma includeMixin (s : σ) (node : Node) : (D s).Respects (includeMixin node) := by
  have hL := hD.lenient s
  unfold Render.includeMixin
  refine (respects_mapM fun arg _ => hL.value .fold arg).bind fun args => ?_
  constructor
  · intro c text c' h
    rw [get_bind_apply] at h
    obtain ⟨fragments, -, h⟩ := ofExcept_bind_eq_ok_iff.1 h
    cases h
    exact hD.enqueue s c _
  · intro c d c' h
    rw [get_bind_apply] at h
    obtain h | ⟨fragments, m, hf, h⟩ := bind_eq_error_iff.1 h
    · exact (hL.ofExcept (expandMixin_fails c.mixins node args)).error h
    · cases h

/-- A rule keeps to the discipline of a walk if its body does inside of it. -/
lemma respects_rule (selector : String) (hn : S s node) (hk : node.kind = .rule)
    (hb : (D (inside s node)).Respects body) : (D s).Respects (Render.rule selector body) := by
  unfold Render.rule
  rw [← bind_assoc]
  refine Respects.bind ?_ fun text => ?_
  · constructor
    · intro c text c' h
      rw [modify_bind_apply] at h
      obtain ⟨m, hm, rfl⟩ := ensuring_eq_ok_iff.1 h
      exact hD.rule selector hn hk (hb.ok hm)
    · intro c d c' h
      rw [modify_bind_apply] at h
      obtain ⟨m, hm, rfl⟩ := ensuring_eq_error_iff.1 h
      exact hD.ruleError selector hn hk (hb.error hm)
  · refine respects_get.bind fun c => ?_
    dsimp only
    split
    · exact respects_pure _
    · exact (respects_modify fun c => hD.enqueue s c _).bind fun _ => respects_pure _

/-- An iteration keeps to the discipline of a walk if its body does inside of the loop. -/
lemma respects_iteration {names : List String} (placement : Placement) (values : List String)
    (hn : S s node) (hl : node.LoopNames names) (hr : node.TargetsReferences)
    (hb : (D (inside s node)).Respects body) :
    (D (inside s node)).Respects (Render.iteration body placement (names.zip values)) := by
  unfold Render.iteration
  -- The frame is closed in both cases, but the rules that the body made wait are pulled back only
  -- where it succeeds.
  constructor
  · intro c text c' h
    rw [modify_bind_apply, get_bind_apply, modify_bind_apply] at h
    obtain ⟨inner, m, hm, h⟩ := bind_eq_ok_iff.1 h
    obtain ⟨m, hi, rfl⟩ := ensuring_eq_ok_iff.1 hm
    cases h
    exact hD.iteration values hn hl hr (hb.ok hi)
  · intro c d c' h
    rw [modify_bind_apply, get_bind_apply, modify_bind_apply] at h
    obtain h | ⟨inner, m, hm, h⟩ := bind_eq_error_iff.1 h
    · obtain ⟨m, hi, rfl⟩ := ensuring_eq_error_iff.1 h
      exact hD.iterationError values hn hl hr (hb.error hi)
    · cases h

/-- The iterations of a loop, one after the other. -/
lemma respects_rounds {names : List String} (placement : Placement) (rows : Rows)
    (hn : S s node) (hl : node.LoopNames names) (hr : node.TargetsReferences)
    (hb : (D (inside s node)).Respects body) (count index : Nat) :
    (D (inside s node)).Respects
      (iterate (fun i => Render.iteration body placement (names.zip (rows.row i))) count index) :=
  respects_iterate (fun i => hD.respects_iteration placement (rows.row i) hn hl hr hb) count index

/-- A loop keeps to the discipline of a walk if its body does inside of it. -/
lemma respects_unroll {names : List String} (placement : Placement) (rows : Rows)
    (hn : S s node) (hl : node.LoopNames names) (hr : node.TargetsReferences)
    (hb : (D (inside s node)).Respects body) :
    (D s).Respects (unroll body placement names rows) := by
  unfold Render.unroll
  have rounds := hD.respects_rounds placement rows hn hl hr hb rows.count 0
  have finish (texts : List String) : (D s).Respects (α := PUnit)
      (if "\n".intercalate texts ≠ "" then modify (Context.enqueue ("\n".intercalate texts))
        else pure ⟨⟩) := by
    split
    · exact respects_modify fun c => hD.enqueue s c _
    · exact respects_pure _
  constructor
  · intro c u c' h
    rw [get_bind_apply, modify_bind_apply] at h
    obtain ⟨texts, m, hm, h⟩ := bind_eq_ok_iff.1 h
    obtain ⟨m, hi, rfl⟩ := ensuring_eq_ok_iff.1 hm
    exact (D s).trans (hD.loop placement hn hl hr (rounds.ok hi)) ((finish texts).ok h)
  · intro c d c' h
    rw [get_bind_apply, modify_bind_apply] at h
    obtain h | ⟨texts, m, hm, h⟩ := bind_eq_error_iff.1 h
    · obtain ⟨m, hi, rfl⟩ := ensuring_eq_error_iff.1 h
      exact hD.loopError placement hn hl hr (rounds.error hi)
    · obtain ⟨m, hi, rfl⟩ := ensuring_eq_ok_iff.1 hm
      exact (D s).transError (hD.loop placement hn hl hr (rounds.ok hi)) ((finish texts).error h)

/-! ### The induction over the tree -/

/-- A rule keeps to the discipline of a walk if its block does. -/
lemma ruleStatement (hn : S s node) (hk : node.kind = .rule)
    (ih : ∀ child ∈ node.children, (D (inside s node)).RespectsAt child) :
    (D s).Respects (ruleStatement node) := by
  have hL := hD.lenient s
  rw [Render.ruleStatement]
  refine (hL.layout (node.childOf_fails 0 _)).bind fun group => ?_
  refine (hL.layout (node.childOf_fails 1 _)).bind fun body => ?_
  exact hD.respects_rule _ hn hk (ih body.1 body.2).block

/-- A counting loop keeps to the discipline of a walk if its block does. -/
lemma forLoop (hn : S s node) (hk : node.kind = .forLoop)
    (ih : ∀ child ∈ node.children, (D (inside s node)).RespectsAt child) :
    (D s).Respects (forLoop node) := by
  have hL := hD.lenient s
  rw [Render.forLoop]
  refine (hL.layout (node.childOf_fails 0 _)).bind_of_yields fun {_ counter _} hc => ?_
  obtain ⟨hc, hr⟩ := Node.getElem?_of_childOf (ofExcept_eq_ok_iff.1 hc).1
  refine (hL.layout (node.child_fails 1)).bind fun first => ?_
  refine (hL.loopBound first.1).bind fun _ => ?_
  refine (hL.layout (node.childOf_fails 2 _)).bind fun word => ?_
  refine (hL.layout (node.child_fails 3)).bind fun last => ?_
  refine (hL.loopBound last.1).bind fun bound => ?_
  refine (hL.layout (node.childOf_fails 4 _)).bind fun body => ?_
  refine Respects.bind ?_ fun last => ?_
  · unfold lastValue
    split
    · exact respects_pure _
    · split
      · split
        · exact respects_pure _
        · exact hL.fail (by simp)
      · exact hL.fail (by simp)
  · refine Respects.bind ?_ fun _ => respects_pure _
    exact hD.respects_unroll _ _ hn (.counter hk hc) (targetsReferences_of_counter hk hc hr)
      (ih body.1 body.2).block

/-- A loop over rows keeps to the discipline of a walk if its block does. -/
lemma eachLoop (hn : S s node) (hk : node.kind = .eachLoop)
    (ih : ∀ child ∈ node.children, (D (inside s node)).RespectsAt child) :
    (D s).Respects (eachLoop node) := by
  have hL := hD.lenient s
  rw [Render.eachLoop]
  refine (hL.layout node.body_fails).bind fun body => ?_
  refine (hL.eachRows node).bind_of_yields fun {_ bound _} hb => ?_
  refine Respects.bind ?_ fun _ => respects_pure _
  exact hD.respects_unroll _ _ hn (loopNames_of_eachRows hk hb)
    (targetsReferences_of_eachRows hk hb) (ih body.1 body.2).block

/-- A conditional keeps to the discipline of a walk if its blocks do. -/
lemma conditional (ih : ∀ child ∈ node.children, (D s).RespectsAt child) :
    (D s).Respects (conditional node) := by
  have hL := hD.lenient s
  rw [Render.conditional]
  refine (hL.layout (node.child_fails 0)).bind fun guard => ?_
  refine (hL.layout (node.childOf_fails 1 _)).bind fun body => ?_
  refine (hL.holds guard.1).bind fun holds => ?_
  split
  · exact (ih body.1 body.2).block
  · refine respects_firstText ?_ ?_
    · intro branch hb
      obtain ⟨⟨other, ho⟩, -, rfl⟩ := List.mem_map.1 hb
      have hk : other.kind = .elseIf := by simpa using (List.mem_filter.1 ho).2
      exact (ih other (Node.mem_of_mem_filter ho)).elseIf hk
    · split
      · rename_i other ho
        have hk : other.kind = .otherwise := by simpa using List.find?_some ho
        exact (ih other (Node.mem_of_find?_eq_some ho)).otherwise hk
      · exact respects_pure _

/-- A statement keeps to the discipline of a walk if what is below it does. -/
lemma perform (hn : S s node)
    (ih : ∀ child ∈ node.children, (D (inside s node)).RespectsAt child) :
    (D s).Respects (perform node) := by
  have hL := hD.lenient s
  rw [Render.perform]
  cases hk : node.kind <;> dsimp only
  case rule => exact hD.ruleStatement hn hk ih
  case declaration => exact hL.declaration node
  case variableDeclaration => exact (hD.declareVariable hn hk).bind fun _ => respects_pure _
  case mixinDeclaration => exact (hD.declareMixin hn hk).bind fun _ => respects_pure _
  case includeDeclaration => exact hD.includeMixin s node
  case forLoop => exact hD.forLoop hn hk ih
  case eachLoop => exact hD.eachLoop hn hk ih
  case conditional =>
    rw [hD.plain s (by simp [Node.opensScope, Node.isLoop, hk])] at ih
    exact hD.conditional ih
  all_goals exact hL.fail (by simp)

/-- Every node that may stand in a scope keeps to the discipline there, wherever the walk meets
it. -/
lemma respectsAt (node : Node) (hn : S s node) : (D s).RespectsAt node := by
  -- The steps of the walk call each other, but all of them only go on to children of the node: one
  -- induction over the tree serves them together.
  induction node using Node.childInduction generalizing s with
  | step node ih =>
    have hL := hD.lenient s
    have ih (child : Node) (hc : child ∈ node.children) : (D (inside s node)).RespectsAt child :=
      ih child hc (hD.below hn hc)
    have plain (hs : node.opensScope = false) (child : Node) (hc : child ∈ node.children) :
        (D s).RespectsAt child := by
      have hr := ih child hc
      rwa [hD.plain s hs] at hr
    constructor
    case statement =>
      rw [Render.statement]
      exact (hL.respects (hD.perform hn ih)).locating (hL.locate node.span)
    case block =>
      rw [Render.block]
      split
      · refine (respects_throw (hL.admits (node.not_isLimit_malformed _))).bind_of_yields ?_
        intro c a m h
        cases h
      · next hk =>
        have hs : node.opensScope = false := by simp_all [Node.opensScope, Node.isLoop]
        refine (respects_mapM fun child hc => (plain hs child hc).statement).bind fun _ => ?_
        exact respects_pure _
    case elseIf =>
      intro hk
      have plain := plain (by simp [Node.opensScope, Node.isLoop, hk])
      rw [elseIfBranch]
      refine (hL.layout (node.child_fails 0)).bind fun guard => ?_
      refine (hL.holds guard.1).bind fun holds => ?_
      split
      · refine (hL.layout (node.childOf_fails 1 _)).bind fun body => ?_
        exact (plain body.1 body.2).block.bind fun _ => respects_pure _
      · exact respects_pure _
    case otherwise =>
      intro hk
      have plain := plain (by simp [Node.opensScope, Node.isLoop, hk])
      rw [otherwiseBranch]
      refine (hL.layout (node.childOf_fails 0 _)).bind fun body => ?_
      exact (plain body.1 body.2).block

end Walk

end Discipline

end Render

end Stylesheet
