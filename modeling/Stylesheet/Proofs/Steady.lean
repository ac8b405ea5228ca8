import Stylesheet.Proofs.Origin

/-!
# Names that stay custom properties

A variable is a custom property at the end of a document if its last declaration stands outside all
rules and gives it a scalar. `Node.isSteady` checks that all declarations of some names do, in a
document without loops; then the names never hold anything else.
-/

namespace Stylesheet

namespace Node

/-- No name in a list is declared in a tree. -/
def avoids (names : List String) (node : Node) : Bool :=
  node.every fun n => n.declaredName?.all (!names.contains ·)

/-- A value that is a scalar if the variables in a list are. -/
def isScalar (names : List String) (item : Node) : Bool :=
  match item.kind with
  | .listDeclaration | .mapDeclaration => false
  | .reference => names.contains (Variable.bareName item.text)
  | _ => true

/-- All declarations of the names in a list stand outside all rules and give scalars. -/
def isSteady (names : List String) (node : Node) : Bool :=
  node.every fun n =>
    (n.kind != .rule || n.avoids names) &&
      (n.declaredName?.all (!names.contains ·) || n.children[1]?.all (isScalar names))

/-- What holds of every node holds of the nodes of a sort. -/
lemma every_of_holds {p : Node → Bool} {root node : Node} {sort : Node → Prop}
    (h : root.every p = true) (hn : root.Holds sort node) : p node = true := by
  suffices hs : node.every p = true from every_self hs
  induction hn with
  | root => exact h
  | child _ _ hc ih => exact every_child ih hc

end Node

/-- The variables with the names in a list are scalars and not temporary. -/
def SymbolTable.Lasting (names : List String) (table : SymbolTable) : Prop :=
  ∀ e ∈ table.entries, e.1 ∈ names → ∃ text, e.2 = ⟨.scalar text, false⟩

namespace Render

/-- What a value that is a scalar gives is one. -/
lemma scalar_of_declaredValue {names : List String} {item : Node} {c c' : Context} {v : Value}
    (hs : c.symbols.Lasting names) (hi : item.isScalar names = true)
    (h : declaredValue item c = .ok v c') : ∃ text, v = .scalar text := by
  unfold declaredValue at h
  unfold Node.isScalar at hi
  cases hk : item.kind <;> rw [hk] at h hi <;> dsimp only at h hi
  case listDeclaration | mapDeclaration => cases hi
  case reference =>
    rw [get_bind_apply] at h
    cases hl : c.symbols.lookup item.text with
    | some found =>
      rw [hl] at h
      cases h
      obtain ⟨text, rfl⟩ := hs _ (Registry.mem_of_get? hl) (by simpa using hi)
      exact ⟨text, rfl⟩
    | none =>
      rw [hl] at h
      cases h
      exact ⟨_, rfl⟩
  all_goals
    obtain ⟨text, m, -, h⟩ := bind_eq_ok_iff.1 h
    cases h
    exact ⟨text, rfl⟩

namespace Discipline

/-- The names in a list keep to scalars that are not temporary, and the stacks are kept. Inside a
rule, none of the names is declared. -/
def steady (names : List String) (inRule : Bool) : Discipline where
  onOk c c' := stack.onOk c c' ∧
    ((inRule = false → c.inTemporaryScope = false) → c.symbols.Lasting names →
      c'.symbols.Lasting names)
  onError c d c' := stack.onError c d c' ∧
    ((inRule = false → c.inTemporaryScope = false) → c.symbols.Lasting names →
      c'.symbols.Lasting names)
  refl c := ⟨stack.refl c, fun _ h => h⟩
  trans h₁ h₂ := ⟨stack.trans h₁.1 h₂.1, fun hs h =>
    h₂.2 (fun hr => by rw [h₁.1.1.inTemporaryScope, hs hr]) (h₁.2 hs h)⟩
  transError h₁ h₂ := ⟨stack.transError h₁.1 h₂.1, fun hs h =>
    h₂.2 (fun hr => by rw [h₁.1.1.inTemporaryScope, hs hr]) (h₁.2 hs h)⟩

variable {names : List String}

/-- Keeping the names steady is a lenient discipline. -/
lemma steady_lenient (inRule : Bool) : (steady names inRule).Lenient where
  ok h := ⟨stack_lenient.ok h.1, h.2⟩
  error h := ⟨stack_lenient.error h.1, h.2⟩
  limit c := ⟨stack_lenient.limit c, fun _ h => h⟩
  admits hd c := ⟨stack_lenient.admits hd c, fun _ h => h⟩
  locate span h := ⟨stack_lenient.locate span h.1, h.2⟩

/-- What may stand in a document that is steady, inside a rule or outside of all. -/
structure Steadies (names : List String) (inRule : Bool) (node : Node) : Prop where
  steady : node.isSteady names = true
  loopless : node.isLoopless = true
  avoids : inRule = true → node.avoids names = true

/-- All statements of a steady document keep the names steady. -/
lemma steady_walk :
    Walk (steady names) (fun inRule node => inRule || node.opensScope) (Steadies names) where
  lenient := steady_lenient
  below {inRule node child} hn hc := by
    refine ⟨Node.every_child hn.steady hc, Node.every_child hn.loopless hc, fun hr => ?_⟩
    have ha : node.avoids names = true := by
      obtain hr | ho := Bool.or_eq_true_iff.1 hr
      · exact hn.avoids hr
      · have hl : node.isLoop = false := by simpa using Node.every_self hn.loopless
        have hk : node.kind = .rule := by simpa [Node.opensScope, hl] using ho
        have hs := Node.every_self hn.steady
        simp only [hk, bne_self_eq_false, Bool.false_or, Bool.and_eq_true] at hs
        exact hs.1
    exact Node.every_child ha hc
  plain inRule hs := by simp [hs]
  rule {inRule node c c'} selector _ hk h := by
    have ho : node.opensScope = true := by simp [Node.opensScope, hk]
    rw [ho, Bool.or_true] at h
    exact ⟨stack_walk.rule (s := ()) selector trivial hk h.1, fun _ hs => h.2 (by simp) hs⟩
  ruleError {inRule node c d c'} selector _ hk h := by
    have ho : node.opensScope = true := by simp [Node.opensScope, hk]
    rw [ho, Bool.or_true] at h
    exact ⟨stack_walk.ruleError (s := ()) selector trivial hk h.1, fun _ hs => h.2 (by simp) hs⟩
  enqueue _ c fragments := ⟨stack_walk.enqueue () c fragments, fun _ hs => hs⟩
  declare {inRule node target item c v} hn hk ht hr hi hv := by
    refine ⟨stack_walk.declare (s := ()) trivial hk ht hr hi hv, fun hscope hs e he hm => ?_⟩
    have hname := Node.declaredName?_eq_some hk ht hr
    obtain rfl | he := Registry.mem_insert he
    · have hin : inRule = false := by
        by_contra hin
        have ha := Node.every_self (hn.avoids (by simpa using hin))
        simp [hname, hm] at ha
      have hscalar := Node.every_self hn.steady
      simp only [hname, hi, Option.all_some, List.contains_iff_mem.2 hm, Bool.not_true,
        Bool.false_or, Bool.and_eq_true] at hscalar
      obtain ⟨text, rfl⟩ := scalar_of_declaredValue hs hscalar.2 hv
      exact ⟨text, by rw [hscope hin]⟩
    · exact hs e he hm
  define {inRule node name} c mixin _ hk hname :=
    ⟨stack_walk.define (s := ()) c mixin trivial hk hname, fun _ hs => hs⟩
  loop _ hn hl _ := (hl.not_isLoopless hn.loopless).elim
  loopError _ hn hl _ := (hl.not_isLoopless hn.loopless).elim
  iteration _ hn hl _ := (hl.not_isLoopless hn.loopless).elim
  iterationError _ hn hl _ := (hl.not_isLoopless hn.loopless).elim

/-- The statements of a document keep the names of a steady list. -/
lemma respects_steady {node : Node} (hs : node.isSteady names = true)
    (hl : node.isLoopless = true) :
    (invariant fun c => c.inTemporaryScope = false ∧ c.symbols.Lasting names).Respects
      (statement node) := by
  have hn : Steadies names false node := ⟨hs, hl, by simp⟩
  have h := (steady_walk.respectsAt node hn).statement
  constructor
  · intro c text c' hr hc
    obtain ⟨hk, ht⟩ := h.ok hr
    exact ⟨by rw [hk.1.inTemporaryScope, hc.1], ht (fun _ => hc.1) hc.2⟩
  · intro c d c' hr hc
    obtain ⟨hk, ht⟩ := h.error hr
    exact ⟨by rw [hk.1.inTemporaryScope, hc.1], ht (fun _ => hc.1) hc.2⟩

end Discipline

end Render

namespace Compiler

/-- The names of a steady list are custom properties, as far as they are declared. -/
lemma symbols_lasting (compiler : Compiler) {root : Node} {names : List String}
    (hs : root.isSteady names = true) (hl : root.isLoopless = true) :
    (compiler.compile root).2.symbols.Lasting names := by
  have hd := Render.Discipline.respects_document
    (fun (_ : root.kind = .stylesheet) node hn => Render.Discipline.respects_steady
      (Node.every_child hs hn) (Node.every_child hl hn))
    fun c hc => by unfold Context.flush; split <;> exact hc
  have start : compiler.context.reset.inTemporaryScope = false ∧
      compiler.context.reset.symbols.Lasting names := ⟨rfl, fun _ h => by cases h⟩
  unfold Compiler.compile
  split
  · next h => exact (hd.ok h start).2
  · next h => exact (hd.error h start).2

end Compiler

end Stylesheet
