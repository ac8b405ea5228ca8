import Stylesheet.Proofs.Unrolling

/-!
# What a statement leaves alone

A statement writes to the symbol table and to the mixins. The names that it may write are read off
its tree: those of the variables that are declared or bound by a loop in it, and those of the mixins
that are declared in it. `statement_leaves_other_names` says that all other entries stay as they are
and in their order, whether the statement succeeds or fails.
-/

namespace Stylesheet

namespace Registry

variable {α : Type} {names : List String} {name : String}

/-- The entries with other names than those given, in their order. -/
def outside (names : List String) (r : Registry α) : List (String × α) :=
  r.entries.filter fun e => e.1 ∉ names

/-- Registering one of the names changes no other entry. -/
lemma outside_insert (h : name ∈ names) (v : α) (r : Registry α) :
    (r.insert name v).outside names = r.outside names := by
  obtain ⟨entries⟩ := r
  unfold outside insert
  induction entries with
  | nil => simp [insertEntry, h]
  | cons e es ih =>
    rw [insertEntry]
    split
    · next he => simp [he, h]
    · simp only [List.filter_cons, ih]

/-- Taking out one of the names changes no other entry, and not their order. -/
lemma outside_erase (h : name ∈ names) (r : Registry α) :
    (r.erase name).outside names = r.outside names := by
  obtain ⟨entries⟩ := r
  unfold outside erase
  induction entries with
  | nil => rfl
  | cons e es ih =>
    rw [eraseEntry]
    split
    · next he => simp [he, h]
    · simp only [List.filter_cons, ih]

end Registry

namespace Node

/-- What the nodes of a tree have, each node before those below it. -/
def collect {α : Type} (own : Node → List α) (node : Node) : List α :=
  own node ++ node.children.attach.flatMap fun ⟨child, _⟩ => child.collect own
termination_by sizeOf node
decreasing_by exact sizeOf_lt_of_mem ‹_›

/-- The names of the variables that a node itself declares, or binds if it is a loop. -/
def assigned (node : Node) : List String :=
  (node.targets.filter (·.kind == .reference)).map fun target => Variable.bareName target.text

/-- The name of the mixin that a node itself declares. -/
def defined (node : Node) : List String :=
  match node.kind, node.name with
  | .mixinDeclaration, .ok name => [name]
  | _, _ => []

/-- The names of the variables that are declared or bound by a loop in a tree. -/
def variableNames : Node → List String := collect assigned

/-- The names of the mixins that are declared in a tree. -/
def mixinNames : Node → List String := collect defined

variable {α : Type} {own : Node → List α} {node child : Node} {a : α} {names : List String}

/-- What a node has of its own is collected. -/
lemma mem_collect_self (h : a ∈ own node) : a ∈ node.collect own := by
  rw [collect]
  exact List.mem_append_left _ h

/-- What is collected below a node is collected. -/
lemma mem_collect_child (hc : child ∈ node.children) (h : a ∈ child.collect own) :
    a ∈ node.collect own := by
  rw [collect]
  apply List.mem_append_right
  exact List.mem_flatMap.2 ⟨⟨child, hc⟩, List.mem_attach _ _, h⟩

/-- The name that a declaration targets is assigned. -/
lemma mem_assigned {target : Node} (ht : target ∈ node.targets) (hr : target.kind = .reference) :
    Variable.bareName target.text ∈ node.assigned :=
  List.mem_map.2 ⟨target, List.mem_filter.2 ⟨ht, by simp [hr]⟩, rfl⟩

/-- What a loop binds is among the names that its node assigns. -/
lemma LoopNames.assigned {name : String} (hl : node.LoopNames names) (hr : node.TargetsReferences)
    (hn : name ∈ names) : Variable.bareName name ∈ node.assigned := by
  have bound (target : Node) (ht : target ∈ node.targets) :
      Variable.bareName (Variable.sigilName target.text) ∈ node.assigned := by
    rw [Variable.bareName_sigilName]
    exact mem_assigned ht (hr target ht)
  cases hl with
  | counter hk hc =>
    rw [List.mem_singleton.1 hn]
    apply bound
    rw [targets, hk]
    exact Render.mem_take_iff_getElem?.2 ⟨0, by omega, hc⟩
  | item hk hlen hi =>
    rw [List.mem_singleton.1 hn]
    apply bound
    rw [targets, hk, hlen]
    exact Render.mem_take_iff_getElem?.2 ⟨0, by omega, hi⟩
  | entry hk hlen hkey hi =>
    cases List.mem_pair.1 hn with
    | inl hn =>
      rw [hn]
      apply bound
      rw [targets, hk, hlen]
      exact Render.mem_take_iff_getElem?.2 ⟨0, by omega, hkey⟩
    | inr hn =>
      rw [hn]
      apply bound
      rw [targets, hk, hlen]
      exact Render.mem_take_iff_getElem?.2 ⟨1, by omega, hi⟩

end Node

/-- The entries of the symbol table and of the mixins with other names than those given are the same
in two states, and in the same order. -/
structure Context.AgreesOutside (vars mixins : List String) (c c' : Context) : Prop where
  symbols : c'.symbols.outside vars = c.symbols.outside vars
  mixins : c'.mixins.outside mixins = c.mixins.outside mixins

namespace Context.AgreesOutside

variable {vars mixins names : List String} {c m c' : Context}

/-- A state agrees with itself. -/
lemma refl (c : Context) : c.AgreesOutside vars mixins c := ⟨rfl, rfl⟩

/-- States that agree with a third agree. -/
lemma trans (h₁ : c.AgreesOutside vars mixins m) (h₂ : m.AgreesOutside vars mixins c') :
    c.AgreesOutside vars mixins c' :=
  ⟨h₂.symbols.trans h₁.symbols, h₂.mixins.trans h₁.mixins⟩

/-- The variables that an iteration declares are those of its loop. -/
lemma startIteration {values : List String}
    (hn : ∀ name ∈ names, Variable.bareName name ∈ vars)
    (h : (Render.startIteration (names.zip values) c).AgreesOutside vars mixins c') :
    c.AgreesOutside vars mixins c' := by
  have hb (b : String × String) (hm : b ∈ names.zip values) : Variable.bareName b.1 ∈ vars :=
    hn b.1 (List.of_mem_zip hm).1
  have bound : c.AgreesOutside vars mixins (Render.startIteration (names.zip values) c) := by
    refine ⟨?_, rfl⟩
    refine List.foldlRecOn (motive := fun table : SymbolTable =>
      table.outside vars = c.symbols.outside vars) (names.zip values) _ rfl fun table ht b hm => ?_
    exact (Registry.outside_insert (hb b hm) _ _).trans ht
  exact bound.trans h

/-- The variables that are taken out after a loop are those of the loop. -/
lemma leaveLoop {placement : Render.Placement} {kept : Nat}
    (hn : ∀ name ∈ names, Variable.bareName name ∈ vars)
    (h : (Render.enterLoop placement names c).AgreesOutside vars mixins c') :
    c.AgreesOutside vars mixins (Render.leaveLoop kept names c') := by
  refine ⟨Eq.trans ?_ h.symbols, h.mixins⟩
  refine List.foldlRecOn (motive := fun table : SymbolTable =>
    table.outside vars = c'.symbols.outside vars) names _ rfl fun table ht name hm => ?_
  exact (Registry.outside_erase (hn name hm) _).trans ht

end Context.AgreesOutside

namespace Render

/-- The names outside of two lists are left alone, by steps that succeed and by steps that fail. -/
def Discipline.framing (vars mixins : List String) : Discipline where
  onOk c c' := c.AgreesOutside vars mixins c'
  onError c _ c' := c.AgreesOutside vars mixins c'
  refl := .refl
  trans := .trans
  transError := .trans

variable {vars mixins : List String}

/-- A frame is a lenient discipline. -/
lemma Discipline.framing_lenient : (framing vars mixins).Lenient where
  ok h := ⟨h.symbols, h.mixins⟩
  error h := ⟨h.symbols, h.mixins⟩
  limit _ := ⟨rfl, rfl⟩
  admits _ := .refl
  locate _ h := h

/-- A tree writes no variables and no mixins with other names than those given. -/
structure Writes (vars mixins : List String) (node : Node) : Prop where
  vars : ∀ name ∈ node.variableNames, name ∈ vars
  mixins : ∀ name ∈ node.mixinNames, name ∈ mixins

/-- The names of a loop are among those that it writes. -/
lemma Writes.loop {node : Node} {names : List String} (hn : Writes vars mixins node)
    (hl : node.LoopNames names) (hr : node.TargetsReferences) :
    ∀ name ∈ names, Variable.bareName name ∈ vars :=
  fun _ hm => hn.vars _ (Node.mem_collect_self (hl.assigned hr hm))

/-- Statements write nothing but what the frame leaves out. -/
lemma Discipline.framing_walk :
    Walk (fun _ : Unit => framing vars mixins) (fun _ _ => ())
      fun _ => Writes vars mixins where
  lenient _ := framing_lenient
  below hn hc := ⟨fun name h => hn.vars name (Node.mem_collect_child hc h),
    fun name h => hn.mixins name (Node.mem_collect_child hc h)⟩
  plain _ _ := rfl
  rule _ _ _ h := ⟨h.symbols, h.mixins⟩
  ruleError _ _ _ h := ⟨h.symbols, h.mixins⟩
  enqueue _ _ _ := ⟨rfl, rfl⟩
  declare {_ node target _ _ _} hn hk ht hr _ _ := by
    have hm : target ∈ node.targets := by
      rw [Node.targets, hk]
      exact mem_take_iff_getElem?.2 ⟨0, by omega, ht⟩
    have hname := hn.vars _ (Node.mem_collect_self (Node.mem_assigned hm hr))
    exact ⟨Registry.outside_insert hname _ _, rfl⟩
  define {_ node name} _ _ hn hk hname := by
    have hm : name ∈ node.defined := by simp [Node.defined, hk, hname]
    exact ⟨rfl, Registry.outside_insert (hn.mixins name (Node.mem_collect_self hm)) _ _⟩
  loop _ hn hl hr h := h.leaveLoop (hn.loop hl hr)
  loopError _ hn hl hr h := h.leaveLoop (hn.loop hl hr)
  iteration _ hn hl hr h := .startIteration (hn.loop hl hr) ⟨h.symbols, h.mixins⟩
  iterationError _ hn hl hr h := .startIteration (hn.loop hl hr) ⟨h.symbols, h.mixins⟩

/-- The state that a step leaves, whether it succeeds or fails. -/
def after {α : Type} (step : Render α) (c : Context) : Context :=
  match step c with
  | .ok _ c' => c'
  | .error _ c' => c'

/-- A statement, whether it succeeds or fails, leaves all entries of the symbol table as they are
and in their order, but for the names that are declared or bound by a loop in it; and so it does
with the mixins, but for those that are declared in it. -/
theorem statement_leaves_other_names (node : Node) (c : Context) :
    let c' := after (statement node) c
    c'.symbols.outside node.variableNames = c.symbols.outside node.variableNames ∧
      c'.mixins.outside node.mixinNames = c.mixins.outside node.mixinNames := by
  have hn : Writes node.variableNames node.mixinNames node := ⟨fun _ => id, fun _ => id⟩
  have h := (Discipline.framing_walk.respectsAt (s := ()) node hn).statement
  unfold after
  cases hs : statement node c with
  | ok text c' =>
    have hf := h.ok hs
    exact ⟨hf.symbols, hf.mixins⟩
  | error d c' =>
    have hf := h.error hs
    exact ⟨hf.symbols, hf.mixins⟩

end Render

end Stylesheet
