import Stylesheet.Proofs.Alphabet
import Stylesheet.Proofs.Flattening
import Stylesheet.Proofs.Stack

/-!
# The origin of variables

The symbol table is one name space, which declarations and loops write to and only the end of a loop
takes names out of. `SymbolTable.From` says where its names come from in a scope: from a declaration
of the document or from a loop around. After a document nothing is left but declared names, and the
custom properties are those that are declared outside all rules and loops.
-/

namespace Stylesheet

/-- The nodes of a tree that have only nodes of a sort around them. -/
inductive Node.Holds (root : Node) (sort : Node → Prop) : Node → Prop where
  | root :
    Holds root sort root
  | child {node child : Node} :
    Holds root sort node →
    sort node →
    child ∈ node.children →
    Holds root sort child

/-- The tree declares a variable, in a place that has only nodes of a sort around it. -/
def Node.Declares (root : Node) (sort : Node → Prop) (name : String) : Prop :=
  ∃ node target, root.Holds sort node ∧ node.kind = .variableDeclaration ∧
    node.children[0]? = some target ∧ target.kind = .reference ∧
    Variable.bareName target.text = name

/-- The tree declares a variable. -/
def Node.DeclaresSomewhere (root : Node) : String → Prop := root.Declares fun _ => True

/-- The tree declares a variable inside no rule and no loop. -/
def Node.DeclaresOutermost (root : Node) : String → Prop :=
  root.Declares fun node => node.opensScope = false

/-- A node of a tree is its root or belongs to one of its branches. -/
lemma Node.Holds.exists_branch {root node : Node} {sort : Node → Prop} (h : root.Holds sort node) :
    node = root ∨ ∃ branch ∈ root.children, branch.Holds sort node := by
  induction h with
  | root => exact .inl rfl
  | child _ hs hc ih =>
    obtain rfl | ⟨branch, hb, hn⟩ := ih
    · exact .inr ⟨_, hc, .root⟩
    · exact .inr ⟨branch, hb, hn.child hs hc⟩

/-- A node of the tree, which stands inside no rule and no loop if none is given. -/
def Node.HoldsInside (root : Node) (around : List Node) (node : Node) : Prop :=
  root.Holds (fun _ => True) node ∧ (around = [] → root.Holds (fun n => n.opensScope = false) node)

/-- The rules and loops around what is below a node, the innermost first. -/
def Node.inside (around : List Node) (node : Node) : List Node :=
  if node.opensScope then node :: around else around

/-- A loop binds a name. -/
def Node.BindsName (loop : Node) (name : String) : Prop :=
  ∃ names, loop.LoopNames names ∧ name ∈ names.map Variable.bareName

/-- A loop has one list of names. -/
lemma Node.LoopNames.unique {node : Node} {names names' : List String} (h : node.LoopNames names)
    (h' : node.LoopNames names') : names' = names := by
  cases h with
  | counter hk hc =>
    cases h' with
    | counter _ hc' => simp_all
    | item hk' => simp_all
    | entry hk' => simp_all
  | item hk hl hi =>
    cases h' with
    | counter hk' => simp_all
    | item _ _ hi' => simp_all
    | entry _ hl' => simp_all
  | entry hk hl hkey hi =>
    cases h' with
    | counter hk' => simp_all
    | item _ hl' => simp_all
    | entry _ _ hkey' hi' => simp_all

/-- A loop is around what is in it. -/
lemma Node.inside_of_isLoop {node : Node} (around : List Node) (h : node.isLoop = true) :
    node.inside around = node :: around := by
  simp [Node.inside, Node.opensScope, h]

/-- A rule is around what is in it. -/
lemma Node.inside_of_rule {node : Node} (around : List Node) (h : node.kind = .rule) :
    node.inside around = node :: around := by
  simp [Node.inside, Node.opensScope, h]

/-- Where the names of a table come from, inside the given rules and loops. -/
structure SymbolTable.From (root : Node) (around : List Node) (table : SymbolTable) : Prop where
  nodup : table.names.Nodup
  origin : ∀ name ∈ table.names,
    root.DeclaresSomewhere name ∨ ∃ loop ∈ around, loop.BindsName name
  lasting : ∀ entry ∈ table.entries, entry.2.temporary = false → root.DeclaresOutermost entry.1

namespace SymbolTable.From

variable {root node : Node} {around : List Node} {table : SymbolTable}

/-- The empty table comes from every document. -/
lemma empty (root : Node) (around : List Node) : SymbolTable.From root around {} where
  nodup := List.nodup_nil
  origin _ h := by cases h
  lasting _ h := by cases h

/-- A table comes from a document inside of more nodes as well. -/
lemma cons (h : table.From root around) (node : Node) : table.From root (node :: around) where
  nodup := h.nodup
  origin name hn := by
    obtain hd | ⟨loop, hl, hb⟩ := h.origin name hn
    · exact .inl hd
    · exact .inr ⟨loop, List.mem_cons_of_mem _ hl, hb⟩
  lasting := h.lasting

/-- What a rule leaves in the table needs no rule around it. -/
lemma of_rule (hk : node.kind = .rule) (h : table.From root (node :: around)) :
    table.From root around where
  nodup := h.nodup
  origin name hn := by
    obtain hd | ⟨loop, hl, names, hb, hm⟩ := h.origin name hn
    · exact .inl hd
    · obtain rfl | hl := List.mem_cons.1 hl
      · have := hb.isLoop
        simp_all [Node.isLoop]
      · exact .inr ⟨loop, hl, names, hb, hm⟩
  lasting := h.lasting

/-- A declaration comes from the document if its name is declared there or bound around it. -/
lemma declare {name : String} {v : Variable} (h : table.From root around)
    (ho : root.DeclaresSomewhere name ∨ ∃ loop ∈ around, loop.BindsName name)
    (hl : v.temporary = false → root.DeclaresOutermost name) :
    (table.declare name v).From root around where
  nodup := by
    rw [SymbolTable.declare, Registry.names_insert]
    split
    · exact h.nodup
    · next hn =>
      refine List.nodup_append.2 ⟨h.nodup, by simp, fun other ho _ hm => ?_⟩
      rintro rfl
      exact hn (List.mem_singleton.1 hm ▸ ho)
  origin other hn := by
    rw [SymbolTable.declare, Registry.names_insert] at hn
    split at hn
    · exact h.origin other hn
    · obtain hn | hn := List.mem_append.1 hn
      · exact h.origin other hn
      · rwa [List.mem_singleton.1 hn]
  lasting entry he ht := by
    obtain rfl | he := Registry.mem_insert he
    · exact hl ht
    · exact h.lasting entry he ht

/-- Taking a name out leaves the origin of the others. -/
lemma remove (h : table.From root around) (reference : String) :
    (table.remove reference).From root around where
  nodup := by
    rw [SymbolTable.remove, Registry.names_erase]
    exact h.nodup.erase _
  origin name hn := by
    rw [SymbolTable.remove, Registry.names_erase] at hn
    exact h.origin name (List.mem_of_mem_erase hn)
  lasting entry he := h.lasting entry (Registry.mem_erase he)

/-- Taking names out leaves the origin of the others. -/
lemma foldl_remove (references : List String) (h : table.From root around) :
    (references.foldl SymbolTable.remove table).From root around := by
  induction references generalizing table with
  | nil => exact h
  | cons reference references ih => exact ih (h.remove reference)

end SymbolTable.From

/-- What waits does not matter for the origin of the variables. -/
lemma SymbolTable.From.flush {root : Node} {around : List Node} {c : Context}
    (h : c.symbols.From root around) : c.flush.2.symbols.From root around := by
  unfold Context.flush
  split <;> exact h

namespace SymbolTable

/-- Names that are taken out one by one are gone, and no other name has come in. -/
lemma mem_of_mem_foldl_remove {references : List String} {table : SymbolTable} {name : String}
    (hd : table.names.Nodup) (hn : name ∈ (references.foldl remove table).names) :
    name ∈ table.names ∧ name ∉ references.map Variable.bareName := by
  induction references generalizing table with
  | nil => exact ⟨hn, by simp⟩
  | cons reference references ih =>
    have hr : (table.remove reference).names = table.names.erase (Variable.bareName reference) :=
      Registry.names_erase _ _
    obtain ⟨hm, hx⟩ := ih (by rw [hr]; exact hd.erase _) hn
    rw [hr, hd.mem_erase_iff] at hm
    exact ⟨hm.2, by simp [hm.1, hx]⟩

/-- What a loop leaves in the table needs no loop around it, as its own names are taken out. -/
lemma From.of_loop {root node : Node} {around : List Node} {table : SymbolTable}
    {names : List String} (hl : node.LoopNames names) (h : table.From root (node :: around)) :
    (names.foldl SymbolTable.remove table).From root around where
  nodup := (h.foldl_remove names).nodup
  origin name hn := by
    obtain ⟨hn, hx⟩ := mem_of_mem_foldl_remove h.nodup hn
    obtain hd | ⟨loop, hm, names', hb, hm'⟩ := h.origin name hn
    · exact .inl hd
    · obtain rfl | hm := List.mem_cons.1 hm
      · rw [hl.unique hb] at hm'
        exact absurd hm' hx
      · exact .inr ⟨loop, hm, names', hb, hm'⟩
  lasting := (h.foldl_remove names).lasting

/-- The names of a loop are bound to temporary variables. -/
lemma From.bindRow {root node : Node} {around : List Node} {names values : List String}
    {c : Context} (hl : node.LoopNames names) (h : c.symbols.From root (node :: around)) :
    (Render.bindRow (names.zip values) c).symbols.From root (node :: around) := by
  have bound (b : String × String) (hb : b ∈ names.zip values) :
      node.BindsName (Variable.bareName b.1) :=
    ⟨names, hl, List.mem_map_of_mem (List.of_mem_zip hb).1⟩
  unfold Render.bindRow
  dsimp only
  generalize c.symbols = table at h
  generalize names.zip values = bindings at bound
  induction bindings generalizing table with
  | nil => exact h
  | cons b bindings ih =>
    refine ih _ ?_ fun b' hb' => bound b' (List.mem_cons_of_mem _ hb')
    exact h.declare (.inr ⟨node, List.mem_cons_self, bound b List.mem_cons_self⟩) (by simp)

end SymbolTable

/-- The state is temporary as long as it is kept. -/
lemma Context.Kept.inTemporaryScope {c c' : Context} (h : c.Kept c') :
    c'.inTemporaryScope = c.inTemporaryScope := by
  simp [Context.inTemporaryScope, Context.isNested, h.ancestors, h.loopDepth]

/-- The state has only variables of known origin, and knows whether a rule or a loop is around. -/
structure Context.Tracks (root : Node) (around : List Node) (c : Context) : Prop where
  symbols : c.symbols.From root around
  scope : around ≠ [] → c.inTemporaryScope = true

/-- What the stacks say of the scope stays, so only the variables have to be looked at again. -/
lemma Context.Tracks.of_kept {root : Node} {around : List Node} {c c' : Context}
    (h : c.Tracks root around) (hk : c.Kept c') (hs : c'.symbols.From root around) :
    c'.Tracks root around where
  symbols := hs
  scope ha := by
    rw [hk.inTemporaryScope]
    exact h.scope ha

/-- An open rule is tracked. -/
lemma Context.Tracks.openRule {root : Node} {around : List Node} {c : Context}
    (h : c.Tracks root around) (node : Node) (selector : String) :
    (c.openRule selector).Tracks root (node :: around) where
  symbols := h.symbols.cons node
  scope _ := by simp [inTemporaryScope, isNested, Context.openRule]

/-- A loop that is entered is tracked. -/
lemma Context.Tracks.enterLoop {root : Node} {around : List Node} {c : Context}
    (h : c.Tracks root around) (node : Node) (placement : Render.Placement) (names : List String) :
    (Render.enterLoop placement names c).Tracks root (node :: around) where
  symbols := h.symbols.cons node
  scope _ := by simp [inTemporaryScope, Render.enterLoop]

namespace Render.Discipline

/-- The stacks are kept, and variables of known origin are added to those there are. -/
def origin (root : Node) (around : List Node) : Discipline where
  onOk c c' := stack.onOk c c' ∧ (c.Tracks root around → c'.symbols.From root around)
  onError c d c' := stack.onError c d c' ∧ (c.Tracks root around → c'.symbols.From root around)
  refl c := ⟨stack.refl c, fun h => h.symbols⟩
  trans h₁ h₂ := ⟨stack.trans h₁.1 h₂.1, fun h => h₂.2 (h.of_kept h₁.1.1 (h₁.2 h))⟩
  transError h₁ h₂ := ⟨stack.transError h₁.1 h₂.1, fun h => h₂.2 (h.of_kept h₁.1.1 (h₁.2 h))⟩

variable {root node : Node} {around : List Node} {c : Context}

/-- The origin of the variables is a lenient discipline. -/
lemma origin_lenient : (origin root around).Lenient where
  ok h := ⟨stack_lenient.ok h.1, fun ht => h.2 ⟨ht.symbols, ht.scope⟩⟩
  error h := ⟨stack_lenient.error h.1, fun ht => h.2 ⟨ht.symbols, ht.scope⟩⟩
  limit c := ⟨stack_lenient.limit c, fun ht => ht.symbols⟩
  admits hd c := ⟨stack_lenient.admits hd c, fun ht => ht.symbols⟩
  locate span h := ⟨stack_lenient.locate span h.1, h.2⟩

/-- All statements keep to the origin of the variables. -/
lemma origin_walk : Walk (origin root) Node.inside root.HoldsInside where
  lenient _ := origin_lenient
  below := by
    intro around node child hn hc
    refine ⟨hn.1.child trivial hc, fun ha => ?_⟩
    unfold Node.inside at ha
    split at ha
    · cases ha
    · next hs => exact (hn.2 ha).child (by simpa using hs) hc
  plain around hs := by simp [Node.inside, hs]
  rule {around node c c'} selector _ hk h := by
    rw [Node.inside_of_rule around hk] at h
    refine ⟨stack_walk.rule (s := ()) selector trivial hk h.1, fun ht => ?_⟩
    exact (h.2 (ht.openRule node selector)).of_rule hk
  ruleError {around node c d c'} selector _ hk h := by
    rw [Node.inside_of_rule around hk] at h
    refine ⟨stack_walk.ruleError (s := ()) selector trivial hk h.1, fun ht => ?_⟩
    exact (h.2 (ht.openRule node selector)).of_rule hk
  enqueue around c fragments := ⟨stack_walk.enqueue () c fragments, fun ht => ht.symbols⟩
  declare {around node target item c v} hn hk ht hr hi hv := by
    refine ⟨stack_walk.declare (s := ()) trivial hk ht hr hi hv, fun htr => ?_⟩
    refine htr.symbols.declare (.inl ⟨node, target, hn.1, hk, ht, hr, rfl⟩) fun hv => ?_
    have ha : around = [] := by
      by_contra ha
      rw [htr.scope ha] at hv
      cases hv
    exact ⟨node, target, hn.2 ha, hk, ht, hr, rfl⟩
  define {around node name} c mixin _ hk hname :=
    ⟨stack_walk.define (s := ()) c mixin trivial hk hname, fun ht => ht.symbols⟩
  loop {around node names c c'} placement _ hl hr h := by
    rw [Node.inside_of_isLoop around hl.isLoop] at h
    refine ⟨stack_walk.loop (s := ()) placement trivial hl hr h.1, fun ht => ?_⟩
    exact (h.2 (ht.enterLoop node placement names)).of_loop hl
  loopError {around node names c d c'} placement _ hl hr h := by
    rw [Node.inside_of_isLoop around hl.isLoop] at h
    refine ⟨stack_walk.loopError (s := ()) placement trivial hl hr h.1, fun ht => ?_⟩
    exact (h.2 (ht.enterLoop node placement names)).of_loop hl
  iteration {around node names c c'} values _ hl hr h := by
    rw [Node.inside_of_isLoop around hl.isLoop] at h ⊢
    refine ⟨stack_walk.iteration (s := ()) values trivial hl hr h.1, fun ht => ?_⟩
    exact h.2 ⟨.bindRow hl ht.symbols, ht.scope⟩
  iterationError {around node names c d c'} values _ hl hr h := by
    rw [Node.inside_of_isLoop around hl.isLoop] at h ⊢
    refine ⟨stack_walk.iterationError (s := ()) values trivial hl hr h.1, fun ht => ?_⟩
    exact h.2 ⟨.bindRow hl ht.symbols, ht.scope⟩

/-- The statements of a document keep to the names that it declares. -/
lemma respects_origin (hk : root.kind = .stylesheet) (hn : node ∈ root.children) :
    (invariant fun c => c.symbols.From root []).Respects (statement node) := by
  have hs : root.HoldsInside [] node :=
    ⟨.child .root trivial hn, fun _ => .child .root (by simp [Node.opensScope, Node.isLoop, hk])
      hn⟩
  have h := (origin_walk.respectsAt node hs).statement
  exact ⟨fun ho ht => (h.ok ho).2 ⟨ht, by simp⟩, fun he ht => (h.error he).2 ⟨ht, by simp⟩⟩

end Render.Discipline

namespace Compiler

/-- The variables of a compiled document come from it. -/
lemma symbols_from (compiler : Compiler) (root : Node) :
    (compiler.compile root).2.symbols.From root [] := by
  have hd := Render.Discipline.respects_document
    (fun (hk : root.kind = .stylesheet) node hn => Render.Discipline.respects_origin hk hn)
    fun c => .flush
  have start : compiler.context.reset.symbols.From root [] := .empty root []
  unfold Compiler.compile
  split
  · next h => exact hd.ok h start
  · next h => exact hd.error h start

/-- After a document, compiled or not, every variable that there is was declared in it: those that
only a loop has bound are gone. A variable that is not temporary, and so every custom property, was
declared inside no rule and no loop. -/
theorem variables_are_declared (compiler : Compiler) (root : Node) :
    let table := (compiler.compile root).2.symbols
    (∀ name ∈ table.names, root.DeclaresSomewhere name) ∧
      (∀ entry ∈ table.entries, entry.2.temporary = false → root.DeclaresOutermost entry.1) ∧
      ∀ property ∈ table.properties, root.DeclaresOutermost property.1 := by
  have h := compiler.symbols_from root
  refine ⟨fun name hn => ?_, h.lasting, fun property hp => ?_⟩
  · obtain hd | ⟨loop, hl, -⟩ := h.origin name hn
    · exact hd
    · cases hl
  · obtain ⟨⟨name, v⟩, he, hv⟩ := List.mem_filterMap.1 hp
    unfold SymbolTable.entryProperty? at hv
    split at hv
    · next hv' =>
      cases hv
      exact h.lasting _ he (by simp_all)
    · cases hv

end Compiler

end Stylesheet
