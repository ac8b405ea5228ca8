import Stylesheet.Compiler
import Stylesheet.Node.Build
import Stylesheet.Proofs.Spelling

/-!
# Lists and maps are snapshots

A list or a map holds the texts that its elements have when it is declared. An element that is a
reference is what its variable holds. In any other element, only the references to lists and maps
are read: one to a scalar stays a reference to its custom property, and one to a name that an open
loop binds is left to the loop (`collections_hold_texts`). So such an element is not what it is
folded to (`element_refers_to_scalar`).
-/

namespace Stylesheet

open Text

/-- An entry of a map, with its key and its value. -/
structure Node.IsEntry (entry : Node) (parts : Node × Node) : Prop where
  kind : entry.kind = .mapEntry
  key_at : entry.children[0]? = some parts.1
  value_at : entry.children[1]? = some parts.2

/-- The elements of a list, or the values of a map, and the value that their texts make. -/
inductive Node.Collects : Node → List Node → (List String → Value) → Prop where
  | list {node} :
    node.kind = .listDeclaration →
    Collects node node.children .list
  | map {node entries} :
    node.kind = .mapDeclaration →
    List.Forall₂ IsEntry node.children entries →
    Collects node (entries.map Prod.snd) fun texts =>
      .ofEntries ((entries.map fun parts => trim parts.1.text).zip texts)

/-- The declaration of a variable, with the reference to it and its value. -/
structure Node.IsAssignment (node target value : Node) : Prop where
  target_at : node.children[0]? = some target
  target_kind : target.kind = .reference
  value_at : node.children[1]? = some value

namespace Context

/-- The variable of a reference is declared. -/
def Declares (c : Context) (text : String) : Prop :=
  (c.symbols.lookup (Variable.bareName text)).isSome = true

/-- The variable of a reference is a list or a map, and no open loop binds its name. -/
def Reads (c : Context) (text : String) : Prop :=
  Variable.bareName text ∉ c.bound ∧
    ∃ v, c.symbols.lookup (Variable.bareName text) = some v ∧ ∀ held, v.value ≠ .scalar held

/-- What is stored for an element. -/
def stored (c : Context) (item : Node) : String :=
  if item.kind = .reference then
    (c.symbols.lookup item.text).elim (trim item.text) fun v => v.value.text
  else item.spell c.emitted

variable {c : Context} {text : String} {item : Node}

/-- References to lists and maps are read in both modes. -/
lemma Reads.emitted_eq (h : c.Reads text) : c.emitted text = c.held text := by
  obtain ⟨hb, ⟨value, temporary⟩, hv, hs⟩ := h
  rw [emitted, held, hv, if_neg hb]
  cases value with
  | scalar held => exact absurd rfl (hs held)
  | list items => rfl
  | map entries => rfl

/-- A reference is stored as what its variable holds. -/
lemma stored_of_reference (hk : item.kind = .reference)
    (hn : Variable.bareName (Variable.bareName item.text) = Variable.bareName item.text) :
    c.stored item = c.held item.text := by
  rw [stored, if_pos hk, held, SymbolTable.lookup, SymbolTable.lookup, hn]

/-- What is no reference is stored as it is spelled. -/
lemma stored_of_ne_reference (hk : item.kind ≠ .reference) :
    c.stored item = item.spell c.emitted := by
  rw [stored, if_neg hk]

end Context

namespace Render

variable {L R : String → Prop} {node collection target item : Node} {elements : List Node}
  {build : List String → Value} {c : Context}

/-- A snapshot of a spelled value stores it. -/
lemma snapshot_of_spelled (h : item.Spelled L R) (c : Context) :
    snapshot item (value .emit item) c = .ok (c.stored item) c := by
  unfold snapshot Context.stored
  split
  · rw [get_bind_apply]
    cases c.symbols.lookup item.text <;> rfl
  · exact value_emit_of_spelled h c

/-- The entries of a map are stored. -/
lemma mapEntries_of_spelled {entries : List (Node × Node)}
    (he : List.Forall₂ Node.IsEntry node.children entries)
    (hs : ∀ parts ∈ entries, parts.2.Spelled L R) (c : Context) :
    mapEntries .emit node c =
      .ok (entries.map fun parts => (trim parts.1.text, c.stored parts.2)) c := by
  rw [mapEntries]
  generalize node.children = children at he
  apply mapM_of_forall₂
  rw [List.forall₂_map_right_iff]
  induction he with
  | nil => exact .nil
  | cons hp _ ih =>
    rw [List.forall_mem_cons] at hs
    refine .cons ?_ (ih hs.2)
    rw [if_neg (not_not.2 hp.kind)]
    simp only [Node.child_of_getElem? hp.key_at, Node.child_of_getElem? hp.value_at, ofExcept,
      pure_bind_apply, bind_of_ok (snapshot_of_spelled hs.1 c), pure_apply]

/-- A list or a map is made of what is stored for its elements. -/
lemma declaredValue_of_collects (h : collection.Collects elements build)
    (hs : ∀ item ∈ elements, item.Spelled L R) (c : Context) :
    declaredValue collection c = .ok (build (elements.map c.stored)) c := by
  cases h with
  | list hk =>
    have hm := mapM_of_unchanged fun item hi => snapshot_of_spelled (hs item hi) c
    rw [declaredValue, hk]
    dsimp only
    rw [bind_of_ok hm]
    rfl
  | @map entries hk he =>
    rw [List.forall_mem_map] at hs
    rw [declaredValue, hk]
    dsimp only
    rw [bind_of_ok (mapEntries_of_spelled he hs c), List.map_map, List.zip_map']
    rfl

/-- An assignment declares its value. -/
lemma declareVariable_of_assignment {v : Value} (hn : node.IsAssignment target collection)
    (hv : declaredValue collection c = .ok v c) :
    declareVariable node c = .ok ⟨⟩
      { c with
        symbols := c.symbols.declare (Variable.bareName target.text) ⟨v, c.inTemporaryScope⟩ } := by
  simp only [declareVariable, Node.childOf_of_getElem? hn.target_at hn.target_kind,
    Node.child_of_getElem? hn.value_at, ofExcept, pure_bind_apply, get_bind_apply, bind_of_ok hv]
  rfl

/-- Declaring other names leaves what a variable holds. -/
lemma get?_foldl_declare {table : SymbolTable} {name : String} {v : Variable}
    (h : table.get? name = some v) {later : List (String × Variable)}
    (hl : ∀ d ∈ later, d.1 ≠ name) :
    (later.foldl (fun table d => SymbolTable.declare table d.1 d.2) table).get? name = some v := by
  induction later generalizing table with
  | nil => exact h
  | cons d later ih =>
    rw [List.forall_mem_cons] at hl
    refine ih ?_ hl.2
    show (table.insert d.1 d.2).get? name = some v
    rw [Registry.get?_insert, if_neg hl.1]
    exact h

/-- The declaration of a list or a map of elements that are spelled out with declared variables
succeeds in any state, inside loops and outside. The variable holds what is stored for the elements
then, also after any other names were declared. A reference is stored as what it is folded to. Any
other element is stored with its references as they are emitted, which is what it is folded to if
all its references are to lists and maps that no open loop binds. -/
theorem collections_hold_texts (hn : node.IsAssignment target collection)
    (hc : collection.Collects elements build)
    (hs : ∀ item ∈ elements, item.Spelled (fun _ => True) c.Declares) :
    let name := Variable.bareName target.text
    let v : Variable := ⟨build (elements.map c.stored), c.inTemporaryScope⟩
    let declared := c.symbols.declare name v
    declareVariable node c = .ok ⟨⟩ { c with symbols := declared } ∧
      (∀ later : List (String × Variable), (∀ d ∈ later, d.1 ≠ name) →
        (later.foldl (fun table d => table.declare d.1 d.2) declared).get? name = some v) ∧
      ∀ item ∈ elements,
        (item.kind = .reference →
          Variable.bareName (Variable.bareName item.text) = Variable.bareName item.text →
          value .fold item c = .ok (c.stored item) c) ∧
        (item.kind ≠ .reference →
          value .fold item c = .ok (item.spell c.held) c ∧
            c.stored item = item.spell c.emitted ∧
            (item.Spelled (fun _ => True) c.Reads →
              value .fold item c = .ok (c.stored item) c)) := by
  intro name v declared
  have hg : declared.get? name = some v := by
    rw [show declared = c.symbols.insert name v from rfl, Registry.get?_insert, if_pos rfl]
  refine ⟨declareVariable_of_assignment hn (declaredValue_of_collects hc hs c), ?_, ?_⟩
  · intro later hl
    exact get?_foldl_declare hg hl
  · intro item hi
    have hf : value .fold item c = .ok (item.spell c.held) c :=
      value_of_spelled (hs item hi) fun text ht => reference_fold ht
    constructor
    · intro hk hb
      rw [hf, Node.spell_of_reference hk, Context.stored_of_reference hk hb]
    · intro hk
      refine ⟨hf, Context.stored_of_ne_reference hk, ?_⟩
      intro hr
      rw [hf, Context.stored_of_ne_reference hk]
      exact congrArg (EStateM.Result.ok · c) (hr.spell_congr fun text ht => ht.emitted_eq.symm)

/-- A state inside a loop, with a scalar, a list and the variable of the loop. -/
def loopState : Context where
  symbols := ⟨[("a", ⟨.scalar "1px", false⟩), ("l", ⟨.list ["x", "y"], false⟩),
    ("k", ⟨.scalar "z", true⟩)]⟩
  loopDepth := 1
  bound := ["k"]

/-- A reference to the scalar, an element with the list, and one with the scalar and the variable of
the loop. -/
def mixedElements : List (String × Node) :=
  [("p", .reference "a"),
    ("q", .branch .listElement [.reference "l", .literal "2px"]),
    ("r", .branch .listElement [.reference "a", .reference "k"])]

/-- A map with elements of several kinds holds their texts. -/
theorem collections_hold_texts_mixedElements :
    declareVariable (.assignment "m" (.map mixedElements)) loopState = .ok ⟨⟩
        { loopState with
          symbols := loopState.symbols.declare "m"
            ⟨.map [("p", "1px"), ("q", "x, y 2px"), ("r", "var(--a) $k")], true⟩ } ∧
      value .fold (.reference "a") loopState = .ok "1px" loopState ∧
      value .fold (.branch .listElement [.reference "l", .literal "2px"]) loopState =
        .ok "x, y 2px" loopState := by
  have assignment : (Node.assignment "m" (.map mixedElements)).IsAssignment (.reference "m")
      (.map mixedElements) := ⟨rfl, rfl, rfl⟩
  have entries : List.Forall₂ Node.IsEntry (Node.map mixedElements).children
      (mixedElements.map fun e => (Node.literal e.1, e.2)) :=
    .cons ⟨rfl, rfl, rfl⟩ (.cons ⟨rfl, rfl, rfl⟩ (.cons ⟨rfl, rfl, rfl⟩ .nil))
  have spelled : ∀ item ∈ (mixedElements.map fun e => (Node.literal e.1, e.2)).map Prod.snd,
      item.Spelled (fun _ => True) loopState.Declares := by
    have list : (Node.reference "l").Spelled (fun _ => True) loopState.Declares :=
      .reference rfl rfl
    have scalar : (Node.reference "a").Spelled (fun _ => True) loopState.Declares :=
      .reference rfl rfl
    have bound : (Node.reference "k").Spelled (fun _ => True) loopState.Declares :=
      .reference rfl rfl
    have literal : (Node.literal "2px").Spelled (fun _ => True) loopState.Declares :=
      .literal rfl trivial
    simp only [mixedElements, List.map_cons, List.map_nil, List.forall_mem_cons]
    refine ⟨scalar, .element rfl ?_, .element rfl ?_, by simp⟩
    · exact List.forall_mem_cons.2 ⟨list, List.forall_mem_singleton.2 literal⟩
    · exact List.forall_mem_cons.2 ⟨scalar, List.forall_mem_singleton.2 bound⟩
  obtain ⟨declared, -, folded⟩ := collections_hold_texts assignment (.map rfl entries) spelled
  have stored : loopState.stored (.reference "a") = "1px" ∧
      loopState.stored (.branch .listElement [.reference "l", .literal "2px"]) = "x, y 2px" ∧
      loopState.stored (.branch .listElement [.reference "a", .reference "k"]) = "var(--a) $k" := by
    decide +kernel
  refine ⟨?_, ?_, ?_⟩
  · simp only [mixedElements, List.map_cons, List.map_nil, stored] at declared
    exact declared
  · have scalar := (folded (.reference "a") (by simp [mixedElements])).1 rfl (by decide)
    rwa [stored.1] at scalar
  · have element := (folded (.branch .listElement [.reference "l", .literal "2px"])
      (by simp [mixedElements])).2 (by decide)
    rw [stored.2.1] at element
    refine element.2.2 (.element rfl (List.forall_mem_cons.2 ⟨?_, ?_⟩))
    · exact .reference rfl ⟨by decide, ⟨_, _⟩, rfl, by simp⟩
    · exact List.forall_mem_singleton.2 (.literal rfl trivial)

/-- A list with an element that has a reference to a scalar. -/
def scalarInList : Node :=
  .stylesheet
    [.assignment "a" (.literal "1px"),
      .assignment "l" (.list [.branch .listElement [.reference "a", .literal "2px"]])]

/-- The element is stored with the reference in it, and folded to what the scalar holds. -/
theorem element_refers_to_scalar :
    let c := (Compiler.compile {} scalarInList).2.context
    c.symbols.get? "l" = some ⟨.list ["var(--a) 2px"], false⟩ ∧
      value .fold (.branch .listElement [.reference "a", .literal "2px"]) c =
        .ok "1px 2px" c := by
  intro c
  refine ⟨by decide +kernel, ?_⟩
  have spelled : (Node.branch .listElement [.reference "a", .literal "2px"]).Spelled
      (fun _ => True) c.Declares := by
    refine .element rfl (List.forall_mem_cons.2 ⟨.reference rfl ?_, ?_⟩)
    · show (c.symbols.lookup (Variable.bareName "$a")).isSome = true
      decide +kernel
    · exact List.forall_mem_singleton.2 (.literal rfl trivial)
  rw [value_of_spelled spelled fun text ht => reference_fold ht]
  have text : (Node.branch .listElement [.reference "a", .literal "2px"]).spell c.held =
      "1px 2px" := by
    decide +kernel
  rw [text]

end Render

end Stylesheet
