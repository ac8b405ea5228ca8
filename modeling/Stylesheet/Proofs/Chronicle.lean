import Stylesheet.Proofs.Capturing
import Stylesheet.Proofs.Course
import Stylesheet.Proofs.History

/-!
# The statements of a document in their order

Without loops, each statement of a document is run once or not at all. `stops` lists those that are
run in their order, each with the nodes around it and the state that it starts from. `Chronicle`
lists for each kind of statement how a relation between the stops of a run and what it does follows
from the relation for the stops below. One such relation is that the symbol table is the result of
the declarations among the stops (`symbols_eq_after`).
-/

namespace Stylesheet.Render

/-- A statement that is run, with the nodes around it, the innermost first, and the state that it
starts from. -/
structure Stop where
  above : List Node
  context : Context
  node : Node

/-- Statements that are run one after the other, each with the state that it starts from. -/
def turns (step : Node → Render String) : Context → List Node → List (Context × Node)
  | _, [] => []
  | c, node :: rest => (c, node) :: turns step (after (step node) c) rest

/-- A node that has its turn is in the list. -/
lemma mem_of_mem_turns {step : Node → Render String} {c : Context} {nodes : List Node}
    {turn : Context × Node} (h : turn ∈ turns step c nodes) : turn.2 ∈ nodes := by
  induction nodes generalizing c with
  | nil => cases h
  | cons node rest ih =>
    obtain rfl | h := List.mem_cons.1 h
    · exact List.mem_cons_self
    · exact List.mem_cons_of_mem _ (ih h)

/-- The block of a branch stands below the branch. -/
lemma mem_of_mem_branchEntrances {node : Node} {branches : List Node} {c : Context} {e : Entrance}
    (h : e ∈ branchEntrances node branches c) (hb : ∀ branch ∈ branches, branch ∈ node.children) :
    ∃ branch ∈ node.children, e.body ∈ branch.children := by
  induction branches generalizing c with
  | nil =>
    rw [branchEntrances] at h
    split at h
    · next branch hf =>
      obtain ⟨body, hbody, rfl⟩ := Option.map_eq_some_iff.1 (Option.mem_toList.1 h)
      exact ⟨branch, Node.mem_of_find?_eq_some hf, List.mem_of_getElem? hbody⟩
    · cases h
  | cons branch branches ih =>
    rw [List.forall_mem_cons] at hb
    rw [branchEntrances] at h
    obtain h | h := List.mem_append.1 h
    · rw [Option.mem_toList, branchEntrance?] at h
      split at h
      · next guard body hg hbody =>
        split at h
        · cases h
          exact ⟨branch, hb.1, List.mem_of_getElem? hbody⟩
        · cases h
      · cases h
    · split at h
      · exact ih h hb.2
      · cases h

/-- The block that is run for a statement stands below it. -/
lemma mem_of_mem_entrances {node : Node} {c : Context} {e : Entrance} (h : e ∈ entrances node c) :
    e.body ∈ node.children ∨ ∃ branch ∈ node.children, e.body ∈ branch.children := by
  unfold entrances at h
  split at h
  · next first body hf hbody =>
    have hbody := List.mem_of_getElem? hbody
    split at h
    · obtain rfl := List.mem_singleton.1 h
      exact .inl hbody
    · split at h
      · obtain rfl := List.mem_singleton.1 h
        exact .inl hbody
      · exact .inr (mem_of_mem_branchEntrances h fun _ => Node.mem_of_mem_filter)
      · cases h
    · cases h
  · cases h

/-- A statement in a block that is run for another one is smaller. -/
lemma sizeOf_lt_of_mem_entrances {node child : Node} {c : Context} {e : Entrance}
    (h : e ∈ entrances node c) (hc : child ∈ e.body.children) : sizeOf child < sizeOf node := by
  have hchild := Node.sizeOf_lt_of_mem hc
  obtain hb | ⟨branch, hbranch, hb⟩ := mem_of_mem_entrances h
  · exact Nat.lt_trans hchild (Node.sizeOf_lt_of_mem hb)
  · have hbody := Nat.lt_trans (Node.sizeOf_lt_of_mem hb) (Node.sizeOf_lt_of_mem hbranch)
    exact Nat.lt_trans hchild hbody

/-- The statements that are run from a statement on to its end. -/
def stopsAt (above : List Node) (c : Context) (node : Node) : List Stop :=
  ⟨above, c, node⟩ :: (entrances node c.descend).attach.flatMap fun ⟨e, _he⟩ =>
    (turns statement e.start e.body.children).attach.flatMap fun ⟨turn, _ht⟩ =>
      stopsAt (e.body :: e.via ++ node :: above) turn.1 turn.2
termination_by sizeOf node
decreasing_by exact sizeOf_lt_of_mem_entrances _he (mem_of_mem_turns _ht)

/-- The statements that are run for the statements of a block. -/
def stopsIn (above : List Node) (c : Context) (nodes : List Node) : List Stop :=
  (turns statement c nodes).flatMap fun turn => stopsAt above turn.1 turn.2

/-- The statements that are run for a document without loops, in their order. -/
def stops (root : Node) (start : Context) : List Stop :=
  (turns outermost start root.children).flatMap fun turn => stopsAt [root] turn.1 turn.2

section

variable {above : List Node} {c m : Context} {node : Node} {text : String}

/-- After a statement come those in the blocks that are run for it. -/
lemma stopsAt_eq (above : List Node) (c : Context) (node : Node) :
    stopsAt above c node = ⟨above, c, node⟩ :: (entrances node c.descend).flatMap fun e =>
      stopsIn (e.body :: e.via ++ node :: above) e.start e.body.children := by
  have plain {α β : Type} (as : List α) (f : α → List β) :
      (as.attach.flatMap fun a => f a.1) = as.flatMap f := by
    conv_rhs => rw [← List.attach_map_subtype_val as, List.flatMap_map]
  rw [stopsAt]
  refine congrArg _ (Eq.trans ?_ (plain (entrances node c.descend) fun e =>
    stopsIn (e.body :: e.via ++ node :: above) e.start e.body.children))
  refine congrArg (List.flatMap · _) (funext fun e => ?_)
  exact plain _ fun turn : Context × Node =>
    stopsAt (e.1.body :: e.1.via ++ node :: above) turn.1 turn.2

/-- A statement that is neither a rule nor a conditional is run alone. -/
lemma stopsAt_of_plain (hr : node.kind ≠ .rule) (hc : node.kind ≠ .conditional) :
    stopsAt above c node = [⟨above, c, node⟩] := by
  rw [stopsAt_eq, entrances_eq_nil hr hc, List.flatMap_nil]

/-- The first statement of a block is run before the others. -/
lemma stopsIn_cons (rest : List Node) (h : statement node c = .ok text m) :
    stopsIn above c (node :: rest) = stopsAt above c node ++ stopsIn above m rest := by
  rw [stopsIn, turns, List.flatMap_cons, after_of_ok h]
  rfl

/-- What passes a check with all that is below it is all that is run. -/
lemma every_of_mem_stopsAt {p : Node → Bool} (hn : node.every p = true) {s : Stop}
    (h : s ∈ stopsAt above c node) : s.node.every p = true := by
  induction hsize : sizeOf node using Nat.strong_induction_on generalizing above c node with
  | _ n ih =>
    rw [stopsAt_eq] at h
    obtain rfl | h := List.mem_cons.1 h
    · exact hn
    · obtain ⟨e, he, h⟩ := List.mem_flatMap.1 h
      obtain ⟨turn, ht, h⟩ := List.mem_flatMap.1 h
      have hchild := mem_of_mem_turns ht
      have hbody : e.body.every p = true := by
        obtain hb | ⟨branch, hbranch, hb⟩ := mem_of_mem_entrances he
        · exact Node.every_child hn hb
        · exact Node.every_child (Node.every_child hn hbranch) hb
      have hless := sizeOf_lt_of_mem_entrances he hchild
      exact ih _ (hsize ▸ hless) (Node.every_child hbody hchild) h rfl

end

/-! ### What a run does with its stops -/

/-- A relation between the nodes around some stops, these stops, the state that they start from,
their text and the state that they leave, which holds whenever it holds of the stops below. -/
structure Chronicle (Q : List Node → List Stop → Context → String → Context → Prop) : Prop where
  nil : ∀ {above c}, Q above [] c "" c
  append : ∀ {above ss ts c a m b c'}, Q above ss c a m → Q above ts m b c' →
    Q above (ss ++ ts) c (a ++ b) c'
  declaration : ∀ {above node c text}, node.kind = .declaration →
    Render.declaration node c.descend = .ok text c.descend → Q above [⟨above, c, node⟩] c text c
  declare : ∀ {above node target item c v}, node.kind = .variableDeclaration →
    node.children[0]? = some target → target.kind = .reference → node.children[1]? = some item →
    declaredValue item c.descend = .ok v c.descend →
    Q above [⟨above, c, node⟩] c ""
      { c with
        symbols := c.symbols.declare (Variable.bareName target.text) ⟨v, c.inTemporaryScope⟩ }
  define : ∀ {above node c m}, node.kind = .mixinDeclaration →
    declareMixin node c.descend = .ok ⟨⟩ m → Q above [⟨above, c, node⟩] c "" m.ascend
  inclusion : ∀ {above node c text m}, node.kind = .includeDeclaration →
    includeMixin node c.descend = .ok text m → Q above [⟨above, c, node⟩] c text m.ascend
  rule : ∀ {above node group body ss c text m}, node.IsRule group body →
    Q (body :: node :: above) ss (c.descend.openRule group.selectorText) text m →
    Q above (⟨above, c, node⟩ :: ss) c (deliver group.selectorText text m.closeRule).1
      (deliver group.selectorText text m.closeRule).2.ascend
  branch : ∀ {above node via body start ss c text m}, node.kind = .conditional →
    Enters node start via body c → Q (body :: via ++ node :: above) ss c text m →
    Q above ss c text m
  conditional : ∀ {above node ss c text m}, node.kind = .conditional →
    Q above ss c.descend text m → Q above (⟨above, c, node⟩ :: ss) c text m.ascend
  flush : ∀ {above ss c text m}, Q above ss c text m →
    Q above ss c (text ++ String.join (m.flush.1.map fun fragment => Text.trim fragment ++ "\n\n"))
      m.flush.2

namespace Chronicle

variable {Q : List Node → List Stop → Context → String → Context → Prop} (hQ : Chronicle Q)
include hQ

/-- Statements that are run in their turn do together what they do one by one. -/
lemma inTurn {above nodes : List Node} {body : Node} {start c c' : Context} {texts : List String}
    (hl : ∀ node ∈ nodes, node.isLoopless = true)
    (h : Each (InTurn (fun node c text c' => ∀ above, node.isLoopless = true →
      Q above (stopsAt above c node) c text c') body start) nodes c texts c') :
    Q above (stopsIn above c nodes) c (String.join texts) c' := by
  induction h with
  | nil => exact hQ.nil
  | cons ht _ ih =>
    rw [List.forall_mem_cons] at hl
    rw [stopsIn_cons _ ht.run, String.join_cons]
    exact hQ.append (ht.holds above hl.1) (ih hl.2)

/-- The blocks of a conditional do together what they do one by one. -/
lemma opened {above : List Node} {node : Node} {es : List Entrance} {start c c' : Context}
    {texts : List String} (hk : node.kind = .conditional)
    (hl : ∀ e ∈ es, ∀ child ∈ e.body.children, child.isLoopless = true)
    (h : Each (Opened (fun node c text c' => ∀ above, node.isLoopless = true →
      Q above (stopsAt above c node) c text c') node start) es c texts c') :
    Q above
      (es.flatMap fun e => stopsIn (e.body :: e.via ++ node :: above) e.start e.body.children) c
      (String.join texts) c' := by
  induction h with
  | nil => exact hQ.nil
  | cons ho _ ih =>
    rw [List.forall_mem_cons] at hl
    obtain ⟨rfl, henters, own, hown, rfl⟩ := ho
    rw [List.flatMap_cons, String.join_cons]
    exact hQ.append (hQ.branch hk henters (hQ.inTurn hl.1 hown)) (ih hl.2)

/-- A relation that follows the stops of a run keeps to the course of statements without loops. -/
lemma course : Course fun node c text c' => ∀ above, node.isLoopless = true →
    Q above (stopsAt above c node) c text c' where
  declaration hk _ h above _ := by
    rw [stopsAt_of_plain (by simp [hk]) (by simp [hk])]
    exact hQ.declaration hk h
  declare hk _ ht htk hi hv above _ := by
    rw [stopsAt_of_plain (by simp [hk]) (by simp [hk])]
    exact hQ.declare hk ht htk hi hv
  define hk _ h above _ := by
    rw [stopsAt_of_plain (by simp [hk]) (by simp [hk])]
    exact hQ.define hk h
  inclusion hk _ h above _ := by
    rw [stopsAt_of_plain (by simp [hk]) (by simp [hk])]
    exact hQ.inclusion hk h
  rule {node group body c texts m} hr _ h above hl := by
    have hbody := Node.every_child hl (List.mem_of_getElem? hr.block_at)
    rw [stopsAt_eq, entrances_of_rule hr, List.flatMap_singleton]
    exact hQ.rule hr (hQ.inTurn (fun child => Node.every_child hbody) h)
  conditional {node c texts m} hk _ h above hl := by
    rw [stopsAt_eq]
    refine hQ.conditional hk (hQ.opened hk (fun e he child hc => ?_) h)
    obtain hb | ⟨branch, hbranch, hb⟩ := mem_of_mem_entrances he
    · exact Node.every_child (Node.every_child hl hb) hc
    · exact Node.every_child (Node.every_child (Node.every_child hl hbranch) hb) hc
  loop hu _ _ above hl := absurd hl hu.loopNames.not_isLoopless

/-- The statements of a document do together what they do one by one. -/
lemma outermost {root : Node} {start c c' : Context} {nodes : List Node} {texts : List String}
    (hl : ∀ node ∈ nodes, node.isLoopless = true)
    (h : Each (Outermost (fun node c text c' => ∀ above, node.isLoopless = true →
      Q above (stopsAt above c node) c text c') root start) nodes c texts c') :
    Q [root] ((turns Render.outermost c nodes).flatMap fun turn => stopsAt [root] turn.1 turn.2) c
      (String.join texts) c' := by
  induction h with
  | nil => exact hQ.nil
  | @cons node _ _ _ c _ _ ho _ ih =>
    rw [List.forall_mem_cons] at hl
    obtain ⟨-, own, m, hq, hrun, rfl, rfl⟩ := ho
    have hafter : after (Render.outermost node) c = m.flush.2 :=
      after_of_ok ((bind_of_ok hrun).trans rfl)
    rw [turns, List.flatMap_cons, String.join_cons, hafter]
    exact hQ.append (hQ.flush (hq [root] hl.1)) (ih hl.2)

/-- A relation that follows the stops of a run holds of every document without loops. -/
theorem document {root : Node} {start c' : Context} {css : String} (hl : root.isLoopless = true)
    (h : document root start = .ok css c') :
    ∃ body, Q [root] (stops root start) start body c' ∧ css = withProperties c' body := by
  obtain ⟨texts, he, rfl⟩ := hQ.course.document h
  exact ⟨_, hQ.outermost (fun node => Node.every_child hl) he, rfl⟩

end Chronicle

/-! ### Declarations -/

/-- What a declaration of a variable does to the symbol table, by the rules around it. -/
def Stop.change? (s : Stop) : Option SymbolTable.Change :=
  match s.node.declaredName?, s.node.children[1]? with
  | some name, some item =>
    match declaredValue item s.context.descend with
    | .ok v _ => some (.declare name ⟨v, Node.isInRule s.above⟩)
    | .error _ _ => none
  | _, _ => none

/-- The changes to the symbol table that stops make, in their order. -/
def changes (ss : List Stop) : List SymbolTable.Change := ss.filterMap Stop.change?

/-- The stops bring the symbol table from the one state to the other, and leave open what was open.
A variable is temporary exactly if a rule is around its declaration. -/
structure Records (above : List Node) (ss : List Stop) (c : Context) (text : String)
    (c' : Context) : Prop where
  ancestors : c'.ancestors = c.ancestors
  loopDepth : c'.loopDepth = c.loopDepth
  symbols : c.inTemporaryScope = Node.isInRule above →
    c'.symbols = (changes ss).foldl SymbolTable.Change.apply c.symbols

/-- Only a declaration of a variable changes the symbol table. -/
lemma Stop.change?_eq_none {s : Stop} (h : s.node.kind ≠ .variableDeclaration) :
    s.change? = none := by
  have hname : s.node.declaredName? = none := by
    unfold Node.declaredName?
    split
    · next hk _ => exact absurd hk h
    · rfl
  simp only [Stop.change?, hname]

/-- A stop that changes nothing leaves the table to those after it. -/
lemma changes_cons_of_none {s : Stop} {ss : List Stop} (h : s.change? = none) :
    changes (s :: ss) = changes ss := by
  rw [changes, List.filterMap_cons_none h]
  rfl

namespace Records

variable {above : List Node} {ss ts : List Stop} {c m c' : Context} {a b text : String}

/-- Whether a variable would be temporary is the same before and after. -/
lemma inTemporaryScope (h : Records above ss c text c') :
    c'.inTemporaryScope = c.inTemporaryScope := by
  rw [Context.inTemporaryScope, Context.isNested, h.ancestors, h.loopDepth]
  rfl

/-- Records of two parts of a run are put together. -/
lemma append (ha : Records above ss c a m) (hb : Records above ts m b c') :
    Records above (ss ++ ts) c (a ++ b) c' where
  ancestors := by rw [hb.ancestors, ha.ancestors]
  loopDepth := by rw [hb.loopDepth, ha.loopDepth]
  symbols hs := by
    rw [hb.symbols (by rw [ha.inTemporaryScope, hs]), ha.symbols hs, changes, changes, changes,
      List.filterMap_append, List.foldl_append]

/-- A rule closes what it has opened, and declares nothing itself. -/
lemma rule {node group body : Node} (hr : node.IsRule group body)
    (h : Records (body :: node :: above) ss (c.descend.openRule group.selectorText) text m) :
    Records above (⟨above, c, node⟩ :: ss) c (deliver group.selectorText text m.closeRule).1
      (deliver group.selectorText text m.closeRule).2.ascend := by
  have hclosed : Records above (⟨above, c, node⟩ :: ss) c text m.closeRule := {
    ancestors := by
      rw [Context.closeRule, h.ancestors]
      exact List.dropLast_concat
    loopDepth := h.loopDepth
    symbols := by
      intro _
      rw [changes_cons_of_none (Stop.change?_eq_none (by simp [hr.kind]))]
      refine h.symbols ?_
      simp [Context.inTemporaryScope, Context.isNested, Context.openRule, Node.isInRule, hr.kind] }
  obtain ⟨-, hd⟩ | ⟨-, hd⟩ := deliver_cases group.selectorText text m.closeRule
  · rw [hd]
    exact ⟨hclosed.ancestors, hclosed.loopDepth, hclosed.symbols⟩
  · rw [hd]
    exact ⟨hclosed.ancestors, hclosed.loopDepth, hclosed.symbols⟩

/-- No rule is between a conditional and the statements in its branches. -/
lemma branch {node body : Node} {via : List Node} {start : Context} (hk : node.kind = .conditional)
    (he : Enters node start via body c)
    (h : Records (body :: via ++ node :: above) ss c text m) : Records above ss c text m := by
  refine { h with symbols := fun hs => h.symbols ?_ }
  have hvia : via.any (·.kind == .rule) = false := by
    refine List.any_eq_false.2 fun branch hb => ?_
    obtain hkind | hkind := he.kind_of_mem_via branch hb <;> simp [hkind]
  have hbody : (body.kind == .rule) = false := by
    rw [he.kind_block]
    rfl
  have hnode : (node.kind == .rule) = false := by
    rw [hk]
    rfl
  rw [hs]
  simp [Node.isInRule, hbody, hnode, hvia]

end Records

/-- The declarations among the stops of a run make its symbol table. -/
lemma chronicle_records : Chronicle Records where
  nil := ⟨rfl, rfl, fun _ => rfl⟩
  append ha hb := ha.append hb
  declaration hk _ := by
    refine ⟨rfl, rfl, fun _ => ?_⟩
    rw [changes_cons_of_none (Stop.change?_eq_none (by simp [hk]))]
    rfl
  declare {above node target item c v} hk ht htk hi hv := by
    have hchange : Stop.change? ⟨above, c, node⟩ = some
        (.declare (Variable.bareName target.text) ⟨v, Node.isInRule above⟩) := by
      simp only [Stop.change?, Node.declaredName?_eq_some hk ht htk, hi, hv]
    refine ⟨rfl, rfl, fun hs => ?_⟩
    rw [changes, List.filterMap_cons_some hchange, hs]
    rfl
  define hk h := by
    obtain ⟨_, _, _, _, _, _, _, rfl⟩ := exists_of_declareMixin h
    refine ⟨rfl, rfl, fun _ => ?_⟩
    rw [changes_cons_of_none (Stop.change?_eq_none (by simp [hk]))]
    rfl
  inclusion hk h := by
    obtain ⟨_, _, _, _, _, rfl⟩ := exists_of_includeMixin h
    refine ⟨rfl, rfl, fun _ => ?_⟩
    rw [changes_cons_of_none (Stop.change?_eq_none (by simp [hk]))]
    rfl
  rule hr h := .rule hr h
  branch hk he h := .branch hk he h
  conditional hk h := by
    refine ⟨h.ancestors, h.loopDepth, fun hs => ?_⟩
    rw [changes_cons_of_none (Stop.change?_eq_none (by simp [hk]))]
    exact h.symbols hs
  flush h := by
    unfold Context.flush
    split
    · exact ⟨h.ancestors, h.loopDepth, h.symbols⟩
    · exact ⟨h.ancestors, h.loopDepth, h.symbols⟩

/-- The symbol table at the end of a document without loops is the result of the declarations that
were run, in their order. -/
theorem symbols_eq_after {root : Node} {start c' : Context} {css : String}
    (hl : root.isLoopless = true) (hs : start.symbols = {}) (ht : start.inTemporaryScope = false)
    (h : document root start = .ok css c') :
    c'.symbols = SymbolTable.after (changes (stops root start)) := by
  obtain ⟨body, hrecords, -⟩ := chronicle_records.document hl h
  have hk := kind_of_document h
  rw [hrecords.symbols (by rw [ht]; simp [Node.isInRule, hk]), hs]
  rfl

/-- A stop declares a name with a value, and no stop after it declares the name again. -/
structure DeclaresLast (ss : List Stop) (name : String) (s : Stop) (v : Value) : Prop where
  declares : s.change? = some (.declare name ⟨v, Node.isInRule s.above⟩)
  last : ∃ before rest, ss = before ++ s :: rest ∧
    ∀ later ∈ rest, ∀ u, later.change? ≠ some (.declare name u)

/-- A change is a declaration, of a variable that is temporary exactly in a rule. -/
lemma Stop.exists_of_change? {s : Stop} {change : SymbolTable.Change}
    (h : s.change? = some change) :
    ∃ name v, s.node.declaredName? = some name ∧
      change = .declare name ⟨v, Node.isInRule s.above⟩ := by
  unfold Stop.change? at h
  split at h
  · next name item hn _ =>
    split at h
    · next v _ _ =>
      cases h
      exact ⟨name, v, hn, rfl⟩
    · cases h
  · cases h

/-- The last change that declares a name is made by the last stop that declares it. -/
lemma exists_declaresLast {ss : List Stop} {name : String} {v : Variable}
    (h : SymbolTable.Declares (changes ss) name v) :
    ∃ s, DeclaresLast ss name s v.value ∧ v.temporary = Node.isInRule s.above := by
  obtain ⟨before, rest, hs, hr⟩ := h
  obtain ⟨front, back, rfl, -, hback⟩ := List.filterMap_eq_append_iff.1 hs
  obtain ⟨others, s, after, rfl, hothers, hchange, rfl⟩ := List.filterMap_eq_cons_iff.1 hback
  obtain ⟨found, value, -, he⟩ := Stop.exists_of_change? hchange
  cases he
  refine ⟨s, ⟨hchange, front ++ others, after, by simp, fun later hl u hu => ?_⟩, rfl⟩
  exact hr _ (List.mem_filterMap.2 ⟨later, hl, hu⟩) (.inl ⟨u, rfl⟩)

end Stylesheet.Render
