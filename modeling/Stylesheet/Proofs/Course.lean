import Stylesheet.Proofs.Following
import Stylesheet.Proofs.Unrolling

/-!
# The course of a compilation

What a statement does is put together from what the statements in its blocks do. `Course` lists for
each kind of statement how a relation between a statement, the state that it starts from, its text
and the state that it leaves follows from the same relation for the statements below it. A relation
that keeps to this holds of every statement that succeeds: `Course.statement`.
-/

namespace Stylesheet.Render

variable {α β : Type}

/-! ### Steps one after the other -/

/-- Steps that are taken one after the other. A relation holds of each of them, between what it is
for, the state before it, its result and the state after it. -/
inductive Each (P : α → Context → β → Context → Prop) :
    List α → Context → List β → Context → Prop where
  | nil {c} :
    Each P [] c [] c
  | cons {a as b bs c m c'} :
    P a c b m →
    Each P as m bs c' →
    Each P (a :: as) c (b :: bs) c'

namespace Each

variable {P Q : α → Context → β → Context → Prop} {as as' : List α} {bs bs' : List β}
  {c m c' : Context}

/-- A weaker relation holds of the steps too. -/
lemma mono (h : Each P as c bs c') (hpq : ∀ a m b m', P a m b m' → Q a m b m') :
    Each Q as c bs c' := by
  induction h with
  | nil => exact .nil
  | cons hp _ ih => exact .cons (hpq _ _ _ _ hp) ih

/-- Steps go on after others. -/
lemma append (h : Each P as c bs m) (h' : Each P as' m bs' c') :
    Each P (as ++ as') c (bs ++ bs') c' := by
  induction h with
  | nil => exact h'
  | cons hp _ ih => exact .cons hp (ih h')

/-- A loop over a list takes its steps one after the other, each where those before it have
succeeded. -/
lemma of_mapM {f : α → Render β} (h : as.mapM f c = .ok bs c')
    (hp : ∀ done a rest results m b m', as = done ++ a :: rest →
      done.mapM f c = .ok results m → f a m = .ok b m' → P a m b m') : Each P as c bs c' := by
  have go (done rest : List α) (results bs : List β) (m : Context) (ha : as = done ++ rest)
      (hd : done.mapM f c = .ok results m) (hr : rest.mapM f m = .ok bs c') :
      Each P rest m bs c' := by
    induction rest generalizing done results bs m with
    | nil =>
      cases hr
      exact .nil
    | cons a rest ih =>
      rw [List.mapM_cons] at hr
      obtain ⟨b, m', hb, hr⟩ := bind_eq_ok_iff.1 hr
      obtain ⟨others, m'', ho, hr⟩ := bind_eq_ok_iff.1 hr
      cases hr
      have hd' : (done ++ [a]).mapM f c = .ok (results ++ [b]) m' := by
        rw [List.mapM_append, bind_of_ok hd, bind_of_ok (mapM_cons_of_ok hb rfl)]
        rfl
      exact .cons (hp done a rest results m b m' ha hd hb)
        (ih (done ++ [a]) (results ++ [b]) others m' (by simp [ha]) hd' ho)
  exact go [] as [] bs c rfl rfl h

/-- Steps that are runs make up a loop over the list. -/
lemma mapM_eq_ok {f : α → Render β} (h : Each (fun a m b m' => f a m = .ok b m') as c bs c') :
    as.mapM f c = .ok bs c' := by
  induction h with
  | nil => rfl
  | cons hp _ ih => exact mapM_cons_of_ok hp ih

/-- What each step keeps, all of them keep, and what each gives, all their results are. -/
lemma yields {I : Context → Prop} {R : β → Prop} (h : Each P as c bs c') (hc : I c)
    (hs : ∀ a ∈ as, ∀ m b m', P a m b m' → I m → I m' ∧ R b) : I c' ∧ ∀ b ∈ bs, R b := by
  induction h with
  | nil => exact ⟨hc, by simp⟩
  | cons hp _ ih =>
    rw [List.forall_mem_cons] at hs
    obtain ⟨hm, hb⟩ := hs.1 _ _ _ hp hc
    obtain ⟨hc', hbs⟩ := ih hm hs.2
    exact ⟨hc', List.forall_mem_cons.2 ⟨hb, hbs⟩⟩

end Each

/-! ### Statements in their turn -/

/-- A statement of a block is run from a state, after those before it. -/
def Runs (body : Node) (start : Context) (child : Node) (c : Context) : Prop :=
  ∃ before after texts, body.children = before ++ child :: after ∧
    before.mapM statement start = .ok texts c

/-- A statement of a block is run in its turn, and a relation holds of it. -/
structure InTurn (P : Node → Context → String → Context → Prop) (body : Node) (start : Context)
    (child : Node) (c : Context) (text : String) (c' : Context) : Prop where
  runs : Runs body start child c
  run : statement child c = .ok text c'
  holds : P child c text c'

/-- A statement is run in its turn in a block that another one enters. -/
def Entered (P : Node → Context → String → Context → Prop) (node : Node) (start : Context)
    (child : Node) (c : Context) (text : String) (c' : Context) : Prop :=
  ∃ via body m, Enters node start via body m ∧ InTurn P body m child c text c'

/-! ### Branches in their turn -/

/-- A block that is run for a statement: the branch of a conditional between the two, if there is
one, the block, and the state that it starts from. -/
structure Entrance where
  via : List Node
  body : Node
  start : Context

/-- The block of a further branch of a conditional, if its guard holds. -/
def branchEntrance? (branch : Node) (c : Context) : Option Entrance :=
  match branch.children[0]?, branch.children[1]? with
  | some guard, some body =>
    match holds guard c with
    | .ok true _ => some ⟨[branch], body, c⟩
    | _ => none
  | _, _ => none

/-- The blocks of further branches of a conditional that are run, one after the other up to the
first that gives a text, and the block of the branch that is left if none does. -/
def branchEntrances (node : Node) : List Node → Context → List Entrance
  | [], c =>
    match node.find? .otherwise with
    | some branch => (branch.children[0]?.map fun body => ⟨[branch], body, c⟩).toList
    | none => []
  | branch :: rest, c =>
    (branchEntrance? branch c).toList ++
      match elseIfBranch branch c with
      | .ok none m => branchEntrances node rest m
      | _ => []

/-- The blocks that are run for a rule or a conditional, in their order. -/
def entrances (node : Node) (c : Context) : List Entrance :=
  match node.children[0]?, node.children[1]? with
  | some first, some body =>
    match node.kind with
    | .rule => [⟨[], body, c.openRule first.selectorText⟩]
    | .conditional =>
      match holds first c with
      | .ok true _ => [⟨[], body, c⟩]
      | .ok false _ => branchEntrances node (node.filter .elseIf) c
      | .error _ _ => []
    | _ => []
  | _, _ => []

section

variable {node branch guard body : Node} {c m : Context}

/-- A further branch whose guard holds runs its block. -/
lemma branchEntrance?_of_true (hg : branch.children[0]? = some guard)
    (hb : branch.children[1]? = some body) (hh : holds guard c = .ok true m) :
    branchEntrance? branch c = some ⟨[branch], body, c⟩ := by
  simp only [branchEntrance?, hg, hb, hh]

/-- A further branch whose guard fails runs nothing. -/
lemma branchEntrance?_of_false (hg : branch.children[0]? = some guard)
    (hh : holds guard c = .ok false m) : branchEntrance? branch c = none := by
  cases hb : branch.children[1]? with
  | none => simp only [branchEntrance?, hg, hb]
  | some body => simp only [branchEntrance?, hg, hb, hh]

/-- A rule runs its block, with its selector inside those around it. -/
lemma entrances_of_rule {group : Node} (h : node.IsRule group body) :
    entrances node c = [⟨[], body, c.openRule group.selectorText⟩] := by
  simp only [entrances, h.group_at, h.block_at, h.kind]

/-- Other statements without loops run no blocks. -/
lemma entrances_eq_nil (hr : node.kind ≠ .rule) (hc : node.kind ≠ .conditional) :
    entrances node c = [] := by
  unfold entrances
  split
  · split
    · next h => exact absurd h hr
    · next h => exact absurd h hc
    · rfl
  · rfl

/-- A conditional whose guard holds runs its own block. -/
lemma entrances_of_true (hk : node.kind = .conditional) (hg : node.children[0]? = some guard)
    (hb : node.children[1]? = some body) (hh : holds guard c = .ok true m) :
    entrances node c = [⟨[], body, c⟩] := by
  simp only [entrances, hg, hb, hk, hh]

/-- A conditional whose guard fails goes on to its branches. -/
lemma entrances_of_false (hk : node.kind = .conditional) (hg : node.children[0]? = some guard)
    (hb : node.children[1]? = some body) (hh : holds guard c = .ok false m) :
    entrances node c = branchEntrances node (node.filter .elseIf) c := by
  simp only [entrances, hg, hb, hk, hh]

end

/-- A block of a statement is run, and a relation holds of the statements in it. -/
structure Opened (P : Node → Context → String → Context → Prop) (node : Node) (start : Context)
    (e : Entrance) (c : Context) (text : String) (c' : Context) : Prop where
  starts : e.start = c
  enters : Enters node start e.via e.body c
  statements : ∃ texts, Each (InTurn P e.body c) e.body.children c texts c' ∧
    text = String.join texts

/-- The statements in the blocks that are run are run in their turn. -/
lemma Each.entered {P : Node → Context → String → Context → Prop} {node : Node}
    {start c c' : Context} {es : List Entrance} {texts : List String}
    (h : Each (Opened P node start) es c texts c') :
    ∃ nodes own, Each (Entered P node start) nodes c own c' ∧
      String.join texts = String.join own := by
  induction h with
  | nil => exact ⟨[], [], .nil, rfl⟩
  | @cons e _ _ _ m _ _ ho _ ih =>
    obtain ⟨-, henters, own, hown, rfl⟩ := ho
    obtain ⟨nodes, others, hothers, hjoin⟩ := ih
    have hown := hown.mono fun _ _ _ _ ht => (⟨e.via, e.body, m, henters, ht⟩ : Entered P ..)
    exact ⟨_, _, hown.append hothers, by rw [String.join_cons, hjoin, String.join_append]⟩

/-- What is left of a rule when its block is rendered: its text is the result, or has to wait. -/
def deliver (selector text : String) (c : Context) : String × Context :=
  let text := Selector.block (Selector.compose c.chain selector) text ++ "\n\n"
  if !c.isNested || c.isUnrollingChild then (text, c) else ("", c.enqueue text)

/-- A rule gives its block where no rule is around it that is nearer than any loop. Otherwise the
block waits. -/
lemma deliver_cases (selector text : String) (c : Context) :
    (!c.isNested || c.isUnrollingChild) = true ∧ deliver selector text c =
        (Selector.block (Selector.compose c.chain selector) text ++ "\n\n", c) ∨
      (!c.isNested || c.isUnrollingChild) = false ∧ deliver selector text c =
        ("", c.enqueue (Selector.block (Selector.compose c.chain selector) text ++ "\n\n")) := by
  cases h : !c.isNested || c.isUnrollingChild with
  | true => exact .inl ⟨rfl, if_pos h⟩
  | false => exact .inr ⟨rfl, if_neg (by simp [h])⟩

/-- A text with the values of an iteration in the place of its names, one after the other. -/
def Placement.applyAll (placement : Placement) (bindings : List (String × String)) (text : String) :
    String :=
  bindings.foldl (fun text b => placement.apply text b.1 b.2) text

/-- The text of an iteration, with what its body made wait and with its names replaced. -/
def gather (placement : Placement) (bindings : List (String × String)) (text : String)
    (waiting : List String) : String :=
  Text.trim (placement.applyAll bindings
    (text ++ String.join (waiting.map fun fragment => "\n" ++ Text.trim fragment)))

/-- An iteration of a loop is run in its turn: its statements are run, and a relation holds of
them. -/
structure Round (P : Node → Context → String → Context → Prop) (body : Node) (placement : Placement)
    (names : List String) (rows : Rows) (start : Context) (n : Nat) (c : Context) (text : String)
    (c' : Context) : Prop where
  bound : n < rows.count
  before : ∃ texts, iterate (round body placement names rows) n 0 start = .ok texts c
  statements : ∃ texts m,
    Each (InTurn P body (startIteration (names.zip (rows.row n)) c)) body.children
      (startIteration (names.zip (rows.row n)) c) texts m ∧
    text = gather placement (names.zip (rows.row n)) (String.join texts)
      (m.queue.drop c.queue.length) ∧
    c' = endIteration c.queue.length m

/-- A relation that holds of a statement, the state that it starts from, its text and the state that
it leaves whenever it holds of the statements in the blocks that are run for it. -/
structure Course (P : Node → Context → String → Context → Prop) : Prop where
  declaration : ∀ {node c text}, node.kind = .declaration → c.descend.tooDeep = false →
    Render.declaration node c.descend = .ok text c.descend → P node c text c
  declare : ∀ {node target item c v}, node.kind = .variableDeclaration →
    c.descend.tooDeep = false → node.children[0]? = some target → target.kind = .reference →
    node.children[1]? = some item → declaredValue item c.descend = .ok v c.descend →
    P node c ""
      { c with
        symbols := c.symbols.declare (Variable.bareName target.text) ⟨v, c.inTemporaryScope⟩ }
  define : ∀ {node c m}, node.kind = .mixinDeclaration → c.descend.tooDeep = false →
    declareMixin node c.descend = .ok ⟨⟩ m → P node c "" m.ascend
  inclusion : ∀ {node c text m}, node.kind = .includeDeclaration → c.descend.tooDeep = false →
    includeMixin node c.descend = .ok text m → P node c text m.ascend
  rule : ∀ {node group body c texts m}, node.IsRule group body → c.descend.tooDeep = false →
    Each (InTurn P body (c.descend.openRule group.selectorText)) body.children
      (c.descend.openRule group.selectorText) texts m →
    P node c (deliver group.selectorText (String.join texts) m.closeRule).1
      (deliver group.selectorText (String.join texts) m.closeRule).2.ascend
  conditional : ∀ {node c texts m}, node.kind = .conditional → c.descend.tooDeep = false →
    Each (Opened P node c.descend) (entrances node c.descend) c.descend texts m →
    P node c (String.join texts) m.ascend
  loop : ∀ {node body placement names rows c texts m},
    Unrolls node c.descend body placement names rows → c.descend.tooDeep = false →
    Each (Round P body placement names rows (enterLoop placement names c.descend))
      (List.range rows.count) (enterLoop placement names c.descend) texts m →
    P node c "" ((leaveLoop c.bound.length names m).enqueueAll
      (["\n".intercalate texts].filter (· ≠ ""))).ascend

/-- A statement in a block that is entered is reached, if the one that enters it is. -/
lemma Reaches.runs {root parent body child : Node} {start c m c' : Context}
    {above via : List Node} (h : Reaches root start above c parent)
    (hd : c.descend.tooDeep = false) (he : Enters parent c.descend via body m)
    (hr : Runs body m child c') : Reaches root start (body :: via ++ parent :: above) c' child := by
  obtain ⟨before, after, texts, hc, hb⟩ := hr
  exact h.deeper hd he hc hb

/-- A statement of a document is compiled in its turn: a relation holds of it, and what waited for
it follows its own text. -/
structure Outermost (P : Node → Context → String → Context → Prop) (root : Node) (start : Context)
    (node : Node) (c : Context) (text : String) (c' : Context) : Prop where
  reached : Reaches root start [root] c node
  compiled : ∃ own m, P node c own m ∧ statement node c = .ok own m ∧
    text = own ++ String.join (m.flush.1.map fun fragment => Text.trim fragment ++ "\n\n") ∧
    c' = m.flush.2

section

variable {P : Node → Context → String → Context → Prop} {node body : Node} {via : List Node}
  {c m c' : Context} {text : String}

/-- A statement of a block that is run is one of its children. -/
lemma Runs.mem {child : Node} (h : Runs body c child c') : child ∈ body.children := by
  obtain ⟨before, after, -, hc, -⟩ := h
  simp [hc]

/-- A block that is rendered runs its statements one after the other. -/
lemma mapM_of_block (h : block body c = .ok text c') :
    ∃ texts, body.children.mapM statement c = .ok texts c' ∧ text = String.join texts := by
  rw [block] at h
  split at h
  · cases h
  · obtain ⟨texts, m, hm, h⟩ := bind_eq_ok_iff.1 h
    cases h
    exact ⟨texts, hm, rfl⟩

/-- The statements of a block that is rendered are run in their turn. -/
lemma exists_each_of_block
    (hp : ∀ child ∈ body.children, ∀ m t m', statement child m = .ok t m' → P child m t m')
    (h : block body c = .ok text c') :
    ∃ texts, Each (InTurn P body c) body.children c texts c' ∧ text = String.join texts := by
  obtain ⟨texts, hm, rfl⟩ := mapM_of_block h
  refine ⟨texts, Each.of_mapM hm fun done child rest results m t m' hs hd hr => ?_, rfl⟩
  exact ⟨⟨done, rest, results, hs, hd⟩, hr, hp child (by simp [hs]) m t m' hr⟩

/-- The statements that are run in a block leave it as they do. -/
lemma Each.block_eq_ok {texts : List String} (hk : body.kind = .block)
    (h : Each (InTurn P body c) body.children c texts c') :
    block body c = .ok (String.join texts) c' :=
  block_of_mapM hk (h.mono fun _ _ _ _ => InTurn.run).mapM_eq_ok

/-- A counting loop that succeeds has come to its iterations. -/
lemma exists_unrolls_of_forLoop (hk : node.kind = .forLoop) (h : forLoop node c = .ok text c') :
    ∃ body placement names rows, Unrolls node c body placement names rows := by
  rw [forLoop] at h
  obtain ⟨⟨counter, _⟩, hcounter, h⟩ := ofExcept_bind_eq_ok_iff.1 h
  obtain ⟨⟨first, _⟩, hfirst, h⟩ := ofExcept_bind_eq_ok_iff.1 h
  obtain ⟨lower, hlower, h⟩ := (Discipline.reading_lenient.loopBound first).bind_eq_ok h
  obtain ⟨⟨word, _⟩, hword, h⟩ := ofExcept_bind_eq_ok_iff.1 h
  obtain ⟨⟨last, _⟩, hlast, h⟩ := ofExcept_bind_eq_ok_iff.1 h
  obtain ⟨bound, hbound, h⟩ := (Discipline.reading_lenient.loopBound last).bind_eq_ok h
  obtain ⟨⟨body, _⟩, hbody, h⟩ := ofExcept_bind_eq_ok_iff.1 h
  obtain ⟨hcounter, hck⟩ := Node.getElem?_of_childOf hcounter
  obtain ⟨hword, hwk⟩ := Node.getElem?_of_childOf hword
  obtain ⟨hbody, hbk⟩ := Node.getElem?_of_childOf hbody
  cases hu : lastValue (Text.trim word.text) bound with
  | error fault =>
    rw [hu] at h
    cases h
  | ok upper =>
    exact ⟨body, _, _, _, .counting ⟨hk, hcounter, hck, Node.getElem?_of_child hfirst, hword, hwk,
      Node.getElem?_of_child hlast, hbody, hbk⟩ hlower hbound hu⟩

/-- A loop over a list or a map that succeeds has come to its iterations. -/
lemma exists_unrolls_of_eachLoop (hk : node.kind = .eachLoop) (h : eachLoop node c = .ok text c') :
    ∃ body placement names rows, Unrolls node c body placement names rows := by
  rw [eachLoop] at h
  obtain ⟨⟨body, _⟩, hbody, h⟩ := ofExcept_bind_eq_ok_iff.1 h
  obtain ⟨⟨names, rows⟩, hrows, -⟩ := (Discipline.reading_lenient.eachRows node).bind_eq_ok h
  exact ⟨body, _, _, _,
    .through hk (Node.getLast?_of_body hbody) (Node.kind_of_body hbody) hrows⟩

/-- A declaration gives a line with the name of its property and its value. -/
lemma exists_of_declaration (h : declaration node c = .ok text c') :
    ∃ property item v, node.name = .ok property ∧ node.children[1]? = some item ∧
      value .emit item c = .ok v c ∧
      text = Fragments.indented c.options.indent [property ++ ": " ++ v ++ ";"] := by
  unfold declaration at h
  obtain ⟨property, hp, h⟩ := ofExcept_bind_eq_ok_iff.1 h
  obtain ⟨⟨item, _⟩, hi, h⟩ := ofExcept_bind_eq_ok_iff.1 h
  obtain ⟨v, hv, h⟩ := (Discipline.reading_lenient.value .emit item).bind_eq_ok h
  refine ⟨property, item, v, hp, Node.getElem?_of_child hi, hv, ?_⟩
  simp only [Fragments.indented, List.map_cons, List.map_nil, String.join_cons, String.join_nil,
    String.append_empty, ← String.append_assoc]
  rw [get_bind_apply] at h
  cases h
  rfl

/-- A declaration of a variable reads its value, and then declares it. -/
lemma exists_of_declareVariable {u : Unit} (h : declareVariable node c = .ok u c') :
    ∃ target item v, node.children[0]? = some target ∧ target.kind = .reference ∧
      node.children[1]? = some item ∧ declaredValue item c = .ok v c ∧
      c' = { c with
        symbols := c.symbols.declare (Variable.bareName target.text) ⟨v, c.inTemporaryScope⟩ } := by
  unfold declareVariable at h
  obtain ⟨⟨target, _⟩, ht, h⟩ := ofExcept_bind_eq_ok_iff.1 h
  obtain ⟨⟨item, _⟩, hi, h⟩ := ofExcept_bind_eq_ok_iff.1 h
  rw [get_bind_apply] at h
  obtain ⟨v, hv, h⟩ := (Discipline.reading_lenient.declaredValue item).bind_eq_ok h
  obtain ⟨ht, htk⟩ := Node.getElem?_of_childOf ht
  cases h
  exact ⟨target, item, v, ht, htk, Node.getElem?_of_child hi, hv, rfl⟩

/-- A rule renders its block, and then its text is the result or has to wait. -/
lemma exists_of_rule {selector : String} {step : Render String}
    (h : rule selector step c = .ok text c') :
    ∃ inner m, step (c.openRule selector) = .ok inner m ∧
      (text, c') = deliver selector inner m.closeRule := by
  rw [rule, modify_bind_apply] at h
  obtain ⟨inner, m, hm, h⟩ := bind_eq_ok_iff.1 h
  obtain ⟨m, hi, rfl⟩ := ensuring_eq_ok_iff.1 hm
  rw [get_bind_apply] at h
  refine ⟨inner, m, hi, ?_⟩
  rw [deliver]
  generalize Selector.block _ _ ++ "\n\n" = block at h ⊢
  split at h
  · next hp =>
    cases h
    rw [if_pos hp]
  · next hp =>
    cases h
    rw [if_neg hp]

/-- An iteration renders its body, and pulls back all that its body makes wait. -/
lemma exists_of_round {placement : Placement} {names : List String} {rows : Rows} {n : Nat}
    (h : round body placement names rows n c = .ok text c') :
    ∃ inner m, block body (startIteration (names.zip (rows.row n)) c) = .ok inner m ∧
      text = gather placement (names.zip (rows.row n)) inner (m.queue.drop c.queue.length) ∧
      c' = endIteration c.queue.length m := by
  change (ensuring (block body) closeFrame >>= _) (startIteration _ c) = _ at h
  obtain ⟨inner, m, hm, h⟩ := bind_eq_ok_iff.1 h
  obtain ⟨m, hi, rfl⟩ := ensuring_eq_ok_iff.1 hm
  cases h
  exact ⟨inner, m, hi, rfl, rfl⟩

/-- A document that is compiled is a stylesheet. -/
lemma kind_of_document {root : Node} {css : String} (h : document root c = .ok css c') :
    root.kind = .stylesheet := by
  unfold document at h
  split at h
  · cases h
  · next hk => exact not_not.1 hk

variable (hp : ∀ child, sizeOf child < sizeOf node → ∀ m t m', statement child m = .ok t m' →
  P child m t m')
include hp

/-- A block that is entered runs its statements in their turn. -/
lemma opened_of_block (he : Enters node c via body m) (h : block body m = .ok text c') :
    Opened P node c ⟨via, body, m⟩ m text c' := by
  obtain ⟨texts, hs, rfl⟩ := exists_each_of_block
    (fun child hc => hp child (he.sizeOf_lt hc)) h
  exact ⟨rfl, he, texts, hs, rfl⟩

/-- A further branch runs its block where its guard holds, and nothing otherwise. -/
lemma exists_opened_of_elseIfBranch {guard branch : Node} {passed rest : List Node}
    {answer : Option String} (hd : Declines node guard c)
    (hs : node.filter .elseIf = passed ++ branch :: rest) (hk : Skipped passed c m)
    (h : elseIfBranch branch m = .ok answer c') :
    ∃ texts, Each (Opened P node c) (branchEntrance? branch m).toList m texts c' ∧
      answer.getD "" = String.join texts := by
  obtain ⟨hkind, hg, first, hf, hfk, hh⟩ := hd
  rw [elseIfBranch] at h
  obtain ⟨⟨other, _⟩, ho, h⟩ := ofExcept_bind_eq_ok_iff.1 h
  have ho := Node.getElem?_of_child ho
  obtain ⟨holds, ha, h⟩ := (Discipline.reading_lenient.holds other).bind_eq_ok h
  cases holds with
  | false =>
    rw [branchEntrance?_of_false ho ha]
    cases h
    exact ⟨[], .nil, rfl⟩
  | true =>
    obtain ⟨⟨body, _⟩, hbody, h⟩ := ofExcept_bind_eq_ok_iff.1 h
    obtain ⟨text, m', hb, h⟩ := bind_eq_ok_iff.1 h
    obtain ⟨hbody, hbk⟩ := Node.getElem?_of_childOf hbody
    have he : Enters node c [branch] body m :=
      .elseIf hkind hg hf hfk hh hs hk ho ha hbody hbk
    rw [branchEntrance?_of_true ho hbody ha]
    cases h
    refine ⟨[text], .cons (opened_of_block hp he hb) .nil, ?_⟩
    rw [String.join_cons, String.join_nil, String.append_empty]
    split
    · next hempty => exact hempty.symm
    · rfl

/-- The further branches of a conditional are run up to the first that gives a text. What the
others have run gives none. -/
lemma exists_opened_of_firstText {guard : Node} {last : Render String} {passed rest : List Node}
    (hd : Declines node guard c) (hs : node.filter .elseIf = passed ++ rest)
    (hk : Skipped passed c m)
    (hl : ∀ m text c', Skipped (node.filter .elseIf) c m → last m = .ok text c' →
      ∃ texts, Each (Opened P node c) (branchEntrances node [] m) m texts c' ∧
        text = String.join texts)
    (h : firstText (rest.map elseIfBranch) last m = .ok text c') :
    ∃ texts, Each (Opened P node c) (branchEntrances node rest m) m texts c' ∧
      text = String.join texts := by
  induction rest generalizing passed m with
  | nil =>
    rw [List.append_nil] at hs
    exact hl m text c' (hs ▸ hk) h
  | cons branch rest ih =>
    obtain ⟨answer, m', hb, h⟩ := bind_eq_ok_iff.1 h
    obtain ⟨own, ho, ht⟩ := exists_opened_of_elseIfBranch hp hd hs hk hb
    rw [branchEntrances, hb]
    cases answer with
    | some found =>
      cases h
      exact ⟨own, by simpa using ho, ht⟩
    | none =>
      have hs : node.filter .elseIf = passed ++ [branch] ++ rest := by simpa using hs
      obtain ⟨more, hm, rfl⟩ := ih hs (hk.concat hb) h
      refine ⟨own ++ more, ho.append hm, ?_⟩
      rw [String.join_append, ← ht, Option.getD_none, String.empty_append]

/-- A conditional runs the blocks of its branches one after the other, and gives their texts. -/
lemma exists_opened_of_conditional (hk : node.kind = .conditional)
    (h : conditional node c = .ok text c') :
    ∃ texts, Each (Opened P node c) (entrances node c) c texts c' ∧ text = String.join texts := by
  have hrun := h
  rw [conditional] at h
  obtain ⟨⟨guard, _⟩, hg, h⟩ := ofExcept_bind_eq_ok_iff.1 h
  obtain ⟨⟨body, _⟩, hb, h⟩ := ofExcept_bind_eq_ok_iff.1 h
  have hg := Node.getElem?_of_child hg
  obtain ⟨hb, hbk⟩ := Node.getElem?_of_childOf hb
  obtain ⟨holds, hh, h⟩ := (Discipline.reading_lenient.holds guard).bind_eq_ok h
  cases holds with
  | true =>
    rw [entrances_of_true hk hg hb hh]
    exact ⟨[text], .cons (opened_of_block hp (.firstBranch hk hg hb hbk hh) h) .nil,
      by simp [String.join_cons]⟩
  | false =>
    rw [entrances_of_false hk hg hb hh]
    rw [conditional_of_false hg hb hbk hh] at hrun
    refine exists_opened_of_firstText hp ⟨hk, hg, body, hb, hbk, hh⟩ (List.nil_append _).symm .nil
      ?_
      hrun
    intro m t m' hs ht
    rw [branchEntrances]
    cases hbranch : node.find? .otherwise with
    | none =>
      rw [hbranch] at ht
      cases ht
      exact ⟨[], .nil, rfl⟩
    | some branch =>
      rw [hbranch] at ht
      dsimp only at ht ⊢
      rw [otherwiseBranch] at ht
      obtain ⟨⟨other, _⟩, ho, ht⟩ := ofExcept_bind_eq_ok_iff.1 ht
      obtain ⟨ho, hok⟩ := Node.getElem?_of_childOf ho
      rw [ho]
      have he := opened_of_block hp (.otherwise hk hg hb hbk hh hs hbranch ho hok) ht
      exact ⟨[t], .cons he .nil, by simp [String.join_cons]⟩

/-- The iterations of a loop are run in their turn. -/
lemma exists_rounds_of_unroll {placement : Placement} {names : List String} {rows : Rows}
    (hu : Unrolls node c body placement names rows)
    (h : unroll (block body) placement names rows c = .ok ⟨⟩ c') :
    ∃ texts m,
      Each (Round P body placement names rows (enterLoop placement names c)) (List.range rows.count)
        (enterLoop placement names c) texts m ∧
      c' = (leaveLoop c.bound.length names m).enqueueAll
        (["\n".intercalate texts].filter (· ≠ "")) := by
  rw [unroll, get_bind_apply, modify_bind_apply] at h
  obtain ⟨texts, m, hm, h⟩ := bind_eq_ok_iff.1 h
  obtain ⟨m, hi, rfl⟩ := ensuring_eq_ok_iff.1 hm
  refine ⟨texts, m, ?_, ?_⟩
  · change iterate (round body placement names rows) rows.count 0 _ = _ at hi
    rw [iterate_eq_mapM, ← List.range_eq_range'] at hi
    refine Each.of_mapM hi fun done n rest results m t m' hs hd hr => ?_
    -- The indices that come before the one of an iteration are all that are smaller.
    obtain ⟨k, hk, hdone, hrest⟩ := List.range'_eq_append_iff.1 (List.range_eq_range' ▸ hs)
    obtain ⟨rfl, hpos, -⟩ := List.range'_eq_cons_iff.1 hrest.symm
    obtain ⟨inner, m'', hb, ht, hm'⟩ := exists_of_round hr
    have hlt (child : Node) (hc : child ∈ body.children) : sizeOf child < sizeOf node :=
      Nat.lt_trans (Node.sizeOf_lt_of_mem hc) (Node.sizeOf_lt_of_mem hu.mem_children)
    obtain ⟨texts, he, rfl⟩ := exists_each_of_block (fun child hc => hp child (hlt child hc)) hb
    refine ⟨by omega, ⟨results, ?_⟩, texts, m'', he, ht, hm'⟩
    rw [iterate_eq_mapM]
    simpa [hdone] using hd
  · cases (enqueue_unless_empty _ _).symm.trans h
    rfl

end

namespace Course

variable {P : Node → Context → String → Context → Prop} (hC : Course P)
include hC

/-- What a statement does one level deeper, by its kind. -/
lemma perform {node : Node} {c m : Context} {text : String} (hd : c.descend.tooDeep = false)
    (hp : ∀ child, sizeOf child < sizeOf node → ∀ m t m', statement child m = .ok t m' →
      P child m t m')
    (h : perform node c.descend = .ok text m) : P node c text m.ascend := by
  have hrun := h
  have loop {body : Node} {placement : Placement} {names : List String} {rows : Rows}
      (hu : Unrolls node c.descend body placement names rows) : P node c text m.ascend := by
    rw [perform_of_unrolls hu] at hrun
    obtain ⟨_, m', hm, hr⟩ := bind_eq_ok_iff.1 hrun
    cases hr
    obtain ⟨texts, m'', hr, rfl⟩ := exists_rounds_of_unroll hp hu hm
    exact hC.loop hu hd hr
  rw [Render.perform] at h
  cases hk : node.kind <;> rw [hk] at h <;> dsimp only at h
  case rule =>
    rw [ruleStatement] at h
    obtain ⟨⟨group, _⟩, hg, h⟩ := ofExcept_bind_eq_ok_iff.1 h
    obtain ⟨⟨body, hm⟩, hb, h⟩ := ofExcept_bind_eq_ok_iff.1 h
    obtain ⟨hg, hgk⟩ := Node.getElem?_of_childOf hg
    obtain ⟨hb, hbk⟩ := Node.getElem?_of_childOf hb
    obtain ⟨inner, m', hi, hr⟩ := exists_of_rule h
    have hlt (child : Node) (hc : child ∈ body.children) : sizeOf child < sizeOf node :=
      Nat.lt_trans (Node.sizeOf_lt_of_mem hc) (Node.sizeOf_lt_of_mem hm)
    obtain ⟨texts, he, rfl⟩ := exists_each_of_block (fun child hc => hp child (hlt child hc)) hi
    have := hC.rule ⟨hk, hg, hgk, hb, hbk⟩ hd he
    rwa [← hr] at this
  case declaration =>
    obtain rfl := (Discipline.reading_lenient.declaration node).ok h
    exact hC.declaration hk hd h
  case variableDeclaration =>
    obtain ⟨_, m', hm, h⟩ := bind_eq_ok_iff.1 h
    cases h
    obtain ⟨target, item, v, ht, htk, hi, hv, rfl⟩ := exists_of_declareVariable hm
    exact hC.declare hk hd ht htk hi hv
  case mixinDeclaration =>
    obtain ⟨_, m', hm, h⟩ := bind_eq_ok_iff.1 h
    cases h
    exact hC.define hk hd hm
  case includeDeclaration => exact hC.inclusion hk hd h
  case forLoop =>
    obtain ⟨body, placement, names, rows, hu⟩ := exists_unrolls_of_forLoop hk h
    exact loop hu
  case eachLoop =>
    obtain ⟨body, placement, names, rows, hu⟩ := exists_unrolls_of_eachLoop hk h
    exact loop hu
  case conditional =>
    obtain ⟨texts, ho, rfl⟩ := exists_opened_of_conditional hp hk h
    exact hC.conditional hk hd ho
  all_goals cases h

/-- A relation that keeps to the course of statements holds of every statement that succeeds. -/
theorem statement {node : Node} {c c' : Context} {text : String}
    (h : statement node c = .ok text c') : P node c text c' := by
  induction hn : sizeOf node using Nat.strong_induction_on generalizing node c text c' with
  | _ n ih =>
    rw [Render.statement, locating_eq_ok_iff] at h
    obtain ⟨_, m, hm, h⟩ := bind_eq_ok_iff.1 h
    rw [descend_apply] at hm
    split at hm
    · cases hm
    · next hd =>
      cases hm
      obtain ⟨m, hm, rfl⟩ := ensuring_eq_ok_iff.1 h
      exact hC.perform (by simpa using hd)
        (fun child hlt m t m' hs => ih (sizeOf child) (hn ▸ hlt) hs rfl) hm

/-- The statements of a document that is compiled are compiled in their turn, and the custom
properties are put in front of their texts. -/
theorem document {root : Node} {start c' : Context} {css : String}
    (h : document root start = .ok css c') :
    ∃ texts, Each (Outermost P root start) root.children start texts c' ∧
      css = withProperties c' (String.join texts) := by
  have hk := kind_of_document h
  unfold Render.document at h
  rw [if_neg (not_not.2 hk)] at h
  obtain ⟨texts, m, hm, h⟩ := bind_eq_ok_iff.1 h
  rw [get_bind_apply] at h
  generalize hout : withProperties m (String.join texts) = out at h
  cases h
  refine ⟨texts, Each.of_mapM hm fun done node rest results m t m' hs hd hr => ?_, hout.symm⟩
  obtain ⟨own, m'', hs', hr⟩ := bind_eq_ok_iff.1 hr
  refine ⟨.outermost hk hs hd, own, m'', hC.statement hs', hs', ?_⟩
  cases hr
  exact ⟨rfl, rfl⟩

end Course

end Stylesheet.Render
