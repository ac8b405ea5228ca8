import Stylesheet.Compiler
import Stylesheet.Proofs.Captured
import Stylesheet.Proofs.Nesting

/-!
# The layout of a document

Wherever the walk over a document stands, a statement renders to text that fits there: to lines of
the innermost rule where that is nearer than any loop, and to a sheet of the blocks that it emits
elsewhere. What it makes wait is a sheet of such blocks everywhere. `Lays` says so of a statement,
`course_lays` follows it through the tree, and `laid_of_document` is what it says of a document.
-/

namespace Stylesheet

open Text

/-! ### Where a statement stands -/

namespace Node

/-- Of the rules, loops and mixins around a statement, the nearest is a rule. -/
def house (above : List Node) : Bool := above.foldr (fun node inRule => node.houses inRule) false

/-- Rules and loops, and mixins, decide whether what is below them is in a rule. -/
lemma houses_of_plain {node : Node} {inRule : Bool} (ho : node.opensScope = false)
    (hm : node.kind ≠ .mixinDeclaration) : node.houses inRule = inRule := by
  unfold houses
  unfold opensScope isLoop at ho
  cases hk : node.kind <;> simp_all

/-- Outside of mixins, the nearest is a rule if there is one and no loop is nearer. -/
lemma house_eq {above : List Node} (h : ∀ node ∈ above, node.kind ≠ .mixinDeclaration) :
    house above = (isInRule above && !isInLoop above) := by
  induction above with
  | nil => rfl
  | cons node above ih =>
    rw [List.forall_mem_cons] at h
    have ih := ih h.2
    change node.houses (house above) = _
    cases ho : node.opensScope with
    | false =>
      have hk : (node.kind == .rule) = false := by
        rw [opensScope, Bool.or_eq_false_iff] at ho
        exact ho.1
      rw [houses_of_plain ho h.1, ih]
      simp [isInRule, isInLoop, hk, ho]
    | true =>
      by_cases hk : node.kind = .rule
      · simp [houses, hk, isInRule, isInLoop, opensScope, isLoop]
      · have hl : node.isLoop = true := by simpa [opensScope, hk] using ho
        have hf : node.houses (house above) = false := by
          unfold houses
          unfold isLoop at hl
          cases hn : node.kind <;> simp_all
        rw [hf]
        simp [isInLoop, ho, hl]

/-- Where a node is housed, so are those on the way down from it. -/
lemma Housed.of_chain {inRule : Bool} {path : List Node} {top node : Node} (h : top.Housed inRule)
    (hc : (node :: path ++ [top]).IsChain (· ∈ ·.children)) :
    node.Housed ((path ++ [top]).foldr (fun n inRule => n.houses inRule) inRule) := by
  induction path generalizing node with
  | nil => exact (housed_iff.1 h).2 node (List.isChain_cons_cons.1 hc).1
  | cons n path ih =>
    obtain ⟨hn, hc⟩ := List.isChain_cons_cons.1 hc
    exact (housed_iff.1 (ih hc)).2 node hn

end Node

namespace Render

variable {root node body : Node} {above via : List Node} {start c m c' : Context}

/-- No block of a mixin is entered. -/
lemma Enters.kind_ne (h : Enters node c via body m) :
    ∀ n ∈ body :: via ++ [node], n.kind ≠ .mixinDeclaration := by
  have hb : body.kind ≠ .mixinDeclaration := by simp [h.kind_block]
  refine List.forall_mem_cons.2 ⟨hb, List.forall_mem_append.2 ⟨?_, List.forall_mem_singleton.2 ?_⟩⟩
  · cases h with
    | @elseIf guard first passed branch rest other _ _ _ _ _ _ _ _ hs =>
      have hm : branch ∈ node.filter .elseIf := by simp [hs]
      simp [kind_of_mem_filter hm]
    | @otherwise _ _ branch _ _ _ _ _ _ _ _ _ ho =>
      have hk : branch.kind = .otherwise := by simpa using List.find?_some ho
      simp [hk]
    | _ => simp
  · cases h with
    | rule hn => simp [hn.kind]
    | round hu =>
      intro hk
      have := hu.loopNames.isLoop
      simp [Node.isLoop, hk] at this
    | firstBranch hk | elseIf hk | otherwise hk => simp [hk]

/-- No statement of a mixin is reached. -/
lemma Reaches.kind_ne (h : Reaches root start above c node) :
    ∀ n ∈ above, n.kind ≠ .mixinDeclaration := by
  induction h with
  | outermost hk => simp [hk]
  | @deeper above parent via body before node after texts c m c' _ _ he _ _ ih =>
    have hall := List.forall_mem_append.1 he.kind_ne
    exact List.forall_mem_append.2 ⟨hall.1, List.forall_mem_cons.2 ⟨hall.2 _ (by simp), ih⟩⟩

/-- A statement that is reached is housed where it stands, if all of the document is. -/
lemma Reaches.housed (h : Reaches root start above c node) (hr : root.AllHoused) :
    node.Housed (Node.house above) := by
  induction h with
  | @outermost before node after texts c hk hc =>
    have hnode := hr node (by simp [hc])
    simpa [Node.house, Node.houses, hk] using hnode
  | @deeper above parent via body before node after texts c m c' _ _ he hc _ ih =>
    have hn : node ∈ body.children := by simp [hc]
    have hchain : (node :: (body :: via) ++ [parent]).IsChain (· ∈ ·.children) :=
      .cons_cons hn he.chain
    have hnode := Node.Housed.of_chain ih hchain
    simpa [Node.house, List.foldr_append] using hnode

/-- The text of a rule is its result where no rule is around it that is nearer than any loop. -/
lemma Reaches.house_eq (h : Reaches root start above c node) (hs : start.Mirrors [])
    (hk : c.Kept c') : (!c'.isNested || c'.isUnrollingChild) = !Node.house above := by
  have hm := (h.mirrors hs).of_kept hk
  have hn : c'.isNested = Node.isInRule above := Bool.eq_iff_iff.2 hm.isNested_iff
  have hu : c'.isUnrollingChild = Node.isInLoop above := Bool.eq_iff_iff.2 hm.isUnrollingChild_iff
  rw [Node.house_eq h.kind_ne, hn, hu, Bool.not_and, Bool.not_not]

/-- A conditional leaves the place as it is. -/
lemma Enters.of_conditional (h : Enters node c via body m) (hk : node.kind = .conditional)
    (above : List Node) :
    c.Kept m ∧ Node.house (body :: via ++ node :: above) = Node.house above := by
  have plain {n : Node} {inRule : Bool} (hn : n.kind = .block ∨ n.kind = .elseIf ∨
      n.kind = .otherwise ∨ n.kind = .conditional) : n.houses inRule = inRule := by
    obtain hn | hn | hn | hn := hn <;> simp [Node.houses, hn]
  have hb {inRule : Bool} : body.houses inRule = inRule := plain (.inl h.kind_block)
  have hnode {inRule : Bool} : node.houses inRule = inRule := plain (by simp [hk])
  cases h with
  | rule hn => simp [hn.kind] at hk
  | round hu =>
    have := hu.loopNames.isLoop
    simp [Node.isLoop, hk] at this
  | firstBranch => exact ⟨.refl _, by simp [Node.house, hb, hnode]⟩
  | @elseIf guard first passed branch rest other _ _ _ _ _ _ _ _ hs hp =>
    have hm (other : Node) (ho : other ∈ passed ++ branch :: rest) : other.kind = .elseIf :=
      kind_of_mem_filter (hs ▸ ho)
    have hbranch {inRule : Bool} : branch.houses inRule = inRule :=
      plain (.inr (.inl (hm branch (by simp))))
    refine ⟨hp.kept fun other ho => hm other (List.mem_append_left _ ho), ?_⟩
    simp [Node.house, hb, hnode, hbranch]
  | @otherwise guard first branch _ _ _ _ _ _ _ _ hp ho =>
    have hbk : branch.kind = .otherwise := by simpa using List.find?_some ho
    have hbranch {inRule : Bool} : branch.houses inRule = inRule := plain (by simp [hbk])
    refine ⟨hp.kept fun other ho => kind_of_mem_filter ho, ?_⟩
    simp [Node.house, hb, hnode, hbranch]

/-- The stacks are at each statement of a block as at its start. -/
lemma Runs.kept {child : Node} (h : Runs body c child c') : c.Kept c' := by
  obtain ⟨before, after, texts, -, hb⟩ := h
  exact ((Discipline.respects_mapM fun n _ => (Discipline.stack_respectsAt n).statement).ok hb).1

/-- The names of a loop are replaceable, and its rows hold texts of the document. -/
lemma Unrolls.over {placement : Placement} {names : List String} {rows : Rows}
    (h : Unrolls node c body placement names rows) (hn : node.Over unbraced)
    (hc : c.Over unbraced) :
    (∀ name ∈ names, Variable.Replaceable name) ∧ ∀ i, ∀ t ∈ rows.row i, Over unbraced t := by
  have name {source : Node} {i : Nat} (hs : node.children[i]? = some source) :
      Variable.Replaceable (Variable.sigilName source.text) :=
    Variable.replaceable_sigilName (hn.child (List.mem_of_getElem? hs)).text
  constructor
  · cases h.loopNames with
    | counter _ hs => exact List.forall_mem_singleton.2 (name hs)
    | item _ _ hs => exact List.forall_mem_singleton.2 (name hs)
    | entry _ _ hkey hs =>
      exact List.forall_mem_cons.2 ⟨name hkey, List.forall_mem_singleton.2 (name hs)⟩
  · cases h with
    | counting => exact fun i => List.forall_mem_singleton.2 (ample_unbraced.numeric.over_int _)
    | through _ _ _ he => exact (yields_eachRows ample_unbraced hn hc he).2

end Render

/-! ### States -/

/-- A state of the walk over a document. -/
structure Settled (root : Node) (start c : Context) : Prop where
  options : c.options = start.options
  symbols : ∀ e ∈ c.symbols.entries, Over unbraced e.1 ∧ e.2.value.Over unbraced
  bound : ∀ name ∈ c.bound, Over unbraced name
  ancestors : ∀ selector ∈ c.ancestors, Over unbraced selector
  mixins : ∀ e ∈ c.mixins.entries, e.2.Declared root start e.1

/-- What a statement leaves: a settled state in which sheets of certain blocks were made to wait,
and a text of a sort. -/
structure Leaves (root : Node) (start : Context) (W : String → String → Prop) (T : String → Prop)
    (c : Context) (text : String) (c' : Context) : Prop where
  settled : Settled root start c'
  waiting : ∃ added, c'.queue = c.queue ++ added ∧ ∀ fragment ∈ added, Laid root W fragment
  text : T text

/-- The text of a statement, by whether a rule is around it that is nearer than any loop. -/
def Fits (root : Node) (inRule : Bool) (L : String → Prop) (W : String → String → Prop)
    (text : String) : Prop :=
  if inRule then Held root L text else Laid root W text

variable {root : Node} {start c c' : Context} {L L' : String → Prop} {W W' : String → String → Prop}
  {T T' : String → Prop} {text : String}

namespace Fits

variable {inRule : Bool}

/-- Lines fit in a rule. -/
lemma of_held (h : Held root L text) : Fits root true L W text := h

/-- A sheet fits outside of rules. -/
lemma of_laid (h : Laid root W text) : Fits root false L W text := h

/-- Nothing fits everywhere. -/
lemma nil : Fits root inRule L W "" := by
  cases inRule with
  | true => exact .of_held .nil
  | false => exact .of_laid .nil

/-- Texts fit one after the other. -/
lemma join {texts : List String} (h : ∀ t ∈ texts, Fits root inRule L W t) :
    Fits root inRule L W (String.join texts) := by
  cases inRule with
  | true => exact .of_held (.join h)
  | false => exact .of_laid (.join h)

/-- A text fits with more lines and blocks. -/
lemma mono (h : Fits root inRule L W text) (hl : ∀ line, L line → L' line)
    (hw : ∀ s b, W s b → W' s b) : Fits root inRule L' W' text := by
  cases inRule with
  | true => exact .of_held (Held.mono h hl)
  | false => exact .of_laid (Laid.mono h hw)

/-- Lines that a mixin holds outside its rules fit everywhere. -/
lemma indented {indent : String} {lines : List String} (hi : Over unbraced indent)
    (h : ∀ line ∈ lines, Loose root line) :
    Fits root inRule L W (Fragments.indented indent lines) := by
  cases inRule with
  | true =>
    exact .of_held (.indented hi (fun line hl => (h line hl).chars)
      fun hh line hl => absurd hh (h line hl).unhoused)
  | false =>
    refine .of_laid (Laid.join fun t ht => ?_)
    obtain ⟨line, hl, rfl⟩ := List.mem_map.1 ht
    refine .plain (.of_unhoused ?_ (h line hl).unhoused)
    exact over_append.2 ⟨over_append.2 ⟨ample_unbraced.over_of_isPlain rfl, hi⟩, (h line hl).chars⟩

end Fits

namespace Settled

variable (h : Settled root start c)
include h

/-- What is in scope has no braces. -/
lemma chars : c.Over unbraced := ⟨h.symbols, h.bound⟩

/-- The state one level deeper is settled. -/
lemma descend : Settled root start c.descend := { h with }

/-- A rule is opened. -/
lemma openRule {selector : String} (hs : Over unbraced selector) :
    Settled root start (c.openRule selector) :=
  { h with ancestors := List.forall_mem_append.2 ⟨h.ancestors, List.forall_mem_singleton.2 hs⟩ }

/-- A rule is closed. -/
lemma closeRule : Settled root start c.closeRule :=
  { h with ancestors := fun s hs => h.ancestors s (List.dropLast_subset _ hs) }

/-- The variables of an iteration are declared. -/
lemma startIteration {bindings : List (String × String)}
    (hb : ∀ b ∈ bindings, Over unbraced b.1 ∧ Over unbraced b.2) :
    Settled root start (Render.startIteration bindings c) :=
  { h with symbols := (h.chars.bindRow hb).symbols }

/-- A mixin is declared. -/
lemma define {name : String} {m : Mixin} (hm : m.Declared root start name) :
    Settled root start { c with mixins := c.mixins.insert name m } :=
  { h with
    mixins := by
      intro e he
      rcases Registry.mem_insert he with rfl | he
      · exact hm
      · exact h.mixins e he }

/-- The selector of the open rules has no braces. -/
lemma over_chain : Over unbraced c.chain := Stylesheet.over_chain ample_unbraced h.ancestors

end Settled

namespace Render

/-- Statements that are run one after the other leave what each of them does. -/
lemma Each.leaves {α : Type} {P : α → Context → String → Context → Prop} {as : List α}
    {texts : List String} (h : Each P as c texts c') (hc : Settled root start c)
    (hp : ∀ a m t m', P a m t m' → Settled root start m → Leaves root start W T m t m') :
    Settled root start c' ∧
      (∃ added, c'.queue = c.queue ++ added ∧ ∀ fragment ∈ added, Laid root W fragment) ∧
      ∀ t ∈ texts, T t := by
  induction h with
  | nil => exact ⟨hc, ⟨[], by simp, by simp⟩, by simp⟩
  | cons hstep _ ih =>
    obtain ⟨hm, ⟨first, hf, hfirst⟩, ht⟩ := hp _ _ _ _ hstep hc
    obtain ⟨hc', ⟨rest, hr, hrest⟩, hts⟩ := ih hm
    refine ⟨hc', ⟨first ++ rest, by rw [hr, hf, List.append_assoc], ?_⟩, ?_⟩
    · exact List.forall_mem_append.2 ⟨hfirst, hrest⟩
    · exact List.forall_mem_cons.2 ⟨ht, hts⟩

/-- A statement that is reached in a settled state renders to text that fits there. -/
def Lays (root : Node) (start : Context) (node : Node) (c : Context) (text : String)
    (c' : Context) : Prop :=
  ∀ above, Reaches root start above c node → Settled root start c →
    Leaves root start (Emits root start c.ancestors node c)
      (Fits root (Node.house above) (Line node c) (Emits root start c.ancestors node c)) c text c'

section

variable {node body group : Node} {above via : List Node} {m : Context}

/-- What the statements of a block leave that is entered from a settled state. -/
lemma Each.leaves_of_block (above : List Node) {texts : List String}
    (h : Each (InTurn (Lays root start) body m) body.children m texts c')
    (hm : Settled root start m)
    (hreach : ∀ child c, Runs body m child c → Reaches root start above c child)
    (hw : ∀ child c s b, Runs body m child c → Emits root start m.ancestors child c s b → W s b) :
    Settled root start c' ∧
      (∃ added, c'.queue = m.queue ++ added ∧ ∀ fragment ∈ added, Laid root W fragment) ∧
      ∀ t ∈ texts, Fits root (Node.house above)
        (fun line => ∃ child c, Runs body m child c ∧ Line child c line) W t := by
  refine h.leaves hm fun child c t c' hturn hc => ?_
  obtain ⟨hset, ⟨added, hq, hadded⟩, ht⟩ := hturn.holds above (hreach child c hturn.runs) hc
  have hwrites (s b : String) (he : Emits root start c.ancestors child c s b) : W s b :=
    hw child c s b hturn.runs (hturn.runs.kept.ancestors ▸ he)
  refine ⟨hset, ⟨added, hq, fun f hf => (hadded f hf).mono hwrites⟩, ht.mono (fun line hl => ?_)
    hwrites⟩
  exact ⟨child, c, hturn.runs, hl⟩

variable (hr : root.Over unbraced) (hi : Over unbraced start.options.indent)
  (hs : start.Mirrors [])

include hr in
/-- A statement that is reached has the characters of the document. -/
lemma Reaches.over (h : Reaches root start above c node) : node.Over unbraced :=
  h.inherits hr fun _ hp _ hc => hp.child hc

include hr hi in
/-- A declaration renders to a line of the rule around it, or to text outside all rules where it is
not housed. -/
lemma lays_declaration (hk : node.kind = .declaration)
    (h : declaration node c.descend = .ok text c.descend) : Lays root start node c text c := by
  intro above hreach hc
  have hover := hreach.over hr
  obtain ⟨property, item, v, hp, hitem, hv, htext⟩ := exists_of_declaration h
  have hval := (yields_value ample_unbraced .emit (hover.child (List.mem_of_getElem? hitem))
    hc.descend.chars hv).2
  have hline := over_line ample_unbraced over_semicolon (hover.name hp) hval
  have hindent : c.descend.options.indent = start.options.indent :=
    congrArg Options.indent hc.options
  rw [hindent] at htext
  refine ⟨hc, ⟨[], by simp, by simp⟩, ?_⟩
  cases hh : Node.house above with
  | true =>
    have hheld : Held root (Line node c) text := by
      rw [htext]
      refine .indented hi (List.forall_mem_singleton.2 hline) fun _ =>
        List.forall_mem_singleton.2 (.declaration hk ?_)
      rw [h, htext]
      simp [Fragments.indented]
    exact .of_held hheld
  | false =>
    refine .of_laid (.plain (.of_unhoused ?_ fun hall => ?_))
    · rw [htext]
      exact over_indented ample_unbraced hi (List.forall_mem_singleton.2 hline)
    · have := (Node.housed_iff.1 (hreach.housed hall)).1 hk
      rw [hh] at this
      cases this

include hr in
/-- A variable gets a value of characters of the document. -/
lemma lays_declare {target item : Node} {v : Value} (ht : node.children[0]? = some target)
    (hitem : node.children[1]? = some item) (hv : declaredValue item c.descend = .ok v c.descend) :
    Lays root start node c ""
      { c with
        symbols := c.symbols.declare (Variable.bareName target.text) ⟨v, c.inTemporaryScope⟩ } := by
  intro above hreach hc
  have hover := hreach.over hr
  have htarget := (hover.child (List.mem_of_getElem? ht)).text.bareName
  have hval := (yields_declaredValue ample_unbraced
    (hover.child (List.mem_of_getElem? hitem)) hc.descend.chars hv).2
  exact ⟨{ hc with symbols := (hc.chars.declare htarget hval).symbols },
    ⟨[], by simp, by simp⟩, .nil⟩

include hr hi in
/-- A mixin is declared with the rules that its inclusions bring. -/
lemma lays_define (hk : node.kind = .mixinDeclaration)
    (h : declareMixin node c.descend = .ok ⟨⟩ m) :
    Lays root start node c "" m.ascend := by
  intro above hreach hc
  have hover := hreach.over hr
  obtain ⟨name, block, mixin, hname, hblock, hcapture, htakes, rfl⟩ := exists_of_declareMixin h
  have hsorted : mixin.parameters.Sorted Variable.Replaceable (Over unbraced) := by
    refine htakes.sorted (fun parameter hp => ?_) fun params names defaults hp hrun => ?_
    · obtain ⟨params, hparams, p, hparam, reference, href, rfl⟩ := Node.exists_of_mem_ownNames hp
      exact Variable.replaceable_sigilName (((hover.child hparams).child hparam).child href).text
    · have hparams := hover.child (Node.mem_of_find?_eq_some hp)
      exact (yields_parameters ample_unbraced name hparams hc.descend.chars hrun).2.2
  have hindent : c.descend.options.indent = start.options.indent :=
    congrArg Options.indent hc.options
  rw [hindent] at hcapture
  have hdeclared := declared_of_declareMixin hi hreach hk hover (fun hall => hreach.housed hall)
    hc.mixins hsorted h hblock hcapture
  exact ⟨hc.define hdeclared, ⟨[], by simp [Context.ascend, Context.descend], by simp⟩, .nil⟩

include hr hi in
/-- An inclusion makes the rules that it brings wait, below the open rules. -/
lemma lays_inclusion (hk : node.kind = .includeDeclaration)
    (h : includeMixin node c.descend = .ok text m) : Lays root start node c text m.ascend := by
  intro above hreach hc
  have hover := hreach.over hr
  obtain ⟨args, fragments, hargs, hexpand, rfl, rfl⟩ := exists_of_includeMixin h
  have hover (arg : String) (ha : arg ∈ args) : Over unbraced arg :=
    (yields_mapM (fun given hg => yields_value ample_unbraced .fold (hover.argument hg))
      hc.descend.chars hargs).2 arg ha
  obtain ⟨name, hname, hlaid⟩ := laid_of_expandMixin hexpand hc.mixins hover
  refine ⟨{ hc with }, ⟨_, rfl, fun fragment hf => ?_⟩, ?_⟩
  · obtain ⟨source, hsource, rfl⟩ := List.mem_map.1 hf
    refine ((hlaid.deferred source hsource).place hc.over_chain fun s b hb => ?_).laid
    exact .included hk hname hargs hb
  · have hindent : c.descend.options.indent = start.options.indent :=
      congrArg Options.indent hc.options
    rw [Fragments.inline, hindent]
    exact .indented hi hlaid.direct

/-- The block of a rule is one that the rule emits. -/
lemma laid_of_held (hrule : node.IsRule group body) (hgroup : Over unbraced group.selectorText)
    (hc : Settled root start c)
    (hrun : block body (c.descend.openRule group.selectorText) = .ok text m)
    (h : Held root (fun line => ∃ child c', Runs body (c.descend.openRule group.selectorText) child
      c' ∧ Line child c' line) text) :
    Laid root (Emits root start c.ancestors node c)
      (Selector.block (Selector.chain (c.ancestors ++ [group.selectorText])) text ++ "\n\n") := by
  have hselector : Over unbraced (Selector.chain (c.ancestors ++ [group.selectorText])) :=
    over_chain ample_unbraced
      (List.forall_mem_append.2 ⟨hc.ancestors, List.forall_mem_singleton.2 hgroup⟩)
  rw [block_eq]
  refine laid_of_boxed blank_lines (.of_held (L := fun _ => True) hselector
    (h.mono fun _ _ => trivial) fun hall => ?_)
  obtain ⟨lines, rfl, hlines⟩ := h.lines hall
  exact .rule hrule hrun hlines

include hr hs in
/-- A rule renders to its block and makes the rules in it wait. Where it is in another rule, its
block waits as well. -/
lemma lays_rule {texts : List String} (hrule : node.IsRule group body)
    (hd : c.descend.tooDeep = false)
    (h : Each (InTurn (Lays root start) body (c.descend.openRule group.selectorText)) body.children
      (c.descend.openRule group.selectorText) texts m) :
    Lays root start node c (deliver group.selectorText (String.join texts) m.closeRule).1
      (deliver group.selectorText (String.join texts) m.closeRule).2.ascend := by
  intro above hreach hc
  have hgroup := ((hreach.over hr).child (List.mem_of_getElem? hrule.group_at)).selectorText
    ample_unbraced
  have hopen : Settled root start (c.descend.openRule group.selectorText) :=
    hc.descend.openRule hgroup
  have hrun := h.block_eq_ok hrule.block_kind
  obtain ⟨hm, ⟨added, hq, hadded⟩, htexts⟩ := h.leaves_of_block (body :: node :: above)
    (W := Emits root start c.ancestors node c) hopen
    (fun child c' hruns => hreach.runs hd (.rule hrule) hruns)
    fun child c' s b hruns he => .nested hrule hruns he
  have hkept := ((Discipline.stack_respectsAt body).block.ok hrun).1
  have hin : Node.house (body :: node :: above) = true := by
    simp [Node.house, Node.houses, hrule.kind, hrule.block_kind]
  rw [hin] at htexts
  have hblock := laid_of_held hrule hgroup hc hrun (.join htexts)
  have hchain : Selector.compose m.closeRule.chain group.selectorText =
      Selector.chain (c.ancestors ++ [group.selectorText]) := by
    rw [Context.chain, hkept.closeRule.ancestors]
    simp [Selector.chain, Context.descend]
  rw [← hchain] at hblock
  have hplace : (!m.closeRule.isNested || m.closeRule.isUnrollingChild) = !Node.house above :=
    hreach.house_eq hs { hkept.closeRule with }
  have hsettled : Settled root start m.closeRule := hm.closeRule
  have hdeliver := deliver_cases group.selectorText (String.join texts) m.closeRule
  rw [hplace, Bool.not_eq_true', Bool.not_eq_false'] at hdeliver
  generalize Selector.block _ _ ++ "\n\n" = block at hblock hdeliver
  obtain ⟨hhouse, hd⟩ | ⟨-, hd⟩ := hdeliver
  · rw [hd, hhouse]
    exact ⟨{ hsettled with }, ⟨added, hq, hadded⟩, .of_laid hblock⟩
  · rw [hd]
    refine ⟨{ hsettled with }, ⟨added ++ [block], ?_, ?_⟩, .nil⟩
    · simp [Context.ascend, Context.enqueue, Context.closeRule, hq, Context.openRule,
        Context.descend]
    · exact List.forall_mem_append.2 ⟨hadded, List.forall_mem_singleton.2 hblock⟩

/-- A conditional leaves what the statements in its branches do. -/
lemma lays_conditional {es : List Entrance} {texts : List String} (hk : node.kind = .conditional)
    (hd : c.descend.tooDeep = false) (h : Each (Opened (Lays root start) node c.descend) es
      c.descend texts m) : Lays root start node c (String.join texts) m.ascend := by
  intro above hreach hc
  obtain ⟨nodes, own, h, hjoin⟩ := h.entered
  rw [hjoin]
  have hstep := h.leaves (W := Emits root start c.ancestors node c)
    (T := Fits root (Node.house above) (Line node c) (Emits root start c.ancestors node c))
    hc.descend fun child m' t m'' he hm' => by
      obtain ⟨via, body, m₀, henters, hturn⟩ := he
      obtain ⟨hkept, hplace⟩ := henters.of_conditional hk above
      have hpath : m'.ancestors = c.ancestors :=
        hturn.runs.kept.ancestors.trans hkept.ancestors
      have hwrites (s b : String) (he : Emits root start m'.ancestors child m' s b) :
          Emits root start c.ancestors node c s b :=
        .branch hk henters hturn.runs (hpath ▸ he)
      obtain ⟨hset, ⟨added, hq, hadded⟩, ht⟩ :=
        hturn.holds _ (hreach.runs hd henters hturn.runs) hm'
      rw [hplace] at ht
      refine ⟨hset, ⟨added, hq, fun f hf => (hadded f hf).mono hwrites⟩,
        ht.mono (fun line hl => ?_) hwrites⟩
      exact .branch hk henters hturn.runs hl
  obtain ⟨hm, hadded, htexts⟩ := hstep
  exact ⟨{ hm with }, hadded, .join htexts⟩

include hr in
/-- An iteration renders to a sheet of the blocks that its statements emit, with the names of the
loop replaced, and makes nothing wait. -/
lemma leaves_round {placement : Placement} {names : List String} {rows : Rows} {n : Nat}
    {m' : Context} (hreach : Reaches root start above c node) (hd : c.descend.tooDeep = false)
    (hc : Settled root start c) (hu : Unrolls node c.descend body placement names rows)
    (h : Round (Lays root start) body placement names rows (enterLoop placement names c.descend) n m
      text m')
    (hm : Settled root start m) :
    Leaves root start (Emits root start c.ancestors node c)
      (Laid root (Emits root start c.ancestors node c)) m text m' := by
  obtain ⟨hn, ⟨done, hdone⟩, texts, m₁, hstatements, rfl, rfl⟩ := h
  obtain ⟨hnames, hrows⟩ := hu.over (hreach.over hr) hc.descend.chars
  have hbound (b : String × String) (hb : b ∈ names.zip (rows.row n)) :
      Variable.Replaceable b.1 ∧ Over unbraced b.2 := by
    obtain ⟨hname, hval⟩ := List.of_mem_zip hb
    exact ⟨hnames _ hname, hrows n _ hval⟩
  have hkept := kept_of_rounds hu.loopNames hu.targetsReferences hdone
  have hpath : (startIteration (names.zip (rows.row n)) m).ancestors = c.ancestors :=
    hkept.ancestors
  have hblock := hstatements.leaves_of_block (body :: node :: above)
    (W := fun s b => ∃ child c', Runs body (startIteration (names.zip (rows.row n)) m) child c' ∧
      Emits root start c.ancestors child c' s b)
    (hm.startIteration fun b hb => ⟨(hbound b hb).1.chars, (hbound b hb).2⟩)
    (fun child c' hruns => hreach.runs hd (.round hu hn hdone) hruns)
    fun child c' s b hruns he => ⟨child, c', hruns, hpath ▸ he⟩
  obtain ⟨hset, ⟨added, hq, hadded⟩, htexts⟩ := hblock
  have hqueue : m₁.queue = m.queue ++ added := hq
  have hout : Node.house (body :: node :: above) = false := by
    have hl := hu.loopNames.isLoop
    have hb := (Enters.round hu hn hdone).kind_block
    unfold Node.isLoop at hl
    cases hk : node.kind <;> simp_all [Node.house, Node.houses]
  rw [hout] at htexts
  refine ⟨{ hset with }, ⟨[], by simp [endIteration, hqueue], by simp⟩, ?_⟩
  refine Laid.trim (Laid.applyAll placement hbound (fun s b hw => ?_)
    ((Laid.join htexts).append (Laid.join fun t ht => ?_)))
  · obtain ⟨child, c', hruns, he⟩ := hw
    exact .round hu hn hdone hruns he
  · obtain ⟨fragment, hf, rfl⟩ := List.mem_map.1 ht
    rw [hqueue, List.drop_left] at hf
    exact (Laid.of_blank (by simp [Blank]; decide)).append (hadded fragment hf).trim

include hr in
/-- A loop makes the text of its iterations wait. -/
lemma lays_loop {placement : Placement} {names : List String} {rows : Rows} {texts : List String}
    (hu : Unrolls node c.descend body placement names rows) (hd : c.descend.tooDeep = false)
    (h : Each (Round (Lays root start) body placement names rows
      (enterLoop placement names c.descend)) (List.range rows.count)
      (enterLoop placement names c.descend) texts m) :
    Lays root start node c "" ((leaveLoop c.bound.length names m).enqueueAll
      (["\n".intercalate texts].filter (· ≠ ""))).ascend := by
  intro above hreach hc
  have hnames := (hu.over (hreach.over hr) hc.descend.chars).1
  have henter : Settled root start (enterLoop placement names c.descend) :=
    { hc with
      bound := (hc.descend.chars.enterLoop fun name hn => (hnames name hn).chars).bound }
  obtain ⟨hm, ⟨added, hq, hadded⟩, htexts⟩ := h.leaves henter fun n m t m' hround hm =>
    leaves_round hr hreach hd hc hu hround hm
  have hleft : Settled root start (leaveLoop c.bound.length names m) :=
    { hm with
      symbols := hm.chars.leaveLoop.symbols
      bound := hm.chars.leaveLoop.bound }
  have hqueue : m.queue = c.queue ++ added := hq
  refine ⟨{ hleft with }, ⟨added ++ ["\n".intercalate texts].filter (· ≠ ""), ?_, ?_⟩, .nil⟩
  · simp [Context.ascend, Context.enqueueAll, leaveLoop, hqueue]
  · refine List.forall_mem_append.2 ⟨hadded, fun fragment hf => ?_⟩
    rw [List.mem_singleton.1 (List.mem_of_mem_filter hf)]
    exact .intercalate htexts

include hr hi hs in
/-- Every statement that is reached renders to text that fits there. -/
lemma course_lays : Course (Lays root start) where
  declaration hk _ h := lays_declaration hr hi hk h
  declare _ _ ht _ hitem hv := lays_declare hr ht hitem hv
  define hk _ h := lays_define hr hi hk h
  inclusion hk _ h := lays_inclusion hr hi hk h
  rule hrule hd h := lays_rule hr hs hrule hd h
  conditional hk hd h := lays_conditional hk hd h
  loop hu hd h := lays_loop hr hu hd h

include hs in
/-- A statement of a document renders to a sheet together with what waited for it. -/
lemma Outermost.laid {m' : Context} (h : Outermost (Lays root start) root start node m text m')
    (hm : Settled root start m) (ha : m.ancestors = []) (hq : m.queue = []) :
    (Settled root start m' ∧ m'.ancestors = [] ∧ m'.queue = []) ∧
      Laid root (Emits root start [] node m) text := by
  obtain ⟨hreach, own, m₁, hlays, hrun, rfl, rfl⟩ := h
  have hkept := ((Discipline.stack_respectsAt node).statement.ok hrun).1
  have ha₁ : m₁.ancestors = [] := hkept.ancestors.trans ha
  have hn : m₁.isNested = false := by simp [Context.isNested, ha₁]
  have hhouse : Node.house [root] = false := by
    have := hreach.house_eq hs hkept
    rw [hn] at this
    simpa using this.symm
  obtain ⟨hset, ⟨added, hadd, hadded⟩, hown⟩ := hlays [root] hreach hm
  rw [ha] at hadded hown
  rw [hhouse] at hown
  have hflush : m₁.flush = (added, { m₁ with queue := [] }) := by
    simp [Context.flush, hn, hadd, hq]
  rw [hflush]
  refine ⟨⟨{ hset with }, ha₁, rfl⟩, Laid.append hown (.join fun t ht => ?_)⟩
  obtain ⟨fragment, hf, rfl⟩ := List.mem_map.1 ht
  exact (hadded fragment hf).trim.append (.of_blank blank_lines)

include hr hi hs in
/-- The statements of a document render to a sheet of the blocks that they emit. -/
lemma laid_of_document {css : String} (hc : Settled root start start) (hq : start.queue = [])
    (h : document root start = .ok css c') :
    Settled root start c' ∧ ∃ text, css = withProperties c' text ∧
      Laid root (fun s b => ∃ node c, Reaches root start [root] c node ∧
        Emits root start [] node c s b) text := by
  obtain ⟨texts, hsteps, rfl⟩ := (course_lays hr hi hs).document h
  have ha : start.ancestors = [] := List.eq_nil_of_length_eq_zero hs.rules
  obtain ⟨hc', htexts⟩ := hsteps.yields
    (I := fun c => Settled root start c ∧ c.ancestors = [] ∧ c.queue = [])
    (R := Laid root fun s b => ∃ node c, Reaches root start [root] c node ∧
      Emits root start [] node c s b) ⟨hc, ha, hq⟩ fun node _ m t m' hstep hm => by
      obtain ⟨hm', ht⟩ := hstep.laid hs hm.1 hm.2.1 hm.2.2
      exact ⟨hm', ht.mono fun s b he => ⟨node, m, hstep.reached, he⟩⟩
  exact ⟨hc'.1, String.join texts, rfl, .join htexts⟩

end

end Render

end Stylesheet
