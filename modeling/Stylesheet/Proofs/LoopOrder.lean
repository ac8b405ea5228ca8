import Stylesheet.Proofs.Unrolling
import Mathlib.Data.List.Perm.Basic

/-!
# The order of unrolled rules

A document with a loop of rules is compared with the one in which the body of the loop is written
out, once for each integer. All that differs is the text in the place of the loop. Both have the
same blocks there, but the loop puts the rules inside the rules of its body at the end of each
iteration (`Compiler.unrolls_into_copies`). So the order of the document can be lost
(`Compiler.loop_moves_nested_rules_back`).
-/

namespace Stylesheet

open Text

/-- A loop from one integer literal to another whose body has only rules, with literals as values,
and in which sigils and braces stand only inside placeholders of the counter. -/
structure Node.IsRuleLoop (node counter body : Node) (lower upper : Int) (rules : Body) : Prop where
  counting : ∃ first word last bound,
    node.IsCounting counter first word last body ∧
    first.kind = .literal ∧ Number.integer? (trim first.text) = some lower ∧
    last.kind = .literal ∧ Number.integer? (trim last.text) = some bound ∧
    Render.lastValue (trim word.text) bound = .ok upper
  written : Written body.children rules
  onlyRules : ∀ child ∈ body.children, child.kind = .rule
  slotted : ∀ child ∈ body.children,
    child.allTexts (isSlotted (Variable.sigilName counter.text)) = true
  unmarked : Selector.parentMark ∉ (Variable.bareName counter.text).toList

/-- A counting loop over rules unrolls over the numbers between its bounds. -/
lemma Node.isRuleLoop_forLoop {name first word last : String} {lower bound upper : Int}
    {nodes : List Node} {rules : Body} (hf : Number.integer? (trim first) = some lower)
    (hl : Number.integer? (trim last) = some bound)
    (hu : Render.lastValue (trim word) bound = .ok upper) (hw : Written nodes rules)
    (hr : ∀ node ∈ nodes, node.kind = .rule)
    (hs : ∀ node ∈ nodes,
      node.allTexts (isSlotted (Variable.sigilName (Node.reference name).text)) = true)
    (hm : Selector.parentMark ∉ (Variable.bareName (Node.reference name).text).toList) :
    (Node.forLoop name (.literal first) word (.literal last) nodes).IsRuleLoop (.reference name)
      (.block nodes) lower upper rules where
  counting := by
    refine ⟨.literal first, .keyword word, .literal last, bound,
      ⟨rfl, rfl, rfl, rfl, rfl, rfl, rfl, rfl, rfl⟩, rfl, ?_, rfl, ?_, ?_⟩
    · simpa only [Node.literal, Node.leaf] using hf
    · simpa only [Node.literal, Node.leaf] using hl
    · simpa only [Node.keyword, Node.leaf] using hu
  written := hw
  onlyRules := hr
  slotted := hs
  unmarked := hm

/-- The statements of a block written out once for each integer, with the integer in the place of
the placeholders of a name. -/
def Node.copies (name : String) (ks : List Int) (body : Node) : List Node :=
  ks.flatMap fun k => body.children.map (mapTexts fun s => interpolate s name (toString k))

/-- The blocks of a body that is repeated for integers, each time in the given order. -/
def Body.copyBlocks (order : Body → List FlatRule) (indent name : String) (ks : List Int)
    (rules : Body) : List (String × String) :=
  ks.flatMap fun k =>
    (order (rules.map fun s => interpolate s name (toString k))).map (·.asBlock indent)

namespace Body

variable (indent name : String) (ks : List Int) (rules : Body)

/-- The blocks of the copies are those of the flattened rules in another order. -/
lemma copyBlocks_perm :
    (rules.copyBlocks unrolled indent name ks).Perm (rules.copyBlocks flattened indent name ks) :=
  .flatMap_left ks fun _ _ => (unrolled_perm _).map _

variable {rules} in
/-- Where nested rules come last, the blocks are in the order of the flattened rules. -/
lemma copyBlocks_eq (h : rules.nestsLast = true) :
    rules.copyBlocks unrolled indent name ks = rules.copyBlocks flattened indent name ks := by
  unfold copyBlocks
  congr 1
  funext k
  rw [unrolled_eq_flattened ((nestsLast_map _ rules).trans h)]

end Body

namespace Render

/-- A state between two statements of a document. -/
structure Between (options : Options) (c : Context) : Prop where
  options : c.options = options
  ancestors : c.ancestors = []
  queue : c.queue = []
  frames : c.frames = []
  depth : c.depth = 0

variable {options : Options} {c m : Context} {node : Node} {text : String}

/-- Between outermost statements nothing is open and nothing waits. -/
lemma Between.outermost (hc : Between options c) (h : outermost node c = .ok text m) :
    Between options m := by
  obtain ⟨own, c', hs, h⟩ := bind_eq_ok_iff.1 h
  obtain ⟨hk, hd⟩ := (Discipline.stack_respectsAt node).statement.ok hs
  have ha : c'.ancestors = [] := hk.ancestors.trans hc.ancestors
  rw [bind_of_ok (flushed_of_outermost ha)] at h
  cases h
  exact ⟨hk.options.trans hc.options, ha, rfl, hk.frames.trans hc.frames, hd.trans hc.depth⟩

/-- Between outermost statements nothing is open and nothing waits, after any number of them. -/
lemma Between.mapM {nodes : List Node} {texts : List String} (hc : Between options c)
    (h : nodes.mapM Render.outermost c = .ok texts m) : Between options m := by
  induction nodes generalizing c texts with
  | nil =>
    cases h
    exact hc
  | cons node nodes ih =>
    rw [List.mapM_cons] at h
    obtain ⟨text, c', hn, h⟩ := bind_eq_ok_iff.1 h
    obtain ⟨rest, c'', hr, h⟩ := bind_eq_ok_iff.1 h
    cases h
    exact ih (hc.outermost hn) hr

/-- The text that a document gives in the place of a loop. -/
def loopText (indent name : String) (rules : Body) (ks : List Int) : String :=
  String.join (([loopFragment indent [] rules name ks].filter (· ≠ "")).map
    fun fragment => trim fragment ++ "\n\n")

/-- A loop of rules between two statements leaves the state as it was. -/
lemma outermost_of_ruleLoop {counter body : Node} {lower upper : Int} {rules : Body}
    (h : node.IsRuleLoop counter body lower upper rules) (hc : Between options c)
    (hn : Variable.bareName counter.text ∉ c.symbols.names)
    (hd : rules.nesting + 1 ≤ options.maxDepth.toNat) :
    outermost node c =
      .ok (loopText options.indent (Variable.sigilName counter.text) rules (integers lower upper))
        c := by
  obtain ⟨first, word, last, bound, hl, hfk, hf, hlk, hb, hu⟩ := h.counting
  have loop : Unrolls node c.descend body .interpolated _ _ :=
    .counting hl (loopBound_of_literal hfk hf _) (loopBound_of_literal hlk hb _) hu
  have hdepth : c.descend.depth + rules.nesting ≤ c.descend.options.maxDepth.toNat := by
    change c.depth + 1 + rules.nesting ≤ c.options.maxDepth.toNat
    rw [hc.depth, hc.options]
    omega
  have hname : Variable.bareName (Variable.sigilName counter.text) ∉ c.descend.symbols.names := by
    rwa [Variable.bareName_sigilName]
  have run := unroll_of_written (c := c.descend) hl.body_kind h.written h.onlyRules hdepth hname
    lower upper
  have performed := (perform_of_unrolls loop).trans (bind_of_ok run)
  have stated := statement_of_perform (c := c) (by rw [hc.depth, hc.options]; omega) performed
  refine (outermost_of_statement hc.ancestors hc.queue stated).trans ?_
  change EStateM.Result.ok ("" ++ String.join (([loopFragment c.options.indent c.ancestors rules _
    (integers lower upper)].filter (· ≠ "")).map fun fragment => trim fragment ++ "\n\n")) c = _
  rw [hc.options, hc.ancestors, String.empty_append]
  rfl

/-- A counter that no statement before a loop declares is a new name. -/
lemma not_mem_names_of_mapM {name : String} {before : List Node} {texts : List String}
    (hb : ∀ node ∈ before, ¬node.DeclaresSomewhere name) (hc : c.symbols = {})
    (h : before.mapM outermost c = .ok texts m) : name ∉ m.symbols.names := by
  intro hm
  have start : c.symbols.From (.stylesheet before) [] := by
    rw [hc]
    exact .empty _ _
  have hs := (Discipline.respects_mapM fun node (hn : node ∈ (Node.stylesheet before).children) =>
    Discipline.respects_outermost (Discipline.respects_origin rfl hn) fun c => .flush).ok h start
  obtain ⟨node, target, hn, hk, ht⟩ | ⟨loop, hl, -⟩ := hs.origin name hm
  · obtain rfl | ⟨branch, hbranch, hn⟩ := hn.exists_branch
    · cases hk
    · exact hb branch hbranch ⟨node, target, hn, hk, ht⟩
  · cases hl

/-- The text of a body that is written out for integers. -/
def writtenOut (indent name : String) (rules : Body) (ks : List Int) : String :=
  String.join (ks.map fun k => String.join
    ((rules.map fun s => interpolate s name (toString k)).flattened.map
      fun r => r.written indent ++ "\n\n"))

end Render

namespace Node.IsRuleLoop

open Render

variable {node counter body : Node} {lower upper : Int} {rules : Body}
  (h : node.IsRuleLoop counter body lower upper rules)
include h

/-- A copy of the body writes the rules with the integer in the place of the counter. -/
lemma written_copy (k : Int) :
    Written
      (body.children.map (mapTexts fun s => interpolate s (Variable.sigilName counter.text)
        (toString k)))
      (rules.map fun s => interpolate s (Variable.sigilName counter.text) (toString k)) ∧
      Body.Rel (Fills (Variable.sigilName counter.text) (toString k))
        (Fills (Variable.sigilName counter.text) (toString k)) rules
        (rules.map fun s => interpolate s (Variable.sigilName counter.text) (toString k)) := by
  have hf := fillable_int h.unmarked k
  obtain ⟨copy, hw, hr⟩ := hf.written_copy h.written h.slotted
  obtain rfl := hr.eq_map fun ht => hf.interpolate_eq ht
  exact ⟨hw, hr⟩

/-- The body written out leaves the state as it was. -/
lemma mapM_outermost_copies {options : Options} {c : Context} (hc : Between options c)
    (hd : rules.nesting ≤ options.maxDepth.toNat) (ks : List Int) :
    ∃ texts, (body.copies (Variable.sigilName counter.text) ks).mapM outermost c = .ok texts c ∧
      String.join texts =
        writtenOut options.indent (Variable.sigilName counter.text) rules ks := by
  induction ks with
  | nil => exact ⟨[], rfl, rfl⟩
  | cons k ks ih =>
    obtain ⟨hw, hr⟩ := h.written_copy k
    obtain ⟨front, hf, hfj⟩ := mapM_outermost_of_written (c := c) hw
      (by
        intro child hchild
        obtain ⟨child, hm, rfl⟩ := List.mem_map.1 hchild
        rw [kind_mapTexts]
        exact h.onlyRules child hm)
      hc.ancestors hc.queue hc.frames
      (by rw [hc.depth, hr.nesting, hc.options]; omega)
    obtain ⟨back, hb, hbj⟩ := ih
    refine ⟨front ++ back, ?_, ?_⟩
    · rw [Node.copies, List.flatMap_cons, List.mapM_append, bind_of_ok hf]
      exact bind_of_ok hb
    · rw [String.join_append, hfj, hbj, hc.options, writtenOut, writtenOut, List.map_cons,
        String.join_cons]

/-- The rules that are written out are the blocks of the flattened copies. -/
lemma blocked_writtenOut {indent : String} (hi : Text.Over unbraced indent) (ks : List Int) :
    Blocked (rules.copyBlocks Body.flattened indent (Variable.sigilName counter.text) ks)
      (writtenOut indent (Variable.sigilName counter.text) rules ks) := by
  refine .join fun k _ => ?_
  rw [List.map_eq_flatMap]
  exact .join
    (forall_mem_of_forall₂ (fun hr => hr.blocked_written hi) (h.written_copy k).2.flattened)

/-- The fragment of a loop is the blocks of the unrolled copies. -/
lemma blocked_loopFragment {indent : String} (hi : Text.Over unbraced indent)
    (hs : '$' ∉ indent.toList) (ks : List Int) :
    Blocked (rules.copyBlocks Body.unrolled indent (Variable.sigilName counter.text) ks)
      (loopFragment indent [] rules (Variable.sigilName counter.text) ks) := by
  refine .intercalate blank_newline fun k _ => ?_
  have hr := (h.written_copy k).2
  rw [Body.interpolate_iterationText (fillable_int h.unmarked k) (.refl_of_not_mem hs) hr]
  exact (Body.blocked_iterationText hi hr).trim

/-- The text of a loop is the blocks of the unrolled copies. -/
lemma blocked_loopText {indent : String} (hi : Text.Over unbraced indent) (hs : '$' ∉ indent.toList)
    (ks : List Int) :
    Blocked (rules.copyBlocks Body.unrolled indent (Variable.sigilName counter.text) ks)
      (loopText indent (Variable.sigilName counter.text) rules ks) := by
  have hb := h.blocked_loopFragment hi hs ks
  unfold loopText
  generalize loopFragment indent [] rules (Variable.sigilName counter.text) ks = fragment at hb
  by_cases he : fragment = ""
  · -- A loop that writes nothing has no blocks either.
    rw [← hb.blocks_eq, he, Blocked.empty.blocks_eq]
    exact .empty
  · rw [List.filter_cons_of_pos (by simpa using he)]
    simpa using hb.trim.append (.blank blank_newlines)

end Node.IsRuleLoop

/-! ### Documents -/

namespace Render

/-- A document around a text: the statements before it, the text, and the statements after it. -/
def around (before after : List Node) (text : String) : Render String := do
  let front ← before.mapM outermost
  let back ← after.mapM outermost
  return withProperties (← get) (String.join front ++ text ++ String.join back)

/-- Statements that leave the state as it was can be seen as the text that they give. -/
lemma document_eq_around {root : Node} {before middle after : List Node} {text : String}
    {start : Context} (hk : root.kind = .stylesheet)
    (hc : root.children = before ++ (middle ++ after))
    (hm : ∀ front c, before.mapM outermost start = .ok front c →
      ∃ texts, middle.mapM outermost c = .ok texts c ∧ String.join texts = text) :
    document root start = around before after text start := by
  have hd : document root = root.children.mapM outermost >>= fun texts => do
      return withProperties (← get) (String.join texts) := by
    unfold document
    rw [if_neg (by simp [hk])]
    rfl
  rw [hd, around, hc, List.mapM_append, bind_assoc]
  cases hf : before.mapM outermost start with
  | error d c => rw [bind_of_error hf, bind_of_error hf]
  | ok front c =>
    obtain ⟨texts, ht, rfl⟩ := hm front c hf
    rw [bind_of_ok hf, bind_of_ok hf, List.mapM_append, bind_assoc, bind_assoc, bind_of_ok ht]
    simp [String.join_append, String.append_assoc]

/-- The custom properties come in front of the text. -/
lemma withProperties_eq (c : Context) :
    ∃ lead, ∀ css, withProperties c css = trim (lead ++ css) := by
  unfold withProperties
  split
  · exact ⟨"", fun css => by rw [String.empty_append]⟩
  · exact ⟨_, fun css => rfl⟩

/-- What a document puts around a text does not depend on it. -/
lemma around_eq (before after : List Node) (start : Context) :
    (∃ d c, ∀ text, around before after text start = .error d c) ∨
      ∃ front back c, ∀ text, around before after text start =
        .ok (trim (front ++ text ++ back)) c := by
  cases hf : before.mapM outermost start with
  | error d c => exact .inl ⟨d, c, fun text => bind_of_error hf⟩
  | ok front c =>
    cases hb : after.mapM outermost c with
    | error d c' =>
      refine .inl ⟨d, c', fun text => ?_⟩
      rw [around, bind_of_ok hf, bind_of_error hb]
    | ok back c' =>
      obtain ⟨lead, hl⟩ := withProperties_eq c'
      refine .inr ⟨lead ++ String.join front, String.join back, c', fun text => ?_⟩
      rw [around, bind_of_ok hf, bind_of_ok hb, get_bind_apply, hl]
      simp [String.append_assoc]

end Render

namespace Compiler

/-- What documents give that have the same text around another one: that text without the blanks at
its ends, or all the same error. -/
def IsFrame (result : String → Except Diagnostic String × Compiler) : Prop :=
  (∃ d compiler, ∀ text, result text = (.error d, compiler)) ∨
    ∃ front back compiler, ∀ text, result text = (.ok (trim (front ++ text ++ back)), compiler)

/-- The compiler on a document around a text. -/
def compileAround (compiler : Compiler) (before after : List Node) (text : String) :
    Except Diagnostic String × Compiler :=
  match Render.around before after text compiler.context.reset with
  | .ok css context => (.ok css, ⟨context⟩)
  | .error d context => (.error (context.source.elim d d.attach), ⟨context⟩)

/-- Compiling what is around a text is a frame for it. -/
lemma isFrame_compileAround (compiler : Compiler) (before after : List Node) :
    IsFrame (compiler.compileAround before after) := by
  obtain ⟨d, c, h⟩ | ⟨front, back, c, h⟩ :=
    Render.around_eq before after compiler.context.reset
  · exact .inl ⟨_, _, fun text => by rw [compileAround, h]⟩
  · exact .inr ⟨front, back, ⟨c⟩, fun text => by rw [compileAround, h]⟩

/-- A document is compiled around the text of the statements in the middle. -/
lemma compile_eq_compileAround {compiler : Compiler} {root : Node} {before middle after : List Node}
    {text : String} (hk : root.kind = .stylesheet)
    (hc : root.children = before ++ (middle ++ after))
    (hm : ∀ front c, before.mapM Render.outermost compiler.context.reset = .ok front c →
      ∃ texts, middle.mapM Render.outermost c = .ok texts c ∧ String.join texts = text) :
    compiler.compile root = compiler.compileAround before after text := by
  rw [compile, Render.document_eq_around hk hc hm]
  rfl

/-- A loop of rules, between any statements, against its body written out for each integer. The two
documents differ in the text in this place only. The blocks in it are the same, but an iteration has
the rules that stand directly in the body before those inside them, and a document has each rule
before those inside it. The order is the same where only the last rule has rules inside it. -/
theorem unrolls_into_copies (compiler : Compiler) {root loop counter body : Node}
    {before after : List Node} {lower upper : Int} {rules : Body} (hk : root.kind = .stylesheet)
    (hc : root.children = before ++ loop :: after)
    (hl : loop.IsRuleLoop counter body lower upper rules)
    (hb : ∀ node ∈ before, ¬node.DeclaresSomewhere (Variable.bareName counter.text))
    (hi : Over unbraced compiler.context.options.indent)
    (hs : '$' ∉ compiler.context.options.indent.toList)
    (hd : rules.nesting + 1 ≤ compiler.context.options.maxDepth.toNat) :
    let ks := Render.integers lower upper
    let name := Variable.sigilName counter.text
    let indent := compiler.context.options.indent
    ∃ looped written result, IsFrame result ∧
      compiler.compile root = result looped ∧
      compiler.compile { root with children := before ++ (body.copies name ks ++ after) } =
        result written ∧
      compiler.compile { root with children := before ++ after } = result "" ∧
      (∀ bs bs' front back, Blocked bs front → Blocked bs' back →
        blocks (trim (front ++ looped ++ back)) =
            bs ++ rules.copyBlocks Body.unrolled indent name ks ++ bs' ∧
          blocks (trim (front ++ written ++ back)) =
            bs ++ rules.copyBlocks Body.flattened indent name ks ++ bs') ∧
      (rules.copyBlocks Body.unrolled indent name ks).Perm
        (rules.copyBlocks Body.flattened indent name ks) ∧
      (rules.nestsLast = true →
        rules.copyBlocks Body.unrolled indent name ks =
          rules.copyBlocks Body.flattened indent name ks) := by
  intro ks name indent
  have between {front : List String} {c : Context}
      (h : before.mapM Render.outermost compiler.context.reset = .ok front c) :
      Render.Between compiler.context.options c :=
    Render.Between.mapM (c := compiler.context.reset) ⟨rfl, rfl, rfl, rfl, rfl⟩ h
  refine ⟨Render.loopText indent name rules ks, Render.writtenOut indent name rules ks,
    compiler.compileAround before after, compiler.isFrame_compileAround before after, ?_, ?_, ?_,
    ?_, Body.copyBlocks_perm .., Body.copyBlocks_eq indent name ks⟩
  · have hc' : root.children = before ++ ([loop] ++ after) := hc
    refine compile_eq_compileAround hk hc' fun front c h => ?_
    have hn := Render.not_mem_names_of_mapM hb rfl h
    have run := Render.outermost_of_ruleLoop hl (between h) hn hd
    exact ⟨[Render.loopText indent name rules ks], Render.mapM_cons_of_ok run rfl, by simp⟩
  · refine compile_eq_compileAround hk rfl fun front c h => ?_
    exact hl.mapM_outermost_copies (between h) (by omega) ks
  · have hc' : before ++ after = before ++ ([] ++ after) := rfl
    exact compile_eq_compileAround hk hc' fun front c h => ⟨[], rfl, rfl⟩
  · intro bs bs' front back hfront hback
    have looped := (hfront.append (hl.blocked_loopText hi hs ks)).append hback
    have written := (hfront.append (hl.blocked_writtenOut hi ks)).append hback
    exact ⟨looped.trim.blocks_eq, written.trim.blocks_eq⟩

/-- Rules for a size, of which the first has another one inside it. -/
def sizeRules : List Node :=
  [.rule [".s-#\x7b$i\x7d"] [.declaration "w" (.literal "#\x7b$i\x7dpx"), .rule ["&:h"] []],
    .rule ["p", ".t-#\x7b$i\x7d"] []]

/-- The rules of the sizes are written out. -/
lemma exists_written_sizeRules :
    ∃ rules, Written sizeRules rules ∧
      rules = .rule ".s-#\x7b$i\x7d" (.declaration "w" "#\x7b$i\x7dpx" (.rule "&:h" .nil .nil))
        (.rule "p, .t-#\x7b$i\x7d" .nil .nil) := by
  refine ⟨_, .rule ⟨rfl, rfl, rfl, rfl, rfl⟩ (.declaration ⟨rfl, rfl, rfl, rfl, rfl⟩
    (.rule ⟨rfl, rfl, rfl, rfl, rfl⟩ .nil .nil)) (.rule ⟨rfl, rfl, rfl, rfl, rfl⟩ .nil .nil), ?_⟩
  decide +kernel

/-- A loop over two sizes has the blocks of two copies. -/
theorem unrolls_into_copies_sizes :
    ∃ looped written result, IsFrame result ∧
      Compiler.compile {} (.stylesheet [.assignment "g" (.literal "1"),
        .forLoop "i" (.literal "1") "to" (.literal "3") sizeRules, .rule ["q"] []]) =
        result looped ∧
      Compiler.compile {} (.stylesheet [.assignment "g" (.literal "1"),
        .rule [".s-1"] [.declaration "w" (.literal "1px"), .rule ["&:h"] []],
        .rule ["p", ".t-1"] [],
        .rule [".s-2"] [.declaration "w" (.literal "2px"), .rule ["&:h"] []],
        .rule ["p", ".t-2"] [], .rule ["q"] []]) = result written ∧
      blocks (trim looped) =
        [(".s-1", "\n\tw: 1px;\n"), ("p, .t-1", "\n"), (".s-1:h", "\n"),
          (".s-2", "\n\tw: 2px;\n"), ("p, .t-2", "\n"), (".s-2:h", "\n")] ∧
      blocks (trim written) =
        [(".s-1", "\n\tw: 1px;\n"), (".s-1:h", "\n"), ("p, .t-1", "\n"),
          (".s-2", "\n\tw: 2px;\n"), (".s-2:h", "\n"), ("p, .t-2", "\n")] := by
  obtain ⟨rules, hw, hr⟩ := exists_written_sizeRules
  have hl : (Node.forLoop "i" (.literal "1") "to" (.literal "3") sizeRules).IsRuleLoop
      (.reference "i") (.block sizeRules) 1 2 rules :=
    Node.isRuleLoop_forLoop (by decide +kernel) (show _ = some 3 by decide +kernel)
      (by decide +kernel) hw (by decide) (by decide +kernel) (by decide +kernel)
  have hn : ∀ node ∈ [Node.assignment "g" (.literal "1")],
      ¬node.DeclaresSomewhere (Variable.bareName (Node.reference "i").text) := by
    rintro node hm ⟨declaration, target, hd, hk, ht, -, he⟩
    obtain rfl := List.mem_singleton.1 hm
    obtain rfl | ⟨branch, hb, hd⟩ := hd.exists_branch
    · cases ht
      exact absurd he (by decide +kernel)
    · have hleaf : branch.children = [] ∧ branch.kind ≠ .variableDeclaration := by
        obtain rfl | rfl : branch = .reference "g" ∨ branch = .literal "1" := by
          simpa [Node.assignment, Node.branch] using hb
        · exact ⟨rfl, by decide⟩
        · exact ⟨rfl, by decide⟩
      obtain rfl | ⟨leaf, hl, -⟩ := hd.exists_branch
      · exact hleaf.2 hk
      · rw [hleaf.1] at hl
        cases hl
  have hc : (Node.stylesheet [.assignment "g" (.literal "1"),
      .forLoop "i" (.literal "1") "to" (.literal "3") sizeRules, .rule ["q"] []]).children =
      [.assignment "g" (.literal "1")] ++
        .forLoop "i" (.literal "1") "to" (.literal "3") sizeRules :: [.rule ["q"] []] := rfl
  obtain ⟨looped, written, result, hf, hlooped, hwritten, -, hblocks, -⟩ :=
    unrolls_into_copies {} rfl hc hl hn (ample_unbraced.over_of_isPlain rfl) (by decide)
      (by rw [hr]; decide)
  have hcopies : (Node.block sizeRules).copies
      (Variable.sigilName (Node.reference "i").text) (Render.integers 1 2) =
      [.rule [".s-1"] [.declaration "w" (.literal "1px"), .rule ["&:h"] []],
        .rule ["p", ".t-1"] [],
        .rule [".s-2"] [.declaration "w" (.literal "2px"), .rule ["&:h"] []],
        .rule ["p", ".t-2"] []] := by
    decide +kernel
  rw [hcopies] at hwritten
  have hb := hblocks [] [] "" "" .empty .empty
  rw [String.empty_append, String.append_empty, String.empty_append, String.append_empty, hr] at hb
  exact ⟨looped, written, result, hf, hlooped, hwritten, hb.1.trans (by decide +kernel),
    hb.2.trans (by decide +kernel)⟩

/-- Two rules, of which the first has another one inside it. -/
def nestsFirst : List Node := [.rule ["a"] [.rule ["b"] []], .rule ["c"] []]

/-- A loop with a single iteration gives the blocks of its body in another order. -/
theorem loop_moves_nested_rules_back :
    ∃ rules css css',
      (Node.forLoop "i" (.literal "1") "through" (.literal "1") nestsFirst).IsRuleLoop
        (.reference "i") (.block nestsFirst) 1 1 rules ∧
      compile {} (.stylesheet [.forLoop "i" (.literal "1") "through" (.literal "1") nestsFirst]) =
        (.ok css, {}) ∧
      compile {} (.stylesheet ((Node.block nestsFirst).copies "$i" (Render.integers 1 1))) =
        (.ok css', {}) ∧
      blocks css = [("a", "\n"), ("c", "\n"), ("a b", "\n")] ∧
      blocks css' = [("a", "\n"), ("a b", "\n"), ("c", "\n")] := by
  obtain ⟨rules, hw⟩ : ∃ rules, Written nestsFirst rules :=
    ⟨_, .rule ⟨rfl, rfl, rfl, rfl, rfl⟩ (.rule ⟨rfl, rfl, rfl, rfl, rfl⟩ .nil .nil)
      (.rule ⟨rfl, rfl, rfl, rfl, rfl⟩ .nil .nil)⟩
  refine ⟨rules, "a\x7b\n\x7d\n\nc\x7b\n\x7d\n\n\na b\x7b\n\x7d",
    "a\x7b\n\x7d\n\na b\x7b\n\x7d\n\nc\x7b\n\x7d", ?_, ?_, ?_, ?_, ?_⟩
  · exact Node.isRuleLoop_forLoop (by decide +kernel) (show _ = some 1 by decide +kernel)
      (by decide +kernel) hw (by decide) (by decide +kernel) (by decide +kernel)
  · decide +kernel
  · decide +kernel
  · decide +kernel
  · decide +kernel

end Compiler

end Stylesheet
