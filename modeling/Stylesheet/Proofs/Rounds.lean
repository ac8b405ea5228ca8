import Stylesheet.Proofs.LoopOrder
import Stylesheet.Proofs.Reading

/-!
# The rounds of a loop

What a loop of rules writes for an integer is what a loop over that integer alone writes, also where
the integer was put in the place of the placeholders before (`Compiler.loop_writes_its_rounds`). A
placeholder in a leaf of the tree reaches the text of the round whole, whatever selectors are
composed of it, and the text of the round is filled once more; so it does not matter which of the
placeholders were filled before.
-/

namespace Stylesheet

open Text

/-! ### Filling the leaves of a tree -/

/-- A tree with something else for the text of every leaf. -/
def Node.mapLeaves (f : String → String) (node : Node) : Node :=
  if node.children = [] then { node with text := f node.text }
  else { node with children := node.children.map (mapLeaves f) }
termination_by sizeOf node
decreasing_by exact sizeOf_lt_of_mem ‹_›

namespace Node

variable {f : String → String} {node : Node}

/-- A change of the leaves keeps the kind of a node. -/
@[simp] lemma kind_mapLeaves : (node.mapLeaves f).kind = node.kind := by
  rw [mapLeaves]
  split <;> rfl

/-- A change of the leaves is one of what is below a node. -/
@[simp] lemma children_mapLeaves :
    (node.mapLeaves f).children = node.children.map (mapLeaves f) := by
  rw [mapLeaves]
  split
  · next h => simp [h]
  · rfl

/-- The text of a node is another one only if it is a leaf. -/
lemma text_mapLeaves :
    (node.mapLeaves f).text = if node.children = [] then f node.text else node.text := by
  rw [mapLeaves]
  split <;> rfl

/-- Where a function leaves what it has given, the leaves may have been mapped before. -/
lemma mapTexts_mapLeaves {p : String → Bool} (hf : ∀ s, p s = true → f (f s) = f s)
    (h : node.allTexts p = true) : (node.mapLeaves f).mapTexts f = node.mapTexts f := by
  induction node using Node.childInduction with
  | step node ih =>
    have texts : f (node.mapLeaves f).text = f node.text := by
      rw [text_mapLeaves]
      split
      · exact hf _ (every_self h)
      · rfl
    have below : (node.mapLeaves f).children.map (mapTexts f) = node.children.map (mapTexts f) := by
      rw [children_mapLeaves, List.map_map]
      exact List.map_congr_left fun child hc => ih child hc (every_child h hc)
    have spans : (node.mapLeaves f).span = node.span := by
      rw [mapLeaves]
      split <;> rfl
    rw [mapTexts, mapTexts, texts, below, kind_mapLeaves, spans]

/-- What holds of all texts holds after a change of the leaves that keeps it. -/
lemma allTexts_mapLeaves {p : String → Bool} (hf : ∀ s, p s = true → p (f s) = true)
    (h : node.allTexts p = true) : (node.mapLeaves f).allTexts p = true := by
  induction node using Node.childInduction with
  | step node ih =>
    refine every_iff.2 ⟨?_, fun child hc => ?_⟩
    · rw [text_mapLeaves]
      split
      · exact hf _ (every_self h)
      · exact every_self h
    · rw [children_mapLeaves] at hc
      obtain ⟨child, hm, rfl⟩ := List.mem_map.1 hc
      exact ih child hm (every_child h hm)

end Node

/-- Other texts in the leaves leave the layout of a block. -/
lemma Written.exists_mapLeaves {nodes : List Node} {body : Body} (h : Written nodes body)
    (f : String → String) : ∃ body', Written (nodes.map (Node.mapLeaves f)) body' := by
  induction h with
  | nil => exact ⟨.nil, .nil⟩
  | @declaration node name value nodes rest hn _ ih =>
    obtain ⟨rest', hr⟩ := ih
    have hn' : (node.mapLeaves f).IsDeclaration (name.mapLeaves f) (value.mapLeaves f) := by
      constructor <;> simp [hn.kind, hn.name_at, hn.name_kind, hn.value_at, hn.value_kind]
    exact ⟨_, .declaration hn' hr⟩
  | @rule node group block nodes inner rest hn _ _ ihi ih =>
    obtain ⟨inner', hi⟩ := ihi
    obtain ⟨rest', hr⟩ := ih
    have hn' : (node.mapLeaves f).IsRule (group.mapLeaves f) (block.mapLeaves f) := by
      constructor <;> simp [hn.kind, hn.group_at, hn.group_kind, hn.block_at, hn.block_kind]
    exact ⟨_, .rule hn' (by rwa [Node.children_mapLeaves]) hr⟩

/-- Nodes write one block. -/
lemma Written.unique {nodes : List Node} {body body' : Body} (h : Written nodes body)
    (h' : Written nodes body') : body = body' := by
  induction h generalizing body' with
  | nil =>
    cases h'
    rfl
  | declaration hn _ ih =>
    cases h' with
    | declaration hn' hr =>
      obtain rfl := Option.some.inj (hn.name_at.symm.trans hn'.name_at)
      obtain rfl := Option.some.inj (hn.value_at.symm.trans hn'.value_at)
      rw [ih hr]
    | rule hn' => cases hn.kind.symm.trans hn'.kind
  | rule hn _ _ ihi ih =>
    cases h' with
    | declaration hn' => cases hn.kind.symm.trans hn'.kind
    | rule hn' hi hr =>
      obtain rfl := Option.some.inj (hn.group_at.symm.trans hn'.group_at)
      obtain rfl := Option.some.inj (hn.block_at.symm.trans hn'.block_at)
      rw [ihi hi, ih hr]

/-! ### Filling twice -/

namespace Text

variable {name value s : String} {word : List Char}

/-- A text that was filled has no placeholder left. -/
lemma interpolate_interpolate (hn : name.toList = '$' :: word) (hv : '$' ∉ value.toList)
    (hs : isSlotted name s = true) (other : String) :
    interpolate (interpolate s name value) name other = interpolate s name value :=
  (Alike.refl_of_not_mem (not_mem_interpolate hn hs (by simp) hv)).interpolate_eq hn

/-- A value without marks leaves the slots of a text as they are. -/
lemma isSlotted_interpolate (hn : name.toList = '$' :: word)
    (hv : ∀ c ∈ ['$', '\x7b', '\x7d'], c ∉ value.toList) (hs : isSlotted name s = true) :
    isSlotted name (interpolate s name value) = true := by
  rw [isSlotted, interpolate_interpolate hn (hv '$' (by simp)) hs, List.all_eq_true]
  intro c hc
  rw [decide_eq_true_eq]
  intro hm
  exact not_mem_interpolate hn hs hm (hv c hm) hc

/-- An integer is written without sigils and braces. -/
lemma not_mem_toString_int (k : Int) : ∀ c ∈ ['$', '\x7b', '\x7d'], c ∉ (toString k).toList := by
  intro c hc hk
  obtain rfl | hd := mem_toString_int hk
  · revert hc
    decide
  · simp only [List.mem_cons, List.not_mem_nil, or_false] at hc
    obtain rfl | rfl | rfl := hc <;> exact absurd hd (by decide)

end Text

/-! ### Integers as they are written -/

namespace Number

/-- The digits of a number are read back. -/
lemma digitsValue?_toDigits (n : Nat) : digitsValue? (Nat.toDigits 10 n) = some n := by
  obtain ⟨d, ds, hd, digits, -⟩ := Json.exists_toDigits_eq_cons n
  have all : Nat.toDigits 10 n ≠ [] ∧ (Nat.toDigits 10 n).all Char.isDigit = true := by
    rw [hd, List.all_eq_true]
    exact ⟨by simp, digits⟩
  rw [digitsValue?, if_pos all, Nat.ofDigitChars_ten_toDigits]

/-- A whole number is read back. -/
lemma signedValue?_toString (k : Int) : signedValue? (toString k).toList = some k := by
  cases k with
  | ofNat n =>
    have written : (toString (Int.ofNat n)).toList = Nat.toDigits 10 n := by
      change (toString n).toList = _
      rw [Nat.toString_eq_ofList_toDigits, String.toList_ofList]
    have unsigned {sign : Char} (hs : sign.isDigit = false) :
        ∀ cs, Nat.toDigits 10 n = sign :: cs → False := by
      intro cs hc
      have digit : sign.isDigit = true :=
        Nat.isDigit_of_mem_toDigits (n := n) (b := 10) (by decide) (by decide) (by simp [hc])
      rw [digit] at hs
      cases hs
    rw [written, signedValue?, digitsValue?_toDigits]
    · rfl
    · exact unsigned (by decide)
    · exact unsigned (by decide)
  | negSucc n =>
    have written : (toString (Int.negSucc n)).toList = '-' :: Nat.toDigits 10 (n + 1) := by
      change ("-" ++ toString (n + 1)).toList = _
      rw [Nat.toString_eq_ofList_toDigits]
      simp
    rw [written, signedValue?, digitsValue?_toDigits]
    rfl

/-- The decimal text of an integer in the range is read as that integer. -/
lemma integer?_toString {k : Int} (h : inRange k = true) : integer? (toString k) = some k := by
  rw [integer?, signedValue?_toString, Option.filter_some, if_pos h]

/-- A number that is read is in range. -/
lemma inRange_of_integer? {s : String} {k : Int} (h : integer? s = some k) : inRange k = true :=
  (Option.filter_eq_some_iff.1 h).2

/-- What is between two numbers in range is in range. -/
lemma inRange_between {a b k : Int} (ha : inRange a = true) (hb : inRange b = true) (hak : a ≤ k)
    (hkb : k ≤ b) : inRange k = true := by
  simp only [inRange, Bool.and_eq_true, decide_eq_true_eq] at ha hb ⊢
  omega

end Number

/-! ### The range of a loop -/

namespace Render

/-- The integers of a loop are those between its bounds. -/
lemma mem_integers {lower upper k : Int} :
    k ∈ integers lower upper ↔ lower ≤ k ∧ k ≤ upper := by
  simp only [integers, List.mem_map, List.mem_range]
  constructor
  · rintro ⟨i, hi, rfl⟩
    omega
  · rintro ⟨hl, hu⟩
    exact ⟨(k - lower).toNat, by omega, by omega⟩

/-- The last integer of a loop is its bound or the one before it, by the word in front of the
bound. -/
lemma lastValue_of_keyword {word : String} {bound upper : Int} (hb : Number.inRange bound = true)
    (h : word = "through" ∧ upper = bound ∨
      word = "to" ∧ -(Int.pow 2 63) < bound ∧ upper = bound - 1) :
    lastValue word bound = .ok upper := by
  obtain ⟨rfl, rfl⟩ | ⟨rfl, hl, rfl⟩ := h
  · rw [lastValue, if_pos rfl]
  · have fits : Number.inRange (bound - 1) = true := by
      simp only [Number.inRange, Bool.and_eq_true, decide_eq_true_eq] at hb ⊢
      omega
    rw [lastValue, if_neg (by decide), if_pos rfl, if_pos fits]

end Render

/-! ### Documents of one loop -/

/-- The loop over a single integer, with the integer in the place of the placeholders in the leaves
of its body. -/
def Node.round (counter body : Node) (k : Int) : Node :=
  .branch .forLoop [counter, .literal (toString k), .keyword "through", .literal (toString k),
    body.mapLeaves fun s => interpolate s (Variable.sigilName counter.text) (toString k)]

namespace Node.IsRuleLoop

variable {node counter body : Node} {lower upper : Int} {rules : Body}
  (h : node.IsRuleLoop counter body lower upper rules)
include h

/-- In a body whose leaves were filled, sigils and braces still stand only inside placeholders. -/
lemma slotted_mapLeaves (k : Int) :
    ∀ node ∈ body.children.map (mapLeaves fun s =>
        interpolate s (Variable.sigilName counter.text) (toString k)),
      node.allTexts (isSlotted (Variable.sigilName counter.text)) = true := by
  obtain ⟨word, hn⟩ := (fillable_int h.unmarked k).sigil
  rw [List.forall_mem_map]
  intro child hm
  exact allTexts_mapLeaves (fun s => isSlotted_interpolate hn (not_mem_toString_int k))
    (h.slotted child hm)

/-- A body whose leaves were filled writes rules of which the same copy is made. -/
lemma exists_written_mapLeaves (k : Int) :
    ∃ rules', Written (body.children.map (mapLeaves fun s =>
        interpolate s (Variable.sigilName counter.text) (toString k))) rules' ∧
      Body.Rel (Fills (Variable.sigilName counter.text) (toString k))
        (Fills (Variable.sigilName counter.text) (toString k)) rules'
        (rules.map fun s => interpolate s (Variable.sigilName counter.text) (toString k)) := by
  have hf := fillable_int h.unmarked k
  obtain ⟨word, hn⟩ := hf.sigil
  obtain ⟨rules', hw⟩ := h.written.exists_mapLeaves fun s =>
    interpolate s (Variable.sigilName counter.text) (toString k)
  refine ⟨rules', hw, ?_⟩
  obtain ⟨copy, hc, hr⟩ := hf.written_copy hw (h.slotted_mapLeaves k)
  -- The copy of the filled body is the copy of the body.
  have same : (body.children.map (mapLeaves fun s =>
      interpolate s (Variable.sigilName counter.text) (toString k))).map (mapTexts fun s =>
        interpolate s (Variable.sigilName counter.text) (toString k)) =
      body.children.map (mapTexts fun s =>
        interpolate s (Variable.sigilName counter.text) (toString k)) := by
    rw [List.map_map]
    refine List.map_congr_left fun child hm => ?_
    have hv := not_mem_toString_int k '$' (by simp)
    exact mapTexts_mapLeaves (fun s hs => interpolate_interpolate hn hv hs _) (h.slotted child hm)
  rw [same] at hc
  rwa [hc.unique (h.written_copy k).1] at hr

/-- Filling the text of a round makes no difference between a body and the one whose leaves were
filled. -/
lemma interpolate_rules_eq {k : Int} {rules' : Body} {indent : String}
    (hi : isSlotted (Variable.sigilName counter.text) indent = true)
    (hr : Body.Rel (Fills (Variable.sigilName counter.text) (toString k))
      (Fills (Variable.sigilName counter.text) (toString k)) rules'
      (rules.map fun s => interpolate s (Variable.sigilName counter.text) (toString k))) :
    interpolate (rules'.iterationText indent []) (Variable.sigilName counter.text) (toString k) =
      interpolate (rules.iterationText indent []) (Variable.sigilName counter.text)
        (toString k) := by
  have hf := fillable_int h.unmarked k
  obtain ⟨word, hn⟩ := hf.sigil
  have indents := alike_interpolate hn hi (toString k)
  rw [Body.interpolate_iterationText hf indents hr,
    Body.interpolate_iterationText hf indents (h.written_copy k).2]

/-- A round is a loop of rules as well. -/
lemma round {k : Int} {rules' : Body} (hk : Number.inRange k = true)
    (hb : body.kind = .block) (hc : counter.kind = .reference)
    (hw : Written (body.children.map (mapLeaves fun s =>
      interpolate s (Variable.sigilName counter.text) (toString k))) rules') :
    (Node.round counter body k).IsRuleLoop counter (body.mapLeaves fun s =>
      interpolate s (Variable.sigilName counter.text) (toString k)) k k rules' where
  counting := by
    have written : Number.integer? (trim (toString k)) = some k := by
      rw [trim_eq_self (solid_int k).head (solid_int k).last]
      exact Number.integer?_toString hk
    refine ⟨.literal (toString k), .keyword "through", .literal (toString k), k,
      ⟨rfl, rfl, hc, rfl, rfl, rfl, rfl, rfl, ?_⟩, rfl, written, rfl, written, ?_⟩
    · rw [kind_mapLeaves, hb]
    · have word : trim (Node.keyword "through").text = "through" := by decide +kernel
      rw [Render.lastValue, word, if_pos rfl]
  written := by rwa [children_mapLeaves]
  onlyRules child hm := by
    rw [children_mapLeaves] at hm
    obtain ⟨source, hs, rfl⟩ := List.mem_map.1 hm
    rw [kind_mapLeaves]
    exact h.onlyRules source hs
  slotted := by
    rw [children_mapLeaves]
    exact h.slotted_mapLeaves k
  unmarked := h.unmarked

end Node.IsRuleLoop

namespace Compiler

/-- A document that is one loop of rules. -/
lemma compile_of_ruleLoop (compiler : Compiler) {root loop counter body : Node}
    {lower upper : Int} {rules : Body} (h : loop.IsRuleLoop counter body lower upper rules)
    (hk : root.kind = .stylesheet) (hc : root.children = [loop])
    (hd : rules.nesting + 1 ≤ compiler.context.options.maxDepth.toNat) :
    (compiler.compile root).1 = .ok (trim (Render.loopFragment compiler.context.options.indent []
      rules (Variable.sigilName counter.text) (Render.integers lower upper))) := by
  have new : Variable.bareName counter.text ∉ compiler.context.reset.symbols.names := by
    simp [Context.reset, Registry.names]
  have run := Render.outermost_of_ruleLoop (c := compiler.context.reset) h
    ⟨rfl, rfl, rfl, rfl, rfl⟩ new hd
  generalize ht : Render.loopText _ _ rules _ = text at run
  have alone : [loop].mapM Render.outermost compiler.context.reset =
      .ok [text] compiler.context.reset := Render.mapM_cons_of_ok run rfl
  have rendered : Render.document root compiler.context.reset =
      .ok (trim text) compiler.context.reset := by
    simp only [Render.document, hk, hc, ne_eq, not_true_eq_false, if_false]
    refine (Render.bind_of_ok alone).trans ?_
    rw [Render.get_bind_apply, String.join_cons, String.join_nil, String.append_empty]
    rfl
  rw [compile, rendered, ← ht]
  refine congrArg Except.ok ?_
  change trim (Render.loopText compiler.context.options.indent _ rules _) = _
  unfold Render.loopText
  generalize Render.loopFragment _ _ _ _ _ = fragment
  by_cases he : fragment = ""
  · simp [he]
  · rw [List.filter_cons_of_pos (by simpa using he)]
    simp [trim_append blank_newlines, (trimmed_trim fragment).trim_eq]

/-- A document that is one round. -/
lemma compile_round (compiler : Compiler) {loop counter body : Node} {lower upper k : Int}
    {rules : Body} (h : loop.IsRuleLoop counter body lower upper rules)
    (hb : body.kind = .block) (hc : counter.kind = .reference) (hk : Number.inRange k = true)
    (hi : isSlotted (Variable.sigilName counter.text) compiler.context.options.indent = true)
    (hd : rules.nesting + 1 ≤ compiler.context.options.maxDepth.toNat) :
    (compiler.compile (.stylesheet [.round counter body k])).1 =
      .ok (trim (interpolate (rules.iterationText compiler.context.options.indent [])
        (Variable.sigilName counter.text) (toString k))) := by
  obtain ⟨rules', hw, hr⟩ := h.exists_written_mapLeaves k
  have nesting : rules'.nesting = rules.nesting :=
    hr.nesting.symm.trans (h.written_copy k).2.nesting
  have single : Render.integers k k = [k] := by simp [Render.integers]
  rw [compile_of_ruleLoop compiler (h.round hk hb hc hw) rfl rfl (by rwa [nesting]), single,
    Render.loopFragment, List.map_cons, List.map_nil, String.intercalate_singleton,
    (trimmed_trim _).trim_eq, h.interpolate_rules_eq hi hr]

/-- A loop of rules writes its rounds, one after the other with a line break between two: for each
integer from the first to the last what the loop over that integer alone writes, with the integer in
the place of the placeholders in the leaves beforehand. -/
theorem loop_writes_its_rounds (compiler : Compiler) {root loop counter first word last body : Node}
    {lower bound upper : Int} {rules : Body} (hk : root.kind = .stylesheet)
    (hc : root.children = [loop]) (hl : loop.IsCounting counter first word last body)
    (hf : first.kind = .literal ∧ Number.integer? (trim first.text) = some lower)
    (hb : last.kind = .literal ∧ Number.integer? (trim last.text) = some bound)
    (hw : trim word.text = "through" ∧ upper = bound ∨
      trim word.text = "to" ∧ -(Int.pow 2 63) < bound ∧ upper = bound - 1)
    (hr : Written body.children rules) (ho : ∀ child ∈ body.children, child.kind = .rule)
    (hs : ∀ child ∈ body.children,
      child.allTexts (isSlotted (Variable.sigilName counter.text)) = true)
    (hi : isSlotted (Variable.sigilName counter.text) compiler.context.options.indent = true)
    (hm : Selector.parentMark ∉ (Variable.bareName counter.text).toList)
    (hd : rules.nesting + 1 ≤ compiler.context.options.maxDepth.toNat) :
    ∃ text : Int → String,
      (∀ k ∈ Render.integers lower upper,
        (compiler.compile (.stylesheet [.round counter body k])).1 = .ok (text k)) ∧
      (compiler.compile root).1 =
        .ok (trim ("\n".intercalate ((Render.integers lower upper).map text))) := by
  have range := Number.inRange_of_integer? hb.2
  have loops : loop.IsRuleLoop counter body lower upper rules :=
    ⟨⟨first, word, last, bound, hl, hf.1, hf.2, hb.1, hb.2,
      Render.lastValue_of_keyword range hw⟩, hr, ho, hs, hm⟩
  refine ⟨fun k => trim (interpolate (rules.iterationText compiler.context.options.indent [])
    (Variable.sigilName counter.text) (toString k)), fun k hk => ?_, ?_⟩
  · obtain ⟨hlk, hku⟩ := Render.mem_integers.1 hk
    have hkr : Number.inRange k = true :=
      Number.inRange_between (Number.inRange_of_integer? hf.2) range hlk (by omega)
    exact compile_round compiler loops hl.body_kind hl.counter_kind hkr hi hd
  · exact compile_of_ruleLoop compiler loops hk hc hd

/-- Rules for a step, with placeholders in selectors, below a parent mark and in a value. -/
def stepRules : List Node :=
  [.rule [".s-#\x7b$i\x7d", "p"] [.declaration "w" (.literal "#\x7b$i\x7dpx"),
    .rule ["&:nth(#\x7b$i\x7d)"] []], .rule ["q"] []]

/-- A compiler with a placeholder in its indent, which allows no deeper nesting than these rules in
a loop have. -/
def stepCompiler : Compiler := .new { indent := "#\x7b$i\x7d ", maxDepth := 3 } none

/-- A loop of two rounds writes what they write on their own. -/
theorem loop_writes_its_rounds_steps :
    ∃ text : Int → String,
      (∀ k ∈ Render.integers 1 2,
        (stepCompiler.compile (.stylesheet
          [.round (.reference "i") (.block stepRules) k])).1 = .ok (text k)) ∧
      (stepCompiler.compile (.stylesheet
        [.forLoop "i" (.literal "1") "to" (.literal "3") stepRules])).1 =
          .ok (trim ("\n".intercalate ((Render.integers 1 2).map text))) := by
  obtain ⟨rules, hw, hr⟩ : ∃ rules, Written stepRules rules ∧ rules =
      .rule ".s-#\x7b$i\x7d, p" (.declaration "w" "#\x7b$i\x7dpx"
        (.rule "&:nth(#\x7b$i\x7d)" .nil .nil)) (.rule "q" .nil .nil) := by
    refine ⟨_, .rule ⟨rfl, rfl, rfl, rfl, rfl⟩ (.declaration ⟨rfl, rfl, rfl, rfl, rfl⟩
      (.rule ⟨rfl, rfl, rfl, rfl, rfl⟩ .nil .nil)) (.rule ⟨rfl, rfl, rfl, rfl, rfl⟩ .nil .nil), ?_⟩
    decide +kernel
  exact loop_writes_its_rounds stepCompiler rfl rfl ⟨rfl, rfl, rfl, rfl, rfl, rfl, rfl, rfl, rfl⟩
    ⟨rfl, by decide +kernel⟩ ⟨rfl, show _ = some 3 by decide +kernel⟩
    (.inr ⟨by decide +kernel, by decide, rfl⟩) hw (by decide) (by decide +kernel)
    (by decide +kernel) (by decide +kernel) (by rw [hr]; decide)

end Compiler

end Stylesheet
