import Stylesheet.Proofs.Backing
import Stylesheet.Proofs.Chronicle

/-!
# Documents whose references are backed

A document without loops only adds names to the symbol table, so a text that is backed by the names
that are declared when it is written stays backed. If the texts in the tree start no references, and
no statement puts one together from parts, then the whole text of the document is backed by the
names that are declared in the end (`backed_of_document`).
-/

namespace Stylesheet

open Text

/-- The reference to a variable names it as its declaration does, with a proper name. -/
structure Variable.IsPlain (reference : String) : Prop where
  stable : Variable.bareName (Variable.bareName reference) = Variable.bareName reference
  proper : IsProper (Variable.bareName reference)

/-- The text of a node starts no reference, the name in it has neither parentheses that close nor
commas and is what a declaration of it would declare, and a call does not start like a reference. -/
def Node.isTame (node : Node) : Bool :=
  !decide (HasOpening node.text) &&
    (node.kind != .reference ||
      (Variable.bareName (Variable.bareName node.text) == Variable.bareName node.text &&
        (Variable.bareName node.text).toList.all fun c => c != ')' && c != ',')) &&
    (node.kind != .call ||
      match node.name with
      | .ok name => !decide (EndsOpen (Text.trim name ++ "("))
      | .error _ => true)

/-- The lines and the rules. -/
def Fragments.texts (fragments : Fragments) : List String := fragments.direct ++ fragments.deferred

/-- The default values. -/
def Parameters.defaultValues : Parameters → List String
  | fixed _ defaults => defaults.entries.map Prod.snd
  | variadic _ => []

/-- The texts in the mixins: their default values, lines and rules. -/
def MixinTable.texts (mixins : MixinTable) : List String :=
  mixins.entries.flatMap fun e => e.2.parameters.defaultValues ++ e.2.body.texts

namespace Render

/-- The texts that are captured of a mixin. -/
def captured? (node : Node) (c : Context) : Option Fragments :=
  match node.body with
  | .ok block => (captureBlock c.mixins c.options.indent .body block.1).toOption
  | .error _ => none

/-- The texts that an inclusion has at hand, which are the values that it binds and those of its
mixin, and the texts that it gives. -/
def expansion? (node : Node) (c : Context) : Option (List String × Fragments) :=
  match node.name, node.arguments.mapM (value .fold) c with
  | .ok name, .ok args _ =>
    match c.mixins.get? name with
    | some m =>
      match m.bind name args with
      | .ok bindings =>
        some (bindings.map Prod.snd ++ m.body.texts, m.body.map (Mixin.substituteAll bindings))
      | .error _ => none
    | none => none
  | _, _ => none

/-- A statement puts no reference together from parts: neither does a rule in its selector, nor a
declaration where its indentation meets its property. What a mixin captures cites the mixins that
are declared before it, and what an inclusion writes cites the values of the parameters and the
mixin. No line of an inclusion ends inside the start of a reference. -/
def Stop.isPlain (s : Stop) : Bool :=
  match s.node.kind with
  | .rule =>
    s.node.children[0]?.all fun group =>
      !decide (HasOpening (Selector.compose s.context.chain group.selectorText))
  | .declaration =>
    match s.node.name with
    | .ok property => !decide (HasOpening (s.context.options.indent ++ property))
    | .error _ => true
  | .mixinDeclaration =>
    (captured? s.node s.context).all fun body =>
      body.texts.all fun text => decide (Cites s.context.mixins.texts text)
  | .includeDeclaration =>
    (expansion? s.node s.context.descend).all fun (texts, fragments) =>
      (fragments.direct.all fun line =>
        decide (Cites texts (s.context.options.indent ++ line)) &&
          !decide (EndsOpen (s.context.options.indent ++ line))) &&
      fragments.deferred.all fun rule =>
        decide (Cites texts (Selector.place s.context.chain rule))
  | _ => true

end Render

/-- A text is backed by the names that are declared. -/
def Context.Backs (c : Context) : String → Prop := Backed (· ∈ c.symbols.names)

/-- All texts in the state are backed by the names that are declared, and no loop binds a name. -/
structure Context.Woven (opts : Options) (c : Context) : Prop where
  options : c.options = opts
  bound : c.bound = []
  proper : ∀ name ∈ c.symbols.names, IsProper name
  symbols : ∀ e ∈ c.symbols.entries, e.2.value.Within c.Backs
  mixins : ∀ text ∈ c.mixins.texts, c.Backs text
  queue : ∀ fragment ∈ c.queue, c.Backs fragment

/-! ### Texts in the tree -/

/-- A text that starts no reference is one that is backed without names. -/
lemma Text.backed_false_iff {text : String} : Backed (fun _ => False) text ↔ ¬HasOpening text := by
  constructor
  · rintro h ⟨before, after, hs⟩
    obtain ⟨_, hf, -⟩ := h before after (by rw [← hs, List.append_assoc])
    exact hf
  · exact .of_not_hasOpening

/-- The name in a reference starts no other one if the text does not. -/
lemma Variable.not_hasOpening_bareName {reference : String} (h : ¬HasOpening reference) :
    ¬HasOpening (bareName reference) := by
  have ht := (backed_false_iff.2 h).trim
  refine backed_false_iff.1 (ht.part ((trimChars reference.toList).takeWhile (· == '$')) []
    ?_ fun _ _ hf => hf.elim)
  rw [toList_trim, List.append_nil, List.takeWhile_append_dropWhile]

namespace Node

variable {node : Node}

/-- The text of a tame node starts no reference. -/
lemma not_hasOpening_of_isTame (h : node.isTame = true) : ¬HasOpening node.text := by
  simp only [isTame, Bool.and_eq_true, Bool.not_eq_true', decide_eq_false_iff_not] at h
  exact h.1.1

/-- A tame reference has a proper name. -/
lemma isPlain_of_isTame (h : node.isTame = true) (hk : node.kind = .reference) :
    Variable.IsPlain node.text := by
  have ho := not_hasOpening_of_isTame h
  simp only [isTame, hk, bne_self_eq_false, Bool.false_or, Bool.and_eq_true, beq_iff_eq,
    List.all_eq_true, bne_iff_ne] at h
  obtain ⟨⟨-, hstable, hname⟩, -⟩ := h
  exact ⟨hstable, fun hm => (hname _ hm).1 rfl, fun hm => (hname _ hm).2 rfl,
    Variable.not_hasOpening_bareName ho⟩

/-- The name of a tame call and its parenthesis start no reference, with whatever follows. -/
lemma sealed_of_isTame {names : String → Prop} {name : String} (h : node.every isTame = true)
    (hk : node.kind = .call) (hn : node.name = .ok name) :
    Sealed names (Text.trim name ++ "(") := by
  obtain ⟨identifier, hm, rfl⟩ := exists_of_name hn
  have hname := backed_false_iff.2 (not_hasOpening_of_isTame (every_self (every_child h hm)))
  refine ⟨.of_not_hasOpening fun ho => ?_, ?_⟩
  · rw [HasOpening, String.toList_append] at ho
    obtain ho | ho := List.infix_concat_iff.1 ho
    · obtain ⟨before, hb⟩ := ho
      have hlast := congrArg List.getLast? hb
      rw [List.getLast?_concat, List.getLast?_append_of_ne_nil _ (by decide)] at hlast
      exact absurd hlast (by decide)
    · exact backed_false_iff.1 hname.trim.trim ho
  · have ht := every_self h
    simp only [isTame, hk, bne_self_eq_false, Bool.false_or, hn, Bool.and_eq_true,
      Bool.not_eq_true', decide_eq_false_iff_not] at ht
    exact ht.2

/-- A tree of tame nodes is of the sorts that values need. -/
lemma within_of_isTame {names : String → Prop} (h : node.every isTame = true) :
    node.Within (Backed names) Variable.IsPlain
      fun name => Sealed names (Text.trim name ++ "(") := by
  induction node using childInduction with
  | step node ih =>
    have ht := every_self h
    exact .intro (.of_not_hasOpening (not_hasOpening_of_isTame ht)) (isPlain_of_isTame ht)
      (fun hk name hn => sealed_of_isTame h hk hn) fun child hc => ih child hc (every_child h hc)

end Node

/-! ### The state -/

/-- A name is declared if it was before, or if it is the one that is declared now. -/
lemma SymbolTable.mem_names_declare {table : SymbolTable} {name other : String} {v : Variable} :
    other ∈ (table.declare name v).names ↔ other ∈ table.names ∨ other = name := by
  rw [declare, Registry.names_insert]
  split
  · next hm =>
    refine ⟨.inl, ?_⟩
    rintro (ho | rfl)
    · exact ho
    · exact hm
  · rw [List.mem_append, List.mem_singleton]

/-- The sort of parameters of which nothing is asked but their default values. -/
lemma Parameters.sorted_true_iff {T : String → Prop} {ps : Parameters} :
    ps.Sorted (fun _ => True) T ↔ ∀ text ∈ ps.defaultValues, T text := by
  cases ps with
  | fixed names defaults =>
    rw [Sorted, defaultValues, List.forall_mem_map]
    exact ⟨And.right, fun h => ⟨fun _ _ => trivial, h⟩⟩
  | variadic name => simp [Sorted, defaultValues]

namespace MixinTable

variable {mixins : MixinTable} {name text : String} {m : Mixin}

/-- A mixin that is found has its texts in the table. -/
lemma mem_texts_of_get? (h : mixins.get? name = some m)
    (ht : text ∈ m.parameters.defaultValues ++ m.body.texts) : text ∈ mixins.texts :=
  List.mem_flatMap.2 ⟨_, Registry.mem_of_get? h, ht⟩

/-- One more mixin only adds its own texts. -/
lemma mem_texts_insert (h : text ∈ texts (mixins.insert name m)) :
    text ∈ m.parameters.defaultValues ++ m.body.texts ∨ text ∈ mixins.texts := by
  obtain ⟨e, he, ht⟩ := List.mem_flatMap.1 h
  obtain rfl | he := Registry.mem_insert he
  · exact .inl ht
  · exact .inr (List.mem_flatMap.2 ⟨e, he, ht⟩)

end MixinTable

namespace Context.Woven

variable {opts : Options} {c c' : Context} {text : String}

/-- What is in scope is of the sorts that values need. -/
lemma within (h : c.Woven opts) : c.Within c.Backs Variable.IsPlain where
  symbols := h.symbols
  property text v ht hv := by
    rw [SymbolTable.lookup, ht.stable] at hv
    exact .property (List.mem_map_of_mem (Registry.mem_of_get? hv)) ht.proper
  bound text _ hb := by
    rw [h.bound] at hb
    cases hb

/-- One level deeper the state is the same. -/
lemma descend (h : c.Woven opts) : c.descend.Woven opts :=
  ⟨h.options, h.bound, h.proper, h.symbols, h.mixins, h.queue⟩

/-- Values are backed. -/
lemma wording (h : c.Woven opts) :
    Wording c.Backs fun name => Sealed (· ∈ c.symbols.names) (Text.trim name ++ "(") :=
  wording_backed h.proper

/-- More texts wait, which are backed as well. -/
lemma enqueue (h : c.Woven opts) (fragments : List String)
    (hf : ∀ fragment ∈ fragments, c.Backs fragment) :
    Context.Woven opts { c with queue := c.queue ++ fragments } :=
  { h with queue := List.forall_mem_append.2 ⟨h.queue, hf⟩ }

/-- One more mixin is declared. -/
lemma define (name : String) {m : Mixin} (h : c.Woven opts)
    (hm : ∀ text ∈ m.parameters.defaultValues ++ m.body.texts, c.Backs text) :
    Context.Woven opts { c with mixins := c.mixins.insert name m } :=
  { h with
    mixins := fun text ht =>
      (MixinTable.mem_texts_insert ht).elim (hm text) (h.mixins text) }

/-- What cites texts that are backed is backed. -/
lemma of_cites {texts : List String} (h : c.Woven opts) (ht : ∀ text ∈ texts, c.Backs text)
    (hc : Cites texts text) : c.Backs text :=
  .of_cites (fun name hn => (h.proper name hn).parenthesis) ht hc

/-- One more name is declared, or one again. -/
lemma declare {name : String} {v : Variable} (h : c.Woven opts) (hn : IsProper name)
    (hv : v.value.Within c.Backs) :
    Context.Woven opts { c with symbols := c.symbols.declare name v } ∧
      ∀ other ∈ c.symbols.names, other ∈ (c.symbols.declare name v).names := by
  have hgrow : ∀ other ∈ c.symbols.names, other ∈ (c.symbols.declare name v).names :=
    fun other ho => SymbolTable.mem_names_declare.2 (.inl ho)
  have hmore (text : String) (ht : c.Backs text) :
      Backed (· ∈ (c.symbols.declare name v).names) text := ht.mono hgrow
  refine ⟨⟨h.options, h.bound, ?_, ?_, ?_, ?_⟩, hgrow⟩
  · intro other ho
    obtain ho | rfl := SymbolTable.mem_names_declare.1 ho
    · exact h.proper other ho
    · exact hn
  · intro e he
    obtain rfl | he := Registry.mem_insert he
    · exact hv.mono hmore
    · exact (h.symbols e he).mono hmore
  · exact fun text ht => hmore _ (h.mixins text ht)
  · exact fun fragment hf => hmore _ (h.queue fragment hf)

end Context.Woven

/-! ### Runs -/

namespace Render

/-- Stops that put no reference together leave the state woven and give a text that is backed by the
names that are declared then. -/
structure Weaves (opts : Options) (above : List Node) (ss : List Stop) (c : Context) (text : String)
    (c' : Context) : Prop where
  ancestors : c'.ancestors = c.ancestors
  woven : (∀ s ∈ ss, s.isPlain = true ∧ s.node.every Node.isTame = true) → c.Woven opts →
    c'.Woven opts ∧ (∀ name ∈ c.symbols.names, name ∈ c'.symbols.names) ∧
      Sealed (· ∈ c'.symbols.names) text

variable {opts : Options} {above : List Node} {ss : List Stop} {node body : Node}
  {c m c' : Context} {text : String}

/-- A line of a block, whose property does not meet its indentation, is sealed. -/
lemma sealed_line {names : String → Prop} {indent line : String}
    (hl : Backed names (indent ++ line)) (he : ¬EndsOpen (indent ++ line)) :
    Sealed names ("\n" ++ indent ++ line) := by
  have hbreak : Sealed names "\n" := .of_isClosing (by decide)
  rw [String.append_assoc]
  exact hbreak.append ⟨hl, he⟩

/-- A declaration gives a line that is sealed. -/
lemma weaves_declaration (hk : node.kind = .declaration)
    (h : declaration node c.descend = .ok text c.descend) :
    Weaves opts above [⟨above, c, node⟩] c text c := by
  obtain ⟨property, item, v, hname, hi, hv, rfl⟩ := exists_of_declaration h
  refine ⟨rfl, fun hs hc => ⟨hc, fun _ => id, ?_⟩⟩
  obtain ⟨hp, ht⟩ := List.forall_mem_singleton.1 hs
  have hitem := Node.every_child ht (List.mem_of_getElem? hi)
  have hvalue : c.Backs v :=
    (hc.descend.wording.yields_value .emit (Node.within_of_isTame hitem) hc.descend.within hv).2
  have hprop : ¬HasOpening (c.options.indent ++ property) := by
    simpa [Stop.isPlain, hk, hname] using hp
  have hline : Sealed (· ∈ c.symbols.names)
      (c.options.indent ++ property ++ ": " ++ v ++ ";") := by
    have hlabel : Sealed (· ∈ c.symbols.names) (c.options.indent ++ property ++ ": ") :=
      (Backed.of_not_hasOpening hprop).closed (by decide)
    exact (hlabel.append_backed hvalue).closed (by decide)
  have hassoc : c.options.indent ++ (property ++ ": " ++ v ++ ";") =
      c.options.indent ++ property ++ ": " ++ v ++ ";" := by
    simp only [String.append_assoc]
  simp only [Fragments.indented, List.map_cons, List.map_nil, String.join_cons, String.join_nil,
    String.append_empty]
  exact sealed_line (hassoc ▸ hline.backed) (hassoc ▸ hline.closed)

/-- A declaration of a variable gives it a value that is backed. -/
lemma weaves_declare {target item : Node} {v : Value} {temporary : Bool}
    (htarget : node.children[0]? = some target) (htk : target.kind = .reference)
    (hi : node.children[1]? = some item) (hv : declaredValue item c.descend = .ok v c.descend) :
    Weaves opts above [⟨above, c, node⟩] c "" { c with
      symbols := c.symbols.declare (Variable.bareName target.text) ⟨v, temporary⟩ } := by
  refine ⟨rfl, fun hs hc => ?_⟩
  obtain ⟨-, ht⟩ := List.forall_mem_singleton.1 hs
  have hitem := Node.every_child ht (List.mem_of_getElem? hi)
  have hname := Node.isPlain_of_isTame
    (Node.every_self (Node.every_child ht (List.mem_of_getElem? htarget))) htk
  have hvalue : v.Within c.Backs :=
    (hc.descend.wording.yields_declaredValue (Node.within_of_isTame hitem) hc.descend.within hv).2
  obtain ⟨hw, hgrow⟩ := hc.declare (v := ⟨v, temporary⟩) hname.proper hvalue
  exact ⟨hw, hgrow, .empty⟩

/-- A mixin that is declared has default values that are backed, and lines and rules that cite
others that are. -/
lemma weaves_define (hk : node.kind = .mixinDeclaration)
    (h : declareMixin node c.descend = .ok ⟨⟩ m) :
    Weaves opts above [⟨above, c, node⟩] c "" m.ascend := by
  obtain ⟨name, block, mixin, -, hblock, hcapture, htakes, rfl⟩ := exists_of_declareMixin h
  refine ⟨rfl, fun hs hc => ?_⟩
  obtain ⟨hp, ht⟩ := List.forall_mem_singleton.1 hs
  have hdefaults : ∀ text ∈ mixin.parameters.defaultValues, c.Backs text := by
    refine Parameters.sorted_true_iff.1 ?_
    refine htakes.sorted (fun _ _ => trivial) fun params names defaults hp hd => ?_
    have hparams := Node.every_child ht (Node.mem_of_find?_eq_some hp)
    exact (hc.descend.wording.yields_parameters name (Node.within_of_isTame hparams)
      hc.descend.within hd).2.2
  have hbody : ∀ text ∈ mixin.body.texts, c.Backs text := by
    have hcaptured : captured? node c = some mixin.body := by
      have hcapture : captureBlock c.mixins c.options.indent .body block.1 = .ok mixin.body :=
        hcapture
      simp only [captured?, hblock, hcapture, Except.toOption]
    simp only [Stop.isPlain, hk, hcaptured, Option.all_some, List.all_eq_true,
      decide_eq_true_eq] at hp
    exact fun text hm => hc.of_cites hc.mixins (hp text hm)
  have hdefined := hc.define name (List.forall_mem_append.2 ⟨hdefaults, hbody⟩)
  exact ⟨{ hdefined with }, fun _ => id, .empty⟩

/-- What an inclusion writes is backed, as it cites the values of its parameters and its mixin. -/
lemma weaves_inclusion (hk : node.kind = .includeDeclaration)
    (h : includeMixin node c.descend = .ok text m) :
    Weaves opts above [⟨above, c, node⟩] c text m.ascend := by
  obtain ⟨args, fragments, hargs, he, rfl, rfl⟩ := exists_of_includeMixin h
  refine ⟨rfl, fun hs hc => ?_⟩
  obtain ⟨hp, ht⟩ := List.forall_mem_singleton.1 hs
  obtain ⟨name, mixin, bindings, hname, hget, hbind, rfl⟩ := exists_of_expandMixin he
  have harg : ∀ arg ∈ args, c.Backs arg := by
    refine (yields_mapM (R := c.Backs) fun arg ha => ?_) hc.descend.within hargs |>.2
    obtain ⟨holder, hholder, ha⟩ := Node.mem_children_of_mem_arguments ha
    exact hc.descend.wording.yields_value .fold
      (Node.within_of_isTame (Node.every_child (Node.every_child ht hholder) ha))
  have hmixin : ∀ text ∈ mixin.parameters.defaultValues ++ mixin.body.texts, c.Backs text :=
    fun text ht => hc.mixins text (MixinTable.mem_texts_of_get? hget ht)
  rw [List.forall_mem_append] at hmixin
  have hvalues : ∀ v ∈ bindings.map Prod.snd, c.Backs v := by
    intro v hv
    obtain ⟨b, hb, rfl⟩ := List.mem_map.1 hv
    exact (Mixin.forall_of_bind (Parameters.sorted_true_iff.2 hmixin.1) harg
      (.intercalate (by decide) harg) hbind b hb).2
  have htexts := List.forall_mem_append.2 ⟨hvalues, hmixin.2⟩
  have hexpansion : expansion? node c.descend = some (bindings.map Prod.snd ++ mixin.body.texts,
      mixin.body.map (Mixin.substituteAll bindings)) := by
    have hget : c.descend.mixins.get? name = some mixin := hget
    simp only [expansion?, hname, hargs, hget, hbind]
  simp only [Stop.isPlain, hk, hexpansion, Option.all_some, Bool.and_eq_true, List.all_eq_true,
    decide_eq_true_eq, Bool.not_eq_true', decide_eq_false_iff_not] at hp
  obtain ⟨hdirect, hdeferred⟩ := hp
  have hwoven := hc.enqueue ((mixin.body.map (Mixin.substituteAll bindings)).deferred.map
    (Selector.place c.chain · ++ "\n\n")) fun fragment hf => by
      obtain ⟨rule, hr, rfl⟩ := List.mem_map.1 hf
      exact (Backed.closed (hc.of_cites htexts (hdeferred rule hr)) (by decide)).backed
  refine ⟨{ hwoven with }, fun _ => id, .join fun t ht => ?_⟩
  obtain ⟨line, hl, rfl⟩ := List.mem_map.1 ht
  obtain ⟨hcites, hend⟩ := hdirect line hl
  exact sealed_line (hc.of_cites htexts hcites) hend

/-- A rule with a backed selector and a backed body is sealed, if it is written with the blank line
after it. -/
lemma sealed_block {names : String → Prop} {selector lines : String} (hs : Backed names selector)
    (hl : Sealed names lines) : Sealed names (Selector.block selector lines ++ "\n\n") := by
  have hopen : Sealed names (selector ++ "\x7b") := hs.closed (by decide)
  have hblock : Sealed names (Selector.block selector lines) :=
    (hopen.append_backed hl.backed).closed (by decide)
  exact hblock.backed.closed (by decide)

/-- A rule gives its text, or makes it wait. -/
lemma weaves_rule {group : Node} (hr : node.IsRule group body)
    (h : Weaves opts (body :: node :: above) ss (c.descend.openRule group.selectorText) text m) :
    Weaves opts above (⟨above, c, node⟩ :: ss) c (deliver group.selectorText text m.closeRule).1
      (deliver group.selectorText text m.closeRule).2.ascend := by
  have hancestors : m.closeRule.ancestors = c.ancestors := by
    rw [Context.closeRule, h.ancestors]
    exact List.dropLast_concat
  have hwoven (hs : ∀ s ∈ ⟨above, c, node⟩ :: ss, s.isPlain = true ∧
      s.node.every Node.isTame = true) (hc : c.Woven opts) : m.closeRule.Woven opts ∧
      (∀ name ∈ c.symbols.names, name ∈ m.symbols.names) ∧
      Sealed (· ∈ m.symbols.names)
        (Selector.block (Selector.compose m.closeRule.chain group.selectorText) text ++
          "\n\n") := by
    rw [List.forall_mem_cons] at hs
    have hopen : (c.descend.openRule group.selectorText).Woven opts := { hc with }
    obtain ⟨hm, hgrow, htext⟩ := h.woven hs.2 hopen
    have hselector : ¬HasOpening (Selector.compose m.closeRule.chain group.selectorText) := by
      have hplain := hs.1.1
      simp only [Stop.isPlain, hr.kind, hr.group_at, Option.all_some, Bool.not_eq_true',
        decide_eq_false_iff_not] at hplain
      rwa [Context.chain, hancestors]
    exact ⟨{ hm with }, hgrow, sealed_block (.of_not_hasOpening hselector) htext⟩
  obtain ⟨-, hd⟩ | ⟨-, hd⟩ := deliver_cases group.selectorText text m.closeRule
  · rw [hd]
    refine ⟨hancestors, fun hs hc => ?_⟩
    obtain ⟨hm, hgrow, htext⟩ := hwoven hs hc
    exact ⟨{ hm with }, hgrow, htext⟩
  · rw [hd]
    refine ⟨hancestors, fun hs hc => ?_⟩
    obtain ⟨hm, hgrow, htext⟩ := hwoven hs hc
    exact ⟨{ hm.enqueue _ (List.forall_mem_singleton.2 htext.backed) with }, hgrow, .empty⟩

/-- What waited follows the text of a statement of the document. -/
lemma Weaves.flush (h : Weaves opts above ss c text m) :
    Weaves opts above ss c
      (text ++ String.join (m.flush.1.map fun fragment => Text.trim fragment ++ "\n\n"))
      m.flush.2 := by
  unfold Context.flush
  split
  · simpa using h
  · refine ⟨h.ancestors, fun hs hc => ?_⟩
    obtain ⟨hm, hgrow, htext⟩ := h.woven hs hc
    refine ⟨{ hm with queue := by simp }, hgrow, htext.append (.join fun t ht => ?_)⟩
    obtain ⟨fragment, hf, rfl⟩ := List.mem_map.1 ht
    exact (hm.queue fragment hf).trim.closed (by decide)

/-- The text of a document and its state are woven by its stops. -/
lemma chronicle_weaves : Chronicle (Weaves opts) where
  nil := ⟨rfl, fun _ hc => ⟨hc, fun _ => id, .empty⟩⟩
  append ha hb := by
    refine ⟨hb.ancestors.trans ha.ancestors, fun hs hc => ?_⟩
    rw [List.forall_mem_append] at hs
    obtain ⟨hm, hgrow, hta⟩ := ha.woven hs.1 hc
    obtain ⟨hc', hgrow', htb⟩ := hb.woven hs.2 hm
    exact ⟨hc', fun name hn => hgrow' name (hgrow name hn), (hta.mono hgrow').append htb⟩
  declaration hk h := weaves_declaration hk h
  declare _ ht htk hi hv := weaves_declare ht htk hi hv
  define hk h := weaves_define hk h
  inclusion hk h := weaves_inclusion hk h
  rule hr h := weaves_rule hr h
  branch _ _ h := ⟨h.ancestors, h.woven⟩
  conditional hk h := by
    refine ⟨h.ancestors, fun hs hc => ?_⟩
    rw [List.forall_mem_cons] at hs
    obtain ⟨hm, hgrow, ht⟩ := h.woven hs.2 hc.descend
    exact ⟨{ hm with }, hgrow, ht⟩
  flush h := h.flush

/-- The block of the custom properties is backed as well. -/
lemma backed_withProperties (hc : c.Woven opts) (hi : ¬HasOpening (opts.indent ++ "--"))
    (hr : ¬HasOpening opts.rootSelector) (ht : c.Backs text) :
    c.Backs (withProperties c text) := by
  unfold withProperties
  split
  · exact ht.trim
  · rw [hc.options]
    have hlines : Sealed (· ∈ c.symbols.names) (Fragments.indented opts.indent
        (c.symbols.properties.map fun p => "--" ++ p.1 ++ ": " ++ p.2 ++ ";")) := by
      refine .join fun t ht => ?_
      obtain ⟨line, hl, rfl⟩ := List.mem_map.1 ht
      obtain ⟨⟨name, text⟩, hp, rfl⟩ := List.mem_map.1 hl
      have he := SymbolTable.mem_properties_iff.1 hp
      have hname := (hc.proper name (List.mem_map_of_mem he)).opening
      have hdashes : Sealed (· ∈ c.symbols.names) ("\n" ++ opts.indent ++ "--") := by
        have hshuts : Shuts "--" := by decide
        exact sealed_line (.of_not_hasOpening hi) hshuts.not_endsOpen
      have hlabel : Sealed (· ∈ c.symbols.names) ("\n" ++ opts.indent ++ "--" ++ name ++ ": ") :=
        (hdashes.append_backed (.of_not_hasOpening hname)).closed (by decide)
      have hline : Sealed (· ∈ c.symbols.names)
          ("\n" ++ opts.indent ++ "--" ++ name ++ ": " ++ text ++ ";") :=
        (hlabel.append_backed (hc.symbols _ he)).closed (by decide)
      simpa only [String.append_assoc] using hline
    exact ((sealed_block (.of_not_hasOpening hr) hlines).append_backed ht).trim

/-- The text of a document without loops is backed by the names that are declared in the end, if its
texts start no references and no statement that is run puts one together. -/
theorem backed_of_document {root : Node} {start : Context} {css : String}
    (hl : root.isLoopless = true) (ht : root.every Node.isTame = true)
    (hp : ∀ s ∈ stops root start, s.isPlain = true) (hi : ¬HasOpening (opts.indent ++ "--"))
    (hr : ¬HasOpening opts.rootSelector) (hs : start.Woven opts)
    (h : document root start = .ok css c') : c'.Woven opts ∧ c'.Backs css := by
  obtain ⟨text, hweaves, rfl⟩ := chronicle_weaves.document hl h
  have hall : ∀ s ∈ stops root start, s.isPlain = true ∧ s.node.every Node.isTame = true := by
    intro s hm
    refine ⟨hp s hm, ?_⟩
    obtain ⟨turn, hturn, hm⟩ := List.mem_flatMap.1 hm
    exact every_of_mem_stopsAt (Node.every_child ht (mem_of_mem_turns hturn)) hm
  obtain ⟨hc', -, htext⟩ := hweaves.woven hall hs
  exact ⟨hc', backed_withProperties hc' hi hr htext.backed⟩

end Render

end Stylesheet
