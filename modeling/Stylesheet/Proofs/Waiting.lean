import Stylesheet.Proofs.Capturing
import Stylesheet.Proofs.Course
import Stylesheet.Proofs.LoopOrder

/-!
# What waits is written

A fragment waits to be written after the rules that are open, so it should hold something to write.
The text of a rule does, since it ends with a brace. The iterations of a loop may give nothing, and
the loop looks for that at their texts joined by line breaks: if there are two iterations or more,
the line breaks wait (`idle_loops_wait`).
-/

namespace Stylesheet

namespace Text

variable {text : String}

/-! ### Blank texts -/

/-- A number of line breaks. -/
def lineBreaks (n : Nat) : String := String.ofList (List.replicate n '\n')

/-- Line breaks are blank. -/
lemma blank_lineBreaks (n : Nat) : Blank (lineBreaks n) := by
  intro c hc
  rw [lineBreaks, String.toList_ofList] at hc
  rw [List.eq_of_mem_replicate hc]
  rfl

/-- There are no line breaks exactly if their number is zero. -/
lemma lineBreaks_eq_empty_iff {n : Nat} : lineBreaks n = "" ↔ n = 0 := by
  rw [← String.toList_inj]
  simp [lineBreaks]

/-- Texts that are all empty give a line break between each two of them. -/
lemma intercalate_replicate_empty (n : Nat) :
    "\n".intercalate (List.replicate n "") = lineBreaks (n - 1) := by
  induction n with
  | zero => rfl
  | succ n ih =>
    cases n with
    | zero => rfl
    | succ n =>
      have hr : "\n".intercalate (List.replicate (n + 1 + 1) "") =
          "" ++ "\n" ++ "\n".intercalate (List.replicate (n + 1) "") := by
        rw [List.replicate_succ, List.replicate_succ, String.intercalate_cons_cons]
      rw [hr, ih, ← String.toList_inj]
      simp [lineBreaks, List.replicate_succ]

/-- Nothing is left of a blank text. -/
lemma trim_of_blank (h : Blank text) : trim text = "" := by
  have hd : text.toList.dropWhile isBlank = [] := List.dropWhile_eq_nil_iff.2 h
  rw [← String.toList_inj, toList_trim, trimChars, hd]
  rfl

/-- A text of which nothing is left is blank. -/
lemma blank_of_trim_eq_empty (h : trim text = "") : Blank text := by
  have he : ((text.toList.dropWhile isBlank).reverse.dropWhile isBlank).reverse = [] := by
    rw [← String.toList_inj, toList_trim] at h
    exact h
  rw [List.reverse_eq_nil_iff, List.dropWhile_eq_nil_iff] at he
  apply List.dropWhile_eq_nil_iff.1
  cases hd : text.toList.dropWhile isBlank with
  | nil => rfl
  | cons c cs =>
    have hc : isBlank c := he c (by simp [hd])
    exact absurd hc (not_isBlank_of_head?_dropWhile (by rw [hd]; rfl))

/-- A trimmed text that is blank is empty. -/
lemma Trimmed.eq_empty_of_blank (h : Trimmed text) (hb : Blank text) : text = "" := by
  rw [← h.trim_eq, trim_of_blank hb]

/-- A character of one text is one of them all together. -/
lemma mem_intercalate {c : Char} {sep : String} {texts : List String} (ht : text ∈ texts)
    (hc : c ∈ text.toList) : c ∈ (sep.intercalate texts).toList := by
  induction texts with
  | nil => cases ht
  | cons first texts ih =>
    cases texts with
    | nil =>
      obtain rfl := List.mem_singleton.1 ht
      simpa using hc
    | cons second texts =>
      rw [String.intercalate_cons_cons, String.toList_append, String.toList_append]
      obtain rfl | ht := List.mem_cons.1 ht
      · exact List.mem_append_left _ (List.mem_append_left _ hc)
      · exact List.mem_append_right _ (ih ht)

/-- Trimmed texts that are joined to a blank one are all empty. -/
lemma eq_replicate_of_blank {sep : String} {texts : List String} (ht : ∀ t ∈ texts, Trimmed t)
    (hb : Blank (sep.intercalate texts)) : texts = List.replicate texts.length "" := by
  apply List.eq_replicate_of_mem
  intro t hm
  exact (ht t hm).eq_empty_of_blank fun c hc => hb c (mem_intercalate hm hc)

/-! ### Texts of rules -/

/-- A text ends as that of a rule does, with a brace on a line of its own. -/
def Closes (text : String) : Prop := ['\n', '\x7d'] <:+ text.toList

/-- A text that closes is not blank, with whatever behind it. -/
lemma Closes.not_blank_append (h : Closes text) (rest : String) : ¬Blank (text ++ rest) := by
  intro hb
  have hm : '\x7d' ∈ text.toList := h.subset (by simp)
  have := hb '\x7d' (by rw [String.toList_append]; exact List.mem_append_left _ hm)
  revert this
  decide

/-- A rule closes. -/
lemma closes_block (selector body : String) : Closes (Selector.block selector body) := by
  refine ⟨selector.toList ++ '\x7b' :: body.toList, ?_⟩
  simp [Selector.block]

/-- The name of a parameter on one line. -/
def IsLine (name : String) : Prop := ∃ word, name.toList = '$' :: word ∧ '\n' ∉ word

/-- A pattern on one line that starts with no brace leaves the last line of a rule. -/
lemma suffix_replaceEach {p : Char} {ps cs : List Char} {out : List Char → List Char}
    (hn : '\n' ∉ p :: ps) (hp : p ≠ '\x7d')
    (ho : ∀ rest b, out (rest ++ '\n' :: b) = out rest) (h : ['\n', '\x7d'] <:+ cs) :
    ['\n', '\x7d'] <:+ replaceEach p ps out cs := by
  obtain ⟨a, rfl⟩ := h
  have last : replaceEach p ps out ['\x7d'] = ['\x7d'] := replaceEach_eq_self (by simpa using hp)
  rw [replaceEach_append_cons hn (fun rest => ho rest _), last]
  exact List.suffix_append _ _

/-- A text that closes still does after a value is substituted. -/
lemma Closes.substitute {name value : String} (hn : IsLine name) (h : Closes text) :
    Closes (substitute text name value) := by
  obtain ⟨word, hw, hl⟩ := hn
  unfold Closes
  rw [Text.substitute, toList_replaceToken hw]
  apply suffix_replaceEach (by simpa using hl) (by decide)
  · intro rest b
    exact tokenValue_append_cons (by decide) rest b
  · rw [toList_interpolate hw]
    apply suffix_replaceEach (by simpa using hl) (by decide) _ h
    intro rest b
    rfl

/-- Placing a rule under a selector changes the text before its brace only. -/
lemma Closes.place {parent : String} (h : Closes text) : Closes (Selector.place parent text) := by
  unfold Selector.place
  dsimp only
  have hhead := List.head?_dropWhile_not (fun c => !(c == '\x7b')) text.toList
  have hs : text.toList.dropWhile (fun c => !(c == '\x7b')) <:+ text.toList :=
    List.dropWhile_suffix _
  split
  · exact h
  · unfold Closes
    rw [String.toList_append, String.toList_ofList]
    refine List.IsSuffix.trans ?_ (List.suffix_append _ _)
    -- What is left from the brace on is no part of the last line, which has no such brace.
    obtain hs | hs := List.suffix_or_suffix_of_suffix h hs
    · exact hs
    · cases hr : text.toList.dropWhile (fun c => !(c == '\x7b')) with
      | nil => contradiction
      | cons c rest =>
        rw [hr] at hhead hs
        obtain rfl : c = '\x7b' := by simpa using hhead
        exact absurd (hs.subset List.mem_cons_self) (by decide)

end Text

/-! ### Mixins -/

/-- If the node is a mixin, the names of its parameters are on one line. -/
def Node.hasLineNames (node : Node) : Bool :=
  node.kind != .mixinDeclaration || node.ownNames.all (!·.toList.contains '\n')

/-- The names of the parameters of a mixin are on one line, if the node says so. -/
lemma Node.isLine_of_mem_ownNames {node : Node} {name : String}
    (hk : node.kind = .mixinDeclaration) (h : node.hasLineNames = true)
    (hn : name ∈ node.ownNames) : Text.IsLine name := by
  have hl : ∀ name ∈ node.ownNames, '\n' ∉ name.toList := by
    simpa [hasLineNames, hk] using h
  have hl := hl name hn
  obtain ⟨-, -, -, -, reference, -, rfl⟩ := exists_of_mem_ownNames hn
  rw [Text.toList_sigilName] at hl
  exact ⟨_, Text.toList_sigilName _, fun hm => hl (List.mem_cons_of_mem _ hm)⟩

/-- The rules of a mixin end as rules do, whatever its arguments. -/
structure Mixin.Closing (m : Mixin) : Prop where
  parameters : m.parameters.Sorted Text.IsLine fun _ => True
  deferred : ∀ rule ∈ m.body.deferred, Text.Closes rule

namespace Render

variable {root node : Node} {start c m : Context} {above : List Node}

/-- The rules that an inclusion brings end as rules do. -/
lemma closes_of_expandMixin {mixins : MixinTable} {args : List String} {fragments : Fragments}
    (hm : ∀ e ∈ mixins.entries, e.2.Closing)
    (h : expandMixin mixins node args = .ok fragments) :
    ∀ rule ∈ fragments.deferred, Text.Closes rule := by
  obtain ⟨name, mixin, bindings, -, hg, hb, rfl⟩ := exists_of_expandMixin h
  have hmixin := hm _ (Registry.mem_of_get? hg)
  have hbound := Mixin.forall_of_bind hmixin.parameters (fun _ _ => trivial) trivial hb
  intro rule hr
  obtain ⟨source, hs, rfl⟩ := List.mem_map.1 hr
  apply Mixin.substituteAll_keeps _ (hmixin.deferred source hs)
  intro b hb text ht
  exact ht.substitute (hbound b hb).1

/-- The rules that are captured of a mixin end as rules do. -/
lemma captures_closing {mixins : MixinTable} {indent : String}
    (hm : ∀ e ∈ mixins.entries, e.2.Closing) :
    Captures mixins indent fun _ _ fragments => ∀ rule ∈ fragments.deferred, Text.Closes rule where
  declaration _ _ := by simp
  rule _ h := by
    refine List.forall_mem_cons.2 ⟨Text.closes_block _ _, ?_⟩
    exact forall_mem_flatMap h fun _ _ _ => id
  inclusion {site node found} _ h := by
    have closes := closes_of_expandMixin hm h
    cases site with
    | body => exact closes
    | rule parent =>
      intro rule hr
      obtain ⟨source, hs, rfl⟩ := List.mem_map.1 hr
      exact (closes source hs).place

/-- A mixin has rules that end as rules do, if its body has. -/
lemma closing_of_takes {mixin : Mixin} {name : String} (hk : node.kind = .mixinDeclaration)
    (hn : node.hasLineNames = true) (ht : Takes node name c mixin.parameters)
    (hb : ∀ rule ∈ mixin.body.deferred, Text.Closes rule) : mixin.Closing :=
  ⟨ht.sorted (fun _ => Node.isLine_of_mem_ownNames hk hn) fun _ _ _ _ _ _ _ => trivial, hb⟩

/-! ### Loops that give nothing -/

/-- What a loop makes wait of which a number of iterations all give nothing. -/
def idleFragments (count : Nat) : List String :=
  if count ≤ 1 then [] else [Text.lineBreaks (count - 1)]

/-- All iterations of a loop succeed and give nothing. -/
def Idle (body : Node) (placement : Placement) (names : List String) (rows : Rows) (c : Context) :
    Prop :=
  ∃ m, iterate (round body placement names rows) rows.count 0 (enterLoop placement names c) =
    .ok (List.replicate rows.count "") m

/-- Iterations without text leave as many line breaks as lie between them. -/
lemma filter_intercalate_replicate (count : Nat) :
    ["\n".intercalate (List.replicate count "")].filter (· ≠ "") = idleFragments count := by
  rw [Text.intercalate_replicate_empty, idleFragments]
  split
  · next h =>
    have he : Text.lineBreaks (count - 1) = "" := Text.lineBreaks_eq_empty_iff.2 (by omega)
    rw [he]
    rfl
  · next h =>
    have hne : Text.lineBreaks (count - 1) ≠ "" := by
      rw [ne_eq, Text.lineBreaks_eq_empty_iff]
      omega
    exact List.filter_cons_of_pos (by simpa using hne)

/-- The state after a step has the same rules waiting. -/
def Discipline.still : Discipline where
  onOk c c' := c'.queue = c.queue
  onError _ _ _ := True
  refl _ := rfl
  trans h₁ h₂ := h₂.trans h₁
  transError _ _ := trivial

variable {body : Node} {placement : Placement} {names : List String} {rows : Rows}

/-- After an iteration the same rules wait as before it. -/
lemma Discipline.still_round (body : Node) (placement : Placement) (names : List String)
    (rows : Rows) (i : Nat) : still.Respects (round body placement names rows i) where
  ok {c text c'} h := by
    obtain ⟨inner, m, hi, -, rfl⟩ := exists_of_round h
    obtain ⟨added, hq⟩ := ((stack_respectsAt body).block.ok hi).1.queue
    change m.queue.take c.queue.length = c.queue
    rw [← hq]
    exact List.take_left
  error _ := trivial

/-- The iterations of a loop leave what waits as it is. -/
lemma queue_of_rounds {n index : Nat} {texts : List String}
    (h : iterate (round body placement names rows) n index c = .ok texts m) :
    m.queue = c.queue :=
  (Discipline.respects_iterate (Discipline.still_round body placement names rows) n index).ok h

/-- A loop that gives nothing succeeds, and line breaks wait if it has two iterations or more. -/
lemma unroll_of_idle (h : Idle body placement names rows c) :
    ∃ c', unroll (block body) placement names rows c = .ok ⟨⟩ c' ∧
      c'.queue = c.queue ++ idleFragments rows.count := by
  obtain ⟨m, hm⟩ := h
  have hq : m.queue = (enterLoop placement names c).queue := queue_of_rounds hm
  have done : ensuring (iterate (round body placement names rows) rows.count 0)
      (leaveLoop c.bound.length names) (enterLoop placement names c) = .ok _ _ :=
    ensuring_eq_ok_iff.2 ⟨m, hm, rfl⟩
  refine ⟨(leaveLoop c.bound.length names m).enqueueAll (idleFragments rows.count), ?_, ?_⟩
  · rw [unroll, get_bind_apply, modify_bind_apply]
    refine (bind_of_ok done).trans ?_
    rw [← filter_intercalate_replicate]
    exact enqueue_unless_empty _ _
  · change m.queue ++ _ = _
    rw [hq]
    rfl

/-- The texts of a loop are trimmed. -/
lemma Loops.trimmed {texts : List String} (h : Loops root start texts) :
    ∀ text ∈ texts, Text.Trimmed text := by
  cases h with
  | @intro _ _ body placement names rows _ _ _ _ _ _ hi =>
    have yields (i : Nat) :
        Yields (fun _ => True) (Render.round body placement names rows i) Text.Trimmed := by
      intro c text c' _ h
      obtain ⟨inner, m, -, rfl, -⟩ := exists_of_round h
      exact ⟨trivial, Text.trimmed_trim _⟩
    exact (yields_iterate yields rows.count 0 trivial hi).2

/-! ### The states of a document -/

/-- A fragment of line breaks that a loop of the document leaves. -/
def IsIdle (root : Node) (start : Context) (fragment : String) : Prop :=
  ∃ count, Loops root start (List.replicate count "") ∧ fragment ∈ idleFragments count

/-- What waits holds something to write, unless a loop that gives nothing has left it. -/
structure Stocked (root : Node) (start : Context) (c : Context) : Prop where
  queue : ∀ fragment ∈ c.queue, ¬Text.Blank fragment ∨ IsIdle root start fragment
  mixins : ∀ e ∈ c.mixins.entries, e.2.Closing

/-- What waits is stocked if more is added that is not blank or idle. -/
lemma Stocked.enqueueAll {fragments : List String} (h : Stocked root start c)
    (hf : ∀ fragment ∈ fragments, ¬Text.Blank fragment ∨ IsIdle root start fragment) :
    Stocked root start (c.enqueueAll fragments) :=
  ⟨List.forall_mem_append.2 ⟨h.queue, hf⟩, h.mixins⟩

/-- What waits is stocked after a mixin is declared that closes. -/
lemma Stocked.define {name : String} {mixin : Mixin} (h : Stocked root start c)
    (hm : mixin.Closing) :
    Stocked root start { c with mixins := c.mixins.insert name mixin } where
  queue := h.queue
  mixins e he := by
    obtain rfl | he := Registry.mem_insert he
    · exact hm
    · exact h.mixins e he

/-- A check of all nodes of a document is passed by the statements that it reaches. -/
lemma Reaches.every {p : Node → Bool} (h : Reaches root start above c node)
    (hp : root.every p = true) : node.every p = true :=
  h.inherits hp fun _ hparent _ hc => Node.every_child hparent hc

/-- What waits is stocked as long as nothing is added. -/
lemma Stocked.sheds {c' : Context} (h : Stocked root start c) (hs : c.Sheds c') :
    Stocked root start c' :=
  ⟨fun fragment hf => h.queue fragment (hs.queue hf), hs.mixins ▸ h.mixins⟩

/-- Declaring a mixin keeps what may wait, on success and on failure. -/
lemma Stocked.declareMixin (hk : node.kind = .mixinDeclaration) (hn : node.hasLineNames = true)
    (hc : Stocked root start c) : Stocked root start (after (declareMixin node) c) := by
  unfold Render.declareMixin
  apply after_ofExcept_bind hc
  intro name _
  apply after_ofExcept_bind hc
  intro block _
  change Stocked root start
    (after (ofExcept (captureBlock c.mixins c.options.indent .body block.1) >>= _) c)
  apply after_ofExcept_bind hc
  intro body hcapture
  have hb : ∀ rule ∈ body.deferred, Text.Closes rule := by
    obtain ⟨parts, hparts, rfl⟩ := (captures_closing hc.mixins).block hcapture
    exact forall_mem_flatMap hparts fun _ _ _ => id
  dsimp only
  split
  · next params hp =>
    apply after_reading_bind (fun hD => hD.mixinWith name params body) (.of_sheds Stocked.sheds) hc
    intro mixin hm
    obtain ⟨-, rfl, ht⟩ := exists_of_mixinWith hp hm
    exact hc.define (closing_of_takes hk hn ht hb)
  · next hp =>
    have ht : Takes node name c (.fixed [] {}) := .none hp
    exact hc.define (closing_of_takes hk hn ht hb)

/-- An inclusion keeps what may wait, on success and on failure. -/
lemma Stocked.includeMixin (hc : Stocked root start c) :
    Stocked root start (after (includeMixin node) c) := by
  unfold Render.includeMixin
  apply after_reading_bind (fun hD => Discipline.respects_mapM fun arg _ => hD.value .fold arg)
    (.of_sheds Stocked.sheds) hc
  intro args _
  change Stocked root start (after (ofExcept (expandMixin c.mixins node args) >>= _) c)
  apply after_ofExcept_bind hc
  intro fragments hf
  have closes := closes_of_expandMixin hc.mixins hf
  apply hc.enqueueAll
  intro fragment hm
  obtain ⟨source, hs, rfl⟩ := List.mem_map.1 hm
  exact .inl ((closes source hs).place.not_blank_append _)

/-- What waits is stocked after the text of a loop is added. -/
lemma Stocked.enqueue_loop {texts : List String} (hl : Loops root start texts)
    (hc : Stocked root start c) (ht : "\n".intercalate texts ≠ "") :
    Stocked root start (c.enqueue ("\n".intercalate texts)) := by
  apply hc.enqueueAll
  refine List.forall_mem_singleton.2 ?_
  by_cases hb : Text.Blank ("\n".intercalate texts)
  · have he := Text.eq_replicate_of_blank hl.trimmed hb
    refine .inr ⟨texts.length, he ▸ hl, ?_⟩
    rw [← filter_intercalate_replicate, ← he]
    simpa using ht
  · exact .inl hb

/-- What waits is stocked along every document. -/
lemma follows_stocked (start : Context) (hroot : root.every Node.hasLineNames = true) :
    Follows root start (Stocked root start) where
  sheds := Stocked.sheds
  rule _ _ h :=
    h.enqueueAll (List.forall_mem_singleton.2 (.inl ((Text.closes_block _ _).not_blank_append _)))
  define hr hk hc := hc.declareMixin hk (Node.every_self (hr.every hroot))
  expand _ _ hc := hc.includeMixin
  loop hl hc ht := hc.enqueue_loop hl ht

/-! ### What documents write -/

/-- What an idle loop makes wait is written as a blank line, if it has more than one iteration. -/
lemma join_idleFragments (count : Nat) :
    String.join ((idleFragments count).map fun fragment => Text.trim fragment ++ "\n\n") =
      if count ≤ 1 then "" else "\n\n" := by
  unfold idleFragments
  split
  · rfl
  · rw [List.map_singleton, Text.trim_of_blank (Text.blank_lineBreaks _)]
    rfl

/-- A document writes a statement and then what waits after it, each trimmed and with an empty line
behind it. -/
lemma outermost_of_between {options : Options} {text : String} (hc : Between options c)
    (h : statement node c = .ok text m) :
    outermost node c =
      .ok (text ++ String.join (m.queue.map fun fragment => Text.trim fragment ++ "\n\n"))
        { m with queue := [] } := by
  have ha : m.ancestors = [] :=
    ((Discipline.stack_respectsAt node).statement.ok h).1.ancestors.trans hc.ancestors
  rw [outermost, bind_of_ok h, bind_of_ok (flushed_of_outermost ha)]
  rfl

/-- An idle loop outside of all rules writes a blank line, if it has more than one iteration. -/
lemma outermost_of_idle {options : Options} (hc : Between options c)
    (hd : c.descend.tooDeep = false) (hu : Unrolls node c.descend body placement names rows)
    (h : Idle body placement names rows c.descend) :
    ∃ c', outermost node c = .ok (if rows.count ≤ 1 then "" else "\n\n") c' := by
  obtain ⟨m, hm, hq⟩ := unroll_of_idle h
  have performed : perform node c.descend = .ok "" m :=
    (perform_of_unrolls hu).trans (bind_of_ok hm)
  have hdepth : c.depth < c.options.maxDepth.toNat := Nat.not_lt.1 (of_decide_eq_false hd)
  have written := outermost_of_between hc (statement_of_perform hdepth performed)
  have hw : m.ascend.queue = idleFragments rows.count := by
    change m.queue = _
    rw [hq]
    change c.queue ++ _ = _
    rw [hc.queue, List.nil_append]
  rw [hw, join_idleFragments, String.empty_append] at written
  exact ⟨_, written⟩

/-- A statement right below the root is reached between two statements. -/
lemma Reaches.between {options : Options} (h : Reaches root start [root] c node)
    (hs : Between options start) : Between options c := by
  generalize ha : [root] = above at h
  cases h with
  | outermost _ _ hb => exact hs.mapM hb
  | deeper =>
    have hl := congrArg List.length ha
    simp at hl

/-- A loop whose iterations all give nothing leaves what waits as it is, if it has one iteration at
most, and otherwise adds a line break for each but one of them. In a document whose mixins have
parameters with names on one line, nothing else that waits is blank, in no state of the compilation.
So of what the document writes after a statement of its own, nothing is empty but what such loops
have left; and for such a loop of its own it writes nothing, or else an empty line. -/
theorem idle_loops_wait (compiler : Compiler) {root : Node}
    (hroot : root.every Node.hasLineNames = true) :
    let start := compiler.context.reset
    (∀ body placement names rows c, Idle body placement names rows c →
      ∃ c', unroll (block body) placement names rows c = .ok ⟨⟩ c' ∧
        c'.queue = c.queue ++ idleFragments rows.count) ∧
    (∀ m, Visits root start m → ∀ fragment ∈ m.queue,
      ¬Text.Blank fragment ∨ IsIdle root start fragment) ∧
    (∀ c node text m, Reaches root start [root] c node → statement node c = .ok text m →
      outermost node c =
        .ok (text ++ String.join (m.queue.map fun fragment => Text.trim fragment ++ "\n\n"))
          { m with queue := [] } ∧
      ∀ fragment ∈ m.queue, Text.trim fragment = "" → IsIdle root start fragment) ∧
    ∀ c node body placement names rows, Reaches root start [root] c node →
      c.descend.tooDeep = false → Unrolls node c.descend body placement names rows →
      Idle body placement names rows c.descend →
      ∃ c', outermost node c = .ok (if rows.count ≤ 1 then "" else "\n\n") c' := by
  intro start
  have between : Between compiler.context.options start := ⟨rfl, rfl, rfl, rfl, rfl⟩
  have stocked {m : Context} (hm : Visits root start m) : Stocked root start m :=
    (follows_stocked start hroot).visits ⟨by simp [start, Context.reset],
      by simp [start, Context.reset]⟩ hm
  refine ⟨?_, ?_, ?_, ?_⟩
  · intro body placement names rows c h
    exact unroll_of_idle h
  · intro m hm
    exact (stocked hm).queue
  · intro c node text m hr hs
    refine ⟨outermost_of_between (hr.between between) hs, fun fragment hf ht => ?_⟩
    have hm : Visits root start m := after_of_ok hs ▸ .done hr
    exact ((stocked hm).queue fragment hf).resolve_left
      fun hb => hb (Text.blank_of_trim_eq_empty ht)
  · intro c node body placement names rows hr hd hu h
    exact outermost_of_idle (hr.between between) hd hu h

/-- A loop that only declares a variable. -/
def declaringLoop : Node :=
  .forLoop "i" (.literal "1") "through" (.literal "3") [.assignment "x" (.literal "1")]

/-- Such a loop, before a mixin and a rule that includes it. -/
def loopBeforeMixin : Node :=
  .stylesheet
    [declaringLoop, .mixin "m" [.parameter "p"] [.rule ["& $p"] []],
      .rule ["a"] [.inclusion "m" [.literal ""]]]

/-- A loop that only declares writes a blank line in front of a rule. -/
theorem idle_loops_wait_loopBeforeMixin :
    loopBeforeMixin.every Node.hasLineNames = true ∧
      (∃ c', outermost declaringLoop (Context.reset {}) = .ok "\n\n" c') ∧
      ∀ m, Visits loopBeforeMixin (Context.reset {}) m → ∀ fragment ∈ m.queue,
        ¬Text.Blank fragment ∨ IsIdle loopBeforeMixin (Context.reset {}) fragment := by
  have lines : loopBeforeMixin.every Node.hasLineNames = true := by decide +kernel
  obtain ⟨-, waiting, -, written⟩ := idle_loops_wait {} lines
  have bound {c : Context} {n : Int} {text : String}
      (h : Number.integer? (Text.trim text) = some n) : loopBound (.literal text) c = .ok n c := by
    refine loopBound_of_literal rfl ?_ c
    simpa only [Node.literal, Node.leaf] using h
  have one : Number.integer? (Text.trim "1") = some 1 := by decide +kernel
  have three : Number.integer? (Text.trim "3") = some 3 := by decide +kernel
  have loop : Unrolls declaringLoop (Context.reset {}).descend _ _ _ _ :=
    .counting ⟨rfl, rfl, rfl, rfl, rfl, rfl, rfl, rfl, rfl⟩ (bound one) (bound three) rfl
  have idle : Idle (.block [.assignment "x" (.literal "1")]) .interpolated ["$i"] (.range 1 3)
      (Context.reset {}).descend := exists_of_result? (by decide +kernel)
  exact ⟨lines, written _ _ _ _ _ _ (.first _ rfl rfl) rfl loop idle, waiting⟩

/-- A loop with an empty body between two rules. -/
def emptyLoop : Node :=
  .stylesheet
    [.rule ["a"] [], .forLoop "i" (.literal "1") "through" (.literal "2") [], .rule ["b"] []]

/-- A mixin with a parameter that is named by a sigil and the text of an empty block. -/
def brokenName : Node :=
  .stylesheet
    [.mixin "m" [.parameter "\x7b\n\x7d"] [.rule ["$"] []],
      .rule ["a"] [.inclusion "m" [.literal ""]], .rule ["b"] []]

/-- Two iterations that give nothing make a line break wait, which the document writes as an empty
line. It writes one, too, where the name of a parameter stands for a whole rule. -/
theorem blank_fragments_wait :
    (∃ c c', Idle (.block []) .interpolated ["$i"] (.range 1 2) c ∧
      unroll (block (.block [])) .interpolated ["$i"] (.range 1 2) c = .ok ⟨⟩ c' ∧
      c.queue = [] ∧ c'.queue = ["\n"]) ∧
      (Compiler.compile {} emptyLoop).1 = .ok "a\x7b\n\x7d\n\n\n\nb\x7b\n\x7d" ∧
      (Compiler.compile {} brokenName).1 = .ok "a\x7b\n\x7d\n\n\n\nb\x7b\n\x7d" := by
  have idle : Idle (.block []) .interpolated ["$i"] (.range 1 2) {} :=
    exists_of_result? (by decide +kernel)
  obtain ⟨c', hu, hq⟩ := unroll_of_idle idle
  refine ⟨⟨{}, c', idle, hu, rfl, ?_⟩, by decide +kernel, by decide +kernel⟩
  rw [hq]
  decide +kernel

end Render

end Stylesheet
