import Stylesheet.Proofs.Alphabet

/-!
# Sorts of texts

A value is put together from texts of the document and of the variables in a few ways. `Wording`
says that a sort of texts is closed under them. Then a value is of the sort, if the texts in its
node and those in scope are: `Wording.yields_value`. The texts over an ample alphabet are such a
sort.
-/

namespace Stylesheet

open Text

/-- A sort of texts that is closed under what becomes of texts in a value. The second sort is that
of the names of functions. -/
structure Wording (T N : String → Prop) : Prop where
  trim {a : String} : T a → T (Text.trim a)
  number {a : String} : Over (· ∈ numeric) a → T a
  truth {a : String} : a = "true" ∨ a = "false" → T a
  separated {sep : String} {texts : List String} : sep = " " ∨ sep = ", " → (∀ t ∈ texts, T t) →
    T (sep.intercalate texts)
  entry {key text : String} : T key → T text → T (Value.entryText (key, text))
  mix {base colour amount : String} : base = "black" ∨ base = "white" → T colour → T amount →
    T (Builtin.mix base colour amount)
  gradient {args : List String} : (∀ arg ∈ args, T arg) → T (Builtin.gradient args)
  foreign {name : String} {args : List String} : N name → (∀ arg ∈ args, T arg) →
    T (Builtin.foreign name args)

/-- The texts of a value of a variable are of a sort. -/
def Value.Within (T : String → Prop) : Value → Prop
  | scalar text => T text
  | list items => ∀ item ∈ items, T item
  | map entries => ∀ entry ∈ entries, T entry.1 ∧ T entry.2

/-- What is written for references, and what the variables hold, is of a sort. The second sort is
that of references. -/
structure Context.Within (T R : String → Prop) (c : Context) : Prop where
  symbols : ∀ e ∈ c.symbols.entries, e.2.value.Within T
  property : ∀ text v, R text → c.symbols.lookup (Variable.bareName text) = some v →
    T (Variable.property (Variable.bareName text))
  bound : ∀ text, R text → Variable.bareName text ∈ c.bound → T ("$" ++ Variable.bareName text)

/-- All texts in a tree are of a sort, those of references of a second one, and the names of the
functions that are called of a third one. -/
inductive Node.Within (T R N : String → Prop) : Node → Prop where
  | intro {node} :
    T node.text →
    (node.kind = .reference → R node.text) →
    (node.kind = .call → ∀ name, node.name = .ok name → N name) →
    (∀ child ∈ node.children, Within T R N child) →
    Within T R N node

namespace Node.Within

variable {T R N : String → Prop} {node other : Node}

/-- The text of a node is of the sort. -/
lemma text (h : node.Within T R N) : T node.text := by
  cases h with
  | intro ht _ _ _ => exact ht

/-- The text of a reference is of the second sort. -/
lemma reference (h : node.Within T R N) (hk : node.kind = .reference) : R node.text := by
  cases h with
  | intro _ hr _ _ => exact hr hk

/-- The name of a function is of the third sort. -/
lemma callee {name : String} (h : node.Within T R N) (hk : node.kind = .call)
    (hn : node.name = .ok name) : N name := by
  cases h with
  | intro _ _ hc _ => exact hc hk name hn

/-- The texts below a node are of the sorts. -/
lemma child (h : node.Within T R N) (ho : other ∈ node.children) : other.Within T R N := by
  cases h with
  | intro _ _ _ hs => exact hs other ho

end Node.Within

/-- Values of a sort are of a wider one. -/
lemma Value.Within.mono {T U : String → Prop} {v : Value} (hTU : ∀ t, T t → U t)
    (h : v.Within T) : v.Within U := by
  cases v with
  | scalar text => exact hTU _ h
  | list items => exact fun item hi => hTU _ (h item hi)
  | map entries => exact fun entry he => ⟨hTU _ (h entry he).1, hTU _ (h entry he).2⟩

/-- A variable that is in scope has a value of the sort. -/
lemma Context.Within.lookup {T R : String → Prop} {c : Context} (hc : c.Within T R)
    {reference : String} {v : Variable} (h : c.symbols.lookup reference = some v) :
    v.value.Within T :=
  hc.symbols _ (Registry.mem_of_get? h)

/-- An item of a list of the sort is of it. -/
lemma Builtin.within_nthOf {T : String → Prop} {name index text : String} {v : Variable}
    (hv : v.value.Within T) (h : nthOf name v index = .ok text) : T text := by
  unfold nthOf listItems at h
  cases hl : v.value with
  | list items =>
    rw [hl] at h hv
    dsimp only [Value.items?, bind, Except.bind] at h
    split at h
    · cases h
    · split at h
      · rename_i item hi
        cases h
        split at hi
        · exact hv _ (List.mem_of_getElem? hi)
        · cases hi
      · cases h
  | scalar _ | map _ =>
    rw [hl] at h
    cases h

/-- A value of entries of the sort is of it. -/
lemma Value.within_ofEntries {T : String → Prop} {entries : List (String × String)}
    (h : ∀ entry ∈ entries, T entry.1 ∧ T entry.2) : (ofEntries entries).Within T := by
  intro entry he
  refine h entry ?_
  clear h
  induction hl : entries.length using Nat.strong_induction_on generalizing entries with
  | _ n ih =>
    subst hl
    cases entries with
    | nil => exact he
    | cons first rest =>
      rw [List.eraseDupsBy_cons] at he
      rcases List.mem_cons.1 he with rfl | he
      · exact List.mem_cons_self
      · have hr := ih _ (Nat.lt_succ_of_le (List.length_filter_le _ rest)) he rfl
        exact List.mem_cons_of_mem _ (List.mem_filter.1 hr).1

namespace Wording

variable {T R N : String → Prop} (hT : Wording T N)
include hT

/-! ### Texts -/

/-- The value of a variable is written with its texts. -/
lemma value_text {v : Value} (h : v.Within T) : T v.text := by
  cases v with
  | scalar text => exact h
  | list items => exact hT.separated (.inr rfl) h
  | map entries =>
    refine hT.separated (.inr rfl) fun t ht => ?_
    obtain ⟨entry, he, rfl⟩ := List.mem_map.1 ht
    exact hT.entry (h entry he).1 (h entry he).2

/-- An expression gives one of its operands, a number or a truth value. -/
lemma evaluate {tokens : List Expr.Token} {text : String} (ht : ∀ t, .operand t ∈ tokens → T t)
    (h : Expr.evaluate tokens = .ok text) : T text := by
  have numeric : Numeric (· ∈ Text.numeric) := fun _ hc => hc
  unfold Expr.evaluate at h
  split at h
  · rw [← Except.ok.inj h]
    exact hT.trim (ht _ (List.mem_singleton_self _))
  · obtain ⟨items, hi, h⟩ := Expr.bind_eq_ok_iff.1 h
    obtain ⟨v, hr, h⟩ := Expr.bind_eq_ok_iff.1 h
    cases v with
    | number x =>
      refine hT.number ?_
      unfold Expr.Scalar.renderIn at h
      dsimp only at h
      split at h
      · rw [← Except.ok.inj h]
        exact over_append.2 ⟨numeric.over_render x, numeric.over_of_isNumeric rfl⟩
      · rw [← Except.ok.inj h]
        exact over_append.2 ⟨numeric.over_render x, numeric.over_of_isNumeric rfl⟩
      · split at h
        · rename_i hx
          rw [← Except.ok.inj h]
          exact over_append.2 ⟨numeric.over_of_isNumeric rfl, numeric.over_hexDigits hx⟩
        · cases h
      all_goals
        rw [← Except.ok.inj h]
        exact numeric.over_render x
    | bool b =>
      rw [← Except.ok.inj h]
      cases b with
      | true => exact hT.truth (.inl rfl)
      | false => exact hT.truth (.inr rfl)
    | text s =>
      rw [← Except.ok.inj h]
      obtain ⟨operand, ho, hs⟩ := Expr.mem_of_mapM_item hi (Expr.mem_of_reduce_text hr)
      rw [Expr.Scalar.render, Expr.eq_trim_of_ofText_eq_text hs.symm]
      exact hT.trim (ht operand ho)

/-- The length of a list is of the sort. -/
lemma lengthOf {name text : String} {v : Variable} (h : Builtin.lengthOf name v = .ok text) :
    T text := by
  unfold Builtin.lengthOf at h
  cases hl : Builtin.listItems name v with
  | ok items =>
    rw [hl] at h
    cases h
    exact hT.number (Numeric.over_nat (fun _ hc => hc) _)
  | error _ =>
    rw [hl] at h
    cases h

/-! ### Values -/

omit hT in
/-- A list that an argument names is of the sort. -/
lemma yields_listArgument (b : Builtin) (arg : Node) :
    Render.Yields (Context.Within T R) (Render.listArgument b arg) fun found =>
      found.2.value.Within T := by
  unfold Render.listArgument
  split
  · refine Render.yields_get.bind fun c hc => ?_
    split
    · next hl => exact Render.yields_pure (hc.lookup hl)
    · exact Render.yields_fail
  · exact Render.yields_fail

open Render

/-- A snapshot of values of the sort is of it. -/
lemma yields_snapshot {node : Node} {step : Render String} (hn : node.Within T R N)
    (hs : Yields (Context.Within T R) step T) :
    Yields (Context.Within T R) (snapshot node step) T := by
  unfold snapshot
  split
  · refine yields_get.bind fun c hc => ?_
    split
    · next hl => exact yields_pure (hT.value_text (hc.lookup hl))
    · exact yields_pure (hT.trim hn.text)
  · exact hs

/-- A reference of the sort is resolved to a text of the sort. -/
lemma yields_reference (mode : Mode) {text : String} (ht : T text) (hr : R text) :
    Yields (Context.Within T R) (reference mode text) T := by
  unfold reference
  refine yields_get.bind fun c hc => ?_
  cases mode with
  | emit =>
    dsimp only
    split
    · next hb => exact yields_pure (hc.bound _ hr hb)
    · split
      · next hl => exact yields_pure (hc.property _ _ hr hl)
      · next hl => exact yields_pure (hT.value_text (hc.lookup hl))
      · exact yields_pure (hT.trim ht)
  | fold =>
    dsimp only
    split
    · next hl => exact yields_pure (hT.value_text (hc.lookup hl))
    · exact yields_fail

/-- An expression of operands of the sort is of it. -/
lemma yields_evaluateExpression {span : Span} {step : Render (List Expr.Token)}
    (hs : Yields (Context.Within T R) step fun tokens => ∀ t, .operand t ∈ tokens → T t) :
    Yields (Context.Within T R) (evaluateExpression span step) T := by
  unfold evaluateExpression
  simp only [locating_ensuring]
  refine Yields.descend (Yields.locating ?_) (fun c hc => { hc with })
    fun c hc => { hc with }
  refine hs.bind fun tokens ht => ?_
  split
  · exact yields_fail
  · exact yields_lift fun text h => hT.evaluate ht h

/-- A built-in function gives texts of the sort on arguments of it. -/
lemma yields_callBuiltin (b : Builtin) {args : List Argument}
    (ha : ∀ arg ∈ args, ∀ mode, Yields (Context.Within T R) (arg.render mode) T) :
    Yields (Context.Within T R) (callBuiltin b args) T := by
  unfold callBuiltin
  split
  · rename_i list rest
    refine (yields_listArgument _ list.node).bind fun found _ => ?_
    exact yields_lift fun text h => hT.lengthOf h
  · rename_i list index rest
    refine (ha index (by simp) .fold).bind fun _ _ => ?_
    refine (yields_listArgument _ list.node).bind fun found hf => ?_
    exact yields_lift fun text h => Builtin.within_nthOf hf h
  · rename_i colour amount rest
    refine (ha colour (by simp) .fold).bind fun _ hc => ?_
    refine (ha amount (by simp) .fold).bind fun _ hm => ?_
    exact yields_pure (hT.mix (.inl rfl) hc hm)
  · rename_i colour amount rest
    refine (ha colour (by simp) .fold).bind fun _ hc => ?_
    refine (ha amount (by simp) .fold).bind fun _ hm => ?_
    exact yields_pure (hT.mix (.inr rfl) hc hm)
  · refine (yields_mapM fun arg harg => ha arg harg .fold).bind fun _ hs => ?_
    exact yields_pure (hT.gradient hs)
  · exact yields_fail

/-- A function gives texts of the sort on arguments of it. -/
lemma yields_callFunction {name : String} {args : List Argument} (hn : N name)
    (ha : ∀ arg ∈ args, ∀ mode, Yields (Context.Within T R) (arg.render mode) T) :
    Yields (Context.Within T R) (callFunction name args) T := by
  unfold callFunction
  split
  · exact hT.yields_callBuiltin _ ha
  · refine (yields_mapM fun arg harg => ha arg harg .emit).bind fun _ hs => ?_
    exact yields_pure (hT.foreign hn hs)

/-- The entries of a map are of the sort if its values are. -/
lemma yields_mapEntries_of_below {node : Node} (hn : node.Within T R N)
    (hv : ∀ entry ∈ node.children, ∀ child ∈ entry.children, ∀ mode,
      Yields (Context.Within T R) (value mode child) T) (mode : Mode) :
    Yields (Context.Within T R) (mapEntries mode node) fun entries =>
      ∀ entry ∈ entries, T entry.1 ∧ T entry.2 := by
  rw [mapEntries]
  refine yields_mapM fun entry he => Yields.check yields_fail fun _ => ?_
  have hE := hn.child he
  refine (yields_ofExcept fun _ _ => trivial).bind fun key _ => ?_
  refine (yields_ofExcept fun _ _ => trivial).bind fun item _ => ?_
  have hk : T (Text.trim key.1.text) := hT.trim (hE.child key.2).text
  have hi := hv entry he item.1 item.2
  cases mode with
  | emit =>
    refine (hT.yields_snapshot (hE.child item.2) (hi .emit)).bind fun text ht => ?_
    exact yields_pure ⟨hk, ht⟩
  | fold => exact (hi .fold).bind fun text ht => yields_pure ⟨hk, ht⟩

/-- A value and what is below it are rendered to texts of the sort. -/
lemma yields_value_and_below (node : Node) (hn : node.Within T R N) :
    (∀ mode, Yields (Context.Within T R) (value mode node) T) ∧
      ∀ child ∈ node.children, ∀ mode, Yields (Context.Within T R) (value mode child) T := by
  induction node using Node.childInduction with
  | step node ih =>
    have ih (child : Node) (hc : child ∈ node.children) := ih child hc (hn.child hc)
    have children (mode : Mode) := yields_mapM fun child hc => (ih child hc).1 mode
    refine ⟨fun mode => ?_, fun child hc => (ih child hc).1⟩
    rw [value]
    cases hk : node.kind <;> dsimp only
    case literal | identifier | keyword | operator | selector =>
      exact yields_pure (hT.trim hn.text)
    case reference => exact hT.yields_reference mode hn.text (hn.reference hk)
    case expression =>
      refine hT.yields_evaluateExpression ((yields_mapM (R := fun token =>
        ∀ t, token = .operand t → T t) fun part hp => ?_).mono ?_)
      · split
        · exact yields_pure (by simp)
        · refine ((ih part hp).1 .fold).bind fun text ht => yields_pure ?_
          intro t h
          cases h
          exact ht
      · intro tokens h t ht
        exact h _ ht t rfl
    case call =>
      refine (yields_ofExcept fun name => hn.callee hk).bind fun name hname => ?_
      refine hT.yields_callFunction hname fun arg harg mode => ?_
      obtain ⟨⟨given, hgiven⟩, -, rfl⟩ := List.mem_map.1 harg
      obtain ⟨holder, hh, hg⟩ := Node.mem_children_of_mem_arguments hgiven
      exact (ih holder hh).2 given hg mode
    case propertyValue =>
      split
      · exact yields_pure (hT.trim hn.text)
      · exact (children mode).bind fun _ hs => yields_pure (hT.separated (.inr rfl) hs)
    case listDeclaration =>
      exact (children mode).bind fun _ hs => yields_pure (hT.separated (.inr rfl) hs)
    case listElement =>
      refine (children mode).bind fun _ hs => yields_pure ?_
      exact hT.separated (.inl rfl) hs
    case mapDeclaration =>
      refine (hT.yields_mapEntries_of_below hn (fun entry he => (ih entry he).2) mode).bind
        fun entries hs => yields_pure (hT.separated (.inr rfl) fun t ht => ?_)
      obtain ⟨entry, he, rfl⟩ := List.mem_map.1 ht
      exact hT.entry (hs entry he).1 (hs entry he).2
    all_goals exact yields_fail

/-- A value is of a sort that its node and what is in scope are of. -/
lemma yields_value (mode : Mode) {node : Node} (hn : node.Within T R N) :
    Yields (Context.Within T R) (value mode node) T :=
  (hT.yields_value_and_below node hn).1 mode

/-- A declared value is of the sort. -/
lemma yields_declaredValue {node : Node} (hn : node.Within T R N) :
    Yields (Context.Within T R) (declaredValue node) (Value.Within T) := by
  unfold declaredValue
  split
  · refine (yields_mapM fun item hi => ?_).bind fun _ hs => yields_pure hs
    exact hT.yields_snapshot (hn.child hi) (hT.yields_value .emit (hn.child hi))
  · refine (hT.yields_mapEntries_of_below hn (fun entry he child hc mode => ?_) .emit).bind
      fun entries hs => yields_pure (Value.within_ofEntries hs)
    exact hT.yields_value mode ((hn.child he).child hc)
  · refine yields_get.bind fun c hc => ?_
    split
    · next hl => exact yields_pure (hc.lookup hl)
    · exact yields_pure (hT.trim hn.text)
  · exact (hT.yields_value .emit hn).bind fun _ ht => yields_pure ht

/-- The names of parameters are those of references below them, and their default values are of the
sort. -/
lemma yields_parameters (mixin : String) {node : Node} (hn : node.Within T R N) :
    Yields (Context.Within T R) (parameters mixin node) fun found =>
      (∀ name ∈ found.1, ∃ parameter ∈ node.children, ∃ reference ∈ parameter.children,
        name = Variable.sigilName reference.text) ∧
      ∀ e ∈ found.2.entries, T e.2 := by
  unfold parameters
  refine yields_foldlM (by simp) fun found hf parameter hp => Yields.check yields_fail fun _ => ?_
  refine (yields_ofExcept fun _ _ => trivial).bind fun reference _ => ?_
  have hnames : ∀ name ∈ found.1 ++ [Variable.sigilName reference.1.text],
      ∃ parameter ∈ node.children, ∃ reference ∈ parameter.children,
        name = Variable.sigilName reference.text := by
    refine List.forall_mem_append.2 ⟨hf.1, List.forall_mem_singleton.2 ?_⟩
    exact ⟨parameter, hp, reference.1, reference.2, rfl⟩
  dsimp only
  split
  · next default hd =>
    have hover := (hn.child hp).child (List.mem_of_getElem? hd)
    refine (hT.yields_value .fold hover).bind fun text ht => yields_pure ⟨hnames, ?_⟩
    intro e he
    rcases Registry.mem_insert he with rfl | he
    · exact ht
    · exact hf.2 e he
  · exact yields_pure ⟨hnames, hf.2⟩

end Wording

/-! ### Alphabets -/

namespace Builtin

/-- A piece stands between separators. -/
lemma exists_of_mem_intercalate (sep : Char) {piece : List Char} {pieces : List (List Char)}
    (h : piece ∈ pieces) :
    ∃ before after, [sep].intercalate pieces = before ++ (piece ++ after) ∧
      (∀ c ∈ before.getLast?, c = sep) ∧ ∀ c ∈ after.head?, c = sep := by
  induction pieces with
  | nil => cases h
  | cons first pieces ih =>
    cases pieces with
    | nil =>
      obtain rfl := List.mem_singleton.1 h
      exact ⟨[], [], by simp, by simp, by simp⟩
    | cons second pieces =>
      rw [List.intercalate_cons_cons]
      obtain rfl | h := List.mem_cons.1 h
      · exact ⟨[], sep :: [sep].intercalate (second :: pieces), by simp, by simp, by simp⟩
      · obtain ⟨before, after, hs, hb, ha⟩ := ih h
        refine ⟨first ++ [sep] ++ before, after, by simp [hs], fun c hc => ?_, ha⟩
        rw [List.getLast?_append] at hc
        cases hl : before.getLast? with
        | none => simpa [hl, eq_comm] using hc
        | some d =>
          rw [hl] at hc
          cases hc
          exact hb c hl

/-- A part of a text between its commas is a piece of it, trimmed. -/
lemma exists_of_mem_commaParts {cs part : List Char} (h : part ∈ commaParts cs) :
    ∃ before piece after, cs = before ++ (piece ++ after) ∧ part = Text.trimChars piece ∧
      (∀ c ∈ before.getLast?, c = ',') ∧ ∀ c ∈ after.head?, c = ',' := by
  obtain ⟨piece, hp, rfl⟩ := List.mem_map.1 (List.mem_filter.1 h).1
  obtain ⟨before, after, hs, hb, ha⟩ := exists_of_mem_intercalate ',' hp
  have hj : [','].intercalate (cs.splitOnP (· == ',')) = cs := List.intercalate_splitOn ','
  rw [hj] at hs
  exact ⟨before, piece, after, hs, rfl, hb, ha⟩

variable {A : Char → Prop}

/-- The parts of a text over an alphabet are over it. -/
lemma over_commaParts {text : String} (h : Text.Over A text) :
    ∀ part ∈ commaParts text.toList, ∀ c ∈ part, A c := by
  intro part hp c hc
  obtain ⟨before, piece, after, hs, rfl, -, -⟩ := exists_of_mem_commaParts hp
  refine h c ?_
  rw [hs]
  exact List.mem_append_right _ (List.mem_append_left _ (mem_of_mem_trimChars hc))

variable (hA : Ample A)
include hA

/-- A part of a gradient over an alphabet is rewritten over it. -/
lemma over_gradientPart {part : List Char} (h : ∀ c ∈ part, A c) :
    ∀ c ∈ gradientPart part, A c := by
  unfold gradientPart
  split
  · exact h
  · rename_i rest hr
    dsimp only
    split
    · have hp := append_of_isPrefixOf? hr
      have ht : Text.Over A "to " := hA.over_of_isPlain rfl
      refine List.forall_mem_append.2 ⟨ht, fun c hc => h c ?_⟩
      rw [hp]
      exact List.mem_append_right _ ((List.dropWhile_sublist _).subset hc)
    · exact h

/-- A gradient of arguments over an alphabet is over it. -/
lemma over_gradient {args : List String} (h : ∀ arg ∈ args, Text.Over A arg) :
    Text.Over A (gradient args) := by
  have hs : Text.Over A "," := hA.over_of_isPlain rfl
  have hp := over_commaParts (over_intercalate hs h)
  unfold gradient
  refine over_append.2 ⟨over_append.2 ⟨hA.over_of_isPlain rfl, ?_⟩, hA.over_of_isPlain rfl⟩
  refine over_intercalate (hA.over_of_isPlain rfl) fun t ht => ?_
  obtain ⟨_, hg, rfl⟩ := List.mem_map.1 ht
  obtain ⟨part, hm, rfl⟩ := List.mem_map.1 hg
  exact over_ofList.2 (over_gradientPart hA (hp part hm))

end Builtin

/-- The texts over an ample alphabet are closed under what becomes of them in a value. -/
lemma Text.Ample.wording {A : Char → Prop} (hA : Ample A) :
    Wording (Text.Over A) (Text.Over A) where
  trim h := h.trim
  number h c hc := hA.numeric c (h c hc)
  truth h := by
    obtain rfl | rfl := h
    · exact hA.over_of_isPlain rfl
    · exact hA.over_of_isPlain rfl
  separated hs h := by
    obtain rfl | rfl := hs
    · exact over_intercalate (hA.over_of_isPlain rfl) h
    · exact over_intercalate (hA.over_of_isPlain rfl) h
  entry hk ht := over_append.2 ⟨over_append.2 ⟨hk, hA.over_of_isPlain rfl⟩, ht⟩
  mix {base colour amount} hb hc ha := by
    have hbase : Text.Over A base := by
      obtain rfl | rfl := hb
      · exact hA.over_of_isPlain rfl
      · exact hA.over_of_isPlain rfl
    have plain {text : String} (h : isPlain text = true) : Text.Over A text := hA.over_of_isPlain h
    unfold Builtin.mix
    refine over_append.2 ⟨over_append.2 ⟨over_append.2 ⟨over_append.2 ⟨over_append.2 ⟨over_append.2
      ⟨plain rfl, hbase⟩, plain rfl⟩, ha.trim⟩, plain rfl⟩, hc.trim⟩, plain rfl⟩
  gradient h := Builtin.over_gradient hA h
  foreign hn h := by
    have plain {text : String} (h : isPlain text = true) : Text.Over A text := hA.over_of_isPlain h
    unfold Builtin.foreign
    refine over_append.2 ⟨over_append.2 ⟨over_append.2 ⟨hn.trim, plain rfl⟩, ?_⟩, plain rfl⟩
    exact over_intercalate (plain rfl) h

/-- The characters of a value of a variable are in an alphabet. -/
abbrev Value.Over (A : Char → Prop) : Value → Prop := Value.Within (Text.Over A)

/-- The characters of the variables and of the names that loops bind are in an alphabet. -/
structure Context.Over (A : Char → Prop) (c : Context) : Prop where
  symbols : ∀ e ∈ c.symbols.entries, Text.Over A e.1 ∧ e.2.value.Over A
  bound : ∀ name ∈ c.bound, Text.Over A name

namespace Context.Over

variable {A B : Char → Prop} {c : Context}

/-- A variable that is in scope has a value over the alphabet. -/
lemma lookup (hc : c.Over A) {reference : String} {v : Variable}
    (h : c.symbols.lookup reference = some v) : v.value.Over A :=
  (hc.symbols _ (Registry.mem_of_get? h)).2

/-- A state over an alphabet is over a larger one. -/
lemma mono (h : c.Over A) (hab : ∀ ch, A ch → B ch) : c.Over B where
  symbols e he := ⟨fun ch hc => hab ch ((h.symbols e he).1 ch hc),
    Value.Within.mono (fun _ ht ch hc => hab ch (ht ch hc)) (h.symbols e he).2⟩
  bound name hn ch hc := hab ch (h.bound name hn ch hc)

/-- A state over an alphabet stays so when a variable over it is declared. -/
lemma declare {name : String} {v : Variable} (h : c.Over A) (hn : Text.Over A name)
    (hv : v.value.Over A) : Context.Over A { c with symbols := c.symbols.declare name v } :=
  { h with
    symbols := by
      intro e he
      rcases Registry.mem_insert he with rfl | he
      · exact ⟨hn, hv⟩
      · exact h.symbols e he }

/-- A state over an alphabet stays so when values over it are bound. -/
lemma bindRow {bindings : List (String × String)} (h : c.Over A)
    (hb : ∀ b ∈ bindings, Text.Over A b.1 ∧ Text.Over A b.2) :
    (Render.bindRow bindings c).Over A := by
  induction bindings generalizing c with
  | nil => exact h
  | cons b bindings ih =>
    rw [List.forall_mem_cons] at hb
    exact ih (h.declare (v := ⟨.scalar b.2, true⟩) hb.1.1.bareName hb.1.2) hb.2

/-- A state over an alphabet stays so when a loop with names over it is entered. -/
lemma enterLoop {placement : Render.Placement} {names : List String} (h : c.Over A)
    (hn : ∀ name ∈ names, Text.Over A name) : (Render.enterLoop placement names c).Over A :=
  { h with
    bound := by
      cases placement with
      | interpolated => exact h.bound
      | substituted =>
        refine List.forall_mem_append.2 ⟨h.bound, fun t ht => ?_⟩
        obtain ⟨name, hm, rfl⟩ := List.mem_map.1 ht
        exact (hn name hm).bareName }

/-- A state over an alphabet stays so when a loop is left. -/
lemma leaveLoop {kept : Nat} {names : List String} (h : c.Over A) :
    (Render.leaveLoop kept names c).Over A where
  symbols := by
    have hs : ∀ table : SymbolTable, (∀ e ∈ table.entries, e ∈ c.symbols.entries) →
        ∀ e ∈ (names.foldl SymbolTable.remove table).entries, e ∈ c.symbols.entries := by
      intro table ht
      induction names generalizing table with
      | nil => exact ht
      | cons name names ih => exact ih _ fun e he => ht e (Registry.mem_erase he)
    exact fun e he => h.symbols e (hs _ (fun _ => id) e he)
  bound name hn := h.bound name (List.mem_of_mem_take hn)

end Context.Over

namespace Text

variable {A : Char → Prop} (hA : Ample A)
include hA

/-- The line of a declaration has the characters of its name and its value. -/
lemma over_line {name value : String} (hs : Over A ";") (hn : Over A name) (hv : Over A value) :
    Over A (name ++ ": " ++ value ++ ";") :=
  over_append.2 ⟨over_append.2 ⟨over_append.2 ⟨hn, hA.over_of_isPlain rfl⟩, hv⟩, hs⟩

/-- Lines that are indented have their characters and those of the indentation. -/
lemma over_indented {indent : String} {lines : List String} (hi : Over A indent)
    (h : ∀ line ∈ lines, Over A line) : Over A (Fragments.indented indent lines) := by
  refine over_join fun t ht => ?_
  obtain ⟨line, hl, rfl⟩ := List.mem_map.1 ht
  exact over_append.2 ⟨over_append.2 ⟨hA.over_of_isPlain rfl, hi⟩, h line hl⟩

/-- The line of a custom property has the characters of its name and its value. -/
lemma over_definition {symbols : SymbolTable} {name text : String} (hsemicolon : Over A ";")
    (hs : ∀ e ∈ symbols.entries, Over A e.1 ∧ e.2.value.Over A)
    (hp : (name, text) ∈ symbols.properties) : Over A ("--" ++ name ++ ": " ++ text ++ ";") := by
  have he := hs _ (SymbolTable.mem_properties_iff.1 hp)
  exact over_line hA hsemicolon (over_append.2 ⟨hA.over_of_isPlain rfl, he.1⟩) he.2

end Text

/-- The texts of a tree over an alphabet are of that sort. -/
lemma Node.Over.within {A : Char → Prop} {node : Node} (h : node.Over A) :
    node.Within (Text.Over A) (Text.Over A) (Text.Over A) := by
  induction h with
  | intro ht hs ih =>
    have hnode := Node.Over.intro ht hs
    exact .intro ht (fun _ => ht) (fun _ _ hn => hnode.name hn) ih

namespace Render

variable {A : Char → Prop} (hA : Ample A)
include hA

/-- A step that only reads the state reads texts over an alphabet. -/
lemma Yields.over {α : Type} {step : Render α} {Q : α → Prop}
    (hs : Discipline.reading.Respects step)
    (h : Yields (Context.Within (Text.Over A) (Text.Over A)) step Q) :
    Yields (Context.Over A) step Q := by
  have plain {text : String} (ht : isPlain text = true) : Text.Over A text := hA.over_of_isPlain ht
  refine h.reading hs fun c hc => ⟨fun e he => (hc.symbols e he).2, fun text v ht _ => ?_, ?_⟩
  · exact over_append.2 ⟨over_append.2 ⟨plain rfl, ht.bareName⟩, plain rfl⟩
  · exact fun text ht _ => over_append.2 ⟨plain rfl, ht.bareName⟩

/-- A value is over an alphabet that its node and what is in scope are over. -/
lemma yields_value (mode : Mode) {node : Node} (hn : node.Over A) :
    Yields (Context.Over A) (value mode node) (Text.Over A) :=
  .over hA (Discipline.reading_lenient.value mode node) (hA.wording.yields_value mode hn.within)

/-- A declared value is over the alphabet. -/
lemma yields_declaredValue {node : Node} (hn : node.Over A) :
    Yields (Context.Over A) (declaredValue node) (Value.Over A) :=
  .over hA (Discipline.reading_lenient.declaredValue node)
    (hA.wording.yields_declaredValue hn.within)

/-- The names of parameters are those of their references, and their default values are over the
alphabet. -/
lemma yields_parameters (mixin : String) {node : Node} (hn : node.Over A) :
    Yields (Context.Over A) (parameters mixin node) fun found =>
      (∀ name ∈ found.1, ∃ parameter ∈ node.children, ∃ reference ∈ parameter.children,
        name = Variable.sigilName reference.text) ∧
      ∀ e ∈ found.2.entries, Text.Over A e.2 :=
  .over hA (Discipline.reading_lenient.parameters mixin node)
    (hA.wording.yields_parameters mixin hn.within)

/-! ### Rows -/

omit hA in
/-- The rows of a list are over the alphabet if its items are. -/
lemma over_rowsOfList {rows : List (List String)} (h : ∀ row ∈ rows, ∀ t ∈ row, Text.Over A t)
    (i : Nat) : ∀ t ∈ (Rows.ofList rows).row i, Text.Over A t := by
  intro t ht
  change t ∈ rows.getD i [] at ht
  rw [List.getD_eq_getElem?_getD] at ht
  cases hi : rows[i]? with
  | none =>
    rw [hi] at ht
    cases ht
  | some row =>
    rw [hi] at ht
    exact h row (List.mem_of_getElem? hi) t ht

omit hA in
/-- The rows of a map are over the alphabet. -/
lemma yields_mapRows (source : Node) :
    Yields (Context.Over A) (mapRows source) fun rows => ∀ i, ∀ t ∈ rows.row i, Text.Over A t := by
  unfold mapRows
  refine Yields.check yields_fail fun _ => ?_
  refine yields_get.bind fun c hc => ?_
  dsimp only
  split
  · exact yields_fail
  · next v hl =>
    split
    · next entries he =>
      have hv := hc.lookup hl
      cases hval : v.value with
      | map found =>
        rw [hval] at he hv
        cases he
        refine yields_pure (over_rowsOfList fun row hrow t ht => ?_)
        obtain ⟨entry, hm, rfl⟩ := List.mem_map.1 hrow
        rcases List.mem_pair.1 ht with rfl | rfl
        · exact (hv entry hm).1
        · exact (hv entry hm).2
      | scalar _ | list _ =>
        rw [hval] at he
        cases he
    · exact yields_fail

/-- The items of a list are over the alphabet. -/
lemma yields_listItems {source : Node} (hn : source.Over A) :
    Yields (Context.Over A) (listItems source) fun items => ∀ t ∈ items, Text.Over A t := by
  have htext : ∀ t ∈ textItems source.text, Text.Over A t := by
    intro t ht
    obtain ⟨part, hp, rfl⟩ := List.mem_map.1 ht
    exact over_ofList.2 (Builtin.over_commaParts hn.text part hp)
  unfold listItems
  split
  · refine yields_get.bind fun c hc => yields_pure ?_
    cases hl : c.symbols.lookup source.text with
    | none => exact htext
    | some v =>
      have hv := hc.lookup hl
      cases hval : v.value with
      | list items =>
        rw [hval] at hv
        simp only [Option.bind_some, hval, Value.items?, Option.getD_some]
        exact hv
      | scalar _ | map _ => simpa [hval, Value.items?] using htext
  · exact yields_mapM fun item hi => yields_value hA .fold (hn.child hi)
  · exact yields_pure htext

/-- The rows of a loop are over an alphabet that what stands before its block is over. -/
lemma yields_eachRows_of_sources {node : Node}
    (hn : ∀ source ∈ node.children.dropLast, source.Over A) :
    Yields (Context.Over A) (eachRows node) fun found =>
      ∀ i, ∀ t ∈ found.2.row i, Text.Over A t := by
  have layout {α : Type} (result : Except Diagnostic α) :
      Yields (Context.Over A) (ofExcept result) fun _ => True :=
    yields_ofExcept fun _ _ => trivial
  unfold eachRows
  split
  · refine (layout _).bind fun key _ => ?_
    refine (layout _).bind fun item _ => ?_
    refine (layout _).bind fun source _ => ?_
    exact (yields_mapRows source.1).bind fun rows hrows => yields_pure hrows
  · next hl =>
    refine (layout _).bind fun item _ => ?_
    refine (yields_ofExcept fun _ => Node.getElem?_of_child).bind fun source hsource => ?_
    have hm : source.1 ∈ node.children.dropLast := by
      refine List.mem_of_getElem? (i := 1) ?_
      rw [List.getElem?_dropLast, if_pos (by simp [hl]), hsource]
    refine (yields_listItems hA (hn source.1 hm)).bind fun items hi => yields_pure ?_
    refine over_rowsOfList fun row hrow t ht => ?_
    obtain ⟨text, hm, rfl⟩ := List.mem_map.1 hrow
    rw [List.mem_singleton.1 ht]
    exact hi text hm
  · exact yields_throw

/-- The rows of a loop are over the alphabet. -/
lemma yields_eachRows {node : Node} (hn : node.Over A) :
    Yields (Context.Over A) (eachRows node) fun found =>
      ∀ i, ∀ t ∈ found.2.row i, Text.Over A t :=
  yields_eachRows_of_sources hA fun _ hs => hn.child (List.mem_of_mem_dropLast hs)

end Render

end Stylesheet
