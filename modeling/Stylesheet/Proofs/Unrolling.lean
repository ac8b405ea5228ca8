import Stylesheet.Proofs.Copies
import Stylesheet.Proofs.Origin
import Stylesheet.Proofs.Reach
import Mathlib.Data.List.DropRight

/-!
# Unrolling a loop of rules

A loop that counts and has only rules in its body writes, for each integer, a copy of the body:
first the rules that stand directly in it, then all rules inside these. The copies make one
fragment, which waits in the queue, and the state is otherwise the one before the loop
(`Render.unroll_of_written`).
-/

namespace Stylesheet

/-! ### A name that is declared for a while -/

namespace Registry

variable {α : Type} {r : Registry α} {name : String} {v w : α}

/-- A name that is not registered cannot be taken out. -/
lemma erase_of_not_mem (h : name ∉ r.names) : r.erase name = r := by
  obtain ⟨entries⟩ := r
  unfold erase
  congr 1
  induction entries with
  | nil => rfl
  | cons e es ih =>
    simp only [names, List.map_cons, List.mem_cons, not_or] at h
    rw [eraseEntry, if_neg (Ne.symm h.1), ih h.2]

/-- A name that is registered twice has the second value. -/
lemma insert_insert (r : Registry α) (name : String) (v w : α) :
    (r.insert name v).insert name w = r.insert name w := by
  obtain ⟨entries⟩ := r
  unfold insert
  congr 1
  induction entries with
  | nil => simp [insertEntry]
  | cons e es ih =>
    by_cases he : e.1 = name
    · simp [insertEntry, he]
    · simp [insertEntry, he, ih]

/-- A name that is registered and taken out leaves nothing. -/
lemma erase_insert (h : name ∉ r.names) : (r.insert name v).erase name = r := by
  obtain ⟨entries⟩ := r
  unfold insert erase
  congr 1
  induction entries with
  | nil => simp [insertEntry, eraseEntry]
  | cons e es ih =>
    simp only [names, List.map_cons, List.mem_cons, not_or] at h
    simp [insertEntry, eraseEntry, Ne.symm h.1, ih h.2]

end Registry

namespace SymbolTable

/-- A table in which a name is bound to one value after the other. -/
def rebind (name : String) (values : List String) (table : SymbolTable) : SymbolTable :=
  values.foldl (fun table value => table.declare (Variable.bareName name) ⟨.scalar value, true⟩)
    table

/-- A name that a table does not have leaves nothing behind when it is taken out. -/
lemma remove_rebind {table : SymbolTable} {name : String}
    (h : Variable.bareName name ∉ table.names) (values : List String) :
    (table.rebind name values).remove name = table := by
  cases values with
  | nil => exact Registry.erase_of_not_mem h
  | cons value values =>
    -- Each declaration replaces the one before it.
    unfold rebind
    rw [List.foldl_cons]
    induction values generalizing value with
    | nil => exact Registry.erase_insert h
    | cons other values ih =>
      rw [List.foldl_cons, declare, declare, Registry.insert_insert]
      exact ih other

end SymbolTable

/-! ### The orders of rules -/

namespace Body

/-- The rules of a document, in the order of an iteration of a loop: those that stand directly in
the body before those inside them. -/
def unrolled (body : Body) : List FlatRule := body.outer [] ++ body.inner []

/-- A rule stands somewhere in a block. -/
def hasRule : Body → Bool
  | nil => false
  | declaration _ _ rest => rest.hasRule
  | rule _ _ _ => true

/-- Of the rules that stand directly in a block, only the last has rules inside it. -/
def nestsLast : Body → Bool
  | nil => true
  | declaration _ _ rest => rest.nestsLast
  | rule _ inner rest => (!inner.hasRule || !rest.hasRule) && rest.nestsLast

/-- A body without rules has none that close. -/
lemma closing_eq_nil {body : Body} (h : body.hasRule = false) (path : List String) :
    body.closing path = [] := by
  induction body with
  | nil => rfl
  | declaration _ _ rest ih => exact ih h
  | rule _ _ _ => cases h

/-- A body without rules has no outer ones. -/
lemma outer_eq_nil {body : Body} (h : body.hasRule = false) (path : List String) :
    body.outer path = [] := by
  induction body with
  | nil => rfl
  | declaration _ _ rest ih => exact ih h
  | rule _ _ _ => cases h

/-- An iteration has the rules of the document, in another order. -/
lemma unrolled_perm (body : Body) : body.unrolled.Perm body.flattened := by
  induction body with
  | nil => exact .refl _
  | declaration _ _ rest ih => exact ih
  | rule selector inner rest _ ih =>
    unfold unrolled outer Body.inner flattened
    refine .cons _ ?_
    refine (List.perm_append_comm_assoc ..).trans ?_
    exact ih.append_left _

/-- Where only the last rule has rules inside it, the order is the same. -/
lemma unrolled_eq_flattened {body : Body} (h : body.nestsLast = true) :
    body.unrolled = body.flattened := by
  induction body with
  | nil => rfl
  | declaration _ _ rest ih => exact ih h
  | rule selector inner rest _ ih =>
    rw [nestsLast, Bool.and_eq_true, Bool.or_eq_true] at h
    have hr := ih h.2
    unfold unrolled at hr
    unfold unrolled outer Body.inner flattened
    rw [← hr]
    obtain hi | hl := h.1
    · have hc : inner.closing [selector] = [] := closing_eq_nil (by simpa using hi) _
      simp [hc]
    · have ho := outer_eq_nil (by simpa using hl) []
      simp [ho]

/-- A change of the texts keeps whether there are rules. -/
lemma hasRule_map (f : String → String) (body : Body) : (body.map f).hasRule = body.hasRule := by
  induction body with
  | nil => rfl
  | declaration _ _ rest ih => exact ih
  | rule _ _ _ => rfl

/-- A change of the texts keeps whether nested rules come last. -/
lemma nestsLast_map (f : String → String) (body : Body) :
    (body.map f).nestsLast = body.nestsLast := by
  induction body with
  | nil => rfl
  | declaration _ _ rest ih => exact ih
  | rule _ _ _ _ ih => simp only [map, nestsLast, hasRule_map, ih]

/-- The text of an iteration, before it is trimmed. -/
def iterationText (indent : String) (path : List String) (body : Body) : String :=
  String.join ((body.outer path).map (·.fragment indent)) ++
    String.join ((body.inner path).map fun r => "\n" ++ Text.trim (r.fragment indent))

end Body

/-! ### Running a loop -/

namespace Render

open Text

variable {c : Context}

/-- The rules of a block that are written in their place give their text, and those inside them
wait. -/
lemma mapM_statement_in_place {L : String → Prop} {ρ : String → String} {nodes : List Node}
    {body : Body} (h : Composed L ρ nodes body) (hr : ∀ node ∈ nodes, node.kind = .rule)
    (hρ : c.emitted = ρ) (hp : (!c.isNested || c.isUnrollingChild) = true)
    (hf : ∀ n ∈ c.frames.getLast?, n ≤ c.ancestors.length)
    (hd : body.nesting ≤ c.options.maxDepth.toNat - c.depth) :
    ∃ texts,
      nodes.mapM statement c =
        .ok texts (c.enqueueAll ((body.inner c.ancestors).map (·.fragment c.options.indent))) ∧
      String.join texts =
        String.join ((body.outer c.ancestors).map (·.fragment c.options.indent)) := by
  induction h generalizing c with
  | nil => exact ⟨[], by simp [Body.inner], by simp [Body.outer]⟩
  | declaration hn =>
    have hk := hr _ List.mem_cons_self
    rw [hn.kind] at hk
    cases hk
  | @rule node group block nodes inner rest hn _ hi _ _ ih =>
    simp only [Body.nesting] at hd
    have ho := Context.deferring_openRule (c := c.descend) hf group.selectorText
    obtain ⟨inside, hti, hji⟩ := mapM_statement_of_composed hi ho hρ
      (by change _ ≤ c.options.maxDepth.toNat - (c.depth + 1); omega)
    have hs := statement_of_rule hn (by omega) hti hji
    rw [if_pos hp] at hs
    generalize hw : List.map _ (inner.closing _) = waiting at hs
    obtain ⟨texts, ht, hj⟩ := ih (c := c.enqueueAll waiting)
      (fun node hm => hr node (List.mem_cons_of_mem _ hm)) hρ hp hf
      (by change _ ≤ c.options.maxDepth.toNat - c.depth; omega)
    refine ⟨FlatRule.fragment c.options.indent
      ⟨c.ancestors ++ [group.selectorText], inner.declarations⟩ :: texts, ?_, ?_⟩
    · rw [mapM_cons_of_ok hs ht, Context.enqueueAll_enqueueAll, ← hw]
      simp [Body.inner, Context.openRule, Context.descend, Context.enqueueAll]
    · rw [String.join_cons, hj]
      simp [Body.outer, Context.enqueueAll]

/-- One iteration gives its text with the names replaced, and binds the names. -/
lemma iteration_of_composed {L : String → Prop} {loopBody : Node} {rules : Body}
    {bindings : List (String × String)} (hk : loopBody.kind = .block)
    (h : Composed L (bindRow bindings c).emitted loopBody.children rules)
    (hr : ∀ node ∈ loopBody.children, node.kind = .rule)
    (hd : rules.nesting ≤ c.options.maxDepth.toNat - c.depth) (placement : Placement) :
    iteration (block loopBody) placement bindings c =
      .ok (trim (bindings.foldl (fun text b => placement.apply text b.1 b.2)
          (rules.iterationText c.options.indent c.ancestors)))
        (bindRow bindings c) := by
  obtain ⟨texts, ht, hj⟩ := mapM_statement_in_place (c := startIteration bindings c) h hr rfl
    (by simp [Context.isUnrollingChild, startIteration, openFrame, bindRow])
    (by simp [startIteration, openFrame, bindRow]) hd
  have hb := block_of_mapM hk ht
  generalize hw : List.map _ (rules.inner _) = waiting at hb
  have he : ensuring (block loopBody) closeFrame (startIteration bindings c) =
      .ok (String.join texts) ((bindRow bindings c).enqueueAll waiting) := by
    refine ensuring_eq_ok_iff.2 ⟨_, hb, ?_⟩
    simp [closeFrame, startIteration, openFrame, Context.enqueueAll]
  rw [iteration, modify_bind_apply, get_bind_apply, modify_bind_apply]
  refine (bind_of_ok he).trans ?_
  rw [get_bind_apply]
  change EStateM.Result.ok (trim (bindings.foldl (fun text b => placement.apply text b.1 b.2)
    (String.join texts ++ String.join
      ((((bindRow bindings c).queue ++ waiting).drop (bindRow bindings c).queue.length).map
        fun fragment => "\n" ++ trim fragment))))
    { bindRow bindings c with
      queue := ((bindRow bindings c).queue ++ waiting).take (bindRow bindings c).queue.length } = _
  rw [List.drop_left, List.take_left, hj, ← hw, List.map_map]
  rfl

/-- Iterations that all succeed give their texts one after the other. -/
lemma iterate_of_step {step : Nat → Render String} {text : Nat → String}
    {next : Nat → Context → Context} {P : Context → Prop}
    (hs : ∀ i c, P c → step i c = .ok (text i) (next i c)) (hP : ∀ i c, P c → P (next i c))
    (count index : Nat) (hc : P c) :
    iterate step count index c =
      .ok ((List.range' index count).map text)
        ((List.range' index count).foldl (fun c i => next i c) c) := by
  induction count generalizing index c with
  | zero => rfl
  | succ count ih =>
    rw [iterate, bind_of_ok (hs index c hc), bind_of_ok (ih (index + 1) (hP index c hc))]
    rfl

/-- Rows of one name bind it again and again. -/
lemma foldl_bindRow (name : String) (values : List String) (c : Context) :
    values.foldl (fun c value => bindRow [(name, value)] c) c =
      { c with symbols := c.symbols.rebind name values } := by
  induction values generalizing c with
  | nil => rfl
  | cons value values ih =>
    rw [List.foldl_cons, ih]
    rfl

/-- After a loop over rows of a new name the state is the one before it. -/
lemma leaveLoop_bindRow {name : String} (h : Variable.bareName name ∉ c.symbols.names)
    (values : List String) :
    leaveLoop c.bound.length [name]
      (values.foldl (fun c value => bindRow [(name, value)] c)
        (enterLoop .interpolated [name] c)) = c := by
  rw [foldl_bindRow]
  simp [leaveLoop, enterLoop, SymbolTable.remove_rebind h]

/-- A loop that gives no text makes no fragment wait. -/
lemma enqueue_unless_empty (fragment : String) (c : Context) :
    (if fragment ≠ "" then modify (Context.enqueue fragment) else pure ⟨⟩ : Render PUnit) c =
      .ok ⟨⟩ (c.enqueueAll ([fragment].filter (· ≠ ""))) := by
  split
  · next hne =>
    rw [List.filter_cons_of_pos (by simpa using hne)]
    rfl
  · next he =>
    rw [List.filter_cons_of_neg (by simpa using he)]
    exact congrArg _ (Context.enqueueAll_nil c).symm

/-- The integers from one up to another. -/
def integers (lower upper : Int) : List Int :=
  (List.range (upper - lower + 1).toNat).map fun i : Nat => lower + i

/-- The fragment that a loop makes wait. -/
def loopFragment (indent : String) (path : List String) (rules : Body) (name : String)
    (ks : List Int) : String :=
  "\n".intercalate (ks.map fun k =>
    trim (interpolate (rules.iterationText indent path) name (toString k)))

/-- A loop over rules succeeds and makes its fragment wait. -/
lemma unroll_of_written {loopBody : Node} {rules : Body} (hk : loopBody.kind = .block)
    (h : Written loopBody.children rules) (hr : ∀ node ∈ loopBody.children, node.kind = .rule)
    (hd : c.depth + rules.nesting ≤ c.options.maxDepth.toNat) {name : String}
    (hn : Variable.bareName name ∉ c.symbols.names) (lower upper : Int) :
    unroll (block loopBody) .interpolated [name] (.range lower upper) c =
      .ok ⟨⟩ (c.enqueueAll ([loopFragment c.options.indent c.ancestors rules name
        (integers lower upper)].filter (· ≠ ""))) := by
  have step (i : Nat) (m : Context)
      (hm : m.options = c.options ∧ m.ancestors = c.ancestors ∧ m.depth = c.depth) :
      iteration (block loopBody) .interpolated ([name].zip ((Rows.range lower upper).row i)) m =
        .ok (trim (interpolate (rules.iterationText c.options.indent c.ancestors) name
          (toString (lower + i)))) (bindRow [(name, toString (lower + i))] m) := by
    rw [← hm.1, ← hm.2.1]
    exact iteration_of_composed hk (h.composed _) hr (by rw [hm.1, hm.2.2]; omega) .interpolated
  have rounds := iterate_of_step (c := enterLoop .interpolated [name] c) step (fun i m hm => hm)
    (Rows.range lower upper).count 0 ⟨rfl, rfl, rfl⟩
  have left := leaveLoop_bindRow hn ((integers lower upper).map toString)
  rw [integers, List.map_map, List.foldl_map, List.range_eq_range'] at left
  have done := ensuring_eq_ok_iff.2 ⟨_, rounds, left⟩
  rw [unroll, get_bind_apply, modify_bind_apply]
  refine (bind_of_ok done).trans ?_
  have texts : (List.range' 0 (Rows.range lower upper).count).map (fun i : Nat =>
      trim (interpolate (rules.iterationText c.options.indent c.ancestors) name
        (toString (lower + i)))) = (integers lower upper).map fun k =>
      trim (interpolate (rules.iterationText c.options.indent c.ancestors) name (toString k)) := by
    rw [integers, List.map_map, List.range_eq_range']
    rfl
  rw [texts]
  exact enqueue_unless_empty _ c

end Render

/-! ### Names and integers -/

namespace Text

/-- A digit is no blank. -/
lemma not_isBlank_of_isDigit {c : Char} (h : c.isDigit = true) : ¬isBlank c := by
  simp only [Char.isDigit, Bool.and_eq_true, decide_eq_true_eq] at h
  have hl : 48 ≤ c.toNat := UInt32.le_iff_toNat_le.1 h.1
  have hu : c.toNat ≤ 57 := UInt32.le_iff_toNat_le.1 h.2
  simp only [isBlank, Bool.or_eq_true, Bool.and_eq_true, decide_eq_true_eq, beq_iff_eq]
  omega

/-- A number is written in digits. -/
lemma isDigit_of_mem_toString {n : Nat} {c : Char} (h : c ∈ (toString n).toList) :
    c.isDigit = true := by
  rw [Nat.toString_eq_repr, Nat.toList_repr] at h
  exact Nat.isDigit_of_mem_toDigits (by decide) (by decide) h

/-- An integer is written with digits and a sign. -/
lemma mem_toString_int {n : Int} {c : Char} (h : c ∈ (toString n).toList) :
    c = '-' ∨ c.isDigit = true := by
  cases n with
  | ofNat m => exact .inr (isDigit_of_mem_toString h)
  | negSucc m =>
    change c ∈ ("-" ++ toString (m + 1)).toList at h
    rw [String.toList_append, List.mem_append] at h
    obtain h | h := h
    · exact .inl (by simpa using h)
    · exact .inr (isDigit_of_mem_toString h)

/-- A number is not written as nothing. -/
lemma toString_int_ne_empty (n : Int) : (toString n).toList ≠ [] := by
  cases n with
  | ofNat m =>
    change (toString m).toList ≠ []
    rw [Nat.toString_eq_repr, Nat.toList_repr]
    exact Nat.toDigits_ne_nil
  | negSucc m =>
    change ("-" ++ toString (m + 1)).toList ≠ []
    simp

/-- A number that is written is solid. -/
lemma solid_int (n : Int) : Solid (toString n).toList := by
  have solid (c : Char) (hc : c ∈ (toString n).toList) :
      ¬isBlank c ∧ c ≠ Selector.parentMark := by
    obtain rfl | hd := mem_toString_int hc
    · decide
    · refine ⟨not_isBlank_of_isDigit hd, ?_⟩
      rintro rfl
      exact absurd hd (by decide)
  exact {
    ne_nil := toString_int_ne_empty n
    head := fun c hc => (solid c (List.mem_of_mem_head? hc)).1
    last := fun c hc => (solid c (List.mem_of_getLast? hc)).1
    unmarked := fun h => (solid _ h).2 rfl }

end Text

/-- A name with its sigil is the name of the same variable. -/
lemma Variable.bareName_sigilName (reference : String) :
    bareName (sigilName reference) = bareName reference := by
  have hb : (bareName reference).toList =
      (Text.trimChars reference.toList).dropWhile (· == '$') := by
    simp [bareName]
  have ht : Text.Trimmed (sigilName reference) := by
    obtain ⟨front, hf⟩ := List.dropWhile_suffix (l := Text.trimChars reference.toList) (· == '$')
    constructor <;> intro c hc <;> rw [Text.toList_sigilName] at hc
    · obtain rfl : '$' = c := by simpa using hc
      decide
    · cases hl : (bareName reference).toList.getLast? with
      | none =>
        obtain rfl : '$' = c := by simpa [List.getLast?_cons, hl] using hc
        decide
      | some d =>
        obtain rfl : d = c := by simpa [List.getLast?_cons, hl] using hc
        refine (Text.trimmed_trim reference).last d ?_
        rw [Text.toList_trim, ← hf, ← hb, List.getLast?_append, hl]
        rfl
  rw [bareName, ← Text.toList_trim, ht.trim_eq, Text.toList_sigilName,
    List.dropWhile_cons_of_pos (by simp), hb, List.dropWhile_idempotent, ← hb, String.ofList_toList]

/-- The counter of a loop can be replaced by an integer. -/
lemma fillable_int {reference : String}
    (h : Selector.parentMark ∉ (Variable.bareName reference).toList) (n : Int) :
    Fillable (Variable.sigilName reference) (toString n) := by
  have hs := Text.toList_sigilName reference
  exact ⟨⟨_, hs⟩, Text.solid_placeholder hs h, Text.solid_int n,
    Text.ample_unbraced.numeric.over_int n⟩

/-! ### The texts of iterations -/

namespace Body

open Text

variable {name value indent indent' : String} {rules copy : Body}

/-- The replacement at the end of an iteration gives the text of the copy. -/
lemma interpolate_iterationText (hf : Fillable name value)
    (hi : Alike (fun _ : Unit => (placeholder name).toList) (fun _ => value.toList) indent indent')
    (h : Rel (Fills name value) (Fills name value) rules copy) :
    interpolate (rules.iterationText indent []) name value = copy.iterationText indent' [] := by
  obtain ⟨word, hn⟩ := hf.sigil
  refine Alike.interpolate_eq hn (Alike.append (.join ?_) (.join ?_))
  · rw [List.forall₂_map_left_iff, List.forall₂_map_right_iff]
    exact (h.outer .nil).imp fun r r' hr => hr.alike_fragment hf hi
  · rw [List.forall₂_map_left_iff, List.forall₂_map_right_iff]
    refine (h.inner .nil).imp fun r r' hr => ?_
    exact (Alike.refl_of_not_mem (by decide)).append
      ((hr.alike_fragment hf hi).trim (fun _ => hf.solidName) fun _ => hf.solidValue)

/-- The text of an iteration is the blocks of the unrolled copy. -/
lemma blocked_iterationText (hi : Over unbraced indent)
    (h : Rel (Fills name value) (Fills name value) rules copy) :
    Blocked (copy.unrolled.map (·.asBlock indent)) (copy.iterationText indent []) := by
  have outer := forall_mem_of_forall₂ (fun hr => hr.blocked_fragment hi) (h.outer .nil)
  have inner := forall_mem_of_forall₂ (fun hr => hr.blocked_fragment hi) (h.inner .nil)
  have ho := Blocked.join outer
  have hw := Blocked.join fun r hr => (inner r hr).trim.blank_append blank_newline
  rw [unrolled, List.map_append, List.map_eq_flatMap, List.map_eq_flatMap]
  exact ho.append hw

end Body

end Stylesheet
