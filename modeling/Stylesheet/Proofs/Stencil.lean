import Stylesheet.Proofs.Simultaneous
import Stylesheet.Proofs.Slots
import Stylesheet.Proofs.Template

/-!
# Stencils

In a stencil, sigils stand only inside whole placeholders, of whatever names. Substituting names one
after the other fills the placeholders of these names and leaves all else, so it makes no difference
if some of them were filled before (`Places.coincide`). A character that is part of neither a
placeholder nor a name cuts a text, and what stands before and after it is substituted apart
(`Coincide.cut`).
-/

namespace Stylesheet.Text

/-- How far a placeholder has been read. -/
inductive Cursor where
  | outside
  | hash
  | brace
  | word
deriving DecidableEq, Repr

/-- In the rest of a text, sigils stand only inside whole placeholders. -/
def isStencilFrom : Cursor → List Char → Bool
  | .word, [] => false
  | _, [] => true
  | .outside, c :: cs => c ≠ '$' && isStencilFrom (if c = '#' then .hash else .outside) cs
  | .hash, c :: cs =>
    c ≠ '$' && isStencilFrom
      (if c = '\x7b' then .brace else if c = '#' then .hash else .outside) cs
  | .brace, c :: cs =>
    isStencilFrom (if c = '$' then .word else if c = '#' then .hash else .outside) cs
  | .word, c :: cs =>
    if c = '\x7d' then isStencilFrom .outside cs else isIdentifier c && isStencilFrom .word cs

/-- Sigils stand in a text only inside whole placeholders. -/
def isStencil (text : String) : Bool := isStencilFrom .outside text.toList

/-- The place of a placeholder. It is marked if the placeholder is filled in one of two texts before
the names are substituted. -/
structure Slot where
  name : String
  isName : IsName name
  isPlaced : Bool

/-- What stands in the place of a placeholder once names are bound to values. The first of several
values of a name counts. -/
def slotText (bindings : List (String × String)) (name : String) : List Char :=
  (bindings.lookup name).elim (placeholder name).toList String.toList

/-- Without values a slot is a placeholder. -/
lemma slotText_nil (name : String) : slotText [] name = (placeholder name).toList := rfl

/-- A name, and a value that can be placed for it. -/
structure Insertable (binding : String × String) : Prop where
  isName : IsName binding.1
  solid : Solid binding.2.toList
  plain : '$' ∉ binding.2.toList

/-- A test for names with values that can be placed for them. -/
def isInsertable (binding : String × String) : Bool :=
  let value := binding.2.toList
  binding.1.toList.head? == some '$' && binding.1.toList.tail.all isIdentifier &&
    !value.isEmpty && value.head?.all (!isBlank ·) && value.getLast?.all (!isBlank ·) &&
    !value.contains Selector.parentMark && !value.contains '$'

/-- What is checked to be insertable is insertable. -/
lemma insertable_of_isInsertable {binding : String × String} (h : isInsertable binding = true) :
    Insertable binding := by
  simp only [isInsertable, Bool.and_eq_true, beq_iff_eq, List.all_eq_true, Bool.not_eq_true',
    List.isEmpty_eq_false_iff, Option.all_eq_true, List.contains_eq_mem,
    decide_eq_false_iff_not] at h
  obtain ⟨⟨⟨⟨⟨⟨sigil, word⟩, nonempty⟩, first⟩, last⟩, unmarked⟩, plain⟩ := h
  refine ⟨⟨binding.1.toList.tail, ?_, word⟩, ⟨nonempty, ?_, ?_, unmarked⟩, plain⟩
  · exact (List.cons_head?_tail sigil).symm
  · intro c hc
    simp [first c hc]
  · intro c hc
    simp [last c hc]

/-- Every placeholder of the names is replaced. -/
def interpolateAll (bindings : List (String × String)) (text : String) : String :=
  bindings.foldl (fun text b => interpolate text b.1 b.2) text

/-! ### Stencils as templates -/

variable {bindings : List (String × String)} {name value s t s' t' : String} {word cs : List Char}
  {c : Char} {placed : Bool}

/-- A text as a template with its placeholders in the open places, which are all marked or not. -/
def Stenciled (placed : Bool) (cs : List Char) : Prop :=
  ∃ a : Template Slot, .inl '$' ∉ a ∧ (∀ i, .inr i ∈ a → i.isPlaced = placed) ∧
    cs = a.spell fun i => slotText [] i.name

namespace Stenciled

/-- The empty text is a stencil. -/
lemma nil : Stenciled placed [] := ⟨[], by simp, by simp, rfl⟩

/-- A character but the sigil goes on a stencil. -/
lemma cons (hc : c ≠ '$') (h : Stenciled placed cs) : Stenciled placed (c :: cs) := by
  obtain ⟨a, ha, hp, rfl⟩ := h
  refine ⟨.inl c :: a, ?_, ?_, rfl⟩
  · simpa [ha] using hc.symm
  · intro i hi
    exact hp i ((List.mem_cons.1 hi).resolve_left (by simp))

/-- A slot goes on a stencil. -/
lemma slot (hw : ∀ c ∈ word, isIdentifier c) (h : Stenciled placed cs) :
    Stenciled placed ('#' :: '\x7b' :: '$' :: word ++ '\x7d' :: cs) := by
  obtain ⟨a, ha, hp, rfl⟩ := h
  have hn : (String.ofList ('$' :: word)).toList = '$' :: word := String.toList_ofList
  refine ⟨.inr ⟨String.ofList ('$' :: word), ⟨word, hn, hw⟩, placed⟩ :: a, ?_, ?_, ?_⟩
  · simpa using ha
  · intro i hi
    obtain hi | hi := List.mem_cons.1 hi
    · cases hi
      rfl
    · exact hp i hi
  · rw [Template.spell, slotText_nil, toList_placeholder hn]
    simp

end Stenciled

/-- The part of a placeholder that has been read, with the start of its name. -/
def Cursor.lead (start : List Char) : Cursor → List Char
  | .outside => []
  | .hash => ['#']
  | .brace => ['#', '\x7b']
  | .word => '#' :: '\x7b' :: '$' :: start

/-- What the cursor has read starts a stencil. -/
lemma stenciled_lead {cursor : Cursor} (h : isStencilFrom cursor cs = true)
    (hw : ∀ c ∈ word, isIdentifier c) : Stenciled placed (cursor.lead word ++ cs) := by
  induction cs generalizing cursor word with
  | nil =>
    cases cursor with
    | outside => exact .nil
    | hash => exact .cons (by decide) .nil
    | brace => exact .cons (by decide) (.cons (by decide) .nil)
    | word => cases h
  | cons c cs ih =>
    cases cursor with
    | outside =>
      rw [isStencilFrom, Bool.and_eq_true, decide_eq_true_eq] at h
      obtain ⟨hc, h⟩ := h
      split at h
      · next hh =>
        subst hh
        exact ih h hw
      · exact .cons hc (ih h hw)
    | hash =>
      rw [isStencilFrom, Bool.and_eq_true, decide_eq_true_eq] at h
      obtain ⟨hc, h⟩ := h
      split at h
      · next hb =>
        subst hb
        exact ih h hw
      · split at h
        · next hh =>
          subst hh
          exact .cons (by decide) (ih h hw)
        · exact .cons (by decide) (.cons hc (ih h hw))
    | brace =>
      rw [isStencilFrom] at h
      split at h
      · next hd =>
        subst hd
        have start : Stenciled placed (Cursor.lead [] .word ++ cs) := ih h (by simp)
        exact start
      · next hd =>
        refine .cons (by decide) (.cons (by decide) ?_)
        split at h
        · next hh =>
          subst hh
          exact ih h hw
        · exact .cons hd (ih h hw)
    | word =>
      rw [isStencilFrom] at h
      split at h
      · next hb =>
        subst hb
        exact .slot hw (ih h hw)
      · rw [Bool.and_eq_true] at h
        have longer : Stenciled placed (Cursor.lead (word ++ [c]) .word ++ cs) :=
          ih h.2 (by simpa [or_imp, forall_and] using ⟨hw, h.1⟩)
        simpa [Cursor.lead] using longer

/-- What is checked to be a stencil is one. -/
lemma stenciled (placed : Bool) (h : isStencil s = true) : Stenciled placed s.toList :=
  show Stenciled placed (Cursor.lead [] .outside ++ s.toList) from stenciled_lead h (by simp)

/-! ### Substitution in a template -/

/-- A slot with a value is the value. -/
lemma slotText_of_some (h : bindings.lookup name = some value) :
    slotText bindings name = value.toList := by
  rw [slotText, h]
  rfl

/-- A slot without a value is a placeholder. -/
lemma slotText_of_none (h : bindings.lookup name = none) :
    slotText bindings name = (placeholder name).toList := by
  rw [slotText, h]
  rfl

/-- A binding after those that bind the name makes no difference. -/
lemma slotText_append_of_some (h : bindings.lookup name = some value)
    (more : List (String × String)) : slotText (bindings ++ more) name = value.toList := by
  rw [slotText, List.lookup_append, h]
  rfl

/-- Values for other names do not matter for a slot. -/
lemma slotText_append_of_none (h : bindings.lookup name = none)
    (more : List (String × String)) : slotText (bindings ++ more) name = slotText more name := by
  rw [slotText, List.lookup_append, h]
  rfl

section

variable (hb : ∀ b ∈ bindings, Insertable b)
include hb

/-- The values that are looked up are insertable. -/
lemma insertable_of_lookup (h : bindings.lookup name = some value) : Insertable (name, value) := by
  obtain ⟨before, after, rfl, -⟩ := List.lookup_eq_some_iff.1 h
  exact hb _ (by simp)

/-- What is in a slot is solid. -/
lemma solid_slotText (hn : IsName name) : Solid (slotText bindings name) := by
  cases hl : bindings.lookup name with
  | none =>
    obtain ⟨word, hw, hi⟩ := hn
    rw [slotText_of_none hl]
    exact solid_placeholder hw (not_mem_of_isIdentifier hi (by decide))
  | some value =>
    rw [slotText_of_some hl]
    exact (insertable_of_lookup hb hl).solid

/-- What is in a slot starts no placeholder. -/
lemma late_slotText (hn : IsName name) : Template.Late (slotText bindings name) := by
  cases hl : bindings.lookup name with
  | none =>
    obtain ⟨word, hw, -⟩ := hn
    rw [slotText_of_none hl]
    exact late_placeholder hw
  | some value =>
    have hv := insertable_of_lookup hb hl
    rw [slotText_of_some hl]
    exact ⟨hv.solid.ne_nil, fun h => hv.plain (List.mem_of_mem_take h)⟩

end

section

variable {form : Form} {other : String} {a : Template Slot} {words : Slot → List Char}

/-- Before a template, no slot of a name starts with a character that is no sigil. -/
lemma not_starts_spell (hw : ∀ i, Template.Late (words i)) (ha : .inl '$' ∉ a) (hn : IsName name)
    (hc : c ≠ '$') : ¬form.Starts name (c :: a.spell words) := by
  obtain ⟨word, hword, -⟩ := hn
  intro h
  cases form with
  | placeholder =>
    obtain ⟨rest, hr⟩ := (Form.starts_placeholder_iff hword).1 h
    have hp : (placeholder name).toList <+: c :: a.spell words := by
      refine ⟨rest, ?_⟩
      rw [hr, toList_placeholder hword]
      simp
    exact Template.not_prefix_spell (toList_placeholder hword) hw ha hp
  | token =>
    obtain ⟨rest, hr, -⟩ := (Form.starts_token_iff hword).1 h
    exact hc (List.cons.inj hr).1

/-- What stands in a slot stays if it is a value or the placeholder of another name. -/
lemma replace_slotText (hb : ∀ b ∈ bindings, Insertable b) (hw : ∀ i, Template.Late (words i))
    (ha : .inl '$' ∉ a) (hn : IsName name) (ho : IsName other)
    (h : bindings.lookup other = none → other ≠ name) :
    form.replace name value (slotText bindings other ++ a.spell words) =
      slotText bindings other ++ form.replace name value (a.spell words) := by
  apply Form.replace_append hn
  intro s hs h0 hst
  cases hl : bindings.lookup other with
  | none =>
    have hs : s <:+ Form.placeholder.written other := by rwa [slotText_of_none hl] at hs
    exact h hl (Form.Starts.inside ho hn rfl hs h0 hst).1.symm
  | some y =>
    rw [slotText_of_some hl] at hs
    -- The characters of the value are characters of a template.
    have plain := (insertable_of_lookup hb hl).plain
    obtain ⟨c, s, rfl⟩ := List.exists_cons_of_ne_nil h0
    have hc : c ≠ '$' := by
      rintro rfl
      exact plain (hs.subset List.mem_cons_self)
    have hs' : '$' ∉ s := fun hm => plain (hs.subset (List.mem_cons_of_mem _ hm))
    have hspell : s ++ a.spell words = Template.spell words (s.map .inl ++ a) := by
      rw [Template.spell_append, Template.spell_map_inl]
    rw [List.cons_append, hspell] at hst
    exact not_starts_spell hw (by simp [hs', ha]) hn hc hst

variable {done : Slot → List (String × String)}

/-- Replacing the placeholders of a name fills those that no earlier name has filled. -/
lemma replace_placeholder_spell (hd : ∀ i, ∀ b ∈ done i, Insertable b) (hn : IsName name)
    (ha : .inl '$' ∉ a) :
    Form.placeholder.replace name value (a.spell fun i => slotText (done i) i.name) =
      a.spell fun i => slotText (done i ++ [(name, value)]) i.name := by
  have late (i : Slot) := late_slotText (hd i) i.isName
  induction a with
  | nil => exact Form.replace_nil hn
  | cons place a ih =>
    rw [List.mem_cons, not_or] at ha
    have ih := ih ha.2
    cases place with
    | inl c =>
      have hc : c ≠ '$' := fun h => ha.1 (congrArg Sum.inl h.symm)
      rw [Template.spell, Form.replace_copy hn (not_starts_spell late ha.2 hn hc), ih]
      rfl
    | inr i =>
      rw [Template.spell, Template.spell]
      cases hl : (done i).lookup i.name with
      | none =>
        by_cases he : i.name = name
        · have hf : slotText (done i ++ [(name, value)]) i.name = value.toList := by
            rw [slotText_append_of_none hl, he]
            exact slotText_of_some List.lookup_cons_self
          rw [hf, slotText_of_none hl, he, ← ih]
          exact Form.replace_slot hn rfl
        · have hf : slotText (done i ++ [(name, value)]) i.name = slotText (done i) i.name := by
            rw [slotText_append_of_none hl, slotText_of_none hl]
            exact slotText_of_none (List.lookup_eq_none_iff.2 (by simpa using he))
          rw [hf, replace_slotText (hd i) late ha.2 hn i.isName fun _ => he, ih]
      | some y =>
        rw [slotText_append_of_some hl, ← slotText_of_some hl,
          replace_slotText (hd i) late ha.2 hn i.isName fun h => by simp [hl] at h, ih]

/-- Where the placeholders of a name are filled, there are no tokens of it. -/
lemma replace_token_spell (hd : ∀ i, ∀ b ∈ done i, Insertable b) (hn : IsName name)
    (hl : ∀ i, (done i).lookup name ≠ none) (ha : .inl '$' ∉ a) :
    Form.token.replace name value (a.spell fun i => slotText (done i) i.name) =
      a.spell fun i => slotText (done i) i.name := by
  have late (i : Slot) := late_slotText (hd i) i.isName
  induction a with
  | nil => exact Form.replace_nil hn
  | cons place a ih =>
    rw [List.mem_cons, not_or] at ha
    have ih := ih ha.2
    cases place with
    | inl c =>
      have hc : c ≠ '$' := fun h => ha.1 (congrArg Sum.inl h.symm)
      rw [Template.spell, Form.replace_copy hn (not_starts_spell late ha.2 hn hc), ih]
    | inr i =>
      have hi : (done i).lookup i.name = none → i.name ≠ name := by
        rintro h rfl
        exact hl i h
      rw [Template.spell, replace_slotText (hd i) late ha.2 hn i.isName hi, ih]

/-- Interpolating is replacing placeholders. -/
lemma toList_interpolate_eq_replace (text name value : String) :
    (interpolate text name value).toList = Form.placeholder.replace name value text.toList := by
  rw [Form.replace, String.ofList_toList]

/-- Substituting is replacing placeholders and then tokens. -/
lemma toList_substitute_eq_replace (text name value : String) :
    (substitute text name value).toList =
      Form.token.replace name value (Form.placeholder.replace name value text.toList) := by
  rw [← toList_interpolate_eq_replace, Form.replace, String.ofList_toList, substitute]

/-- Interpolating a name fills its placeholders. -/
lemma toList_interpolate_spell (hb : Insertable (name, value))
    (hd : ∀ i, ∀ b ∈ done i, Insertable b) (ha : .inl '$' ∉ a)
    (hs : s.toList = a.spell fun i => slotText (done i) i.name) :
    (interpolate s name value).toList =
      a.spell fun i => slotText (done i ++ [(name, value)]) i.name := by
  rw [toList_interpolate_eq_replace, hs, replace_placeholder_spell hd hb.isName ha]

/-- So does substituting it, as there are no tokens. -/
lemma toList_substitute_spell (hb : Insertable (name, value))
    (hd : ∀ i, ∀ b ∈ done i, Insertable b) (ha : .inl '$' ∉ a)
    (hs : s.toList = a.spell fun i => slotText (done i) i.name) :
    (substitute s name value).toList =
      a.spell fun i => slotText (done i ++ [(name, value)]) i.name := by
  have hd' (i : Slot) : ∀ b ∈ done i ++ [(name, value)], Insertable b :=
    List.forall_mem_append.2 ⟨hd i, List.forall_mem_singleton.2 hb⟩
  have bound (i : Slot) : (done i ++ [(name, value)]).lookup name ≠ none := by
    rw [List.lookup_append, List.lookup_cons_self]
    simp
  rw [toList_substitute_eq_replace, hs, replace_placeholder_spell hd hb.isName ha]
  exact replace_token_spell hd' hb.isName bound ha

/-- If each step fills the placeholders of one name, all steps fill those of all names. -/
lemma toList_foldl_spell {step : String → String × String → String}
    (hstep : ∀ {name value s} {done : Slot → List (String × String)}, Insertable (name, value) →
      (∀ i, ∀ b ∈ done i, Insertable b) → (s.toList = a.spell fun i => slotText (done i) i.name) →
      (step s (name, value)).toList =
        a.spell fun i => slotText (done i ++ [(name, value)]) i.name)
    (hb : ∀ b ∈ bindings, Insertable b) (hd : ∀ i, ∀ b ∈ done i, Insertable b)
    (hs : s.toList = a.spell fun i => slotText (done i) i.name) :
    (bindings.foldl step s).toList = a.spell fun i => slotText (done i ++ bindings) i.name := by
  induction bindings generalizing s done with
  | nil => simpa using hs
  | cons b bindings ih =>
    rw [List.forall_mem_cons] at hb
    have hd' (i : Slot) : ∀ b' ∈ done i ++ [b], Insertable b' :=
      List.forall_mem_append.2 ⟨hd i, List.forall_mem_singleton.2 hb.1⟩
    simpa using ih hb.2 hd' (hstep hb.1 hd hs)

/-- Interpolating values fills the slots that are left. -/
lemma toList_interpolateAll (done : Slot → List (String × String))
    (hb : ∀ b ∈ bindings, Insertable b) (hd : ∀ i, ∀ b ∈ done i, Insertable b)
    (ha : .inl '$' ∉ a) (hs : s.toList = a.spell fun i => slotText (done i) i.name) :
    (interpolateAll bindings s).toList = a.spell fun i => slotText (done i ++ bindings) i.name :=
  toList_foldl_spell (fun hb hd hs => toList_interpolate_spell hb hd ha hs) hb hd hs

/-- Substituting values fills the slots that are left. -/
lemma toList_substituteAll (done : Slot → List (String × String))
    (hb : ∀ b ∈ bindings, Insertable b) (hd : ∀ i, ∀ b ∈ done i, Insertable b)
    (ha : .inl '$' ∉ a) (hs : s.toList = a.spell fun i => slotText (done i) i.name) :
    (Mixin.substituteAll bindings s).toList =
      a.spell fun i => slotText (done i ++ bindings) i.name :=
  toList_foldl_spell (fun hb hd hs => toList_substitute_spell hb hd ha hs) hb hd hs

end

/-! ### Texts that coincide -/

/-- Two texts become one when names are substituted. -/
def Coincide (bindings : List (String × String)) (s t : String) : Prop :=
  Mixin.substituteAll bindings s = Mixin.substituteAll bindings t

/-- A text, and the one in which the placeholders in the marked slots are filled. -/
abbrev Places (bindings : List (String × String)) (s t : String) : Prop :=
  Alike (fun i : Slot => slotText [] i.name)
    (fun i : Slot => slotText (if i.isPlaced then bindings else []) i.name) s t

/-- A stencil is one in which no value is placed yet. -/
lemma places_self (h : isStencil s = true) : Places bindings s s := by
  obtain ⟨a, ha, hp, hs⟩ := stenciled false h
  refine ⟨a, ha, hs, hs.trans (Template.spell_congr fun i hi => ?_)⟩
  rw [hp i hi]
  rfl

/-- What is in an empty slot is solid. -/
lemma solid_unplaced (i : Slot) : Solid (slotText [] i.name) :=
  solid_slotText (by simp) i.isName

section

variable (hb : ∀ b ∈ bindings, Insertable b)
include hb

/-- Interpolating places the values in a stencil. -/
lemma places_interpolateAll (h : isStencil s = true) :
    Places bindings s (interpolateAll bindings s) := by
  obtain ⟨a, ha, hp, hs⟩ := stenciled true h
  have ht := toList_interpolateAll (fun _ => []) hb (by simp) ha hs
  refine ⟨a, ha, hs, ht.trans (Template.spell_congr fun i hi => ?_)⟩
  rw [hp i hi]
  rfl

/-- Placeholders may be filled before the names are substituted. -/
lemma Places.coincide (h : Places bindings s t) : Coincide bindings s t := by
  obtain ⟨a, ha, hs, ht⟩ := h
  have hd (i : Slot) : ∀ b ∈ if i.isPlaced then bindings else [], Insertable b := by
    split
    · exact hb
    · simp
  rw [Coincide, ← String.toList_inj, toList_substituteAll (fun _ => []) hb (by simp) ha hs,
    toList_substituteAll _ hb hd ha ht]
  refine Template.spell_congr fun i _ => ?_
  split
  · rw [List.nil_append, slotText, slotText, List.lookup_append, Option.or_self]
  · rfl

/-- What is in a slot is solid, whether or not it is placed. -/
lemma solid_placed (i : Slot) : Solid (slotText (if i.isPlaced then bindings else []) i.name) := by
  refine solid_slotText ?_ i.isName
  split
  · exact hb
  · simp

end

/-! ### Cuts -/

/-- A character that is part of neither a placeholder nor a name. -/
def isCut (c : Char) : Bool := !isIdentifier c && c ∉ ['#', '\x7b', '$', '\x7d']

/-- A text between two others keeps them apart. -/
def cuts (sep : String) : Bool := sep ≠ "" && sep.toList.all isCut

/-- Names are replaced before and after a cut apart. -/
lemma Form.replace_cut (form : Form) (hn : IsName name) (hc : isCut c = true) (value : String)
    (a b : List Char) :
    form.replace name value (a ++ c :: b) =
      form.replace name value a ++ c :: form.replace name value b := by
  obtain ⟨word, hw, hi⟩ := hn
  simp only [isCut, Bool.and_eq_true, Bool.not_eq_true', decide_eq_true_eq, List.mem_cons,
    List.not_mem_nil, or_false, not_or] at hc
  obtain ⟨hident, hash, brace, sigil, closing⟩ := hc
  have hcw : c ∉ word := not_mem_of_isIdentifier hi hident
  cases form with
  | placeholder =>
    rw [replace_placeholder hw, replace_placeholder hw, replace_placeholder hw]
    apply replaceEach_append_cons
    · simp [hash, brace, sigil, closing, hcw]
    · exact fun _ => rfl
  | token =>
    rw [replace_token hw, replace_token hw, replace_token hw]
    apply replaceEach_append_cons
    · simp [sigil, hcw]
    · exact fun rest => tokenValue_append_cons hident rest b

/-- Slots are replaced on both sides of a cut. -/
lemma Form.replace_cuts (form : Form) (hn : IsName name) {sep : List Char}
    (hs : ∀ c ∈ sep, isCut c = true) (h0 : sep ≠ []) (value : String) (a b : List Char) :
    form.replace name value (a ++ sep ++ b) =
      form.replace name value a ++ sep ++ form.replace name value b := by
  induction sep generalizing a with
  | nil => exact absurd rfl h0
  | cons c sep ih =>
    rw [List.forall_mem_cons] at hs
    have hcut := form.replace_cut hn hs.1 value a
    cases sep with
    | nil => simpa using hcut b
    | cons d sep =>
      have := ih hs.2 (by simp) []
      rw [Form.replace_nil hn] at this
      simpa [hcut] using this

/-- Values are substituted on both sides of a cut. -/
lemma substitute_cut (hn : IsName name) {sep : String} (hs : cuts sep = true) (s t : String) :
    substitute (s ++ sep ++ t) name value =
      substitute s name value ++ sep ++ substitute t name value := by
  rw [cuts, Bool.and_eq_true, decide_eq_true_eq, List.all_eq_true] at hs
  have h0 : sep.toList ≠ [] := by simpa [String.toList_eq_nil_iff] using hs.1
  have hcut (form : Form) := form.replace_cuts hn hs.2 h0 value
  rw [← String.toList_inj]
  simp only [toList_substitute_eq_replace, String.toList_append, hcut]

/-- All values are substituted on both sides of a cut. -/
lemma substituteAll_cut (hn : ∀ b ∈ bindings, IsName b.1) {sep : String} (hs : cuts sep = true)
    (s t : String) :
    Mixin.substituteAll bindings (s ++ sep ++ t) =
      Mixin.substituteAll bindings s ++ sep ++ Mixin.substituteAll bindings t := by
  induction bindings generalizing s t with
  | nil => rfl
  | cons b bindings ih =>
    rw [List.forall_mem_cons] at hn
    have hb (text : String) : Mixin.substituteAll (b :: bindings) text =
        Mixin.substituteAll bindings (substitute text b.1 b.2) := rfl
    rw [hb, hb, hb, substitute_cut hn.1 hs, ih hn.2]

/-- In a name that stands alone, no other name is found. -/
lemma Form.replace_name {form : Form} {other : String} (hn : IsName name) (ho : IsName other)
    (h : form = .token → other ≠ name) : form.replace other value name.toList = name.toList := by
  have stays : form.replace other value (name.toList ++ []) =
      name.toList ++ form.replace other value [] := by
    refine Form.replace_append ho fun s hs h0 hst => ?_
    have hs : s <:+ token.written name := hs
    obtain ⟨he, hf | ⟨hf, -⟩⟩ := Starts.inside hn ho rfl hs h0 hst <;> exact h hf he
  rwa [List.append_nil, replace_nil ho, List.append_nil] at stays

/-- A name is no place for the value of another. -/
lemma substitute_name_of_ne {other : String} (hn : IsName name) (ho : IsName other)
    (h : other ≠ name) : substitute name other value = name := by
  rw [← String.toList_inj, toList_substitute_eq_replace, Form.replace_name hn ho fun _ => h,
    Form.replace_name hn ho fun _ => h]

/-- A name is the place for its own value. -/
lemma substitute_name_self (hn : IsName name) : substitute name name value = value := by
  have found : Form.token.replace name value (Form.token.written name ++ []) =
      value.toList ++ Form.token.replace name value [] := Form.replace_slot hn rfl
  rw [Form.replace_nil hn, List.append_nil, List.append_nil] at found
  rw [← String.toList_inj, toList_substitute_eq_replace,
    Form.replace_name hn hn fun h => by cases h]
  exact found

namespace Coincide

/-- A text coincides with itself. -/
lemma refl (s : String) : Coincide bindings s s := rfl

variable (hb : ∀ b ∈ bindings, Insertable b)
include hb

/-- Texts that coincide do so around a cut. -/
lemma cut {sep : String} (hs : cuts sep = true) (h : Coincide bindings s s')
    (ht : Coincide bindings t t') : Coincide bindings (s ++ sep ++ t) (s' ++ sep ++ t') := by
  have hn : ∀ b ∈ bindings, IsName b.1 := fun b hm => (hb b hm).isName
  rw [Coincide, substituteAll_cut hn hs, substituteAll_cut hn hs, h, ht]

/-- Texts that coincide do so with cuts between them. -/
lemma intercalate {sep : String} (hs : cuts sep = true) {texts texts' : List String}
    (h : List.Forall₂ (Coincide bindings) texts texts') :
    Coincide bindings (sep.intercalate texts) (sep.intercalate texts') := by
  induction h with
  | nil => exact refl _
  | cons h hrest ih =>
    cases hrest with
    | nil => simpa using h
    | cons _ _ =>
      rw [String.intercalate_cons_cons, String.intercalate_cons_cons]
      exact cut hb hs h ih

/-- Texts that coincide do so in front of a cut. -/
lemma append_cut {sep : String} (hs : cuts sep = true) (h : Coincide bindings s s') :
    Coincide bindings (s ++ sep) (s' ++ sep) := by
  simpa using cut hb hs h (refl "")

/-- Texts with a cut after each of them. -/
lemma join_append {sep : String} (hs : cuts sep = true) {texts texts' : List String}
    (h : List.Forall₂ (Coincide bindings) texts texts') :
    Coincide bindings (String.join (texts.map (· ++ sep)))
      (String.join (texts'.map (· ++ sep))) := by
  induction h with
  | nil => exact refl _
  | cons h _ ih =>
    rw [List.map_cons, List.map_cons, String.join_cons, String.join_cons]
    exact cut hb hs h ih

/-- A text, and texts with a cut before each of them. -/
lemma append_join {sep : String} (hs : cuts sep = true) {texts texts' : List String}
    (h : Coincide bindings s s') (ht : List.Forall₂ (Coincide bindings) texts texts') :
    Coincide bindings (s ++ String.join (texts.map (sep ++ ·)))
      (s' ++ String.join (texts'.map (sep ++ ·))) := by
  induction ht generalizing s s' with
  | nil => simpa using h
  | cons ht _ ih =>
    have := ih (cut hb hs h ht)
    simpa [String.append_assoc] using this

/-- A value has nothing to substitute. -/
lemma substituteAll_value (h : Insertable (name, value)) :
    Mixin.substituteAll bindings value = value := by
  have hs : value.toList = Template.spell (fun i : Slot => slotText [] i.name)
      (value.toList.map .inl) := by
    rw [Template.spell_map_inl]
  rw [← String.toList_inj, toList_substituteAll _ hb (by simp) (by simpa using h.plain) hs,
    Template.spell_map_inl]

/-- A name that stands alone becomes its value. -/
lemma name_value (h : bindings.lookup name = some value) : Coincide bindings name value := by
  have hv := insertable_of_lookup hb h
  rw [Coincide, substituteAll_value hb hv]
  induction bindings with
  | nil => cases h
  | cons b bindings ih =>
    rw [List.forall_mem_cons] at hb
    change Mixin.substituteAll bindings (substitute name b.1 b.2) = value
    rw [List.lookup_cons] at h
    split at h
    · next he =>
      obtain rfl := Option.some.inj h
      rw [← beq_iff_eq.1 he, substitute_name_self hv.isName, substituteAll_value hb.2 hv]
    · next he =>
      rw [substitute_name_of_ne hv.isName hb.1.isName fun h => by simp [h] at he, ih hb.2 h]

end Coincide

end Stylesheet.Text
