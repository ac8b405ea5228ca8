import Stylesheet.Proofs.Composition
import Stylesheet.Proofs.Substitution
import Mathlib.Data.List.Forall2

/-!
# Texts with words left open

Two texts are alike if they differ only in the words that stand in certain places: the placeholder
of a name in the one, its value in the other. What is made of texts by trimming them, joining them
and placing selectors under each other does not look into these words, so it keeps texts alike.
Where there is one name, one replacement makes the second text of the first
(`Alike.interpolate_eq`).
-/

namespace Stylesheet.Text

/-- A text in which some places are left open, each with a label. -/
abbrev Template (ι : Type) := List (Char ⊕ ι)

namespace Template

variable {ι : Type}

/-- The text with words in the open places. -/
def spell (word : ι → List Char) : Template ι → List Char
  | [] => []
  | .inl c :: t => c :: spell word t
  | .inr i :: t => word i ++ spell word t

/-- A place holds a blank. -/
def isBlankAt (place : Char ⊕ ι) : Bool := place.elim isBlank fun _ => false

/-- A template without the blanks at its two ends. -/
def trimmed (t : Template ι) : Template ι :=
  ((t.dropWhile isBlankAt).reverse.dropWhile isBlankAt).reverse

/-- A template with another in the place of each parent mark. -/
def filled (parent t : Template ι) : Template ι :=
  t.flatMap fun place =>
    place.elim (fun c => if c = Selector.parentMark then parent else [.inl c]) fun i => [.inr i]

variable {word : ι → List Char} {s t : Template ι} {c : Char}

/-- The first character of a template is filled on its own. -/
lemma filled_cons (parent : Template ι) (c : Char) (t : Template ι) :
    filled parent (.inl c :: t) =
      (if c = Selector.parentMark then parent else [.inl c]) ++ filled parent t :=
  List.flatMap_cons

/-- The parts of a template are spelled on their own. -/
lemma spell_append (word : ι → List Char) (s t : Template ι) :
    spell word (s ++ t) = spell word s ++ spell word t := by
  induction s with
  | nil => rfl
  | cons place s ih => cases place <;> simp [spell, ih]

/-- The words in the open places that a template has decide its text. -/
lemma spell_congr {word' : ι → List Char} (h : ∀ i, .inr i ∈ t → word i = word' i) :
    spell word t = spell word' t := by
  induction t with
  | nil => rfl
  | cons place t ih =>
    have ih := ih fun i hi => h i (List.mem_cons_of_mem _ hi)
    cases place with
    | inl c => rw [spell, spell, ih]
    | inr i => rw [spell, spell, ih, h i List.mem_cons_self]

/-- Characters are spelled as they are. -/
@[simp] lemma spell_map_inl (word : ι → List Char) (cs : List Char) :
    spell word (cs.map .inl) = cs := by
  induction cs with
  | nil => rfl
  | cons c cs ih => simp [spell, ih]

/-- A template is spelled from the other side with its words reversed. -/
lemma reverse_spell (word : ι → List Char) (t : Template ι) :
    (spell word t).reverse = spell (fun i => (word i).reverse) t.reverse := by
  induction t with
  | nil => rfl
  | cons place t ih => cases place <;> simp [spell, spell_append, ih]

/-- A template without empty words is spelled as nothing exactly if it is empty. -/
lemma spell_eq_nil_iff (hw : ∀ i, word i ≠ []) : spell word t = [] ↔ t = [] := by
  cases t with
  | nil => simp [spell]
  | cons place t => cases place <;> simp [spell, hw]

/-- A character that is spelled is one of a word or of the template. -/
lemma mem_spell (h : c ∈ spell word t) : (∃ i, c ∈ word i) ∨ .inl c ∈ t := by
  induction t with
  | nil => cases h
  | cons place t ih =>
    cases place with
    | inr i =>
      obtain h | h := List.mem_append.1 h
      · exact .inl ⟨i, h⟩
      · exact (ih h).imp_right (List.mem_cons_of_mem _)
    | inl d =>
      obtain rfl | h := List.mem_cons.1 h
      · exact .inr List.mem_cons_self
      · exact (ih h).imp_right (List.mem_cons_of_mem _)

/-- The characters of a template are spelled. -/
lemma mem_spell_of_mem (h : .inl c ∈ t) : c ∈ spell word t := by
  induction t with
  | nil => cases h
  | cons place t ih =>
    obtain rfl | ht := List.mem_cons.1 h
    · exact List.mem_cons_self
    · cases place with
      | inr i => exact List.mem_append_right _ (ih ht)
      | inl d => exact List.mem_cons_of_mem _ (ih ht)

/-- A character that is left was in the template. -/
lemma mem_trimmed (h : .inl c ∈ trimmed t) : .inl c ∈ t := by
  have h := (List.dropWhile_sublist _).subset (List.mem_reverse.1 h)
  exact (List.dropWhile_sublist _).subset (List.mem_reverse.1 h)

/-- A character of a filled template is one of the parent or of the template. -/
lemma mem_filled {parent : Template ι} (h : .inl c ∈ filled parent t) :
    .inl c ∈ parent ∨ .inl c ∈ t := by
  obtain ⟨place, hp, h⟩ := List.mem_flatMap.1 h
  cases place with
  | inr i => simp at h
  | inl d =>
    dsimp only [Sum.elim_inl] at h
    split at h
    · exact .inl h
    · rw [List.mem_singleton.1 h]
      exact .inr hp

end Template

/-- A word that can stand in an open place: it neither starts nor ends with a blank and holds no
parent mark. -/
structure Solid (word : List Char) : Prop where
  ne_nil : word ≠ []
  head : ∀ c ∈ word.head?, ¬isBlank c
  last : ∀ c ∈ word.getLast?, ¬isBlank c
  unmarked : Selector.parentMark ∉ word

namespace Template

variable {ι : Type} {word : ι → List Char} {s t : Template ι}

/-- Blanks in front of a template are those in front of its spelling. -/
lemma dropWhile_spell (hn : ∀ i, word i ≠ []) (hh : ∀ i, ∀ c ∈ (word i).head?, ¬isBlank c)
    (t : Template ι) :
    (spell word t).dropWhile isBlank = spell word (t.dropWhile isBlankAt) := by
  induction t with
  | nil => rfl
  | cons place t ih =>
    cases place with
    | inr i =>
      obtain ⟨c, rest, hw⟩ := List.exists_cons_of_ne_nil (hn i)
      have hc : isBlank c = false := by simpa using hh i c (by simp [hw])
      simp [spell, isBlankAt, hw, hc]
    | inl c =>
      cases hc : isBlank c with
      | true => simpa [spell, isBlankAt, hc] using ih
      | false => simp [spell, isBlankAt, hc]

/-- The words do not count when a text is trimmed. -/
lemma trimChars_spell (hw : ∀ i, Solid (word i)) (t : Template ι) :
    trimChars (spell word t) = spell word t.trimmed := by
  have hl (i : ι) : ∀ c ∈ (word i).reverse.head?, ¬isBlank c := by
    rw [List.head?_reverse]
    exact (hw i).last
  rw [trimChars, dropWhile_spell (fun i => (hw i).ne_nil) fun i => (hw i).head, reverse_spell,
    dropWhile_spell (fun i => by simpa using (hw i).ne_nil) hl, reverse_spell]
  simp only [List.reverse_reverse]
  rfl

/-- The words do not count when a selector is filled. -/
lemma fill_spell (hw : ∀ i, Solid (word i)) (parent t : Template ι) :
    Selector.fill (spell word parent) (spell word t) = spell word (filled parent t) := by
  induction t with
  | nil => rfl
  | cons place t ih =>
    cases place with
    | inr i =>
      rw [spell, Selector.fill_append, Selector.fill_eq_self (hw i).unmarked, ih]
      rfl
    | inl c =>
      rw [spell, Selector.fill_cons, ih, filled_cons, spell_append]
      by_cases hc : c = Selector.parentMark
      · simp [hc]
      · simp [hc, spell]

/-- The parent mark is spelled exactly if it is in the template. -/
lemma mark_mem_spell_iff (hw : ∀ i, Solid (word i)) :
    Selector.parentMark ∈ spell word t ↔ .inl Selector.parentMark ∈ t := by
  constructor
  · intro h
    obtain ⟨i, h⟩ | h := mem_spell h
    · exact absurd h (hw i).unmarked
    · exact h
  · exact mem_spell_of_mem

end Template

/-! ### Texts that are alike -/

/-- Two texts are alike: they differ only in the words `v` and `w` in places of which the second
writes the latter. Outside of these words there is no sigil. -/
def Alike {ι : Type} (v w : ι → List Char) (s t : String) : Prop :=
  ∃ a : Template ι, .inl '$' ∉ a ∧ s.toList = a.spell v ∧ t.toList = a.spell w

namespace Alike

variable {ι : Type} {v w : ι → List Char} {s t s' t' : String}

/-- A text without sigils is like itself. -/
lemma refl_of_not_mem (h : '$' ∉ s.toList) : Alike v w s s := by
  refine ⟨s.toList.map .inl, ?_, ?_, ?_⟩
  · simpa using h
  · rw [Template.spell_map_inl]
  · rw [Template.spell_map_inl]

/-- Texts that are alike are so one after the other. -/
lemma append (h : Alike v w s t) (h' : Alike v w s' t') : Alike v w (s ++ s') (t ++ t') := by
  obtain ⟨a, ha, hs, ht⟩ := h
  obtain ⟨b, hb, hs', ht'⟩ := h'
  refine ⟨a ++ b, by simp [ha, hb], ?_, ?_⟩
  · rw [String.toList_append, hs, hs', Template.spell_append]
  · rw [String.toList_append, ht, ht', Template.spell_append]

/-- Texts that are alike are so when they are joined. -/
lemma join {texts texts' : List String} (h : List.Forall₂ (Alike v w) texts texts') :
    Alike v w (String.join texts) (String.join texts') := by
  induction h with
  | nil => exact refl_of_not_mem (by simp)
  | cons h _ ih =>
    rw [String.join_cons, String.join_cons]
    exact h.append ih

/-- Texts that are alike are so with a separator between them. -/
lemma intercalate {sep : String} {texts texts' : List String} (hsep : '$' ∉ sep.toList)
    (h : List.Forall₂ (Alike v w) texts texts') :
    Alike v w (sep.intercalate texts) (sep.intercalate texts') := by
  induction h with
  | nil => exact refl_of_not_mem (by simp)
  | cons h hs ih =>
    cases hs with
    | nil => simpa using h
    | cons _ _ =>
      rw [String.intercalate_cons_cons, String.intercalate_cons_cons]
      exact (h.append (refl_of_not_mem hsep)).append ih

variable (hv : ∀ i, Solid (v i)) (hw : ∀ i, Solid (w i))
include hv hw

/-- Texts that are alike are both empty or both not. -/
lemma eq_empty_iff (h : Alike v w s t) : s = "" ↔ t = "" := by
  obtain ⟨a, -, hs, ht⟩ := h
  rw [← String.toList_eq_nil_iff, ← String.toList_eq_nil_iff, hs, ht,
    Template.spell_eq_nil_iff fun i => (hv i).ne_nil,
    Template.spell_eq_nil_iff fun i => (hw i).ne_nil]

/-- Texts that are alike are so without the blanks at their ends. -/
lemma trim (h : Alike v w s t) : Alike v w (trim s) (trim t) := by
  obtain ⟨a, ha, hs, ht⟩ := h
  refine ⟨a.trimmed, fun h => ha (Template.mem_trimmed h), ?_, ?_⟩
  · rw [toList_trim, hs, Template.trimChars_spell hv]
  · rw [toList_trim, ht, Template.trimChars_spell hw]

/-- Texts that are alike both have the parent mark or both do not. -/
lemma mark_mem_iff (h : Alike v w s t) :
    Selector.parentMark ∈ s.toList ↔ Selector.parentMark ∈ t.toList := by
  obtain ⟨a, -, hs, ht⟩ := h
  rw [hs, ht, Template.mark_mem_spell_iff hv, Template.mark_mem_spell_iff hw]

/-- Selectors that are alike are so with parents that are alike in them. -/
lemma fill {parent parent' : String} (hp : Alike v w parent parent') (h : Alike v w s t) :
    Alike v w (String.ofList (Selector.fill parent.toList s.toList))
      (String.ofList (Selector.fill parent'.toList t.toList)) := by
  obtain ⟨p, hp, hps, hpt⟩ := hp
  obtain ⟨a, ha, hs, ht⟩ := h
  refine ⟨Template.filled p a, fun h => (Template.mem_filled h).elim hp ha, ?_, ?_⟩
  · rw [String.toList_ofList, hps, hs, Template.fill_spell hv]
  · rw [String.toList_ofList, hpt, ht, Template.fill_spell hw]

/-- Selectors that are alike are so when they are composed. -/
lemma compose {parent parent' : String} (hp : Alike v w parent parent') (h : Alike v w s t) :
    Alike v w (Selector.compose parent s) (Selector.compose parent' t) := by
  have ht := h.trim hv hw
  unfold Selector.compose
  dsimp only
  by_cases hm : Selector.parentMark ∈ (Text.trim s).toList
  · rw [if_pos hm, if_pos ((ht.mark_mem_iff hv hw).1 hm)]
    exact hp.fill hv hw ht
  · rw [if_neg hm, if_neg (fun hm' => hm ((ht.mark_mem_iff hv hw).2 hm'))]
    by_cases he : parent = ""
    · rw [if_pos he, if_pos ((hp.eq_empty_iff hv hw).1 he)]
      exact ht
    · rw [if_neg he, if_neg (fun he' => he ((hp.eq_empty_iff hv hw).2 he'))]
      exact (hp.append (refl_of_not_mem (by decide))).append ht

/-- Selectors that are alike are so when they are composed one after the other. -/
lemma foldl_compose {path path' : List String} (h : List.Forall₂ (Alike v w) path path')
    {parent parent' : String} (hp : Alike v w parent parent') :
    Alike v w (path.foldl Selector.compose parent) (path'.foldl Selector.compose parent') := by
  induction h generalizing parent parent' with
  | nil => exact hp
  | cons h _ ih =>
    rw [List.foldl_cons, List.foldl_cons]
    exact ih (hp.compose hv hw h)

/-- Chains of selectors that are alike are alike. -/
lemma chain {path path' : List String} (h : List.Forall₂ (Alike v w) path path') :
    Alike v w (Selector.chain path) (Selector.chain path') :=
  foldl_compose hv hw h (refl_of_not_mem (by simp))

omit hv hw in
/-- Rules are alike if their selectors and their lines are. -/
lemma block (h : Alike v w s t) (hb : Alike v w s' t') :
    Alike v w (Selector.block s s') (Selector.block t t') :=
  ((h.append (refl_of_not_mem (by decide))).append hb).append (refl_of_not_mem (by decide))

end Alike

/-! ### Placeholders -/

/-- Sigils and braces stand in a text only inside placeholders of a name: none is left where these
are taken out. -/
def isSlotted (name text : String) : Bool :=
  (interpolate text name "").toList.all fun c => c ∉ ['$', '\x7b', '\x7d']

variable {name s t value : String} {word : List Char}

/-- A placeholder is written with its braces. -/
lemma toList_placeholder (hn : name.toList = '$' :: word) :
    (placeholder name).toList = '#' :: ('\x7b' :: ('$' :: word ++ ['\x7d'])) := by
  simp [placeholder, hn]

/-- A placeholder is solid. -/
lemma solid_placeholder (hn : name.toList = '$' :: word) (hm : Selector.parentMark ∉ word) :
    Solid (placeholder name).toList := by
  have hp : (placeholder name).toList = ('#' :: '\x7b' :: '$' :: word) ++ ['\x7d'] := by
    rw [toList_placeholder hn]
    simp
  rw [hp]
  refine ⟨by simp, ?_, ?_, ?_⟩
  · intro c hc
    obtain rfl : '#' = c := by simpa using hc
    decide
  · intro c hc
    rw [List.getLast?_concat] at hc
    obtain rfl : '\x7d' = c := by simpa using hc
    decide
  · simpa [Selector.parentMark] using hm

/-- Interpolating is replacing the placeholder. -/
lemma toList_interpolate (hn : name.toList = '$' :: word) (s value : String) :
    (interpolate s name value).toList =
      replaceEach '#' ('\x7b' :: ('$' :: word ++ ['\x7d'])) (fun _ => value.toList) s.toList := by
  rw [interpolate, replaceAll, toList_placeholder hn]
  simp

/-- The open places of a text are those of the pattern that is replaced in it. -/
lemma exists_template (p : Char) (ps cs : List Char) :
    ∃ a : Template Unit, cs = a.spell (fun _ => p :: ps) ∧
      ∀ value, replaceEach p ps (fun _ => value) cs = a.spell fun _ => value := by
  induction cs using pattern_induction p ps with
  | nil => exact ⟨[], rfl, fun value => replaceEach_nil⟩
  | found rest ih =>
    obtain ⟨a, ha, hr⟩ := ih
    refine ⟨.inr () :: a, ?_, fun value => ?_⟩
    · rw [Template.spell, ← ha]
    · rw [replaceEach_found, hr, Template.spell]
  | copy c cs hc ih =>
    obtain ⟨a, ha, hr⟩ := ih
    refine ⟨.inl c :: a, ?_, fun value => ?_⟩
    · rw [Template.spell, ← ha]
    · rw [replaceEach_copy hc, hr, Template.spell]

/-- The sigil of a word, if it has any, does not stand at its start: there are two characters before
it. -/
structure Template.Late (word : List Char) : Prop where
  ne_nil : word ≠ []
  sigil : '$' ∉ word.take 2

/-- Where a template has no sigil and those of its words come late, no sigil stands among the first
two characters. -/
lemma Template.sigil_not_mem_take {ι : Type} {word : ι → List Char} {a : Template ι}
    (hw : ∀ i, Late (word i)) (ha : .inl '$' ∉ a) : '$' ∉ (a.spell word).take 2 := by
  -- At most one of the first two characters is taken from the rest of the template.
  have head (a : Template ι) (ha : .inl '$' ∉ a) : '$' ∉ (a.spell word).take 1 := by
    cases a with
    | nil => simp [spell]
    | cons place a =>
      cases place with
      | inl c =>
        rw [List.mem_cons, not_or] at ha
        simpa [spell] using fun h => ha.1 (congrArg Sum.inl h)
      | inr i =>
        obtain ⟨c, rest, hc⟩ := List.exists_cons_of_ne_nil (hw i).ne_nil
        have := (hw i).sigil
        rw [hc] at this
        simp only [spell, hc, List.cons_append, List.take_succ_cons, List.take_zero,
          List.mem_cons, List.not_mem_nil, or_false] at this ⊢
        exact fun h => this (.inl h)
  cases a with
  | nil => simp [spell]
  | cons place a =>
    have ha' : .inl '$' ∉ a := fun h => ha (List.mem_cons_of_mem _ h)
    cases place with
    | inl c =>
      rw [List.mem_cons, not_or] at ha
      rw [spell, List.take_succ_cons, List.mem_cons, not_or]
      exact ⟨fun h => ha.1 (congrArg Sum.inl h), head a ha'⟩
    | inr i =>
      have late := (hw i).sigil
      obtain ⟨c, rest, hc⟩ := List.exists_cons_of_ne_nil (hw i).ne_nil
      rw [hc] at late
      rw [spell, hc, List.cons_append, List.take_succ_cons, List.mem_cons, not_or]
      rw [List.take_succ_cons, List.mem_cons, not_or] at late
      refine ⟨late.1, ?_⟩
      cases rest with
      | nil => exact head a ha'
      | cons d rest => exact late.2

/-- Where a template has no sigil and those of its words come late, no placeholder starts with a
character before it. -/
lemma Template.not_prefix_spell {ι : Type} {word : ι → List Char} {pattern tail : List Char}
    {c : Char} {a : Template ι} (hp : pattern = '#' :: '\x7b' :: '$' :: tail)
    (hw : ∀ i, Late (word i)) (ha : .inl '$' ∉ a) : ¬pattern <+: c :: a.spell word := by
  rintro ⟨rest, hr⟩
  rw [hp, List.cons_append, List.cons_append, List.cons_append] at hr
  refine sigil_not_mem_take hw ha ?_
  rw [← (List.cons.inj hr).2]
  simp

/-- A placeholder does not start again inside of itself. -/
lemma late_placeholder (hn : name.toList = '$' :: word) :
    Template.Late (placeholder name).toList := by
  rw [toList_placeholder hn]
  exact ⟨by simp, by simp⟩

/-- The replacement makes the one of two texts that are alike into the other. -/
lemma Alike.interpolate_eq (hn : name.toList = '$' :: word)
    (h : Alike (fun _ : Unit => (placeholder name).toList) (fun _ => value.toList) s t) :
    interpolate s name value = t := by
  obtain ⟨a, ha, hs, ht⟩ := h
  rw [← String.toList_inj, toList_interpolate hn, hs, ht]
  have hp := toList_placeholder hn
  have late := late_placeholder hn
  generalize (placeholder name).toList = pattern at hp late
  clear hs ht
  induction a with
  | nil => exact replaceEach_nil
  | cons place a ih =>
    have ih := ih fun h => ha (List.mem_cons_of_mem _ h)
    cases place with
    | inr i =>
      rw [Template.spell, Template.spell, ← ih]
      nth_rewrite 1 [hp]
      exact replaceEach_found _
    | inl c =>
      rw [Template.spell, Template.spell, ← ih]
      refine replaceEach_copy ?_
      rw [← hp]
      exact Template.not_prefix_spell hp (fun _ => late) fun h => ha (List.mem_cons_of_mem _ h)

/-- A text is alike to itself with its placeholders replaced. -/
lemma alike_interpolate (hn : name.toList = '$' :: word) (h : isSlotted name s = true)
    (value : String) :
    Alike (fun _ : Unit => (placeholder name).toList) (fun _ => value.toList) s
      (interpolate s name value) := by
  obtain ⟨a, ha, hr⟩ := exists_template '#' ('\x7b' :: ('$' :: word ++ ['\x7d'])) s.toList
  refine ⟨a, fun hm => ?_, ?_, ?_⟩
  · rw [isSlotted, toList_interpolate hn, hr, List.all_eq_true] at h
    have := h _ (Template.mem_spell_of_mem hm)
    simp at this
  · rw [toList_placeholder hn, ← ha]
  · rw [toList_interpolate hn, hr]

/-- No brace is left in a text once its placeholders are replaced. -/
lemma not_mem_interpolate (hn : name.toList = '$' :: word) (h : isSlotted name s = true) {c : Char}
    (hc : c ∈ ['$', '\x7b', '\x7d']) (hv : c ∉ value.toList) :
    c ∉ (interpolate s name value).toList := by
  obtain ⟨a, ha, hr⟩ := exists_template '#' ('\x7b' :: ('$' :: word ++ ['\x7d'])) s.toList
  rw [isSlotted, toList_interpolate hn, hr, List.all_eq_true] at h
  rw [toList_interpolate hn, hr]
  intro hm
  obtain ⟨-, hw⟩ | hm := Template.mem_spell hm
  · exact hv hw
  · have := h _ (Template.mem_spell_of_mem hm)
    simp [hc] at this

end Stylesheet.Text
