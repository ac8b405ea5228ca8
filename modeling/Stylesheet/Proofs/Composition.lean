import Stylesheet.Node.Shape
import Stylesheet.Proofs.RuleTree

/-!
# Placing selectors under each other

A selector is placed under two others in one order or the other: under the inner one, and what comes
of it under the outer one, or under what comes of these two. `Selector.compose_assoc` says when that
makes no difference: where the inner selector has a mark for the outer one, or the placed one has
its marks at most at its start. Otherwise the outer selector gets in front of the whole in the first
order, and in the place of each mark in the second.
-/

namespace Stylesheet

namespace Text

/-- A text that neither starts nor ends with a blank. -/
structure Trimmed (s : String) : Prop where
  head : ∀ c ∈ s.toList.head?, ¬isBlank c
  last : ∀ c ∈ s.toList.getLast?, ¬isBlank c

variable {s t : String}

/-- A trimmed text has no blanks at its ends to lose. -/
lemma Trimmed.trim_eq (h : Trimmed s) : trim s = s := trim_eq_self h.head h.last

/-- What is left after the blanks in front does not start with one. -/
lemma not_isBlank_of_head?_dropWhile {cs : List Char} {c : Char}
    (h : c ∈ (cs.dropWhile isBlank).head?) : ¬isBlank c := by
  have := List.head?_dropWhile_not isBlank cs
  rw [h] at this
  simpa using this

/-- The first character of a text with a part in front is that of the part. -/
lemma mem_head?_of_append {a b : List Char} {c : Char} (ha : a ≠ []) (h : c ∈ (a ++ b).head?) :
    c ∈ a.head? := by
  cases a with
  | nil => exact absurd rfl ha
  | cons d a => exact h

/-- What is left of a text without the blanks at its ends is trimmed. -/
lemma trimmed_trim (s : String) : Trimmed (trim s) := by
  have hp : trimChars s.toList <+: s.toList.dropWhile isBlank := by
    rw [← List.reverse_suffix, trimChars, List.reverse_reverse]
    exact List.dropWhile_suffix _
  constructor
  · intro c hc
    rw [toList_trim] at hc
    cases hl : trimChars s.toList with
    | nil =>
      rw [hl] at hc
      cases hc
    | cons d ds =>
      obtain ⟨rest, hr⟩ := hp
      rw [hl] at hc hr
      have hd : c ∈ (s.toList.dropWhile isBlank).head? := by
        rw [← hr]
        exact hc
      exact not_isBlank_of_head?_dropWhile hd
  · intro c hc
    rw [toList_trim, trimChars, List.getLast?_reverse] at hc
    exact not_isBlank_of_head?_dropWhile hc

/-- Trimmed texts that are not empty are trimmed together, with whatever between them. -/
lemma Trimmed.append {a b c : String} (ha : Trimmed a) (hb : Trimmed b) (ha0 : a ≠ "")
    (hb0 : b ≠ "") : Trimmed (a ++ c ++ b) where
  head d hd := by
    have : a.toList ≠ [] := by simpa using ha0
    rw [String.toList_append, String.toList_append, List.append_assoc] at hd
    exact ha.head d (mem_head?_of_append this hd)
  last d hd := by
    have : b.toList.reverse ≠ [] := by simpa using hb0
    rw [String.toList_append, ← List.head?_reverse, List.reverse_append] at hd
    refine hb.last d ?_
    rw [← List.head?_reverse]
    exact mem_head?_of_append this hd

/-- Trimmed texts that are not empty are trimmed with separators between them. -/
lemma trimmed_intercalate {sep : String} {texts : List String}
    (h : ∀ t ∈ texts, Trimmed t ∧ t ≠ "") : Trimmed (sep.intercalate texts) ∧
      (texts ≠ [] → sep.intercalate texts ≠ "") := by
  induction texts with
  | nil => exact ⟨⟨by simp, by simp⟩, by simp⟩
  | cons t texts ih =>
    rw [List.forall_mem_cons] at h
    cases texts with
    | nil => simpa using h.1
    | cons u texts =>
      obtain ⟨hr, hr0⟩ := ih h.2
      rw [String.intercalate_cons_cons]
      refine ⟨h.1.1.append hr h.1.2 (hr0 (by simp)), fun _ he => ?_⟩
      rw [String.append_eq_empty_iff] at he
      exact hr0 (by simp) he.2

end Text

/-- The selector of a rule is trimmed. -/
lemma Node.trimmed_selectorText (group : Node) : Text.Trimmed group.selectorText := by
  unfold selectorText
  split
  · exact Text.trimmed_trim _
  · refine (Text.trimmed_intercalate fun t ht => ?_).1
    obtain ⟨hm, hne⟩ := List.mem_filter.1 ht
    obtain ⟨child, -, rfl⟩ := List.mem_map.1 hm
    exact ⟨Text.trimmed_trim _, by simpa using hne⟩

namespace Selector

open Text

variable {outer parent selector : List Char}

/-- The first character of a selector is filled on its own. -/
lemma fill_cons (c : Char) :
    fill parent (c :: selector) =
      (if c = parentMark then parent else [c]) ++ fill parent selector :=
  List.flatMap_cons

/-- The parts of a selector are filled on their own. -/
lemma fill_append (a b : List Char) : fill parent (a ++ b) = fill parent a ++ fill parent b :=
  List.flatMap_append

/-- A selector without the parent mark is not changed. -/
lemma fill_eq_self (h : parentMark ∉ selector) : fill parent selector = selector := by
  induction selector with
  | nil => rfl
  | cons c selector ih =>
    rw [List.mem_cons, not_or] at h
    rw [fill_cons, if_neg (Ne.symm h.1), ih h.2]
    rfl

/-- Marks are filled in either order. -/
lemma fill_fill (outer parent selector : List Char) :
    fill outer (fill parent selector) = fill (fill outer parent) selector := by
  induction selector with
  | nil => rfl
  | cons c selector ih =>
    rw [fill_cons, fill_append, ih, fill_cons]
    split
    · rfl
    · next hc => rw [fill_eq_self (by simpa using Ne.symm hc)]

/-- The mark is still there if the parent has it. -/
lemma mark_mem_fill (hp : parentMark ∈ parent) (hs : parentMark ∈ selector) :
    parentMark ∈ fill parent selector := by
  refine List.mem_flatMap.2 ⟨parentMark, hs, ?_⟩
  rwa [if_pos rfl]

/-- No mark is left if the parent has none. -/
lemma mark_not_mem_fill (hp : parentMark ∉ parent) : parentMark ∉ fill parent selector := by
  intro h
  obtain ⟨c, -, h⟩ := List.mem_flatMap.1 h
  split at h
  · exact hp h
  · next hc => exact hc (List.mem_singleton.1 h).symm

/-- Filling does not depend on the side that it starts from. -/
lemma reverse_fill (parent selector : List Char) :
    (fill parent selector).reverse = fill parent.reverse selector.reverse := by
  induction selector with
  | nil => rfl
  | cons c selector ih =>
    rw [fill_cons, List.reverse_append, ih, List.reverse_cons, fill_append]
    congr 1
    rw [fill_cons]
    split <;> simp [fill]

/-- A filled selector does not start with a blank if neither the parent nor the selector does. -/
lemma head?_fill (hp : parent ≠ []) (hh : ∀ c ∈ parent.head?, ¬isBlank c)
    (hs : ∀ c ∈ selector.head?, ¬isBlank c) : ∀ c ∈ (fill parent selector).head?, ¬isBlank c := by
  intro c hc
  cases selector with
  | nil => cases hc
  | cons d selector =>
    rw [fill_cons] at hc
    split at hc
    · exact hh c (mem_head?_of_append hp hc)
    · exact hs c hc

variable {o s t : String}

/-- What goes in front of a selector without a mark. -/
def lead (parent : String) : String := if parent = "" then "" else parent ++ " "

/-- A selector that is not empty leads with a blank after it. -/
lemma lead_of_ne_empty (h : s ≠ "") : lead s = s ++ " " := if_neg h

/-- A selector with the parent mark is composed by filling it. -/
lemma toList_compose_of_mem (ht : Trimmed t) (h : parentMark ∈ t.toList) :
    (compose s t).toList = fill s.toList t.toList := by
  simp [compose, ht.trim_eq, h]

/-- A selector without the parent mark is composed by putting the parent in front. -/
lemma compose_of_not_mem (ht : Trimmed t) (h : parentMark ∉ t.toList) :
    compose s t = lead s ++ t := by
  by_cases hs : s = "" <;> simp [compose, lead, ht.trim_eq, h, hs]

/-- A composed selector is trimmed if its parts are. -/
lemma trimmed_compose (hs : Trimmed s) (ht : Trimmed t) (hs0 : s ≠ "") (ht0 : t ≠ "") :
    Trimmed (compose s t) := by
  by_cases h : parentMark ∈ t.toList
  · have hne : s.toList ≠ [] := by simpa using hs0
    constructor
    · rw [toList_compose_of_mem ht h]
      exact head?_fill hne hs.head ht.head
    · rw [toList_compose_of_mem ht h, ← List.head?_reverse, reverse_fill]
      refine head?_fill (by simpa using hne) ?_ ?_
      · rw [List.head?_reverse]
        exact hs.last
      · rw [List.head?_reverse]
        exact ht.last
  · rw [compose_of_not_mem ht h, lead_of_ne_empty hs0]
    exact hs.append ht hs0 ht0

/-- A selector with its marks at most at its start is filled there. -/
lemma fill_of_not_mem_tail (h : parentMark ∈ selector) (ht : parentMark ∉ selector.tail) :
    fill parent selector = parent ++ selector.tail := by
  cases selector with
  | nil => cases h
  | cons c selector =>
    have hc : c = parentMark := by
      rcases List.mem_cons.1 h with h | h
      · exact h.symm
      · exact absurd h ht
    rw [List.tail_cons] at ht ⊢
    rw [fill_cons, if_pos hc, fill_eq_self ht]

/-- A selector with a mark keeps it when another is placed under it, and marks are filled in either
order. -/
lemma compose_assoc_of_mem (hs : Trimmed s) (ht : Trimmed t) (hs0 : s ≠ "") (ht0 : t ≠ "")
    (hos : compose o s ≠ "") (h : parentMark ∈ s.toList) :
    compose o (compose s t) = compose (compose o s) t := by
  have hst := trimmed_compose hs ht hs0 ht0
  rw [← String.toList_inj]
  by_cases hm : parentMark ∈ t.toList
  · have hmark : parentMark ∈ (compose s t).toList := by
      rw [toList_compose_of_mem ht hm]
      exact mark_mem_fill h hm
    rw [toList_compose_of_mem hst hmark, toList_compose_of_mem ht hm, toList_compose_of_mem ht hm,
      toList_compose_of_mem hs h, fill_fill]
  · have hmark : parentMark ∈ (compose s t).toList := by
      rw [compose_of_not_mem ht hm, lead_of_ne_empty hs0]
      simp [h]
    rw [toList_compose_of_mem hst hmark, compose_of_not_mem ht hm, compose_of_not_mem ht hm,
      lead_of_ne_empty hs0, lead_of_ne_empty hos]
    simp only [String.toList_append, fill_append, toList_compose_of_mem hs h, fill_eq_self hm]
    rfl

/-- Nothing but what is in front of it changes in a selector without a mark. -/
lemma compose_assoc_of_not_mem (hs : Trimmed s) (ht : Trimmed t) (hs0 : s ≠ "") (ht0 : t ≠ "")
    (h : parentMark ∉ s.toList) (htail : parentMark ∉ t.toList.tail) :
    compose o (compose s t) = compose (compose o s) t := by
  have hst := trimmed_compose hs ht hs0 ht0
  rw [compose_of_not_mem hs h]
  have hos : lead o ++ s ≠ "" := by simp [hs0]
  by_cases hm : parentMark ∈ t.toList
  · have hmark : parentMark ∉ (compose s t).toList := by
      rw [toList_compose_of_mem ht hm]
      exact mark_not_mem_fill h
    rw [compose_of_not_mem hst hmark, ← String.toList_inj, String.toList_append,
      toList_compose_of_mem ht hm, toList_compose_of_mem ht hm, fill_of_not_mem_tail hm htail,
      fill_of_not_mem_tail hm htail]
    simp
  · have hmark : parentMark ∉ (compose s t).toList := by
      rw [compose_of_not_mem ht hm, lead_of_ne_empty hs0]
      simp only [String.toList_append, List.mem_append, not_or]
      exact ⟨⟨h, by decide⟩, hm⟩
    rw [compose_of_not_mem hst hmark, compose_of_not_mem ht hm, compose_of_not_mem ht hm,
      lead_of_ne_empty hs0, lead_of_ne_empty hos]
    simp only [String.append_assoc]

/-- The order of placing does not matter if the selector in the middle has a mark for the outer one,
or the inner one has none but at its start. -/
lemma compose_assoc (hs : Trimmed s) (ht : Trimmed t) (hs0 : s ≠ "") (ht0 : t ≠ "")
    (hos : compose o s ≠ "") (h : parentMark ∈ s.toList ∨ parentMark ∉ t.toList.tail) :
    compose o (compose s t) = compose (compose o s) t := by
  by_cases hm : parentMark ∈ s.toList
  · exact compose_assoc_of_mem hs ht hs0 ht0 hos hm
  · exact compose_assoc_of_not_mem hs ht hs0 ht0 hm (h.resolve_left hm)

/-! ### Rules -/

/-- A rule is placed by its selector, which ends at the first brace. -/
lemma place_of_not_mem {parent selector rest : String} (h : '\x7b' ∉ selector.toList) :
    place parent (selector ++ "\x7b" ++ rest) = compose parent selector ++ "\x7b" ++ rest := by
  have hl : (selector ++ "\x7b" ++ rest).toList = selector.toList ++ '\x7b' :: rest.toList := by
    simp
  have hs : ∀ c ∈ selector.toList, (!c == '\x7b') = true := by
    intro c hc
    have hne : c ≠ '\x7b' := fun he => h (he ▸ hc)
    simpa using hne
  simp only [place, hl]
  rw [List.dropWhile_append_of_pos hs, List.takeWhile_append_of_pos hs]
  simp only [List.dropWhile_cons, List.takeWhile_cons, beq_self_eq_true, Bool.not_true,
    Bool.false_eq_true, if_false, List.append_nil, String.ofList_toList]
  rw [← String.toList_inj]
  simp

/-- The text of a rule is placed by composing its selector. -/
lemma place_block {parent selector body : String} (h : '\x7b' ∉ selector.toList) :
    place parent (block selector body) = block (compose parent selector) body := by
  rw [block, String.append_assoc, place_of_not_mem h, ← String.append_assoc, block]

end Selector

end Stylesheet
