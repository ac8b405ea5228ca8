import Stylesheet.Proofs.Sheet

/-!
# Reading blocks

`Text.blocks` reads a text from left to right and gives its blocks in their order. `Blocked` says
that a text is made of blocks with nothing but blanks around them; then these are the ones that are
read (`Blocked.blocks_eq`).
-/

namespace Stylesheet

namespace Text

/-- The blocks of a list of characters, each its selector without the blanks around it and the text
between its braces. -/
def blocksOf (cs : List Char) : List (String × String) :=
  match _h : cs.dropWhile (· != '\x7b') with
  | [] => []
  | _ :: rest =>
    (String.ofList (trimChars (cs.takeWhile (· != '\x7b'))),
      String.ofList (rest.takeWhile (· != '\x7d'))) ::
      blocksOf (rest.dropWhile (· != '\x7d')).tail
termination_by cs.length
decreasing_by
  have h₁ := (List.dropWhile_sublist (l := cs) (· != '\x7b')).length_le
  have h₂ := (List.dropWhile_sublist (l := rest) (· != '\x7d')).length_le
  rw [_h, List.length_cons] at h₁
  rw [List.length_tail]
  omega

/-- The blocks of a text, in their order. -/
def blocks (text : String) : List (String × String) := blocksOf text.toList

end Text

open Text

/-- A line break is blank. -/
lemma Text.blank_newline : Blank "\n" := by
  intro c hc
  obtain rfl : c = '\n' := by simpa using hc
  decide

/-- Two line breaks are blank. -/
lemma Text.blank_newlines : Blank "\n\n" := by
  intro c hc
  obtain rfl : c = '\n' := by simpa using hc
  decide

/-- A text of blocks with blanks around them. -/
inductive Blocked : List (String × String) → String → Prop where
  | blank {text} :
    Blank text →
    Blocked [] text
  | block {selector body blocks rest} :
    Over unbraced selector →
    Over unbraced body →
    Blocked blocks rest →
    Blocked ((trim selector, body) :: blocks) (selector ++ "\x7b" ++ body ++ "\x7d" ++ rest)

namespace Blocked

variable {bs bs' : List (String × String)} {a b text : String}

/-- The empty text has no blocks. -/
lemma empty : Blocked [] "" := by
  refine .blank fun c hc => ?_
  cases hc

/-- Blanks in front of blocks do not matter. -/
lemma blank_append (ha : Blank a) (h : Blocked bs b) : Blocked bs (a ++ b) := by
  cases h with
  | blank hb =>
    refine .blank fun c hc => ?_
    rw [String.toList_append] at hc
    exact (List.mem_append.1 hc).elim (ha c) (hb c)
  | @block selector body blocks rest hs hb hr =>
    have ht : trim selector = trim (a ++ selector) := by
      rw [trim_eq_trimEnd, trim_eq_trimEnd, trimStart_append_of_blank ha]
    simp only [← String.append_assoc]
    rw [ht]
    exact .block (over_append.2 ⟨unbraced_of_blank ha, hs⟩) hb hr

/-- The blocks of two texts follow each other. -/
lemma append (ha : Blocked bs a) (hb : Blocked bs' b) : Blocked (bs ++ bs') (a ++ b) := by
  induction ha with
  | blank ha => exact hb.blank_append ha
  | block hs hbody _ ih =>
    rw [String.append_assoc]
    exact .block hs hbody ih

/-- Texts of blocks one after the other. -/
lemma join {α : Type} {as : List α} {blocks : α → List (String × String)} {text : α → String}
    (h : ∀ a ∈ as, Blocked (blocks a) (text a)) :
    Blocked (as.flatMap blocks) (String.join (as.map text)) := by
  induction as with
  | nil => exact empty
  | cons a as ih =>
    rw [List.forall_mem_cons] at h
    rw [List.map_cons, String.join_cons, List.flatMap_cons]
    exact h.1.append (ih h.2)

/-- Texts of blocks with blanks between them. -/
lemma intercalate {α : Type} {as : List α} {blocks : α → List (String × String)}
    {text : α → String} {sep : String} (hs : Blank sep)
    (h : ∀ a ∈ as, Blocked (blocks a) (text a)) :
    Blocked (as.flatMap blocks) (sep.intercalate (as.map text)) := by
  induction as with
  | nil => exact empty
  | cons a as ih =>
    rw [List.forall_mem_cons] at h
    cases as with
    | nil => simpa using h.1
    | cons b as =>
      rw [List.map_cons, List.map_cons, String.intercalate_cons_cons, List.flatMap_cons,
        String.append_assoc]
      exact h.1.append ((ih h.2).blank_append hs)

/-- Blanks at the start belong to no block. -/
lemma trimStart (h : Blocked bs text) : Blocked bs (trimStart text) := by
  cases h with
  | @blank text h =>
    refine .blank fun c hc => h c ?_
    rw [Text.trimStart, String.toList_ofList] at hc
    exact (List.dropWhile_sublist _).subset hc
  | @block selector body blocks rest hs hb hr =>
    obtain ⟨blanks, hblank, he⟩ := exists_blank_append_trimStart selector
    have ht : Text.trim selector = Text.trim (Text.trimStart selector) := by
      rw [trim_eq_trimEnd (Text.trimStart selector)]
      nth_rewrite 1 [he]
      rw [trim_eq_trimEnd, trimStart_append_of_blank hblank]
    rw [String.append_assoc, String.append_assoc,
      trimStart_append (show "\x7b".toList = ['\x7b'] by decide) (by decide), ht,
      ← String.append_assoc, ← String.append_assoc]
    exact .block hs.trimStart hb hr

/-- Blanks at the end belong to no block. -/
lemma trimEnd (h : Blocked bs text) : Blocked bs (trimEnd text) := by
  induction h with
  | @blank text h =>
    refine .blank fun c hc => h c ?_
    rw [Text.trimEnd, String.toList_ofList] at hc
    exact List.mem_reverse.1 ((List.dropWhile_sublist _).subset (List.mem_reverse.1 hc))
  | block hs hb _ ih =>
    rw [trimEnd_append (show "\x7d".toList = ['\x7d'] by decide) (by decide)]
    exact .block hs hb ih

/-- Blanks at both ends belong to no block. -/
lemma trim (h : Blocked bs text) : Blocked bs (trim text) := by
  rw [trim_eq_trimEnd]
  exact h.trimStart.trimEnd

/-- The blocks of a text are read in their order. -/
lemma blocks_eq (h : Blocked bs text) : blocks text = bs := by
  induction h with
  | @blank text h =>
    have hn : text.toList.dropWhile (· != '\x7b') = [] := by
      rw [List.dropWhile_eq_nil_iff]
      intro c hc
      simpa using (unbraced_of_blank h c hc).1
    rw [blocks, blocksOf]
    split
    · rfl
    · next hc =>
      rw [hn] at hc
      cases hc
  | @block selector body bs rest hs hb _ ih =>
    have hsel (c : Char) (hc : c ∈ selector.toList) : (c != '\x7b') = true := by
      simpa using (hs c hc).1
    have hbody (c : Char) (hc : c ∈ body.toList) : (c != '\x7d') = true := by
      simpa using (hb c hc).2
    have ht : (selector ++ "\x7b" ++ body ++ "\x7d" ++ rest).toList =
        selector.toList ++ '\x7b' :: (body.toList ++ '\x7d' :: rest.toList) := by
      simp
    rw [blocks, blocksOf, ht]
    split
    · next hc => simp [List.dropWhile_append_of_pos hsel] at hc
    · next c tail hc =>
      rw [List.dropWhile_append_of_pos hsel] at hc
      obtain rfl : body.toList ++ '\x7d' :: rest.toList = tail := by
        simpa using (List.cons.inj hc).2
      rw [List.takeWhile_append_of_pos hsel, List.takeWhile_append_of_pos hbody,
        List.dropWhile_append_of_pos hbody]
      simp [Text.trim, ← ih, blocks]

end Blocked

end Stylesheet
