import Stylesheet.Proofs.Alphabet
import Stylesheet.Proofs.RuleTree

/-!
# Sheets

A sheet is a text of blocks that do not nest, with other text between them. What its parts allow,
the whole allows: sheets are put together, trimmed, and names are replaced in them.
-/

namespace Stylesheet

namespace Text

/-! ### The two ends of a text -/

/-- A text without the blanks at its start. -/
def trimStart (s : String) : String := String.ofList (s.toList.dropWhile isBlank)

/-- A text without the blanks at its end. -/
def trimEnd (s : String) : String := String.ofList (s.toList.reverse.dropWhile isBlank).reverse

/-- All characters of a text are blank. -/
def Blank (s : String) : Prop := ∀ c ∈ s.toList, isBlank c

variable {a b s : String} {sep : Char}

/-- A text is cut at its end after it is at its start. -/
lemma trim_eq_trimEnd (s : String) : trim s = trimEnd (trimStart s) := by
  simp [trim, trimEnd, trimStart, trimChars]

/-- Blanks in front of a text do not matter. -/
lemma trimStart_append_of_blank (h : Blank a) : trimStart (a ++ b) = trimStart b := by
  rw [trimStart, String.toList_append, List.dropWhile_append_of_pos h, trimStart]

/-- Nothing is cut behind what is not blank. -/
lemma trimStart_append_of_not_blank (h : ¬Blank a) : trimStart (a ++ b) = trimStart a ++ b := by
  have he : (a.toList.dropWhile isBlank).isEmpty = false := by
    rw [← Bool.not_eq_true, List.isEmpty_iff, List.dropWhile_eq_nil_iff]
    exact h
  rw [← String.toList_inj]
  simp [trimStart, List.dropWhile_append, he]

/-- What is after a character that is not blank stays when the start is trimmed. -/
lemma trimStart_append (hs : s.toList = [sep]) (hb : isBlank sep = false) :
    trimStart (a ++ s ++ b) = trimStart a ++ s ++ b := by
  rw [← String.toList_inj]
  simp only [trimStart, String.toList_append, String.toList_ofList, List.append_assoc,
    List.dropWhile_append, hs, List.singleton_append,
    List.dropWhile_cons_of_neg (show ¬isBlank sep = true by simp [hb])]
  split
  · next he =>
    rw [List.isEmpty_iff] at he
    simp [he]
  · rfl

/-- What is before a character that is not blank stays when the end is trimmed. -/
lemma trimEnd_append (hs : s.toList = [sep]) (hb : isBlank sep = false) :
    trimEnd (a ++ s ++ b) = a ++ s ++ trimEnd b := by
  rw [← String.toList_inj]
  simp only [trimEnd, String.toList_append, String.toList_ofList, List.reverse_append,
    List.dropWhile_append, hs, List.reverse_singleton, List.singleton_append,
    List.dropWhile_cons_of_neg (show ¬isBlank sep = true by simp [hb])]
  split
  · next he =>
    rw [List.isEmpty_iff] at he
    simp [he]
  · simp

/-- A text that ends with a character that is not blank has no end to trim. -/
lemma trimEnd_eq_self (hs : s.toList = [sep]) (hb : isBlank sep = false) :
    trimEnd (a ++ s) = a ++ s := by
  simpa [trimEnd] using trimEnd_append (a := a) (b := "") hs hb

/-- A text over an alphabet is so without the blanks at its start. -/
lemma Over.trimStart {A : Char → Prop} (h : Over A s) : Over A (trimStart s) :=
  over_ofList.2 fun c hc => h c ((List.dropWhile_sublist _).subset hc)

/-- A text over an alphabet is so without the blanks at its end. -/
lemma Over.trimEnd {A : Char → Prop} (h : Over A s) : Over A (trimEnd s) :=
  over_ofList.2 fun c hc => h c
    (List.mem_reverse.1 ((List.dropWhile_sublist _).subset (List.mem_reverse.1 hc)))

/-- What is cut at the start is blank. -/
lemma exists_blank_append_trimStart (s : String) :
    ∃ blanks, Blank blanks ∧ s = blanks ++ trimStart s := by
  refine ⟨String.ofList (s.toList.takeWhile isBlank), ?_, ?_⟩
  · intro c hc
    rw [String.toList_ofList] at hc
    exact List.mem_takeWhile_imp hc
  · rw [← String.toList_inj]
    simp [trimStart]

/-! ### Replacing tokens -/

variable {name value : String} {word : List Char}

/-- A character that continues no name and that the name does not hold cuts the text. -/
lemma replaceToken_append (hn : name.toList = '$' :: word) (hs : s.toList = [sep])
    (hm : sep ∉ name.toList) (hi : isIdentifier sep = false) :
    replaceToken (a ++ s ++ b) name value =
      replaceToken a name value ++ s ++ replaceToken b name value := by
  rw [hn] at hm
  rw [← String.toList_inj]
  simp only [String.toList_append, toList_replaceToken hn, hs, List.append_assoc,
    List.singleton_append]
  exact replaceEach_append_cons hm (fun rest => tokenValue_append_cons hi rest _) _

/-- A part of a text without a sigil stays. -/
lemma replaceToken_append_of_not_mem (hn : name.toList = '$' :: word) (ha : '$' ∉ a.toList) :
    replaceToken (a ++ b) name value = a ++ replaceToken b name value := by
  rw [← String.toList_inj]
  simp only [String.toList_append, toList_replaceToken hn]
  exact replaceEach_append_of_not_mem ha

/-- A text without sigils has no tokens to replace. -/
lemma replaceToken_eq_self (hn : name.toList = '$' :: word) (ha : '$' ∉ a.toList) :
    replaceToken a name value = a := by
  rw [← String.toList_inj, toList_replaceToken hn]
  exact replaceEach_eq_self ha

/-- Replacing a token by a value over an alphabet stays in it. -/
lemma Over.replaceToken {A : Char → Prop} (hn : name.toList = '$' :: word) (ht : Over A s)
    (h : Over A name) (hv : Over A value) : Over A (replaceToken s name value) := by
  intro c hc
  rw [toList_replaceToken hn] at hc
  rcases mem_of_mem_replaceEach hc with hc | ⟨rest, hc⟩
  · exact ht c hc
  · rw [← hn] at hc
    rcases mem_of_mem_tokenValue hc with hc | hc
    · exact h c hc
    · exact hv c hc

/-- A sigil is no blank. -/
lemma sigil_not_mem_of_blank (h : Blank s) : '$' ∉ s.toList := by
  intro hm
  exact absurd (h _ hm) (by decide)

/-! ### Braces -/

/-- Any character but a brace. -/
def unbraced (c : Char) : Prop := c ≠ '\x7b' ∧ c ≠ '\x7d'

/-- All characters but braces are ample. -/
lemma ample_unbraced : Ample unbraced := by
  intro c hc
  constructor
  · rintro rfl
    exact hc (by decide)
  · rintro rfl
    exact hc (by decide)

/-- Blanks are no braces. -/
lemma unbraced_of_blank (h : Blank s) : Over unbraced s := by
  intro c hc
  constructor
  · rintro rfl
    exact absurd (h _ hc) (by decide)
  · rintro rfl
    exact absurd (h _ hc) (by decide)

/-- In a text without braces there are no placeholders to replace. -/
lemma interpolate_of_unbraced (hn : name.toList = '$' :: word) (h : Over unbraced s) :
    interpolate s name value = s :=
  interpolate_eq_self hn (shut_of_not_mem fun hc => (h _ hc).1 rfl)

/-- A semicolon is no brace. -/
lemma over_semicolon : Over unbraced ";" := by
  intro c hc
  obtain rfl : c = ';' := by simpa using hc
  exact ⟨by decide, by decide⟩

end Text

open Text

/-- A text of blocks, each a selector and the text between its braces, and of text outside them. -/
inductive Sheet (outside : String → Prop) (block : String → String → Prop) : String → Prop where
  | plain {text} :
    outside text →
    Sheet outside block text
  | block {before selector body rest} :
    outside before →
    block selector body →
    Sheet outside block rest →
    Sheet outside block (before ++ selector ++ "\x7b" ++ body ++ "\x7d" ++ rest)

namespace Sheet

variable {outside outside' : String → Prop} {block block' : String → String → Prop}
  {text a b : String}

/-- A sheet is one of wider classes of texts and blocks. -/
lemma mono (h : Sheet outside block text) (ho : ∀ t, outside t → outside' t)
    (hb : ∀ selector body, block selector body → block' selector body) :
    Sheet outside' block' text := by
  induction h with
  | plain h => exact .plain (ho _ h)
  | block h₁ h₂ _ ih => exact .block (ho _ h₁) (hb _ _ h₂) ih

/-- Two sheets are a sheet one after the other. -/
lemma append (ho : ∀ s t, outside s → outside t → outside (s ++ t)) (ha : Sheet outside block a)
    (hb : Sheet outside block b) : Sheet outside block (a ++ b) := by
  induction ha with
  | plain ha =>
    -- The text before the first block of the second sheet joins the first.
    cases hb with
    | plain hb => exact .plain (ho _ _ ha hb)
    | block h₁ h₂ h₃ =>
      simp only [← String.append_assoc]
      exact .block (ho _ _ ha h₁) h₂ h₃
  | block h₁ h₂ _ ih =>
    rw [String.append_assoc]
    exact .block h₁ h₂ ih

/-- At its start a sheet may lose blanks of its text or of the selector of its first block. -/
lemma trimStart (ho : ∀ t, outside t → outside (trimStart t)) (he : outside "")
    (hb : ∀ selector body, block selector body → block (Text.trimStart selector) body)
    (h : Sheet outside block text) : Sheet outside block (Text.trimStart text) := by
  cases h with
  | plain h => exact .plain (ho _ h)
  | @block before selector body rest h₁ h₂ h₃ =>
    by_cases hblank : Blank before
    · have hs : Text.trimStart (before ++ selector ++ "\x7b" ++ body ++ "\x7d" ++ rest) =
          "" ++ Text.trimStart selector ++ "\x7b" ++ body ++ "\x7d" ++ rest := by
        have hstart := trimStart_append (a := selector) (b := body ++ "\x7d" ++ rest)
          (show "\x7b".toList = ['\x7b'] by decide) (by decide)
        simp only [String.append_assoc, trimStart_append_of_blank hblank, String.empty_append]
          at hstart ⊢
        exact hstart
      rw [hs]
      exact .block he (hb _ _ h₂) h₃
    · simp only [String.append_assoc]
      rw [trimStart_append_of_not_blank hblank]
      simp only [← String.append_assoc]
      exact .block (ho _ h₁) h₂ h₃

/-- Blanks at the end of a sheet do not matter. -/
lemma trimEnd (ho : ∀ t, outside t → outside (trimEnd t)) (h : Sheet outside block text) :
    Sheet outside block (Text.trimEnd text) := by
  induction h with
  | plain h => exact .plain (ho _ h)
  | block h₁ h₂ _ ih =>
    rw [trimEnd_append (show "\x7d".toList = ['\x7d'] by decide) (by decide)]
    exact .block h₁ h₂ ih

/-- Between braces a name that holds none is replaced part by part. Text outside the blocks may join
the selector after it. -/
lemma replaceToken {name value : String} {word : List Char} (hn : name.toList = '$' :: word)
    (hu : Over unbraced name) (ho : ∀ t, outside t → outside (Text.replaceToken t name value))
    (hb : ∀ before selector body, outside before → block selector body →
      ∃ before' selector', outside before' ∧ block' selector' (Text.replaceToken body name value) ∧
        Text.replaceToken (before ++ selector) name value = before' ++ selector')
    (h : Sheet outside block text) : Sheet outside block' (Text.replaceToken text name value) := by
  have hl : '\x7b' ∉ name.toList := fun h => (hu _ h).1 rfl
  have hr : '\x7d' ∉ name.toList := fun h => (hu _ h).2 rfl
  induction h with
  | plain h => exact .plain (ho _ h)
  | @block before selector body rest h₁ h₂ _ ih =>
    obtain ⟨before', selector', hbefore, hblock, hsplit⟩ := hb before selector body h₁ h₂
    rw [replaceToken_append hn (show "\x7d".toList = ['\x7d'] by decide) hr (by decide),
      replaceToken_append hn (show "\x7b".toList = ['\x7b'] by decide) hl (by decide), hsplit]
    exact .block hbefore hblock ih

/-- No placeholder opens in a sheet whose blocks start with anything but a sigil. -/
lemma shut (ho : ∀ t, outside t → Over unbraced t)
    (hb : ∀ selector body, block selector body →
      Over unbraced selector ∧ Over unbraced body ∧ ∀ c ∈ body.toList.head?, c ≠ '$')
    (h : Sheet outside block text) : Shut text.toList := by
  have hl {t : String} (ht : Over unbraced t) : '\x7b' ∉ t.toList := fun h => (ht _ h).1 rfl
  induction h with
  | plain h => exact shut_of_not_mem (hl (ho _ h))
  | @block before selector body rest h₁ h₂ _ ih =>
    obtain ⟨hs, hbody, hhead⟩ := hb _ _ h₂
    have ht : (before ++ selector ++ "\x7b" ++ body ++ "\x7d" ++ rest).toList =
        (before.toList ++ selector.toList) ++ '\x7b' :: (body.toList ++ '\x7d' :: rest.toList) := by
      simp
    rw [ht]
    refine shut_append_cons ?_ ?_ ?_
    · rw [List.mem_append, not_or]
      exact ⟨hl (ho _ h₁), hl hs⟩
    · intro hp
      cases hbt : body.toList with
      | nil =>
        rw [hbt] at hp
        exact absurd (List.cons_prefix_cons.1 hp).1 (by decide)
      | cons c cs =>
        rw [hbt] at hp hhead
        exact hhead c rfl (List.cons_prefix_cons.1 hp).1.symm
    · refine shut_append (hl hbody) ?_
      exact shut_append (a := ['\x7d']) (by decide) ih

end Sheet

end Stylesheet
