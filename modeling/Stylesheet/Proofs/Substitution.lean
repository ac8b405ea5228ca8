import Stylesheet.Text.Substitution
import Stylesheet.Variable
import Stylesheet.Proofs.Basic
import Mathlib.Data.List.Infix

/-!
# Replacing names in a text

A replacement goes through a text from left to right, so what it does to a text follows from what it
does to the parts of it: a part without the first character of the pattern stays, and a character
that no occurrence can hold cuts the text into parts that are replaced on their own.
-/

namespace Stylesheet.Text

variable {p : Char} {ps : List Char} {out : List Char → List Char} {c sep : Char}
  {cs a b rest : List Char}

/-! ### One pattern -/

/-- A list starts with a pattern exactly if it is the pattern and a rest. -/
lemma isPrefixOf?_eq_some_iff {p s t : List Char} : p.isPrefixOf? s = some t ↔ s = p ++ t := by
  constructor
  · exact append_of_isPrefixOf?
  · rintro rfl
    exact isPrefixOf?_append p t

/-- There is nothing to replace in the empty text. -/
@[simp] lemma replaceEach_nil : replaceEach p ps out [] = [] := by
  rw [replaceEach]

/-- A pattern that is found is replaced. -/
lemma replaceEach_found (rest : List Char) :
    replaceEach p ps out (p :: ps ++ rest) = out rest ++ replaceEach p ps out rest := by
  rw [List.cons_append, replaceEach]
  split
  · rename_i rest' h
    rw [← List.cons_append, isPrefixOf?_append] at h
    cases h
    rfl
  · rename_i h
    rw [← List.cons_append, isPrefixOf?_append] at h
    cases h

/-- A character at which no pattern starts is copied. -/
lemma replaceEach_copy (h : ¬p :: ps <+: c :: cs) :
    replaceEach p ps out (c :: cs) = c :: replaceEach p ps out cs := by
  rw [replaceEach]
  split
  · rename_i rest hp
    exact absurd ⟨rest, (append_of_isPrefixOf? hp).symm⟩ h
  · rfl

/-- What holds of a text whenever it holds of what is left after a pattern at its start, or else
after its first character, holds of every text. -/
lemma pattern_induction (p : Char) (ps : List Char) {motive : List Char → Prop} (nil : motive [])
    (found : ∀ rest, motive rest → motive (p :: ps ++ rest))
    (copy : ∀ c cs, ¬p :: ps <+: c :: cs → motive cs → motive (c :: cs)) (cs : List Char) :
    motive cs := by
  induction hn : cs.length using Nat.strong_induction_on generalizing cs with
  | _ n ih =>
    subst hn
    cases cs with
    | nil => exact nil
    | cons c cs =>
      by_cases h : p :: ps <+: c :: cs
      · obtain ⟨rest, hr⟩ := h
        rw [← hr]
        refine found rest (ih _ ?_ rest rfl)
        simp only [← hr, List.length_append, List.length_cons]
        omega
      · exact copy c cs h (ih _ (by simp) cs rfl)

/-- A part of a text without the first character of the pattern stays. -/
lemma replaceEach_append_of_not_mem (h : p ∉ a) :
    replaceEach p ps out (a ++ b) = a ++ replaceEach p ps out b := by
  induction a with
  | nil => rfl
  | cons c a ih =>
    rw [List.mem_cons, not_or] at h
    rw [List.cons_append, replaceEach_copy, ih h.2, List.cons_append]
    intro hp
    exact h.1 (List.cons_prefix_cons.1 hp).1

/-- A text without the first character of a pattern is not changed. -/
lemma replaceEach_eq_self (h : p ∉ cs) : replaceEach p ps out cs = cs := by
  calc
    replaceEach p ps out cs = replaceEach p ps out (cs ++ []) := by rw [List.append_nil]
    _ = cs ++ replaceEach p ps out [] := replaceEach_append_of_not_mem h
    _ = cs := by rw [replaceEach_nil, List.append_nil]

/-- A pattern does not reach beyond a character that it does not hold. -/
lemma prefix_of_prefix_append_cons {pattern : List Char} (hs : sep ∉ pattern)
    (h : pattern <+: a ++ sep :: b) : pattern <+: a := by
  induction pattern generalizing a with
  | nil => exact List.nil_prefix
  | cons q pattern ih =>
    rw [List.mem_cons, not_or] at hs
    cases a with
    | nil => exact absurd (List.cons_prefix_cons.1 h).1.symm hs.1
    | cons c a =>
      obtain ⟨hq, h⟩ := List.cons_prefix_cons.1 h
      exact List.cons_prefix_cons.2 ⟨hq, ih hs.2 h⟩

/-- A character that the pattern does not hold, and that what is written does not depend on, cuts
the text. -/
lemma replaceEach_append_cons (hs : sep ∉ p :: ps) (ho : ∀ rest, out (rest ++ sep :: b) = out rest)
    (a : List Char) :
    replaceEach p ps out (a ++ sep :: b) =
      replaceEach p ps out a ++ sep :: replaceEach p ps out b := by
  induction a using pattern_induction p ps with
  | nil =>
    rw [List.nil_append, replaceEach_copy, replaceEach_nil, List.nil_append]
    intro h
    have := prefix_of_prefix_append_cons (a := []) hs h
    simp at this
  | found rest ih =>
    rw [List.append_assoc, replaceEach_found, replaceEach_found, ho, ih, List.append_assoc]
  | copy c cs h ih =>
    rw [replaceEach_copy h, List.cons_append, replaceEach_copy, ih, List.cons_append]
    intro hp
    exact h (prefix_of_prefix_append_cons (a := c :: cs) hs hp)

/-- A character after replacing was there before, or is in what is written. -/
lemma mem_of_mem_replaceEach (h : c ∈ replaceEach p ps out cs) :
    c ∈ cs ∨ ∃ rest, c ∈ out rest := by
  induction cs using pattern_induction p ps with
  | nil =>
    rw [replaceEach_nil] at h
    cases h
  | found rest ih =>
    rw [replaceEach_found, List.mem_append] at h
    rcases h with h | h
    · exact .inr ⟨rest, h⟩
    · exact (ih h).imp_left (List.mem_append_right _)
  | copy d cs hp ih =>
    rw [replaceEach_copy hp, List.mem_cons] at h
    rcases h with rfl | h
    · exact .inl List.mem_cons_self
    · exact (ih h).imp_left (List.mem_cons_of_mem d)

/-! ### Names -/

/-- A name has its sigil in front. -/
lemma toList_sigilName (reference : String) :
    (Variable.sigilName reference).toList = '$' :: (Variable.bareName reference).toList := by
  simp [Variable.sigilName]

/-- No placeholder opens in a text: no brace is directly followed by a sigil. -/
def Shut (cs : List Char) : Prop := ¬['\x7b', '$'] <:+: cs

/-- A text without braces is shut. -/
lemma shut_of_not_mem (h : '\x7b' ∉ cs) : Shut cs := by
  intro hi
  exact h (hi.subset List.mem_cons_self)

/-- A shut text is so behind one without braces. -/
lemma shut_append (ha : '\x7b' ∉ a) (hb : Shut b) : Shut (a ++ b) := by
  induction a with
  | nil => exact hb
  | cons c a ih =>
    rw [List.mem_cons, not_or] at ha
    intro h
    rcases List.infix_cons_iff.1 h with h | h
    · exact ha.1 (List.cons_prefix_cons.1 h).1
    · exact ih ha.2 h

/-- A brace that opens no placeholder leaves a text shut. -/
lemma shut_append_cons (ha : '\x7b' ∉ a) (hc : ¬['$'] <+: b) (hb : Shut b) :
    Shut (a ++ '\x7b' :: b) := by
  refine shut_append ha fun h => ?_
  rcases List.infix_cons_iff.1 h with h | h
  · exact hc (List.cons_prefix_cons.1 h).2
  · exact hb h

variable {name text value : String} {word : List Char}

/-- A text in which no placeholder opens holds none to be replaced. -/
lemma interpolate_eq_self (hn : name.toList = '$' :: word) (ht : Shut text.toList) :
    interpolate text name value = text := by
  have hp : (placeholder name).toList = '#' :: ('\x7b' :: ('$' :: word ++ ['\x7d'])) := by
    simp [placeholder, hn]
  have hs (cs : List Char) (hc : Shut cs) :
      replaceEach '#' ('\x7b' :: ('$' :: word ++ ['\x7d'])) (fun _ => value.toList) cs = cs := by
    induction cs with
    | nil => exact replaceEach_nil
    | cons c cs ih =>
      have hr : Shut cs := fun h => hc (h.trans (List.suffix_cons c cs).isInfix)
      rw [replaceEach_copy, ih hr]
      intro h
      obtain ⟨rest, h⟩ := h
      apply hc
      exact ⟨['#'], word ++ ['\x7d'] ++ rest, by simpa using h⟩
  rw [interpolate, replaceAll, hp]
  change String.ofList (replaceEach _ _ _ _) = _
  rw [hs _ ht, String.ofList_toList]

/-- Replacing a token is replacing its characters where the name ends. -/
lemma toList_replaceToken (hn : name.toList = p :: ps) :
    (replaceToken text name value).toList =
      replaceEach p ps (tokenValue (p :: ps) value.toList) text.toList := by
  rw [replaceToken, hn]
  simp

/-- Before a character that continues no name, a name ends as it does at the end of a text. -/
lemma tokenValue_append_cons {name value : List Char} (hs : isIdentifier sep = false)
    (rest b : List Char) :
    tokenValue name value (rest ++ sep :: b) = tokenValue name value rest := by
  cases rest with
  | nil => simp [tokenValue, endsName, hs]
  | cons c rest => simp [tokenValue, endsName]

/-- Where no token starts, a character is copied, also if a longer name does. The first character of
the name may not stand in it again. -/
lemma replaceEach_tokenValue_copy {value : List Char} (hp : p ∉ ps)
    (h : ∀ rest, c :: cs = p :: ps ++ rest → endsName rest = false) :
    replaceEach p ps (tokenValue (p :: ps) value) (c :: cs) =
      c :: replaceEach p ps (tokenValue (p :: ps) value) cs := by
  by_cases hpre : p :: ps <+: c :: cs
  · obtain ⟨rest, hr⟩ := hpre
    have he : tokenValue (p :: ps) value rest = p :: ps := by
      rw [tokenValue, h rest hr.symm]
      rfl
    rw [List.cons_append] at hr
    obtain ⟨rfl, rfl⟩ := List.cons.inj hr
    rw [← List.cons_append, replaceEach_found, he, replaceEach_append_of_not_mem hp,
      List.cons_append]
  · exact replaceEach_copy hpre

/-- A character that is written for a token is one of the name or of the value. -/
lemma mem_of_mem_tokenValue {name value : List Char} (h : c ∈ tokenValue name value rest) :
    c ∈ name ∨ c ∈ value := by
  unfold tokenValue at h
  split at h
  · exact .inr h
  · exact .inl h

/-- Substitution writes only characters of the text, the name and the value. -/
lemma mem_of_mem_substitute (hn : name.toList = '$' :: word)
    (h : c ∈ (substitute text name value).toList) :
    c ∈ text.toList ∨ c ∈ name.toList ∨ c ∈ value.toList := by
  rw [substitute, toList_replaceToken hn] at h
  rcases mem_of_mem_replaceEach h with h | ⟨rest, h⟩
  · rw [interpolate, replaceAll] at h
    split at h
    · exact .inl h
    · rw [String.toList_ofList] at h
      rcases mem_of_mem_replaceEach h with h | ⟨_, h⟩
      · exact .inl h
      · exact .inr (.inr h)
  · rw [← hn] at h
    exact .inr (mem_of_mem_tokenValue h)

end Stylesheet.Text
