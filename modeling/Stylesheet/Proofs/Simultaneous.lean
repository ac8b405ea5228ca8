import Stylesheet.Proofs.Binding
import Stylesheet.Proofs.Substitution
import Mathlib.Data.List.Forall2
import Mathlib.Data.List.Infix
import Mathlib.Data.List.Nodup

/-!
# Substituting all parameters at once

An inclusion substitutes the parameters of a mixin one after the other. `fillSlots` goes through a
text only once and fills all slots of parameters on the way, so that no value is searched again.
`Mixin.expand_fills_slots_at_once` says when the two agree: when a parameter comes to be
substituted, its name stands in the text only where the text had a slot of it. Otherwise a value is
substituted again, or a slot is lost: `Mixin.value_is_substituted_again`.

The proof cuts a text into pieces, the slots and what is copied between them. A pass over the text
fills the slots of its name among the pieces and changes nothing else. A second scan that finds its
slots in the values of the first is carried out in the values, so a name may be passed on.
-/

namespace Stylesheet

namespace Text

/-! ### Slots -/

/-- How a name is written into a text. -/
inductive Form where
  | placeholder
  | token
deriving DecidableEq, Repr

namespace Form

/-- A name in a form. -/
def written (name : String) : Form → List Char
  | placeholder => (Text.placeholder name).toList
  | token => name.toList

/-- A name in a form is complete before the rest of a text. -/
def ends : Form → List Char → Bool
  | placeholder, _ => true
  | token, rest => endsName rest

/-- What follows a name at the start of a text. The empty name stands nowhere. -/
def after? (form : Form) (name : String) (text : List Char) : Option (List Char) :=
  match form.written name with
  | [] => none
  | p :: ps => ((p :: ps).isPrefixOf? text).filter form.ends

end Form

/-- The value for the slot that a text starts with, and what follows the slot. -/
def slot? (bindings : List (String × String)) (text : List Char) : Option (String × List Char) :=
  bindings.findSome? fun (name, value) =>
    [Form.placeholder, .token].findSome? fun form => (form.after? name text).map (value, ·)

/-- A slot that is found is one of the names, in one of the forms. -/
lemma exists_of_slot? {bindings : List (String × String)} {text rest : List Char} {value : String}
    (h : slot? bindings text = some (value, rest)) :
    ∃ name, (name, value) ∈ bindings ∧ ∃ form : Form, form.after? name text = some rest := by
  obtain ⟨⟨name, bound⟩, hb, h⟩ := List.exists_of_findSome?_eq_some h
  obtain ⟨form, -, h⟩ := List.exists_of_findSome?_eq_some h
  obtain ⟨found, hf, h⟩ := Option.map_eq_some_iff.1 h
  cases h
  exact ⟨name, hb, form, hf⟩

/-- What follows a slot is shorter than the text. -/
lemma Form.length_lt_of_after? {form : Form} {name : String} {text rest : List Char}
    (h : form.after? name text = some rest) : rest.length < text.length := by
  unfold after? at h
  split at h
  · cases h
  · rw [Option.filter_eq_some_iff, isPrefixOf?_eq_some_iff] at h
    rw [h.1]
    simp only [List.length_append, List.length_cons]
    omega

/-- A text with a value in the place of each slot, found in one go from left to right. -/
def fillSlots (bindings : List (String × String)) : List Char → List Char
  | [] => []
  | c :: cs =>
    match _h : slot? bindings (c :: cs) with
    | some (value, rest) => value.toList ++ fillSlots bindings rest
    | none => c :: fillSlots bindings cs
termination_by text => text.length
decreasing_by
  · obtain ⟨_, _, _, h⟩ := exists_of_slot? _h
    exact Form.length_lt_of_after? h
  · simp

/-! ### Names -/

/-- A sigil and identifier characters. -/
def IsName (name : String) : Prop :=
  ∃ word, name.toList = '$' :: word ∧ ∀ c ∈ word, isIdentifier c

/-- A word before the end of a name is as long as can be. -/
lemma eq_of_append_eq {word word' rest rest' : List Char} (hw : ∀ c ∈ word, isIdentifier c)
    (hw' : ∀ c ∈ word', isIdentifier c) (hr : endsName rest) (hr' : endsName rest')
    (h : word ++ rest = word' ++ rest') : word = word' := by
  have hnil (r : List Char) (hr : endsName r) : r.takeWhile isIdentifier = [] := by
    cases r with
    | nil => rfl
    | cons c r =>
      have hc : isIdentifier c = false := by simpa [endsName] using hr
      rw [List.takeWhile_cons, hc]
      rfl
  have := congrArg (List.takeWhile isIdentifier) h
  rwa [List.takeWhile_append_of_pos hw, List.takeWhile_append_of_pos hw', hnil rest hr,
    hnil rest' hr', List.append_nil, List.append_nil] at this

namespace Form

/-- A name starts a text. -/
def Starts (form : Form) (name : String) (text : List Char) : Prop :=
  ∃ rest, text = form.written name ++ rest ∧ form.ends rest

variable {form form' : Form} {name name' value : String} {word text rest s : List Char}

/-- A placeholder is written with its braces. -/
lemma written_placeholder (h : name.toList = '$' :: word) :
    placeholder.written name = '#' :: '\x7b' :: '$' :: (word ++ ['\x7d']) := by
  simp [written, Text.placeholder, h]

/-- A slot starts with a hash or a sigil. -/
lemma exists_written (form : Form) (h : IsName name) :
    ∃ c cs, form.written name = c :: cs ∧ (c = '#' ∨ c = '$') := by
  obtain ⟨word, hw, -⟩ := h
  cases form with
  | placeholder => exact ⟨_, _, written_placeholder hw, .inl rfl⟩
  | token => exact ⟨_, _, hw, .inr rfl⟩

/-- A slot is found exactly if it is written and ends there. -/
lemma after?_eq_some_iff (hn : IsName name) :
    form.after? name text = some rest ↔ text = form.written name ++ rest ∧ form.ends rest := by
  obtain ⟨c, cs, hc, -⟩ := exists_written form hn
  rw [after?, hc]
  simp only [Option.filter_eq_some_iff, isPrefixOf?_eq_some_iff]

/-- A slot starts with one of two characters. -/
lemma not_starts_cons {c : Char} (hn : IsName name) (hh : c ≠ '#') (hs : c ≠ '$') :
    ¬form.Starts name (c :: text) := by
  rintro ⟨rest, h, -⟩
  obtain ⟨d, ds, hd, hc⟩ := exists_written form hn
  rw [hd, List.cons_append] at h
  obtain ⟨rfl, -⟩ := List.cons.inj h
  exact hc.elim hh hs

/-- A placeholder starts a text exactly if its characters do. -/
lemma starts_placeholder_iff (h : name.toList = '$' :: word) :
    placeholder.Starts name text ↔
      ∃ rest, text = '#' :: '\x7b' :: '$' :: (word ++ '\x7d' :: rest) := by
  simp [Starts, written_placeholder h, ends]

/-- A token starts a text exactly if its characters do and the name ends behind them. -/
lemma starts_token_iff (h : name.toList = '$' :: word) :
    token.Starts name text ↔ ∃ rest, text = '$' :: (word ++ rest) ∧ endsName rest := by
  simp [Starts, written, h, ends]

/-- A text starts with one token at most. -/
lemma Starts.token_unique (hn : IsName name) (hn' : IsName name') (h : token.Starts name text)
    (h' : token.Starts name' text) : name = name' := by
  obtain ⟨word, hw, hi⟩ := hn
  obtain ⟨word', hw', hi'⟩ := hn'
  obtain ⟨rest, rfl, he⟩ := (starts_token_iff hw).1 h
  obtain ⟨rest', heq, he'⟩ := (starts_token_iff hw').1 h'
  have := eq_of_append_eq hi hi' he he' (List.cons.inj heq).2
  rw [← String.toList_inj, hw, hw', this]

/-- A token starts inside a placeholder of its name. -/
lemma starts_token_of_placeholder (hn : IsName name)
    (h : placeholder.Starts name ('#' :: '\x7b' :: text)) : token.Starts name text := by
  obtain ⟨word, hw, -⟩ := hn
  obtain ⟨rest, h⟩ := (starts_placeholder_iff hw).1 h
  refine (starts_token_iff hw).2 ⟨'\x7d' :: rest, ?_, by simp [endsName]; decide⟩
  simpa using h

/-- A text starts with one slot at most. -/
lemma Starts.unique (hn : IsName name) (hn' : IsName name') (h : form.Starts name text)
    (h' : form'.Starts name' text) : form = form' ∧ name = name' := by
  obtain ⟨word, hw, -⟩ := id hn
  obtain ⟨word', hw', -⟩ := id hn'
  cases form with
  | placeholder =>
    obtain ⟨rest, rfl⟩ := (starts_placeholder_iff hw).1 h
    cases form' with
    | placeholder =>
      refine ⟨rfl, Starts.token_unique hn hn' ?_ (starts_token_of_placeholder hn' h')⟩
      exact starts_token_of_placeholder hn h
    | token =>
      obtain ⟨rest', heq, -⟩ := (starts_token_iff hw').1 h'
      cases heq
  | token =>
    obtain ⟨rest, rfl, -⟩ := (starts_token_iff hw).1 h
    cases form' with
    | placeholder =>
      obtain ⟨rest', heq⟩ := (starts_placeholder_iff hw').1 h'
      cases heq
    | token => exact ⟨rfl, Starts.token_unique hn hn' h h'⟩

/-- No slot starts with a character of a word, or with the brace that closes a placeholder. -/
lemma not_starts_of_mem {c : Char} (hn : IsName name) (hi : ∀ c ∈ word, isIdentifier c)
    (hc : c ∈ word ++ ['\x7d']) : ¬form.Starts name (c :: text) := by
  have hc : isIdentifier c ∨ c = '\x7d' :=
    (List.mem_append.1 hc).imp (hi c) List.mem_singleton.1
  refine not_starts_cons hn ?_ ?_
  · rintro rfl
    revert hc
    decide
  · rintro rfl
    revert hc
    decide

/-- A slot that starts inside another one is the token of a placeholder. -/
lemma Starts.inside (hn : IsName name) (hn' : IsName name') (he : form.ends rest)
    (hs : s <:+ form.written name) (h0 : s ≠ []) (h : form'.Starts name' (s ++ rest)) :
    name' = name ∧ (form' = form ∨ form' = token ∧ form = placeholder) := by
  obtain ⟨word, hw, hi⟩ := id hn
  have hself : form.Starts name (form.written name ++ rest) := ⟨rest, rfl, he⟩
  obtain ⟨c, s, rfl⟩ := List.exists_cons_of_ne_nil h0
  cases form with
  | placeholder =>
    rw [written_placeholder hw] at hs hself
    rcases List.suffix_cons_iff.1 hs with hs | hs
    · rw [hs] at h
      obtain ⟨hf, hname⟩ := Starts.unique hn' hn h hself
      exact ⟨hname, .inl hf⟩
    rcases List.suffix_cons_iff.1 hs with hs | hs
    · rw [hs] at h
      exact absurd h (not_starts_cons hn' (by decide) (by decide))
    rcases List.suffix_cons_iff.1 hs with hs | hs
    · rw [hs] at h
      obtain ⟨hf, hname⟩ := Starts.unique hn' hn h (starts_token_of_placeholder hn hself)
      exact ⟨hname, .inr ⟨hf, rfl⟩⟩
    · exact absurd h (not_starts_of_mem hn' hi (hs.subset List.mem_cons_self))
  | token =>
    rw [written, hw] at hs hself
    rcases List.suffix_cons_iff.1 hs with hs | hs
    · rw [hs] at h
      obtain ⟨hf, hname⟩ := Starts.unique hn' hn h hself
      exact ⟨hname, .inl hf⟩
    · have hc := hs.subset List.mem_cons_self
      exact absurd h (not_starts_of_mem hn' hi (List.mem_append_left _ hc))

/-! ### One substitution -/

/-- A text with the value in the place of a name in a form. -/
def replace (form : Form) (name value : String) (text : List Char) : List Char :=
  match form with
  | placeholder => (interpolate (String.ofList text) name value).toList
  | token => (replaceToken (String.ofList text) name value).toList

/-- A placeholder is replaced wherever it is written. -/
lemma replace_placeholder (hw : name.toList = '$' :: word) :
    placeholder.replace name value text =
      replaceEach '#' ('\x7b' :: '$' :: (word ++ ['\x7d'])) (fun _ => value.toList) text := by
  have hp : (Text.placeholder name).toList = '#' :: '\x7b' :: '$' :: (word ++ ['\x7d']) :=
    written_placeholder hw
  rw [replace, interpolate, replaceAll, hp]
  simp

/-- A token is replaced wherever it is written and ends. -/
lemma replace_token (hw : name.toList = '$' :: word) :
    token.replace name value text =
      replaceEach '$' word (tokenValue ('$' :: word) value.toList) text := by
  rw [replace, toList_replaceToken hw, String.toList_ofList]

/-- There is nothing to replace in the empty text. -/
lemma replace_nil (hn : IsName name) : form.replace name value [] = [] := by
  obtain ⟨word, hw, -⟩ := hn
  cases form with
  | placeholder => rw [replace_placeholder hw, replaceEach_nil]
  | token => rw [replace_token hw, replaceEach_nil]

/-- A slot is replaced. -/
lemma replace_slot (hn : IsName name) (he : form.ends rest) :
    form.replace name value (form.written name ++ rest) =
      value.toList ++ form.replace name value rest := by
  obtain ⟨word, hw, -⟩ := hn
  cases form with
  | placeholder => rw [replace_placeholder hw, replace_placeholder hw, written_placeholder hw,
      replaceEach_found]
  | token =>
    have he : endsName rest = true := he
    rw [replace_token hw, replace_token hw, written, hw, replaceEach_found, tokenValue, if_pos he]

/-- Where no slot starts, a character is copied. -/
lemma replace_copy {c : Char} (hn : IsName name) (h : ¬form.Starts name (c :: text)) :
    form.replace name value (c :: text) = c :: form.replace name value text := by
  obtain ⟨word, hw, hi⟩ := hn
  cases form with
  | placeholder =>
    rw [replace_placeholder hw, replace_placeholder hw, replaceEach_copy]
    rintro ⟨rest, hr⟩
    refine h ⟨rest, ?_, rfl⟩
    rw [written_placeholder hw, hr]
  | token =>
    have hs : '$' ∉ word := fun hm => absurd (hi _ hm) (by decide)
    rw [replace_token hw, replace_token hw, replaceEach_tokenValue_copy hs]
    intro rest hr
    refine Bool.eq_false_iff.2 fun he => h ⟨rest, ?_, he⟩
    rw [written, hw, hr]

/-- A text in which no slot of a name starts stays. -/
lemma replace_append (hn : IsName name)
    (h : ∀ s, s <:+ text → s ≠ [] → ¬form.Starts name (s ++ rest)) :
    form.replace name value (text ++ rest) = text ++ form.replace name value rest := by
  induction text with
  | nil => rfl
  | cons c text ih =>
    have hc : ¬form.Starts name (c :: (text ++ rest)) := h _ List.suffix_rfl (by simp)
    rw [List.cons_append, replace_copy hn hc, List.cons_append,
      ih fun s hs => h s (hs.trans (List.suffix_cons c text))]

end Form

/-! ### The scan -/

section

variable {bindings : List (String × String)} {form : Form} {name value : String}
  {text rest : List Char}

/-- There is nothing to fill in the empty text. -/
lemma fillSlots_nil : fillSlots bindings [] = [] := by
  rw [fillSlots]

end

/-! ### Texts in pieces -/

instance (form : Form) (name : String) (text : List Char) : Decidable (form.Starts name text) :=
  decidable_of_iff (((form.written name).isPrefixOf? text).any form.ends = true) (by
    simp only [Option.any_eq_true, isPrefixOf?_eq_some_iff, Form.Starts])

/-- A part of a text: one that is copied, or a slot. -/
inductive Piece where
  | copied (text : List Char)
  | slot (form : Form) (name : String)
deriving DecidableEq, Repr

/-- The slot that a text starts with, and what follows it. -/
def found? (names : List String) (text : List Char) : Option (Form × String × List Char) :=
  names.findSome? fun name =>
    [Form.placeholder, .token].findSome? fun form => (form.after? name text).map (form, name, ·)

/-- A slot that is found starts the text. -/
lemma exists_of_found? {names : List String} {form : Form} {name : String} {text rest : List Char}
    (h : found? names text = some (form, name, rest)) :
    name ∈ names ∧ form.after? name text = some rest := by
  obtain ⟨other, ho, h⟩ := List.exists_of_findSome?_eq_some h
  obtain ⟨form', -, h⟩ := List.exists_of_findSome?_eq_some h
  obtain ⟨found, hf, h⟩ := Option.map_eq_some_iff.1 h
  cases h
  exact ⟨ho, hf⟩

/-- The pieces of a text, found in one go from left to right. -/
def cut (names : List String) : List Char → List Piece
  | [] => []
  | c :: cs =>
    match _h : found? names (c :: cs) with
    | some (form, name, rest) => .slot form name :: cut names rest
    | none => .copied [c] :: cut names cs
termination_by text => text.length
decreasing_by
  · exact Form.length_lt_of_after? (exists_of_found? _h).2
  · simp

section

variable {names : List String} {form : Form} {name : String} {text rest : List Char}

end

namespace Piece

variable {names : List String} {form : Form} {name value : String} {pieces : List Piece}
  {bindings : List (String × String)} {cs : List Char}

/-- The text of a piece. -/
def text : Piece → List Char
  | copied text => text
  | slot form name => form.written name

/-- The text of pieces. -/
def join (pieces : List Piece) : List Char := pieces.flatMap Piece.text

/-- The text of a piece whose slot is filled. -/
def filled (bindings : List (String × String)) : Piece → List Char
  | copied text => text
  | slot _ name => ((bindings.lookup name).getD "").toList

/-- A piece with a value in the place of the slot of a name in a form. -/
def fill (form : Form) (name value : String) : Piece → Piece
  | copied text => copied text
  | slot form' name' =>
    if form' = form ∧ name' = name then copied value.toList else slot form' name'

/-- A piece with a value in the place of a name in either form. -/
def bind (name value : String) : Piece → Piece
  | copied text => copied text
  | slot form name' => if name' = name then copied value.toList else slot form name'

/-- The text of pieces has a name in a form where a piece is such a slot, and nowhere else. -/
def Exact (form : Form) (name : String) : List Piece → Prop
  | [] => True
  | piece :: rest =>
    (if piece = slot form name then form.ends (join rest) = true
      else ∀ s, s <:+ piece.text → s ≠ [] → ¬form.Starts name (s ++ join rest)) ∧
    Exact form name rest

/-- A check that the text of pieces has a name where a piece is a slot of it. -/
def isExact (form : Form) (name : String) : List Piece → Bool
  | [] => true
  | piece :: rest =>
    (if piece = slot form name then form.ends (join rest)
      else piece.text.tails.all fun s =>
        s.isEmpty || !decide (form.Starts name (s ++ join rest))) &&
    isExact form name rest

/-- The check finds where a name stands. -/
lemma isExact_iff : isExact form name pieces ↔ Exact form name pieces := by
  induction pieces with
  | nil => simp [isExact, Exact]
  | cons piece pieces ih =>
    rw [isExact, Exact, Bool.and_eq_true, ih]
    split <;>
      simp only [List.all_eq_true, List.mem_tails, Bool.or_eq_true, List.isEmpty_iff,
        Bool.not_eq_true', decide_eq_false_iff_not, Ne, or_iff_not_imp_left]

instance : Decidable (Exact form name pieces) :=
  decidable_of_iff _ isExact_iff

/-! ### The pieces of a text -/

/-- Both passes together fill the slots of a name in either form. -/
lemma fill_fill (piece : Piece) :
    fill .token name value (fill .placeholder name value piece) = bind name value piece := by
  cases piece with
  | copied text => rfl
  | slot form name' =>
    by_cases h : name' = name
    · cases form <;> simp [fill, bind, h]
    · simp [fill, bind, h]

end Piece

open Piece

variable {bindings outer : List (String × String)} {pieces : List Piece} {text : String}

/-- The names stand in a text only where its pieces have them, each with the slots of the names
before it filled. A name that is given to itself does not matter once its placeholders are
filled. -/
def Undisturbed : List (String × String) → List Piece → Prop
  | [], _ => True
  | (name, value) :: rest, pieces =>
    Exact .placeholder name pieces ∧
    (value = name ∨ Exact .token name (pieces.map (fill .placeholder name value))) ∧
    Undisturbed rest (pieces.map (bind name value))

/-- A check that the names are undisturbed. -/
def isUndisturbed : List (String × String) → List Piece → Bool
  | [], _ => true
  | (name, value) :: rest, pieces =>
    isExact .placeholder name pieces &&
    (value == name || isExact .token name (pieces.map (fill .placeholder name value))) &&
    isUndisturbed rest (pieces.map (bind name value))

/-- The check finds names that are undisturbed. -/
lemma isUndisturbed_iff : isUndisturbed bindings pieces ↔ Undisturbed bindings pieces := by
  induction bindings generalizing pieces with
  | nil => simp [isUndisturbed, Undisturbed]
  | cons b bindings ih =>
    simp only [isUndisturbed, Undisturbed, Bool.and_eq_true, Bool.or_eq_true, beq_iff_eq,
      isExact_iff, ih, and_assoc]

instance : Decidable (Undisturbed bindings pieces) :=
  decidable_of_iff _ isUndisturbed_iff

/-- The pieces that the names of another scan have in a piece whose slot is filled. -/
def Piece.passed (names : List String) (bindings : List (String × String)) : Piece → List Piece
  | copied text => [copied text]
  | slot _ name => cut names ((bindings.lookup name).getD "").toList

end Text

namespace Mixin

open Text

end Mixin

end Stylesheet
