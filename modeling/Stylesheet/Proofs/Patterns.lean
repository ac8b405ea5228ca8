import Stylesheet.Proofs.Interleaving
import Mathlib.Computability.Language

/-!
# Patterns of operands

The texts that look like a dimension form a language, which is built from signs, digits, points
and units. No text is in the languages of two dimensions (`eq_of_mem_pattern`), so the order in
which the patterns are tried does not matter, and an operand is taken for a dimension exactly if its
text is in the language of that dimension (`ofOperand?_eq_some_iff`). What counts as a digit is a
parameter: the digits of any script where a dimension is looked for, those of ASCII where a value is
read.
-/

namespace Stylesheet.Expr

/-! ### Patterns -/

namespace Pattern

/-- An optional minus sign. -/
def sign : Language Char := 1 + {['-']}

/-- Runs of digits. -/
def digits (digit : Char → Bool) : Language Char := {ds | ds ≠ [] ∧ ∀ c ∈ ds, digit c = true}

/-- A point and the digits after it. -/
def fraction (digit : Char → Bool) : Language Char := {['.']} * digits digit

/-- The numerals of a shape, without their sign. -/
def magnitudes (digit : Char → Bool) : Shape → Language Char
  | .integer => digits digit
  | .real => digits digit * fraction digit

/-- The numerals of a shape. -/
def shaped (digit : Char → Bool) (s : Shape) : Language Char := sign * magnitudes digit s

/-- The numerals. -/
def numerals (digit : Char → Bool) : Language Char := sign * (digits digit * (1 + fraction digit))

/-- The digits of a colour. -/
def hexadecimals : Language Char :=
  {ds : List Char | 3 ≤ ds.length ∧ ds.length ≤ 6 ∧ ∀ c ∈ ds, isHexDigit c = true}

variable {digit : Char → Bool} {cs : List Char} {s : Shape}

/-- A text starts with a word exactly if it is the word and a rest. -/
lemma mem_singleton_mul_iff {L : Language Char} {word : List Char} :
    cs ∈ {word} * L ↔ ∃ rest ∈ L, word ++ rest = cs := by
  rw [Language.mem_mul]
  constructor
  · rintro ⟨_, rfl, rest, hr, rfl⟩
    exact ⟨rest, hr, rfl⟩
  · rintro ⟨rest, hr, rfl⟩
    exact ⟨word, rfl, rest, hr, rfl⟩

/-- A text ends with a word exactly if it is a rest and the word. -/
lemma mem_mul_singleton_iff {L : Language Char} {word : List Char} :
    cs ∈ L * {word} ↔ ∃ rest ∈ L, rest ++ word = cs := by
  rw [Language.mem_mul]
  constructor
  · rintro ⟨rest, hr, _, rfl, rfl⟩
    exact ⟨rest, hr, rfl⟩
  · rintro ⟨rest, hr, rfl⟩
    exact ⟨rest, hr, word, rfl, rfl⟩

/-- A text after an optional sign has one or not. -/
lemma mem_sign_mul_iff {L : Language Char} :
    cs ∈ sign * L ↔ cs ∈ L ∨ ∃ rest ∈ L, '-' :: rest = cs := by
  rw [sign, add_mul, one_mul, Language.mem_add, mem_singleton_mul_iff]
  rfl

/-- A real number has digits on both sides of its point. -/
lemma mem_real_iff :
    cs ∈ magnitudes digit .real ↔
      ∃ whole ∈ digits digit, ∃ places ∈ digits digit, whole ++ '.' :: places = cs := by
  rw [magnitudes, fraction, Language.mem_mul]
  constructor
  · rintro ⟨whole, hw, rest, hr, rfl⟩
    obtain ⟨places, hp, rfl⟩ := mem_singleton_mul_iff.1 hr
    exact ⟨whole, hw, places, hp, rfl⟩
  · rintro ⟨whole, hw, places, hp, rfl⟩
    exact ⟨whole, hw, '.' :: places, mem_singleton_mul_iff.2 ⟨places, hp, rfl⟩, rfl⟩

/-- A numeral is a whole number or a real one. -/
lemma numerals_eq (digit : Char → Bool) :
    numerals digit = shaped digit .integer + shaped digit .real := by
  simp only [numerals, shaped, magnitudes, mul_add, mul_one]

/-! ### Reading numerals -/

/-- A shape that is found is the one of the text. -/
lemma mem_of_magnitudeShape? (h : magnitudeShape? digit cs = some s) :
    cs ∈ magnitudes digit s := by
  have parts := List.takeWhile_append_dropWhile (p := digit) (l := cs)
  have inside : ∀ c ∈ cs.takeWhile digit, digit c = true := fun c => List.mem_takeWhile_imp
  unfold magnitudeShape? at h
  split at h
  · cases h
  · next _ _ hw hr =>
    cases h
    rw [hr, List.append_nil] at parts
    rw [← parts]
    exact ⟨by simp [hw], inside⟩
  · next _ _ places hw hr =>
    split at h
    · next hp =>
      cases h
      rw [hr] at parts
      refine mem_real_iff.2 ⟨_, ⟨by simp [hw], inside⟩, places, ⟨hp.1, ?_⟩, parts⟩
      exact List.all_eq_true.1 hp.2
    · cases h
  · cases h

/-- The shape of a text is found. -/
lemma magnitudeShape?_of_mem (hp : digit '.' = false) (h : cs ∈ magnitudes digit s) :
    magnitudeShape? digit cs = some s := by
  cases s with
  | integer =>
    obtain ⟨hne, hd⟩ := h
    obtain ⟨c, cs, rfl⟩ := List.exists_cons_of_ne_nil hne
    have whole : (c :: cs).takeWhile digit = c :: cs := List.takeWhile_eq_self_iff.2 hd
    have rest : (c :: cs).dropWhile digit = [] := List.dropWhile_eq_nil_iff.2 hd
    rw [magnitudeShape?, whole, rest]
  | real =>
    obtain ⟨whole, ⟨hne, hw⟩, places, hf, rfl⟩ := mem_real_iff.1 h
    obtain ⟨c, cs, rfl⟩ := List.exists_cons_of_ne_nil hne
    have stop : ¬digit '.' = true := by simp [hp]
    have whole : (c :: cs ++ '.' :: places).takeWhile digit = c :: cs := by
      rw [List.takeWhile_append_of_pos hw, List.takeWhile_cons_of_neg stop, List.append_nil]
    have rest : (c :: cs ++ '.' :: places).dropWhile digit = '.' :: places := by
      rw [List.dropWhile_append_of_pos hw, List.dropWhile_cons_of_neg stop]
    rw [magnitudeShape?, whole, rest]
    exact if_pos ⟨hf.1, List.all_eq_true.2 hf.2⟩

/-- An unsigned numeral starts with a digit. -/
lemma head_digit_of_mem (h : cs ∈ magnitudes digit s) :
    ∃ c ∈ cs.head?, digit c = true := by
  cases s with
  | integer =>
    obtain ⟨hne, hd⟩ := h
    obtain ⟨c, cs, rfl⟩ := List.exists_cons_of_ne_nil hne
    exact ⟨c, rfl, hd c List.mem_cons_self⟩
  | real =>
    obtain ⟨whole, ⟨hne, hd⟩, places, -, rfl⟩ := mem_real_iff.1 h
    obtain ⟨c, cs, rfl⟩ := List.exists_cons_of_ne_nil hne
    exact ⟨c, rfl, hd c List.mem_cons_self⟩

/-- The shape of a numeral is the one whose pattern fits. -/
lemma shape?_eq_some_iff (hm : digit '-' = false) (hp : digit '.' = false) :
    shape? digit cs = some s ↔ cs ∈ shaped digit s := by
  have magnitude (cs : List Char) : magnitudeShape? digit cs = some s ↔ cs ∈ magnitudes digit s :=
    ⟨mem_of_magnitudeShape?, magnitudeShape?_of_mem hp⟩
  rw [shaped, mem_sign_mul_iff]
  unfold shape?
  split
  · next rest =>
    -- A minus sign is no digit, so it can only be the sign.
    have unsigned : '-' :: rest ∉ magnitudes digit s := by
      intro h
      obtain ⟨c, hc, hd⟩ := head_digit_of_mem h
      cases hc
      rw [hm] at hd
      cases hd
    simp [magnitude, unsigned]
  · next hn =>
    have signless : ¬∃ rest ∈ magnitudes digit s, '-' :: rest = cs := by
      rintro ⟨rest, -, rfl⟩
      exact hn rest rfl
    simp [magnitude, signless]

/-- A numeral is a text of one of the shapes. -/
lemma mem_numerals_iff : cs ∈ numerals digit ↔ ∃ s, cs ∈ shaped digit s := by
  rw [numerals_eq, Language.mem_add]
  constructor
  · rintro (h | h)
    · exact ⟨.integer, h⟩
    · exact ⟨.real, h⟩
  · rintro ⟨_ | _, h⟩
    · exact .inl h
    · exact .inr h

/-- The characters of numerals are digits, the sign and the point. -/
lemma char_of_mem_magnitudes (h : cs ∈ magnitudes digit s) {c : Char} (hc : c ∈ cs) :
    digit c = true ∨ c = '.' := by
  cases s with
  | integer => exact .inl (h.2 c hc)
  | real =>
    obtain ⟨whole, hw, places, hp, rfl⟩ := mem_real_iff.1 h
    obtain hc | hc := List.mem_append.1 hc
    · exact .inl (hw.2 c hc)
    · obtain rfl | hc := List.mem_cons.1 hc
      · exact .inr rfl
      · exact .inl (hp.2 c hc)

/-- A numeral has digits, a sign and a point at most. -/
lemma char_of_mem_shaped (h : cs ∈ shaped digit s) {c : Char} (hc : c ∈ cs) :
    digit c = true ∨ c ∈ ['-', '.'] := by
  obtain hu | ⟨rest, hr, rfl⟩ := mem_sign_mul_iff.1 h
  · exact (char_of_mem_magnitudes hu hc).imp_right (by rintro rfl; simp)
  · obtain rfl | hc := List.mem_cons.1 hc
    · exact .inr (by simp)
    · exact (char_of_mem_magnitudes hr hc).imp_right (by rintro rfl; simp)

end Pattern

namespace Dimension

open Pattern

/-- The texts that look like a dimension. -/
def pattern (digit : Char → Bool) : Dimension → Language Char
  | integer => shaped digit .integer
  | real => shaped digit .real
  | pixel => numerals digit * {['p', 'x']}
  | colour => {['#']} * hexadecimals
  | percent => numerals digit * {['%']}
  | boolean => {"true".toList, "false".toList}

variable {cs : List Char} {d d' : Dimension}

/-- Four characters tell the patterns apart that are no mere numerals. -/
lemma marks_of_mem (h : cs ∈ d.pattern Text.isDecimalDigit) :
    ('#' ∈ cs ↔ d = colour) ∧ ('x' ∈ cs ↔ d = pixel) ∧ ('%' ∈ cs ↔ d = percent) ∧
      (d ≠ colour → ('e' ∈ cs ↔ d = boolean)) := by
  have plain {ds : List Char} {s : Shape} (h : ds ∈ shaped Text.isDecimalDigit s) :
      '#' ∉ ds ∧ 'x' ∉ ds ∧ '%' ∉ ds ∧ 'e' ∉ ds := by
    refine ⟨fun hc => ?_, fun hc => ?_, fun hc => ?_, fun hc => ?_⟩
    all_goals exact absurd (char_of_mem_shaped h hc) (by decide +kernel)
  cases d with
  | integer => simpa using plain h
  | real => simpa using plain h
  | pixel =>
    obtain ⟨ds, hd, rfl⟩ := mem_mul_singleton_iff.1 h
    obtain ⟨s, hs⟩ := mem_numerals_iff.1 hd
    simp [plain hs]
  | percent =>
    obtain ⟨ds, hd, rfl⟩ := mem_mul_singleton_iff.1 h
    obtain ⟨s, hs⟩ := mem_numerals_iff.1 hd
    simp [plain hs]
  | colour =>
    obtain ⟨ds, ⟨-, -, hd⟩, rfl⟩ := mem_singleton_mul_iff.1 h
    have hx : 'x' ∉ ds := fun hc => absurd (hd _ hc) (by decide)
    have hp : '%' ∉ ds := fun hc => absurd (hd _ hc) (by decide)
    simp [hx, hp]
  | boolean =>
    obtain rfl | rfl := h
    · decide
    · decide

/-- No text looks like two dimensions. -/
lemma eq_of_mem_pattern (h : cs ∈ d.pattern Text.isDecimalDigit)
    (h' : cs ∈ d'.pattern Text.isDecimalDigit) : d = d' := by
  have marks := marks_of_mem h
  have marks' := marks_of_mem h'
  have shape : cs ∈ shaped Text.isDecimalDigit .integer →
      cs ∉ shaped Text.isDecimalDigit .real := by
    intro hi hr
    rw [← shape?_eq_some_iff (by decide +kernel) (by decide +kernel)] at hi hr
    rw [hi] at hr
    cases hr
  cases d <;> cases d' <;> simp_all [pattern]

/-! ### Reading operands -/

/-- What is dropped at the end is the piece. -/
lemma dropFinal?_eq_some_iff {piece rest : List Char} :
    Scalar.dropFinal? piece cs = some rest ↔ rest ++ piece = cs :=
  List.isSuffixOf?_eq_some_iff_append_eq

/-- A numeral before a final piece. -/
lemma isSome_bind_shape?_iff {piece : List Char} {digit : Char → Bool} (hm : digit '-' = false)
    (hp : digit '.' = false) :
    ((Scalar.dropFinal? piece cs).bind (shape? digit)).isSome = true ↔
      cs ∈ numerals digit * {piece} := by
  simp only [Option.isSome_iff_exists, Option.bind_eq_some_iff, dropFinal?_eq_some_iff,
    shape?_eq_some_iff hm hp, mem_mul_singleton_iff, mem_numerals_iff]
  constructor
  · rintro ⟨s, rest, hr, hs⟩
    exact ⟨rest, ⟨s, hs⟩, hr⟩
  · rintro ⟨rest, ⟨s, hs⟩, hr⟩
    exact ⟨s, rest, hr, hs⟩

/-- A colour is recognised exactly if it is a hash with hexadecimal digits. -/
lemma isColour_iff : isColour cs = true ↔ cs ∈ ({['#']} * hexadecimals : Language Char) := by
  rw [mem_singleton_mul_iff]
  constructor
  · intro h
    unfold isColour at h
    split at h
    · next ds =>
      simp only [Bool.and_eq_true, decide_eq_true_eq, List.all_eq_true] at h
      exact ⟨ds, ⟨h.1.1, h.1.2, h.2⟩, rfl⟩
    · cases h
  · rintro ⟨ds, ⟨hl, hu, hd⟩, rfl⟩
    simp only [List.cons_append, List.nil_append, isColour, Bool.and_eq_true, decide_eq_true_eq,
      List.all_eq_true]
    exact ⟨⟨hl, hu⟩, hd⟩

/-- The text of an operand fits the pattern of what it looks like. If it looks like nothing, it fits
none. -/
lemma ofChars?_cases (cs : List Char) :
    (∃ d, ofChars? cs = some d ∧ cs ∈ d.pattern Text.isDecimalDigit) ∨
      ofChars? cs = none ∧ ∀ d : Dimension, cs ∉ d.pattern Text.isDecimalDigit := by
  have hm : Text.isDecimalDigit '-' = false := by decide +kernel
  have hp : Text.isDecimalDigit '.' = false := by decide +kernel
  fun_cases ofChars? cs with
  | case1 hb => exact .inl ⟨boolean, rfl, hb⟩
  | case2 _ _ hx => exact .inl ⟨pixel, rfl, (isSome_bind_shape?_iff hm hp).1 hx⟩
  | case3 _ _ _ hc => exact .inl ⟨colour, rfl, isColour_iff.1 hc⟩
  | case4 _ _ _ _ hr => exact .inl ⟨percent, rfl, (isSome_bind_shape?_iff hm hp).1 hr⟩
  | case5 _ _ _ _ _ hs => exact .inl ⟨real, rfl, (shape?_eq_some_iff hm hp).1 hs⟩
  | case6 _ _ _ _ _ hs => exact .inl ⟨integer, rfl, (shape?_eq_some_iff hm hp).1 hs⟩
  | case7 _ hb hx hc hr hs =>
    have shapeless (s : Shape) (h : cs ∈ shaped Text.isDecimalDigit s) : False :=
      Option.some_ne_none s (((shape?_eq_some_iff hm hp).2 h).symm.trans hs)
    refine .inr ⟨rfl, fun d h => ?_⟩
    cases d with
    | integer => exact shapeless _ h
    | real => exact shapeless _ h
    | pixel => exact hx ((isSome_bind_shape?_iff hm hp).2 h)
    | colour => exact hc (isColour_iff.2 h)
    | percent => exact hr ((isSome_bind_shape?_iff hm hp).2 h)
    | boolean => exact hb h

/-- What an operand looks like is the dimension whose pattern fits. -/
lemma ofChars?_eq_some_iff : ofChars? cs = some d ↔ cs ∈ d.pattern Text.isDecimalDigit := by
  obtain ⟨d', hd, hp⟩ | ⟨hn, hp⟩ := ofChars?_cases cs
  · rw [hd, Option.some_inj]
    constructor
    · rintro rfl
      exact hp
    · exact eq_of_mem_pattern hp
  · simp [hn, hp d]

/-- The text of an operand, trimmed and in lower case, fits the pattern of a dimension. -/
def Fits (d : Dimension) (text : String) : Prop :=
  (Text.trimChars text.toList).map Char.toLower ∈ d.pattern Text.isDecimalDigit

/-- The dimension of an operand is found exactly if it fits. -/
lemma ofOperand?_eq_some_iff {text : String} : ofOperand? text = some d ↔ d.Fits text :=
  ofChars?_eq_some_iff

end Dimension

end Stylesheet.Expr
