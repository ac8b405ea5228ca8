import Stylesheet.Proofs.Patterns

/-!
# What operands look like and what they are

The dimension of an operand is found in its lower case, with the digits of any script, and its value
in its own case, with the digits of ASCII. So an operand that is a number or a truth value always
looks like one. The converse holds of plain texts only, which are in ASCII without upper-case
letters, and of colours (`plain_operands_are_recognised`).
-/

namespace Stylesheet

namespace Text

/-! ### Decimal digits -/

/-- Each range starts after the one before it has ended. -/
def Ascending : List (Nat × Nat) → Bool
  | [] => true
  | [(lo, hi)] => lo ≤ hi
  | (lo, hi) :: (lo', hi') :: rest => lo ≤ hi && hi < lo' && Ascending ((lo', hi') :: rest)

/-- The ranges after the first start after it does. -/
lemma le_of_ascending {lo hi : Nat} {rest : List (Nat × Nat)}
    (h : Ascending ((lo, hi) :: rest)) : ∀ r ∈ rest, lo < r.1 := by
  induction rest generalizing lo hi with
  | nil => simp
  | cons r rest ih =>
    simp only [Ascending, Bool.and_eq_true, decide_eq_true_eq] at h
    intro s hs
    rcases List.mem_cons.1 hs with rfl | hs
    · omega
    · have := ih h.2 s hs
      omega

/-- The ranges after the first ascend as well. -/
lemma ascending_tail {r : Nat × Nat} {rest : List (Nat × Nat)} (h : Ascending (r :: rest)) :
    Ascending rest := by
  cases rest with
  | nil => rfl
  | cons s rest =>
    simp only [Ascending, Bool.and_eq_true] at h
    exact h.2

/-- In ascending ranges, a code point is found exactly if it is in one of them. -/
lemma inRanges_iff {n : Nat} {ranges : List (Nat × Nat)} (h : Ascending ranges) :
    inRanges n ranges ↔ ∃ r ∈ ranges, r.1 ≤ n ∧ n ≤ r.2 := by
  induction ranges with
  | nil => simp [inRanges]
  | cons r rest ih =>
    have hlo := le_of_ascending h
    by_cases hn : n < r.1
    · simp only [inRanges, hn, if_true, Bool.false_eq_true, List.mem_cons, false_iff]
      rintro ⟨s, rfl | hs, h₁, h₂⟩
      · omega
      · have := hlo s hs
        omega
    · simp only [inRanges, hn, if_false, Bool.or_eq_true, decide_eq_true_eq, List.mem_cons,
        ih (ascending_tail h)]
      constructor
      · rintro (hi | ⟨s, hs, hr⟩)
        · exact ⟨r, .inl rfl, by omega, hi⟩
        · exact ⟨s, .inr hs, hr⟩
      · rintro ⟨s, rfl | hs, hr⟩
        · exact .inl hr.2
        · exact .inr ⟨s, hs, hr⟩

/-- The ranges of the decimal digits ascend. -/
lemma ascending_decimalDigitRanges : Ascending decimalDigitRanges := by decide +kernel

/-- The digits of ASCII are decimal digits. -/
lemma isDecimalDigit_of_isDigit {c : Char} (h : c.isDigit) : isDecimalDigit c := by
  have h : '0'.toNat ≤ c.toNat ∧ c.toNat ≤ '9'.toNat := by
    simpa [Char.isDigit, UInt32.le_iff_toNat_le] using h
  exact (inRanges_iff ascending_decimalDigitRanges).2
    ⟨(0x30, 0x39), by simp [decimalDigitRanges], h⟩

end Text

namespace Expr

open Pattern

/-! ### Lower case -/

/-- A letter in upper case is 32 code points in front of the one in lower case. -/
lemma toNat_toLower {c : Char} (h : c.isUpper = true) :
    65 ≤ c.toNat ∧ c.toNat ≤ 90 ∧ c.toLower.toNat = c.toNat + 32 := by
  have hu : 'A'.val ≤ c.val ∧ c.val ≤ 'Z'.val := of_decide_eq_true h
  have range : 65 ≤ c.toNat ∧ c.toNat ≤ 90 := by simpa [UInt32.le_iff_toNat_le] using hu
  refine ⟨range.1, range.2, ?_⟩
  have shifted : c.toLower.val = c.val + ('a'.val - 'A'.val) := by
    unfold Char.toLower
    rw [dif_pos hu]
  have offset : ('a'.val - 'A'.val).toNat = 32 := rfl
  have sum := UInt32.toNat_add c.val ('a'.val - 'A'.val)
  rw [← shifted, offset] at sum
  have code : c.val.toNat = c.toNat := rfl
  have lower : c.toLower.val.toNat = c.toLower.toNat := rfl
  omega

/-- Every character but the letters in upper case is in lower case. -/
lemma toLower_eq_self {c : Char} (h : ¬c.isUpper = true) : c.toLower = c := by
  unfold Char.toLower
  exact dif_neg fun hu => h (decide_eq_true hu)

/-- A character of ASCII that is no upper-case letter. -/
def isPlain (c : Char) : Bool := c.toNat < 128 && !c.isUpper

/-- A plain character is no letter in upper case. -/
lemma not_upper_of_isPlain {c : Char} (h : isPlain c = true) : ¬c.isUpper = true := by
  simp only [isPlain, Bool.and_eq_true, Bool.not_eq_true'] at h
  simp [h.2]

/-- The plain decimal digits are those of ASCII. -/
lemma isDecimalDigit_of_isPlain {c : Char} (h : isPlain c = true) :
    Text.isDecimalDigit c = c.isDigit := by
  have ascii : c.toNat < 128 := by
    simp only [isPlain, Bool.and_eq_true, decide_eq_true_eq] at h
    exact h.1
  have first : ∀ r ∈ Text.decimalDigitRanges, r.1 < 128 → r = (48, 57) := by decide +kernel
  rw [Bool.eq_iff_iff]
  constructor
  · intro hd
    obtain ⟨r, hr, lo, hi⟩ := (Text.inRanges_iff Text.ascending_decimalDigitRanges).1 hd
    obtain rfl := first r hr (by omega)
    exact Char.isDigit_iff_toNat.2 ⟨lo, hi⟩
  · exact Text.isDecimalDigit_of_isDigit

namespace Pattern

variable {digit digit' : Char → Bool} {cs : List Char} {s : Shape}

/-- Digits are digits of a wider class. -/
lemma digits_mono (h : cs ∈ digits digit) (hd : ∀ c ∈ cs, digit c = true → digit' c = true) :
    cs ∈ digits digit' :=
  ⟨h.1, fun c hc => hd c hc (h.2 c hc)⟩

/-- A text of a shape is one over a wider class of digits. -/
lemma shaped_mono (h : cs ∈ shaped digit s) (hd : ∀ c ∈ cs, digit c = true → digit' c = true) :
    cs ∈ shaped digit' s := by
  have magnitude {ds : List Char} (h : ds ∈ magnitudes digit s)
      (hd : ∀ c ∈ ds, digit c = true → digit' c = true) : ds ∈ magnitudes digit' s := by
    cases s with
    | integer => exact digits_mono h hd
    | real =>
      obtain ⟨whole, hw, places, hp, rfl⟩ := mem_real_iff.1 h
      exact mem_real_iff.2 ⟨whole, digits_mono hw fun c hc => hd c (by simp [hc]),
        places, digits_mono hp fun c hc => hd c (by simp [hc]), rfl⟩
  obtain hu | ⟨rest, hr, rfl⟩ := mem_sign_mul_iff.1 h
  · exact mem_sign_mul_iff.2 (.inl (magnitude hu hd))
  · refine mem_sign_mul_iff.2 (.inr ⟨rest, magnitude hr fun c hc => ?_, rfl⟩)
    exact hd c (List.mem_cons_of_mem _ hc)

end Pattern

namespace Dimension

variable {digit digit' : Char → Bool} {cs : List Char} {d : Dimension}

/-- Only the characters of a text matter for whether it fits. -/
lemma pattern_mono (h : cs ∈ d.pattern digit)
    (hd : ∀ c ∈ cs, digit c = true → digit' c = true) : cs ∈ d.pattern digit' := by
  have final {piece : List Char} (h : cs ∈ numerals digit * {piece}) :
      cs ∈ numerals digit' * {piece} := by
    obtain ⟨ds, hn, rfl⟩ := mem_mul_singleton_iff.1 h
    obtain ⟨s, hs⟩ := mem_numerals_iff.1 hn
    refine mem_mul_singleton_iff.2 ⟨ds, mem_numerals_iff.2 ⟨s, shaped_mono hs fun c hc => ?_⟩, rfl⟩
    exact hd c (List.mem_append_left _ hc)
  cases d with
  | integer => exact shaped_mono h hd
  | real => exact shaped_mono h hd
  | pixel => exact final h
  | percent => exact final h
  | colour => exact h
  | boolean => exact h

/-- Where digits are those of ASCII, a text that looks like a dimension is plain, a colour apart. -/
lemma isPlain_of_mem_pattern (h : cs ∈ d.pattern Char.isDigit) (hd : d ≠ colour) :
    ∀ c ∈ cs, isPlain c = true := by
  have char {c : Char} (h : c.isDigit = true ∨ c ∈ ['-', '.']) : isPlain c = true := by
    obtain h | h := h
    · have range : 48 ≤ c.toNat ∧ c.toNat ≤ 57 := Char.isDigit_iff_toNat.1 h
      have lower : c.isUpper = false := by
        rw [Bool.eq_false_iff]
        intro hu
        have := toNat_toLower hu
        omega
      simp only [isPlain, lower, Bool.not_false, Bool.and_true, decide_eq_true_eq]
      omega
    · have signs : ['-', '.'].all isPlain = true := by decide
      exact List.all_eq_true.1 signs c h
  have final {piece : List Char} (h : cs ∈ numerals Char.isDigit * {piece})
      (hp : piece.all isPlain = true) : ∀ c ∈ cs, isPlain c = true := by
    obtain ⟨ds, hn, rfl⟩ := mem_mul_singleton_iff.1 h
    obtain ⟨s, hs⟩ := mem_numerals_iff.1 hn
    intro c hc
    obtain hc | hc := List.mem_append.1 hc
    · exact char (char_of_mem_shaped hs hc)
    · exact List.all_eq_true.1 hp c hc
  cases d with
  | integer => exact fun c hc => char (char_of_mem_shaped h hc)
  | real => exact fun c hc => char (char_of_mem_shaped h hc)
  | pixel => exact final h (by decide)
  | percent => exact final h (by decide)
  | colour => exact absurd rfl hd
  | boolean =>
    rw [← List.all_eq_true]
    obtain rfl | rfl := h
    · decide
    · decide

/-- The texts that are read with digits of ASCII are the plain ones among those that fit. -/
lemma mem_pattern_isDigit_iff (hd : d ≠ colour) :
    cs ∈ d.pattern Char.isDigit ↔
      cs.map Char.toLower ∈ d.pattern Text.isDecimalDigit ∧ ∀ c ∈ cs, isPlain c = true := by
  have lower (h : ∀ c ∈ cs, isPlain c = true) : cs.map Char.toLower = cs := by
    refine (List.map_congr_left fun c hc => ?_).trans (List.map_id' cs)
    exact toLower_eq_self (not_upper_of_isPlain (h c hc))
  constructor
  · intro h
    have plain := isPlain_of_mem_pattern h hd
    rw [lower plain]
    refine ⟨pattern_mono h fun c hc hdigit => ?_, plain⟩
    rwa [isDecimalDigit_of_isPlain (plain c hc)]
  · rintro ⟨h, plain⟩
    rw [lower plain] at h
    refine pattern_mono h fun c hc hdigit => ?_
    rwa [← isDecimalDigit_of_isPlain (plain c hc)]

/-- The code points of the hexadecimal digits. -/
lemma isHexDigit_iff {c : Char} :
    isHexDigit c = true ↔
      48 ≤ c.toNat ∧ c.toNat ≤ 57 ∨ 97 ≤ c.toNat ∧ c.toNat ≤ 102 ∨
        65 ≤ c.toNat ∧ c.toNat ≤ 70 := by
  simp [isHexDigit, Char.isDigit, Char.le_def, UInt32.le_iff_toNat_le, or_assoc]

/-- The case of a hexadecimal digit does not matter. -/
lemma isHexDigit_toLower (c : Char) : isHexDigit c.toLower = isHexDigit c := by
  by_cases hu : c.isUpper = true
  · have range := toNat_toLower hu
    rw [Bool.eq_iff_iff, isHexDigit_iff, isHexDigit_iff]
    omega
  · rw [toLower_eq_self hu]

/-- Colours may be written in either case. -/
lemma map_toLower_mem_colour_iff :
    cs.map Char.toLower ∈ colour.pattern digit ↔ cs ∈ colour.pattern digit := by
  have hash {c : Char} (h : c.toLower = '#') : c = '#' := by
    by_cases hu : c.isUpper = true
    · have range := toNat_toLower hu
      rw [h] at range
      have code : '#'.toNat = 35 := rfl
      omega
    · rwa [toLower_eq_self hu] at h
  have digits {ds : List Char} : ds.map Char.toLower ∈ hexadecimals ↔ ds ∈ hexadecimals := by
    constructor
    · rintro ⟨hl, hu, hd⟩
      rw [List.length_map] at hl hu
      refine ⟨hl, hu, fun c hc => ?_⟩
      rw [← isHexDigit_toLower]
      exact hd _ (List.mem_map_of_mem hc)
    · rintro ⟨hl, hu, hd⟩
      refine ⟨by rwa [List.length_map], by rwa [List.length_map], fun c hc => ?_⟩
      obtain ⟨c, hm, rfl⟩ := List.mem_map.1 hc
      rw [isHexDigit_toLower]
      exact hd c hm
  rw [pattern, mem_singleton_mul_iff, mem_singleton_mul_iff]
  constructor
  · rintro ⟨ds, hd, hm⟩
    obtain ⟨c, rest, rfl, hc, rfl⟩ := List.map_eq_cons_iff.1 hm.symm
    obtain rfl := hash hc
    exact ⟨rest, digits.1 hd, rfl⟩
  · rintro ⟨ds, hd, rfl⟩
    exact ⟨ds.map Char.toLower, digits.2 hd, rfl⟩

/-- The dimensions of numerals, with or without a unit. -/
def isNumeral : Dimension → Bool
  | integer | real | pixel | percent => true
  | colour | boolean => false

/-- A numeral is no colour. -/
lemma ne_colour_of_isNumeral {d : Dimension} (h : d.isNumeral = true) : d ≠ colour := by
  rintro rfl
  cases h

/-- A text with digits of ASCII is one with decimal digits. -/
lemma mem_decimal_pattern (h : cs ∈ d.pattern Char.isDigit) :
    cs ∈ d.pattern Text.isDecimalDigit :=
  pattern_mono h fun _ _ => Text.isDecimalDigit_of_isDigit

end Dimension

namespace Scalar

open Dimension

variable {s : String} {cs : List Char}

/-- The units that may follow a numeral. -/
def units : List (List Char) := [[], ['p', 'x'], ['%']]

/-- A text that fits a numeral is one with a unit. -/
lemma exists_unit {d : Dimension} (hd : d.isNumeral = true) (h : cs ∈ d.pattern Char.isDigit) :
    ∃ numeral ∈ numerals Char.isDigit, ∃ unit ∈ units, numeral ++ unit = cs := by
  cases d with
  | integer => exact ⟨cs, mem_numerals_iff.2 ⟨_, h⟩, [], by simp [units], List.append_nil cs⟩
  | real => exact ⟨cs, mem_numerals_iff.2 ⟨_, h⟩, [], by simp [units], List.append_nil cs⟩
  | pixel =>
    obtain ⟨numeral, hn, rfl⟩ := mem_mul_singleton_iff.1 h
    exact ⟨numeral, hn, ['p', 'x'], by simp [units], rfl⟩
  | percent =>
    obtain ⟨numeral, hn, rfl⟩ := mem_mul_singleton_iff.1 h
    exact ⟨numeral, hn, ['%'], by simp [units], rfl⟩
  | colour => cases hd
  | boolean => cases hd

/-- The magnitude of a numeral with a unit is the numeral. -/
lemma magnitude_append {unit : List Char} (h : cs ∈ numerals Char.isDigit) (hu : unit ∈ units) :
    magnitude (cs ++ unit) = cs := by
  obtain ⟨s, hs⟩ := mem_numerals_iff.1 h
  have px : 'x' ∉ cs := fun hc => absurd (char_of_mem_shaped hs hc) (by decide)
  have percent : '%' ∉ cs := fun hc => absurd (char_of_mem_shaped hs hc) (by decide)
  -- Where a final piece is found, its characters are in the text.
  have missing {piece cs : List Char} {c : Char} (hp : c ∈ piece) (hc : c ∉ cs) :
      dropFinal? piece cs = none := by
    refine Option.eq_none_iff_forall_ne_some.2 fun rest hr => hc ?_
    rw [← dropFinal?_eq_some_iff.1 hr]
    exact List.mem_append_right rest hp
  unfold magnitude
  obtain rfl | rfl | rfl : unit = [] ∨ unit = ['p', 'x'] ∨ unit = ['%'] := by simpa [units] using hu
  · have pixelless : dropFinal? ['p', 'x'] cs = none := missing (c := 'x') (by simp) px
    rw [List.append_nil, missing List.mem_cons_self percent, pixelless]
    rfl
  · have percentless : dropFinal? ['%'] (cs ++ ['p', 'x']) = none :=
      missing List.mem_cons_self (by simpa using percent)
    rw [percentless, dropFinal?_eq_some_iff.2 rfl]
    rfl
  · rw [dropFinal?_eq_some_iff.2 rfl]
    rfl

/-- What is left without its unit is a numeral exactly if the whole is one, with or without a
unit. -/
lemma magnitude_mem_iff :
    magnitude cs ∈ numerals Char.isDigit ↔
      ∃ d : Dimension, d.isNumeral = true ∧ cs ∈ d.pattern Char.isDigit := by
  constructor
  · unfold magnitude
    intro h
    cases hp : dropFinal? ['%'] cs with
    | some rest =>
      rw [hp] at h
      exact ⟨percent, rfl, mem_mul_singleton_iff.2 ⟨rest, h, dropFinal?_eq_some_iff.1 hp⟩⟩
    | none =>
      cases hx : dropFinal? ['p', 'x'] cs with
      | some rest =>
        rw [hp, hx] at h
        exact ⟨pixel, rfl, mem_mul_singleton_iff.2 ⟨rest, h, dropFinal?_eq_some_iff.1 hx⟩⟩
      | none =>
        rw [hp, hx] at h
        obtain ⟨_ | _, hs⟩ := mem_numerals_iff.1 h
        · exact ⟨integer, rfl, hs⟩
        · exact ⟨real, rfl, hs⟩
  · rintro ⟨d, hd, h⟩
    obtain ⟨numeral, hn, unit, hu, rfl⟩ := exists_unit hd h
    rwa [magnitude_append hn hu]

/-- A numeral is read exactly if its value is finite. -/
lemma number?_eq_some_iff {x : Float} :
    number? cs = some x ↔
      cs ∈ numerals Char.isDigit ∧ (numeralValue cs).isFinite = true ∧ numeralValue cs = x := by
  have shape : (shape? Char.isDigit cs).isSome = true ↔ cs ∈ numerals Char.isDigit := by
    rw [Option.isSome_iff_exists, mem_numerals_iff]
    exact exists_congr fun s => shape?_eq_some_iff (by decide) (by decide)
  rw [number?, Option.ite_none_right_eq_some, shape, Option.some_inj, and_assoc]

/-- The text of a numeral, with or without a unit, that is not too large. -/
def IsNumeral (cs : List Char) : Prop :=
  (∃ d : Dimension, d.isNumeral = true ∧ cs ∈ d.pattern Char.isDigit) ∧
    (numeralValue (magnitude cs)).isFinite = true

/-- A magnitude is read exactly from a numeral. -/
lemma isSome_number?_magnitude_iff : (number? (magnitude cs)).isSome = true ↔ IsNumeral cs := by
  simp [Option.isSome_iff_exists, number?_eq_some_iff, magnitude_mem_iff, IsNumeral]

/-- A trimmed operand is a truth value, a number that is written as a colour or as a numeral, or
else a text. -/
lemma ofTrimmed_cases (s : String) :
    (s.toList ∈ boolean.pattern Char.isDigit ∧ ∃ b, ofTrimmed s = .bool b) ∨
      ((s.toList ∈ colour.pattern Char.isDigit ∨ IsNumeral s.toList) ∧
        ∃ x, ofTrimmed s = .number x) ∨
      s.toList ∉ boolean.pattern Char.isDigit ∧ s.toList ∉ colour.pattern Char.isDigit ∧
        ¬IsNumeral s.toList ∧ ofTrimmed s = .text s := by
  by_cases hb : s.toList ∈ boolean.pattern Char.isDigit
  · refine .inl ⟨hb, ?_⟩
    obtain hb | hb := hb
    · obtain rfl := String.toList_inj.1 hb
      exact ⟨true, rfl⟩
    · obtain rfl := String.toList_inj.1 hb
      exact ⟨false, rfl⟩
  · refine .inr ?_
    have ht : s ≠ "true" := by
      rintro rfl
      exact hb (.inl rfl)
    have hf : s ≠ "false" := by
      rintro rfl
      exact hb (.inr rfl)
    rw [ofTrimmed, if_neg ht, if_neg hf]
    split
    · next digits hs =>
      -- No numeral has a hash.
      have hn : ¬IsNumeral s.toList := by
        rintro ⟨⟨d, hd, h⟩, -⟩
        have hash := (marks_of_mem (mem_decimal_pattern h)).1.1 (by simp [hs])
        rw [hash] at hd
        cases hd
      split
      · next hc => exact .inl ⟨.inl (hs ▸ isColour_iff.1 hc), _, rfl⟩
      · next hc => exact .inr ⟨hb, fun h => hc (isColour_iff.2 (hs ▸ h)), hn, rfl⟩
    · next hs =>
      have hc : s.toList ∉ colour.pattern Char.isDigit := by
        intro h
        obtain ⟨digits, -, hd⟩ := mem_singleton_mul_iff.1 h
        exact hs digits hd.symm
      cases hn : number? (magnitude s.toList) with
      | none =>
        refine .inr ⟨hb, hc, ?_, rfl⟩
        rw [← isSome_number?_magnitude_iff, hn]
        simp
      | some x =>
        have numeral := isSome_number?_magnitude_iff.1 (Option.isSome_of_eq_some hn)
        exact .inl ⟨.inr numeral, x, rfl⟩

/-- No truth value is written as a number. -/
lemma not_boolean_of_number (h : cs ∈ colour.pattern Char.isDigit ∨ IsNumeral cs) :
    cs ∉ boolean.pattern Char.isDigit := by
  intro hb
  obtain hc | ⟨⟨d, hd, hn⟩, -⟩ := h
  · cases eq_of_mem_pattern (mem_decimal_pattern hb) (mem_decimal_pattern hc)
  · rw [← eq_of_mem_pattern (mem_decimal_pattern hb) (mem_decimal_pattern hn)] at hd
    cases hd

/-- A number is read exactly from a colour or a numeral. -/
lemma exists_number_iff :
    (∃ x, ofTrimmed s = .number x) ↔
      s.toList ∈ colour.pattern Char.isDigit ∨ IsNumeral s.toList := by
  obtain ⟨hb, b, hv⟩ | ⟨h, x, hv⟩ | ⟨-, hc, hn, hv⟩ := ofTrimmed_cases s
  · exact iff_of_false (by simp [hv]) fun h => not_boolean_of_number h hb
  · exact iff_of_true ⟨x, hv⟩ h
  · exact iff_of_false (by simp [hv]) (not_or.2 ⟨hc, hn⟩)

/-- A truth value is read exactly from its word. -/
lemma exists_bool_iff :
    (∃ b, ofTrimmed s = .bool b) ↔ s.toList ∈ boolean.pattern Char.isDigit := by
  obtain ⟨h, b, hv⟩ | ⟨h, x, hv⟩ | ⟨hb, -, -, hv⟩ := ofTrimmed_cases s
  · exact iff_of_true ⟨b, hv⟩ h
  · exact iff_of_false (by simp [hv]) (not_boolean_of_number h)
  · exact iff_of_false (by simp [hv]) hb

end Scalar

/-- An operand is a number exactly if it looks like a colour, or if it looks like a numeral, with or
without a unit, is plain and is not too large. It is a truth value exactly if it looks like one and
is plain. -/
theorem plain_operands_are_recognised (text : String) :
    let cs := Text.trimChars text.toList
    ((∃ x, Scalar.ofText text = .number x) ↔
        Dimension.ofOperand? text = some .colour ∨
          (∃ d : Dimension, d.isNumeral = true ∧ Dimension.ofOperand? text = some d) ∧
            (∀ c ∈ cs, isPlain c = true) ∧
            (numeralValue (Scalar.magnitude cs)).isFinite = true) ∧
      ((∃ b, Scalar.ofText text = .bool b) ↔
        Dimension.ofOperand? text = some .boolean ∧ ∀ c ∈ cs, isPlain c = true) := by
  intro cs
  simp only [Dimension.ofOperand?_eq_some_iff]
  have plain {d : Dimension} (hd : d ≠ .colour) : cs ∈ d.pattern Char.isDigit ↔
      d.Fits text ∧ ∀ c ∈ cs, isPlain c = true := Dimension.mem_pattern_isDigit_iff hd
  have colour : cs ∈ Dimension.colour.pattern Char.isDigit ↔ Dimension.colour.Fits text :=
    Dimension.map_toLower_mem_colour_iff.symm
  rw [Scalar.ofText, Scalar.exists_number_iff, Scalar.exists_bool_iff, Text.toList_trim, colour,
    plain (by simp), Scalar.IsNumeral]
  refine ⟨or_congr_right ⟨?_, ?_⟩, Iff.rfl⟩
  · rintro ⟨⟨d, hd, h⟩, finite⟩
    obtain ⟨fits, hp⟩ := (plain (Dimension.ne_colour_of_isNumeral hd)).1 h
    exact ⟨⟨d, hd, fits⟩, hp, finite⟩
  · rintro ⟨⟨d, hd, fits⟩, hp, finite⟩
    exact ⟨⟨d, hd, (plain (Dimension.ne_colour_of_isNumeral hd)).2 ⟨fits, hp⟩⟩, finite⟩

/-- A unit in upper case decides the dimension of a sum, whose operand is then refused. -/
theorem upper_case_unit_is_refused :
    Dimension.ofOperand? "5PX" = some .pixel ∧ (¬∃ x, Scalar.ofText "5PX" = .number x) ∧
      evaluate [.operand "5PX", .operator "+", .operand "1"] =
        .error (.notNumeric "5PX" .add) := by
  refine ⟨by decide +kernel, ?_, by decide +kernel⟩
  have refused : Scalar.ofText "5PX" = .text "5PX" := rfl
  simp [refused]

end Expr

end Stylesheet
