import Stylesheet.Proofs.Decimals
import Stylesheet.Proofs.Kinds

/-!
# Parentheses around a stream

A single operand is its own text, and a stream in parentheses is read, reduced and written. So
parentheses around a stream that has a text may change how a single number is written, and nothing
else (`parentheses_keep_text`).
-/

namespace Stylesheet.Expr

open Pattern

/-- The text of a number as computed numbers are written: with at most six places and no zeros that
do not count, or a colour in lower case that does not start with a zero. -/
inductive Scalar.IsCanonical : String → Prop where
  | decimal {negative n unit} :
    n < 2 ^ 50 →
    (negative = true → n ≠ 0) →
    unit ∈ ["", "px", "%"] →
    IsCanonical (Number.signed negative (Number.pointed n) ++ unit)
  | colour {n} :
    16 ^ 2 ≤ n →
    n < 16 ^ 6 →
    IsCanonical ("#" ++ String.ofList (Nat.toDigits 16 n))

variable {n : ℕ} {s : String} {digits : List Char}

/-! ### Operands -/

/-- A colour is written with the digits of its value. -/
lemma Scalar.renderIn_colour (hs : s.toList = '#' :: digits) (hd : digits ∈ hexadecimals) :
    (ofTrimmed s).renderIn .colour =
      .ok ("#" ++ String.ofList (Nat.toDigits 16 (colourValue digits))) := by
  have colour : isColour ('#' :: digits) = true :=
    Dimension.isColour_iff.2 (mem_singleton_mul_iff.2 ⟨digits, hd, rfl⟩)
  have ht : s ≠ "true" := by
    rintro rfl
    cases hs
  have hf : s ≠ "false" := by
    rintro rfl
    cases hs
  have bound : colourValue digits < 2 ^ 50 := by
    have := colourValue_lt hd.2.2
    have := Nat.pow_le_pow_right (by norm_num : 0 < 16) hd.2.1
    omega
  have value : ofTrimmed s = .number (.ofNat (colourValue digits)) := by
    rw [ofTrimmed, if_neg ht, if_neg hf, hs]
    exact if_pos colour
  rw [value, renderIn, Number.hexDigits?_ofNat bound]

/-- A lone operand has the dimension that it fits. -/
lemma Dimension.infer_lone {d : Dimension} (h : d.Fits s) : infer [.operand s] = d := by
  have found : step none (.operand s) = some d := by
    rw [step, ofOperand?_eq_some_iff.2 h]
    cases d <;> rfl
  simp [infer, isLogical, found]

/-- A truth value and a text are written as they are. -/
lemma Scalar.render_ofTrimmed (h : ∀ x, ofTrimmed s ≠ .number x) : (ofTrimmed s).render = s := by
  by_cases ht : s = "true"
  · subst ht
    rfl
  by_cases hf : s = "false"
  · subst hf
    rfl
  revert h
  rw [ofTrimmed, if_neg ht, if_neg hf]
  split
  · next digits _ =>
    cases isColour ('#' :: digits) with
    | true => exact fun h => absurd rfl (h _)
    | false => exact fun _ => rfl
  · generalize number? (magnitude s.toList) = value
    cases value with
    | some x => exact fun h => absurd rfl (h x)
    | none => exact fun _ => rfl

/-- What is no number is written as it is in every dimension. -/
lemma Scalar.renderIn_of_ne_number {v : Scalar} (h : ∀ x, v ≠ .number x) (d : Dimension) :
    v.renderIn d = .ok v.render := by
  cases v with
  | number x => exact absurd rfl (h x)
  | bool b => rfl
  | text s => rfl

/-- A numeral with a unit fits a dimension in which numbers are written with the unit. -/
lemma exists_dimension_of_unit {cs : List Char} {unit : String} (h : cs ∈ numerals Char.isDigit)
    (hu : unit ∈ ["", "px", "%"]) :
    ∃ d : Dimension, d.isNumeral = true ∧ cs ++ unit.toList ∈ d.pattern Char.isDigit ∧
      ∀ x, (Scalar.number x).renderIn d = .ok (Number.render x ++ unit) := by
  obtain rfl | rfl | rfl : unit = "" ∨ unit = "px" ∨ unit = "%" := by simpa using hu
  · rw [String.toList_empty, List.append_nil]
    obtain ⟨_ | _, hs⟩ := mem_numerals_iff.1 h
    · exact ⟨.integer, rfl, hs, fun x => by simp [Scalar.renderIn]⟩
    · exact ⟨.real, rfl, hs, fun x => by simp [Scalar.renderIn]⟩
  · exact ⟨.pixel, rfl, mem_mul_singleton_iff.2 ⟨cs, h, rfl⟩, fun _ => rfl⟩
  · exact ⟨.percent, rfl, mem_mul_singleton_iff.2 ⟨cs, h, rfl⟩, fun _ => rfl⟩

/-- A numeral with a unit is read as its number. -/
lemma Scalar.ofTrimmed_numeral {cs unit : List Char} {x : Float} (h : cs ∈ numerals Char.isDigit)
    (hu : unit ∈ units) (hs : s.toList = cs ++ unit) (hx : number? cs = some x) :
    ofTrimmed s = .number x := by
  obtain ⟨shape, hc⟩ := mem_numerals_iff.1 h
  have chars : 'e' ∉ s.toList ∧ '#' ∉ s.toList := by
    have rest : ∀ unit ∈ units, 'e' ∉ unit ∧ '#' ∉ unit := by decide
    rw [hs, List.mem_append, List.mem_append, not_or, not_or]
    refine ⟨⟨fun hm => ?_, (rest unit hu).1⟩, ⟨fun hm => ?_, (rest unit hu).2⟩⟩
    · exact absurd (char_of_mem_shaped hc hm) (by decide)
    · exact absurd (char_of_mem_shaped hc hm) (by decide)
  have ht : s ≠ "true" := by
    rintro rfl
    exact chars.1 (by decide)
  have hf : s ≠ "false" := by
    rintro rfl
    exact chars.1 (by decide)
  rw [ofTrimmed, if_neg ht, if_neg hf]
  split
  · next hd => exact absurd (by simp [hd]) chars.2
  · rw [hs, magnitude_append h hu, hx]
    rfl

/-- An operand that reads as a numeral fits its dimension. -/
lemma Dimension.fits_of_mem {text : String} {d : Dimension} (hd : d.isNumeral = true)
    (h : (Text.trim text).toList ∈ d.pattern Char.isDigit) : d.Fits text := by
  rw [Fits, ← Text.toList_trim]
  exact ((mem_pattern_isDigit_iff (ne_colour_of_isNumeral hd)).1 h).1

/-- An operand that reads as a colour fits the dimension. -/
lemma Dimension.colour_fits_of_mem {text : String}
    (h : (Text.trim text).toList ∈ colour.pattern Char.isDigit) : colour.Fits text := by
  rw [Fits, ← Text.toList_trim]
  exact map_toLower_mem_colour_iff.2 h

/-- An operand that is a number is written in the dimension it looks like. -/
lemma exists_renderIn {text : String} {x : Float} (h : Scalar.ofText text = .number x) :
    ∃ (d : Dimension) (written : String), d.Fits text ∧
      (Scalar.number x).renderIn d = .ok written := by
  obtain hc | ⟨⟨d, hd, hp⟩, -⟩ := Scalar.exists_number_iff.1 ⟨x, h⟩
  · obtain ⟨digits, hd, hs⟩ := mem_singleton_mul_iff.1 hc
    have written := Scalar.renderIn_colour hs.symm hd
    rw [← Scalar.ofText, h] at written
    exact ⟨.colour, _, Dimension.colour_fits_of_mem hc, written⟩
  · have fits := Dimension.fits_of_mem hd hp
    cases d with
    | colour => cases hd
    | boolean => cases hd
    | _ => exact ⟨_, _, fits, rfl⟩

/-- An operand that is written as computed numbers are keeps its text. -/
lemma exists_renderIn_of_canonical {text : String} (h : Scalar.IsCanonical (Text.trim text)) :
    ∃ d : Dimension, d.Fits text ∧ (Scalar.ofText text).renderIn d = .ok (Text.trim text) := by
  generalize hs : Text.trim text = s at h
  rw [Scalar.ofText, hs]
  cases h with
  | @decimal negative n unit hb hn hu =>
    obtain ⟨x, hx, hr⟩ := exists_number_signed hb hn
    have numeral := mem_numerals_signed negative n
    obtain ⟨d, hd, hp, hw⟩ := exists_dimension_of_unit numeral hu
    have known : ∀ unit ∈ ["", "px", "%"], unit.toList ∈ Scalar.units := by decide
    have value := Scalar.ofTrimmed_numeral numeral (known unit hu) (String.toList_append ..) hx
    refine ⟨d, Dimension.fits_of_mem hd ?_, ?_⟩
    · rwa [hs, String.toList_append]
    · rw [value, hw, hr]
  | @colour n hl hu =>
    obtain ⟨hex, value⟩ := colourValue_toDigits n
    have length (k : ℕ) (hk : 0 < k) : (Nat.toDigits 16 n).length ≤ k ↔ n < 16 ^ k :=
      Nat.length_toDigits_le_iff (by norm_num) hk
    have digits : Nat.toDigits 16 n ∈ hexadecimals := by
      refine ⟨?_, (length 6 (by norm_num)).2 hu, hex⟩
      by_contra short
      have := (length 2 (by norm_num)).1 (by omega)
      omega
    have chars : ("#" ++ String.ofList (Nat.toDigits 16 n)).toList = '#' :: Nat.toDigits 16 n := by
      simp
    refine ⟨.colour, Dimension.colour_fits_of_mem ?_, ?_⟩
    · rw [hs, chars]
      exact mem_singleton_mul_iff.2 ⟨_, digits, rfl⟩
    · rw [Scalar.renderIn_colour chars digits, value]

/-! ### Groups -/

/-- A stream in parentheses. -/
def grouped (tokens : List Token) : List Token :=
  .operator "(" :: tokens ++ [.operator ")"]

/-- Parentheses around tokens do not matter for the dimension. -/
lemma Dimension.infer_grouped (tokens : List Token) : infer (grouped tokens) = infer tokens := by
  have logical : (grouped tokens).any isLogical = tokens.any isLogical := by
    have outer : isLogical (.operator "(") = false ∧ isLogical (.operator ")") = false := by decide
    simp [grouped, outer]
  rw [infer, infer, logical, grouped, List.cons_append, List.foldl_cons, List.foldl_append]
  rfl

/-- Parentheses around tokens are items around theirs. -/
lemma mapM_item_grouped {tokens : List Token} {items : List Item}
    (h : tokens.mapM Token.item = .ok items) :
    (grouped tokens).mapM Token.item = .ok (.mark .opening :: items ++ [.mark .closing]) := by
  have inside : (tokens ++ [Token.operator ")"]).mapM Token.item =
      .ok (items ++ [Item.mark .closing]) := by
    rw [List.mapM_append]
    exact bind_eq_ok_iff.2 ⟨items, h, rfl⟩
  rw [grouped, List.cons_append, List.mapM_cons]
  exact bind_eq_ok_iff.2 ⟨.mark .opening, rfl, bind_eq_ok_iff.2 ⟨_, inside, rfl⟩⟩

/-- A value denotes itself. -/
lemma denotes_operand (ops : List Operator) (v : Scalar) : Denotes ops [.value v] v := by
  induction ops with
  | nil => exact .operand
  | cons op ops ih => exact .tighter ih

/-- A group has the value of what it encloses. -/
lemma reduce_grouped {items : List Item} {n : ℕ} {terms : List Term} {u v : Scalar}
    (hr : Reads items n terms) (hd : Denotes loosestFirst terms u) (hn : Negated n u v) :
    reduce (.mark .opening :: items ++ [.mark .closing]) = .ok v := by
  obtain ⟨closed, hc, hs⟩ := (Reads.group hr hd hn .nil).exists_closeGroups
  exact reduce_eq_ok_iff_reduceSpan.2
    ⟨closed, hc, reduceSpan_eq_ok_iff.2 ⟨0, _, v, hs, denotes_operand _ v, .none⟩⟩

/-- Parentheses around a stream that has a value write that value in the dimension of the stream. -/
lemma evaluate_grouped {tokens : List Token} {items : List Item} {n : ℕ} {terms : List Term}
    {u v : Scalar} (hi : tokens.mapM Token.item = .ok items) (hr : Reads items n terms)
    (hd : Denotes loosestFirst terms u) (hn : Negated n u v) :
    evaluate (grouped tokens) = v.renderIn (Dimension.infer tokens) := by
  rw [evaluate_of_not_lone (by simp [grouped]), mapM_item_grouped hi, Dimension.infer_grouped]
  show (reduce _ >>= _) = _
  rw [reduce_grouped hr hd hn]
  rfl

/-- An operand in parentheses is evaluated to what it reads as. -/
lemma evaluate_grouped_lone (text : String) :
    evaluate (grouped [.operand text]) =
      (Scalar.ofText text).renderIn (Dimension.infer [.operand text]) :=
  evaluate_grouped rfl (.value .nil) (denotes_operand _ _) .none

/-- Parentheses around a stream that has a text never make it fail. They keep its text, unless the
stream is a single operand that is a number and not written as computed numbers are. The number of a
single operand is then written as computed numbers are, in the dimension the operand looks like. -/
theorem parentheses_keep_text {tokens : List Token} {text : String}
    (h : evaluate tokens = .ok text) :
    ((∀ operand x, tokens = [.operand operand] → Scalar.ofText operand = .number x →
        Scalar.IsCanonical text) →
      evaluate (grouped tokens) = .ok text) ∧
    ∀ operand x, tokens = [.operand operand] → Scalar.ofText operand = .number x →
      ∃ (d : Dimension) (written : String), d.Fits operand ∧ d.Writes x written ∧
        evaluate (grouped tokens) = .ok written := by
  by_cases hl : ∃ operand, tokens = [.operand operand]
  · obtain ⟨operand, rfl⟩ := hl
    cases h
    rw [evaluate_grouped_lone]
    constructor
    · intro canonical
      by_cases hx : ∃ x, Scalar.ofText operand = .number x
      · obtain ⟨x, hx⟩ := hx
        obtain ⟨d, hf, hw⟩ := exists_renderIn_of_canonical (canonical operand x rfl hx)
        rwa [Dimension.infer_lone hf]
      · have other : ∀ x, Scalar.ofText operand ≠ .number x := fun x he => hx ⟨x, he⟩
        rw [Scalar.renderIn_of_ne_number other, Scalar.ofText, Scalar.render_ofTrimmed other]
    · rintro _ x ⟨⟩ hx
      obtain ⟨d, written, hf, hw⟩ := exists_renderIn hx
      rw [Dimension.infer_lone hf, hx]
      exact ⟨d, written, hf, Dimension.writes_of_renderIn hw, hw⟩
  · have several : ∀ operand, tokens ≠ [.operand operand] := fun operand he => hl ⟨operand, he⟩
    obtain ⟨items, n, terms, u, v, hi, -, hr, hd, hn, ht⟩ := exists_reads_of_evaluate h several
    refine ⟨fun _ => ?_, fun operand x he => absurd he (several operand)⟩
    rw [evaluate_grouped hi hr hd hn, ht]

/-- Parentheses around a sum, a number as it is written, and a colour. -/
theorem parentheses_keep_text_operands :
    (evaluate [.operand "1px", .operator "+", .operand "2"] = .ok "3px" ∧
        evaluate (grouped [.operand "1px", .operator "+", .operand "2"]) = .ok "3px") ∧
      (evaluate [.operand " -1.25px"] = .ok "-1.25px" ∧
        evaluate (grouped [.operand " -1.25px"]) = .ok "-1.25px") ∧
      (evaluate [.operand "#0F0"] = .ok "#0F0" ∧
        ∃ (d : Dimension) (x : Float) (written : String), Scalar.ofText "#0F0" = .number x ∧
          d.Fits "#0F0" ∧ d.Writes x written ∧
          evaluate (grouped [.operand "#0F0"]) = .ok written) := by
  have sum : evaluate [.operand "1px", .operator "+", .operand "2"] = .ok "3px" := by
    decide +kernel
  have length : evaluate [.operand " -1.25px"] = .ok "-1.25px" := by decide +kernel
  have colour : evaluate [.operand "#0F0"] = .ok "#0F0" := by decide +kernel
  have canonical : Scalar.IsCanonical (Number.signed true (Number.pointed 1250000) ++ "px") :=
    .decimal (by norm_num) (by simp) (by simp)
  have several : ∀ operand x,
      [.operand "1px", .operator "+", .operand "2"] = [Token.operand operand] →
      Scalar.ofText operand = .number x → Scalar.IsCanonical "3px" := by
    intro operand x he
    cases he
  obtain ⟨d, written, hf, hw, ht⟩ := (parentheses_keep_text colour).2 "#0F0" _ rfl rfl
  exact ⟨⟨sum, (parentheses_keep_text sum).1 several⟩,
    ⟨length, (parentheses_keep_text length).1 fun _ _ _ _ => canonical⟩,
    colour, d, _, written, rfl, hf, hw, ht⟩

/-- A lone number keeps its text only without parentheses. -/
theorem parentheses_rewrite_lone_number :
    evaluate [.operand "1.50"] = .ok "1.50" ∧
      evaluate (grouped [.operand "1.50"]) = .ok "1.5" := by
  decide +kernel

end Stylesheet.Expr
