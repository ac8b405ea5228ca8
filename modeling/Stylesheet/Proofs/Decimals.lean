import Stylesheet.Proofs.Recognition
import Stylesheet.Proofs.Rounding
import Mathlib.Data.Nat.Cast.Field

/-!
# Numbers that are read and written

A number with at most six places is read as the nearest float and written again without a loss, as
long as it is below `2 ^ 50` millionths: `exists_number_signed`. So is a whole number in hexadecimal
digits: `hexDigits?_ofNat` and `colourValue_toDigits`.
-/

namespace Stylesheet.Number

open Float.Model Float.Model.UnpackedFloat

variable {m n : ℕ} {e : ℤ} {s : Sign} {x : Float} {q : ℚ}

/-! ### Rounding to integers -/

/-- A quotient is rounded to the whole number that it is close to. -/
lemma roundQuotient_eq (tie : Tie) {num den : ℕ} (hd : 0 < den)
    (h : |(num / den : ℚ) - n| < 1 / 2) : roundQuotient tie num den = n := by
  have positive : (0 : ℚ) < den := by exact_mod_cast hd
  have near : 2 * (n * den) < 2 * num + den ∧ 2 * num < 2 * (n * den) + den := by
    obtain ⟨lower, upper⟩ := abs_lt.1 h
    rw [neg_lt_sub_iff_lt_add, add_comm, ← sub_lt_iff_lt_add, lt_div_iff₀ positive,
      sub_mul] at lower
    rw [sub_lt_iff_lt_add, div_lt_iff₀ positive, add_mul] at upper
    constructor
    · have : (2 * (n * den) : ℚ) < 2 * num + den := by linarith
      exact_mod_cast this
    · have : (2 * num : ℚ) < 2 * (n * den) + den := by linarith
      exact_mod_cast this
  have split := Nat.div_add_mod' num den
  have remainder := Nat.mod_lt num hd
  have bounds : num / den < n + 1 ∧ n < num / den + 2 := by
    constructor <;> refine Nat.lt_of_mul_lt_mul_right (a := den) ?_ <;> rw [add_mul] <;> omega
  unfold roundQuotient
  obtain hq | hq : n = num / den ∨ n = num / den + 1 := by omega
  · have : compare (2 * (num % den)) den = .lt := by
      rw [Nat.compare_eq_lt]
      rw [hq] at near
      omega
    simp [this, hq]
  · have : compare (2 * (num % den)) den = .gt := by
      rw [Nat.compare_eq_gt]
      rw [hq, add_mul] at near
      omega
    simp [this, hq]

/-- A power of two as a quotient of whole numbers. -/
lemma zpow_eq_div (e : ℤ) : (2 ^ e : ℚ) = 2 ^ e.toNat / 2 ^ (-e).toNat := by
  rw [← zpow_natCast, ← zpow_natCast, ← zpow_sub₀ two_ne_zero]
  congr 1
  omega

/-- A scaled float is rounded to the whole number that it is close to. -/
lemma roundScaled_eq (tie : Tie) {factor : ℕ} (h : |(factor * (m * 2 ^ e) : ℚ) - n| < 1 / 2) :
    roundScaled tie factor m e = n := by
  refine roundQuotient_eq tie (Nat.pow_pos two_pos) ?_
  rw [zpow_eq_div, ← mul_div_assoc, ← mul_div_assoc, ← mul_assoc] at h
  simpa using h

/-- The whole value of a mantissa and an exponent is their value. -/
lemma eq_of_wholeValue? (h : wholeValue? m e = some n) : (m * 2 ^ e : ℚ) = n := by
  unfold wholeValue? at h
  dsimp only at h
  split at h
  · next hz =>
    cases h
    rw [zpow_eq_div, ← mul_div_assoc, Nat.cast_div (Nat.dvd_of_mod_eq_zero hz) (by simp)]
    simp
  · cases h

/-- A float that represents a number has that number's mantissa and exponent. -/
lemma Represents.ofFloat (h : Represents x s q) :
    ∃ m e, Binary.ofFloat x = .finite (isNegative s) m e ∧ m.log2 = 52 ∧ (m * 2 ^ e : ℚ) = q := by
  obtain ⟨m, e, hm, hu, hb, hv⟩ := h
  refine ⟨m, e, ?_, hb, hv⟩
  calc
    Binary.ofFloat x = .ofUnpacked x.toModel.unpack := Binary.ofBits_eq x.toBits
    _ = .finite (isNegative s) m e := by
      rw [hu]
      rfl

/-- A number of less than 53 bits before the point has a negative exponent. -/
lemma exponent_neg (hm : m.log2 = 52) (h : (m * 2 ^ e : ℚ) < 2 ^ 52) : e < 0 := by
  have bits : (2 ^ 52 : ℚ) ≤ m := by exact_mod_cast (bits_of_log2_eq hm).1
  by_contra he
  have scale : (1 : ℚ) ≤ 2 ^ e := one_le_zpow₀ one_le_two (not_lt.1 he)
  have : (2 ^ 52 * 1 : ℚ) ≤ m * 2 ^ e := by gcongr
  linarith

/-- The number of a sign that a whole number is. -/
lemma represents_signed (hn : 0 < n) (hb : n < 2 ^ 53) (s : Sign) :
    Represents (if isNegative s then -Float.ofNat n else Float.ofNat n) s n := by
  cases s with
  | positive => exact represents_ofNat hn hb
  | negative => exact (represents_ofNat hn hb).neg (.natCast hn hb)

/-- A float close to a whole number is rounded to it. -/
lemma Represents.roundFloat (h : Represents x s q) (hn : 0 < n) (hb : n < 2 ^ 50)
    (hq : |q - n| < 1 / 2) : Represents (roundFloat x) s n := by
  obtain ⟨m, e, hf, hm, rfl⟩ := h.ofFloat
  have bound : (n : ℚ) < 2 ^ 50 := by exact_mod_cast hb
  have fractional : ¬0 ≤ e := by
    have := (abs_lt.1 hq).2
    exact not_le.2 (exponent_neg hm (by linarith))
  have nearest : roundScaled .away 1 m e = n := roundScaled_eq .away (by simpa using hq)
  unfold Number.roundFloat
  rw [hf]
  dsimp only
  rw [if_neg fractional, nearest]
  exact represents_signed hn (by omega) s

/-- A number that differs from one with six places only by a rounding. -/
def Close (q : ℚ) (n : ℕ) : Prop := |q - n / 10 ^ 6| ≤ (n / 10 ^ 6 / 2 ^ 53 : ℚ)

/-- How far a number may be from its decimals. -/
lemma Close.bounds (h : Close q n) :
    n / 10 ^ 6 - n / 10 ^ 6 / 2 ^ 53 ≤ q ∧ q ≤ (n / 10 ^ 6 + n / 10 ^ 6 / 2 ^ 53 : ℚ) := by
  obtain ⟨lower, upper⟩ := abs_le.1 h
  constructor <;> linarith

/-- A number close to decimals of moderate size is moderate. -/
lemma Close.moderate (h : Close q n) (hn : 0 < n) (hb : n < 2 ^ 50) : Moderate q := by
  have positive : (1 : ℚ) ≤ n := by exact_mod_cast hn
  have bound : (n : ℚ) < 2 ^ 50 := by exact_mod_cast hb
  obtain ⟨lower, upper⟩ := h.bounds
  have small : (2 ^ (-100 : ℤ) : ℚ) ≤ 1 / 10 ^ 6 / 2 := by norm_num
  have large : (2 ^ 50 : ℚ) ≤ 2 ^ (100 : ℤ) := by norm_num
  constructor
  · refine small.trans ?_
    linarith
  · refine le_trans ?_ large
    linarith

/-- The number of millionths is found again. -/
lemma Close.abs_mul_sub_lt (h : Close q n) (hb : n < 2 ^ 50) : |10 ^ 6 * q - n| < 1 / 8 := by
  have bound : (n : ℚ) < 2 ^ 50 := by exact_mod_cast hb
  have nonneg : (0 : ℚ) ≤ n := n.cast_nonneg
  obtain ⟨lower, upper⟩ := h.bounds
  rw [abs_lt]
  constructor <;> linarith

/-- Cutting a float to its places leaves it close to its decimals. -/
lemma exists_represents_toPlaces (h : Represents x s q) (hn : 0 < n) (hb : n < 2 ^ 50)
    (hq : Close q n) : ∃ p, Represents (toPlaces x) s p ∧ Close p n := by
  have million : Represents (.ofNat (Nat.pow 10 places)) .positive (10 ^ 6 : ℕ) :=
    represents_ofNat (by norm_num [places]) (by norm_num [places])
  have range : Moderate (10 ^ 6 : ℕ) := .natCast (by norm_num) (by norm_num)
  obtain ⟨p, hp, error, -⟩ := h.mul million (hq.moderate hn hb) range
  have near : |p - n| < 1 / 2 := by
    have bound : (n : ℚ) < 2 ^ 50 := by exact_mod_cast hb
    have scaled := hq.abs_mul_sub_lt hb
    rw [Nat.cast_pow, Nat.cast_ofNat] at error
    obtain ⟨l, u⟩ := abs_le.1 error
    obtain ⟨l', u'⟩ := abs_lt.1 scaled
    rw [abs_lt]
    constructor <;> linarith
  have whole : Represents (roundFloat (x * .ofNat (Nat.pow 10 places))) (s * .positive) n :=
    hp.roundFloat hn hb near
  obtain ⟨r, hr, error⟩ := whole.div million (.natCast hn (by omega)) range
  have sign : s * .positive / .positive = s := by
    cases s <;> rfl
  rw [Nat.cast_pow, Nat.cast_ofNat] at error
  rw [sign] at hr
  exact ⟨r, hr, error⟩

/-! ### Printing -/

/-- Whole numbers are written without a point. -/
lemma pointed_mul (k : ℕ) : pointed (10 ^ 6 * k) = toString k := by
  have whole : 10 ^ 6 * k / Nat.pow 10 places = k := Nat.mul_div_cancel_left k (by norm_num)
  have rest : 10 ^ 6 * k % Nat.pow 10 places = 0 := Nat.mul_mod_right _ _
  have empty : dropFinalZeros (paddedDigits places 0) = [] := by decide
  unfold pointed
  rw [whole, rest, empty]

/-- A float close to a number of millionths is written as that number. -/
lemma render_of_close (h : Represents x s q) (hn : 0 < n) (hb : n < 2 ^ 50) (hq : Close q n) :
    render x = signed (isNegative s) (pointed n) := by
  obtain ⟨p, hp, hc⟩ := exists_represents_toPlaces h hn hb hq
  obtain ⟨m, e, hf, -, rfl⟩ := hp.ofFloat
  have error := hc.abs_mul_sub_lt hb
  rw [render, hf, Binary.render]
  split
  · next k hk =>
    -- The number of millionths is a whole number, so it is written without a point.
    have whole := eq_of_wholeValue? (Option.eq_some_of_filter_eq_some hk)
    have millions : 10 ^ 6 * k = n := by
      rw [whole] at error
      obtain ⟨lower, upper⟩ := abs_lt.1 error
      have above : (n : ℚ) < (10 ^ 6 * k + 1 : ℕ) := by
        push_cast
        linarith
      have below : ((10 ^ 6 * k : ℕ) : ℚ) < (n + 1 : ℕ) := by
        push_cast
        linarith
      have above : n < 10 ^ 6 * k + 1 := by exact_mod_cast above
      have below : 10 ^ 6 * k < n + 1 := by exact_mod_cast below
      omega
    have nonzero : (k != 0) = true := by
      rw [bne_iff_ne]
      rintro rfl
      omega
    rw [nonzero, Bool.and_true, ← millions, pointed_mul]
  · have nearest : roundScaled .toEven (Nat.pow 10 places) m e = n := by
      refine roundScaled_eq .toEven ?_
      have scale : ((Nat.pow 10 places : ℕ) : ℚ) = 10 ^ 6 := by norm_num [places]
      rw [scale]
      linarith
    rw [nearest]

/-- The digits of a whole number are found again. -/
lemma hexDigits?_ofNat (hb : n < 2 ^ 50) :
    hexDigits? (.ofNat n) = some (String.ofList (Nat.toDigits 16 n)) := by
  obtain rfl | hn := Nat.eq_zero_or_pos n
  · decide +kernel
  · have whole := (represents_ofNat hn (by omega)).roundFloat hn hb (by simp)
    obtain ⟨m, e, hf, -, hv⟩ := whole.ofFloat
    have nearest : roundScaled .away 1 m e = n := roundScaled_eq .away (by simp [hv])
    have fits : min n (UInt64.size - 1) = n := min_eq_left (by simp only [UInt64.size]; omega)
    rw [hexDigits?, hf]
    dsimp only
    rw [nearest, fits]
    rfl

/-! ### Places -/

/-- Zeros at the end are all that is dropped. -/
lemma exists_dropFinalZeros (ds : List Char) :
    ∃ k, dropFinalZeros ds ++ List.replicate k '0' = ds := by
  have zeros : ds.reverse.takeWhile (· == '0') =
      List.replicate (ds.reverse.takeWhile (· == '0')).length '0' := by
    rw [List.eq_replicate_iff]
    exact ⟨rfl, fun c hc => by simpa using List.mem_takeWhile_imp hc⟩
  refine ⟨(ds.reverse.takeWhile (· == '0')).length, ?_⟩
  rw [dropFinalZeros, ← List.reverse_replicate, ← zeros, ← List.reverse_append,
    List.takeWhile_append_dropWhile, List.reverse_reverse]

/-- Padded digits have the width. -/
lemma length_paddedDigits {width : ℕ} (hw : 0 < width) (h : n < 10 ^ width) :
    (paddedDigits width n).length = width := by
  have := (Nat.length_toDigits_le_iff (by norm_num) hw).2 h
  rw [paddedDigits, List.length_append, List.length_replicate]
  omega

/-- Padded digits are digits. -/
lemma isDigit_of_mem_paddedDigits {width : ℕ} {c : Char} (h : c ∈ paddedDigits width n) :
    c.isDigit = true := by
  obtain h | h := List.mem_append.1 h
  · rw [List.eq_of_mem_replicate h]
    rfl
  · exact Nat.isDigit_of_mem_toDigits (by norm_num) (by norm_num) h

/-- Padding does not change the number. -/
lemma ofDigitChars_paddedDigits (width n : ℕ) :
    Nat.ofDigitChars 10 (paddedDigits width n) 0 = n := by
  rw [paddedDigits, Nat.ofDigitChars_append, Nat.ofDigitChars_replicate_zero, mul_zero,
    Nat.ofDigitChars_ten_toDigits]

/-- The places of a number of millionths that are written. -/
def writtenPlaces (n : ℕ) : List Char :=
  dropFinalZeros (paddedDigits places (n % Nat.pow 10 places))

/-- All digits that are written, without the point. -/
def writtenDigits (n : ℕ) : List Char :=
  Nat.toDigits 10 (n / Nat.pow 10 places) ++ writtenPlaces n

/-- The places that are written and the zeros that are not are six together. -/
lemma exists_writtenPlaces (n : ℕ) :
    ∃ k, writtenPlaces n ++ List.replicate k '0' = paddedDigits 6 (n % 10 ^ 6) ∧
      (writtenPlaces n).length + k = 6 := by
  obtain ⟨k, hk⟩ := exists_dropFinalZeros (paddedDigits 6 (n % 10 ^ 6))
  have total := congrArg List.length hk
  rw [length_paddedDigits (by norm_num) (Nat.mod_lt n (by norm_num)), List.length_append,
    List.length_replicate] at total
  exact ⟨k, hk, total⟩

/-- The places that are written are digits. -/
lemma isDigit_of_mem_writtenPlaces {c : Char} (h : c ∈ writtenPlaces n) : c.isDigit = true := by
  obtain ⟨k, hk, -⟩ := exists_writtenPlaces n
  have padded : c ∈ paddedDigits 6 (n % 10 ^ 6) := by
    rw [← hk]
    exact List.mem_append_left _ h
  exact isDigit_of_mem_paddedDigits padded

/-- The digits that are written are those of the number, up to zeros at the end. -/
lemma exists_ofDigitChars_writtenDigits (n : ℕ) :
    ∃ k, Nat.ofDigitChars 10 (writtenDigits n) 0 * 10 ^ k = n ∧
      (writtenPlaces n).length + k = 6 := by
  obtain ⟨k, hk, hl⟩ := exists_writtenPlaces n
  have digits : writtenDigits n ++ List.replicate k '0' =
      Nat.toDigits 10 (n / 10 ^ 6) ++ paddedDigits 6 (n % 10 ^ 6) := by
    rw [writtenDigits, List.append_assoc, hk]
    rfl
  refine ⟨k, ?_, hl⟩
  calc
    Nat.ofDigitChars 10 (writtenDigits n) 0 * 10 ^ k =
        Nat.ofDigitChars 10 (writtenDigits n ++ List.replicate k '0') 0 := by
      rw [Nat.ofDigitChars_append, Nat.ofDigitChars_replicate_zero, mul_comm]
    _ = 10 ^ 6 * (n / 10 ^ 6) + n % 10 ^ 6 := by
      rw [digits, Nat.ofDigitChars_append, Nat.ofDigitChars_ten_toDigits,
        Nat.ofDigitChars_eq_ofDigitChars_zero, ofDigitChars_paddedDigits,
        length_paddedDigits (by norm_num) (Nat.mod_lt n (by norm_num))]
    _ = n := Nat.div_add_mod n (10 ^ 6)

/-! ### Reading -/

/-- The powers of ten up to the sixth are exact. -/
lemma toFloat_eq_power {k : ℕ} (hk : k ≤ 6) (hs : k < Float.exactlyRepresentablePowersOfTen.size) :
    Float.exactlyRepresentablePowersOfTen[k] = (10 ^ k).toUInt64.toFloat := by
  have table : ∀ k : Fin 7, Float.exactlyRepresentablePowersOfTen[k.val]? =
      some (10 ^ k.val).toUInt64.toFloat := by
    decide +kernel
  simpa [hs] using table ⟨k, by omega⟩

/-- A number with up to six places is read as a float close to it. -/
lemma exists_represents_ofScientific {k : ℕ} (hm : 0 < m) (hb : m < 2 ^ 53) (hk : k ≤ 6) :
    ∃ q, Represents (.ofScientific m true k) .positive q ∧
      |q - m / 10 ^ k| ≤ (m / 10 ^ k / 2 ^ 53 : ℚ) := by
  have hs : k < Float.exactlyRepresentablePowersOfTen.size := by
    show k < 23
    omega
  have power : 10 ^ k < 2 ^ 53 :=
    (Nat.pow_le_pow_right (by norm_num) hk).trans_lt (by norm_num)
  have quotient : Float.ofScientific m true k = m.toUInt64.toFloat / (10 ^ k).toUInt64.toFloat := by
    rw [← toFloat_eq_power hk hs]
    exact dif_pos ⟨hb, by omega⟩
  obtain ⟨q, hq, error⟩ := (represents_toFloat hm hb).div
    (represents_toFloat (Nat.pow_pos (by norm_num)) power) (.natCast hm hb)
    (.natCast (Nat.pow_pos (by norm_num)) power)
  rw [Nat.cast_pow, Nat.cast_ofNat] at error
  rw [quotient]
  exact ⟨q, hq, error⟩

end Stylesheet.Number

namespace Stylesheet.Expr

open Number Pattern Float.Model.UnpackedFloat

variable {n : ℕ} {digits : List Char}

/-- The digits before the point are digits. -/
lemma isDigit_of_mem_whole {c : Char} (h : c ∈ Nat.toDigits 10 n) : c.isDigit = true :=
  Nat.isDigit_of_mem_toDigits (by norm_num) (by norm_num) h

/-- The characters of a number of millionths. -/
lemma toList_pointed (n : ℕ) :
    (pointed n).toList = Nat.toDigits 10 (n / Nat.pow 10 places) ++
      (if writtenPlaces n = [] then [] else '.' :: writtenPlaces n) := by
  unfold pointed
  dsimp only
  rw [← writtenPlaces, Nat.toString_eq_ofList_toDigits]
  cases writtenPlaces n with
  | nil => simp
  | cons c cs => simp

/-- A number of millionths is written as a numeral. -/
lemma exists_mem_magnitudes_pointed (n : ℕ) :
    ∃ s, (pointed n).toList ∈ magnitudes Char.isDigit s := by
  have whole : Nat.toDigits 10 (n / Nat.pow 10 places) ∈ digits Char.isDigit :=
    ⟨Nat.toDigits_ne_nil, fun _ => isDigit_of_mem_whole⟩
  rw [toList_pointed]
  split
  · exact ⟨.integer, by rwa [List.append_nil]⟩
  · next hf =>
    refine ⟨.real, mem_real_iff.2 ⟨_, whole, writtenPlaces n, ⟨hf, ?_⟩, rfl⟩⟩
    exact fun _ => isDigit_of_mem_writtenPlaces

/-- A number that is written with a point is read from its digits and the number of its places. -/
lemma magnitudeValue_pointed (n : ℕ) :
    magnitudeValue (pointed n).toList =
      .ofScientific (Nat.ofDigitChars 10 (writtenDigits n) 0) true (writtenPlaces n).length := by
  have whole : ∀ c ∈ Nat.toDigits 10 (n / Nat.pow 10 places), c.isDigit = true :=
    fun _ => isDigit_of_mem_whole
  unfold magnitudeValue writtenDigits
  rw [toList_pointed, List.takeWhile_append_of_pos whole, List.dropWhile_append_of_pos whole]
  split
  · next hf => simp [hf]
  · simp

/-- The value of a number of millionths that is written. -/
lemma exists_represents_pointed (hn : 0 < n) (hb : n < 2 ^ 50) :
    ∃ q, Represents (magnitudeValue (pointed n).toList) .positive q ∧ Close q n := by
  obtain ⟨k, hv, hk⟩ := exists_ofDigitChars_writtenDigits n
  set m := Nat.ofDigitChars 10 (writtenDigits n) 0
  have positive : 0 < m := Nat.pos_of_ne_zero (by rintro h; simp [h] at hv; omega)
  have small : m ≤ n := by
    rw [← hv]
    exact Nat.le_mul_of_pos_right m (by positivity)
  have value : (m / 10 ^ (writtenPlaces n).length : ℚ) = n / 10 ^ 6 := by
    rw [div_eq_div_iff (by positivity) (by positivity), ← hk, pow_add, ← hv]
    push_cast
    ring
  obtain ⟨q, hq, error⟩ := exists_represents_ofScientific positive (by omega)
    (by omega : (writtenPlaces n).length ≤ 6)
  rw [value] at error
  rw [magnitudeValue_pointed]
  exact ⟨q, hq, error⟩

/-- A negative number is written with a sign in front. -/
lemma toList_signed_true (text : String) : (signed true text).toList = '-' :: text.toList := by
  simp [signed]

/-- Without its sign, a numeral starts with a digit. -/
lemma numeralValue_of_mem {cs : List Char} {s : Shape} (h : cs ∈ magnitudes Char.isDigit s) :
    numeralValue cs = magnitudeValue cs := by
  obtain ⟨c, hc, hd⟩ := head_digit_of_mem h
  rw [numeralValue]
  rintro rest rfl
  cases hc
  cases hd

/-- A number that is written is a numeral. -/
lemma mem_numerals_signed (negative : Bool) (n : ℕ) :
    (signed negative (pointed n)).toList ∈ numerals Char.isDigit := by
  obtain ⟨s, hs⟩ := exists_mem_magnitudes_pointed n
  refine mem_numerals_iff.2 ⟨s, mem_sign_mul_iff.2 ?_⟩
  cases negative with
  | false => exact .inl hs
  | true => exact .inr ⟨_, hs, (toList_signed_true _).symm⟩

/-- A number that is written is read as one of its sign that is close to it. -/
lemma exists_represents_signed (negative : Bool) (hn : 0 < n) (hb : n < 2 ^ 50) :
    ∃ s q, isNegative s = negative ∧
      Represents (numeralValue (signed negative (pointed n)).toList) s q ∧ Close q n := by
  obtain ⟨q, hq, hc⟩ := exists_represents_pointed hn hb
  cases negative with
  | false =>
    obtain ⟨s, hs⟩ := exists_mem_magnitudes_pointed n
    refine ⟨.positive, q, rfl, ?_, hc⟩
    rwa [signed, if_neg (by simp), numeralValue_of_mem hs]
  | true =>
    refine ⟨.negative, q, rfl, ?_, hc⟩
    rw [toList_signed_true, numeralValue]
    exact hq.neg (hc.moderate hn hb)

/-- A number of millionths that is read is written as it was. -/
lemma exists_number_signed {negative : Bool} (hb : n < 2 ^ 50) (hn : negative = true → n ≠ 0) :
    ∃ x, number? (signed negative (pointed n)).toList = some x ∧
      Number.render x = signed negative (pointed n) := by
  obtain rfl | positive := Nat.eq_zero_or_pos n
  · obtain rfl : negative = false := by simpa using hn
    exact ⟨0, by decide +kernel, by decide +kernel⟩
  · obtain ⟨s, q, rfl, hr, hc⟩ := exists_represents_signed negative positive hb
    refine ⟨_, Scalar.number?_eq_some_iff.2 ⟨mem_numerals_signed _ n, hr.isFinite, rfl⟩, ?_⟩
    exact render_of_close hr positive hb hc

/-! ### Hexadecimal digits -/

/-- One more digit of a colour counts its value. -/
lemma colourValue_append (ds : List Char) (c : Char) :
    colourValue (ds ++ [c]) = 16 * colourValue ds + hexDigitValue c := by
  rw [colourValue, List.foldl_append]
  rfl

/-- A hexadecimal digit counts less than sixteen. -/
lemma hexDigitValue_lt {c : Char} (h : isHexDigit c = true) : hexDigitValue c < 16 := by
  have range := Dimension.isHexDigit_iff.1 h
  have digit : c.isDigit = true ↔ 48 ≤ c.toNat ∧ c.toNat ≤ 57 := Char.isDigit_iff_toNat
  have lower : 'a' ≤ c ↔ 97 ≤ c.toNat := by
    simp [Char.le_def, UInt32.le_iff_toNat_le]
  unfold hexDigitValue
  simp only [digit, lower, Char.reduceToNat]
  split
  · omega
  · split <;> omega

/-- A colour counts less than its number of digits allows. -/
lemma colourValue_lt (h : ∀ c ∈ digits, isHexDigit c = true) :
    colourValue digits < 16 ^ digits.length := by
  induction digits using List.reverseRecOn with
  | nil => simp [colourValue]
  | append_singleton ds c ih =>
    have init := ih fun c hc => h c (by simp [hc])
    have last := hexDigitValue_lt (h c (by simp))
    rw [colourValue_append, List.length_append, pow_add]
    simp only [List.length_singleton, pow_one]
    omega

/-- A digit below sixteen is written as the hexadecimal digit of its value. -/
lemma digitChar_hex {d : ℕ} (h : d < 16) :
    isHexDigit d.digitChar = true ∧ hexDigitValue d.digitChar = d := by
  have digits : ∀ d : Fin 16, isHexDigit d.val.digitChar = true ∧
      hexDigitValue d.val.digitChar = d.val := by
    decide
  exact digits ⟨d, h⟩

/-- A whole number is found again in its hexadecimal digits. -/
lemma colourValue_toDigits (n : ℕ) :
    (∀ c ∈ Nat.toDigits 16 n, isHexDigit c = true) ∧ colourValue (Nat.toDigits 16 n) = n := by
  induction n using Nat.strongRecOn with
  | ind n ih =>
    rw [Nat.toDigits_eq_if (by norm_num)]
    split
    · next hn =>
      obtain ⟨hh, hv⟩ := digitChar_hex hn
      refine ⟨by simpa using hh, ?_⟩
      simpa [colourValue] using hv
    · next hn =>
      obtain ⟨hh, hv⟩ := digitChar_hex (Nat.mod_lt n (by norm_num : 16 > 0))
      obtain ⟨ih, iv⟩ := ih (n / 16) (by omega)
      refine ⟨fun c hc => ?_, ?_⟩
      · obtain hc | hc := List.mem_append.1 hc
        · exact ih c hc
        · rwa [List.mem_singleton.1 hc]
      · rw [colourValue_append, iv, hv]
        exact Nat.div_add_mod n 16

end Stylesheet.Expr
