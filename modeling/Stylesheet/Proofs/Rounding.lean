import Stylesheet.Number.Decimal
import Mathlib.Algebra.Order.Field.Power
import Mathlib.Algebra.Order.Ring.Rat
import Mathlib.Tactic.FieldSimp
import Mathlib.Tactic.Linarith
import Mathlib.Tactic.Ring

/-!
# Rounding

What the arithmetic of floats gives, as far as numbers are written and read. A float that is neither
zero nor very small or large stands for a mantissa of 53 bits times a power of two (`Represents`). A
product or a quotient of such floats differs from the exact one by at most its `2 ^ 53`-th part
(`Represents.mul`, `Represents.div`), and whole numbers of at most 53 bits are exact
(`represents_ofNat`).
-/

namespace Stylesheet.Number

open Float.Model Float.Model.UnpackedFloat

/-! ### Mantissas -/

/-- A number from a mantissa on, as far away from it as an accuracy tells. -/
def Near (m : ℕ) (q : ℚ) : Accuracy → Prop
  | .exact => q = m
  | .inexact .lt => m < q ∧ q < m + 1 / 2
  | .inexact .eq => q = m + 1 / 2
  | .inexact .gt => m + 1 / 2 < q ∧ q < m + 1

/-- The number that a mantissa with its residual bits stands for. -/
def Extends (em : ExtendedMantissa) (q : ℚ) : Prop := Near em.mantissa q em.accuracy

variable {em : ExtendedMantissa} {q : ℚ} {m : ℕ} {acc : Accuracy}

/-- A mantissa stands for what is near it. -/
lemma extends_ofMantissaAndAccuracy (h : Near m q acc) :
    Extends (.ofMantissaAndAccuracy m acc) q := by
  rcases acc with _ | _ | _ | _ <;> exact h

/-- A mantissa is the one it was made of. -/
lemma mantissa_ofMantissaAndAccuracy (m : ℕ) (acc : Accuracy) :
    (ExtendedMantissa.ofMantissaAndAccuracy m acc).mantissa = m := by
  rcases acc with _ | _ | _ | _ <;> rfl

/-- A number is at least its mantissa. -/
lemma Near.le (h : Near m q acc) : m ≤ q := by
  rcases acc with _ | _ | _ | _ <;> simp only [Near] at h <;> linarith

/-- A number is less than the successor of its mantissa. -/
lemma Near.lt (h : Near m q acc) : q < m + 1 := by
  rcases acc with _ | _ | _ | _ <;> simp only [Near] at h <;> linarith

/-- A mantissa that is rounded by its accuracy is the nearest to the number. -/
lemma Near.abs_round_sub_le (h : Near m q acc) :
    |(acc.roundToNearestEven m : ℚ) - q| ≤ 1 / 2 := by
  rw [abs_le]
  rcases acc with _ | _ | _ | _ <;> simp only [Near, Accuracy.roundToNearestEven] at h ⊢
  · constructor <;> linarith
  · constructor <;> linarith
  · obtain hp | hp := Nat.mod_two_eq_zero_or_one m <;> rw [hp] <;> push_cast <;>
      constructor <;> linarith
  · push_cast
    constructor <;> linarith

/-- A whole number is rounded to itself. -/
lemma Near.round_eq {n : ℕ} (h : Near m n acc) : acc.roundToNearestEven m = n := by
  have lower : m ≤ n := by exact_mod_cast h.le
  have upper : n < m + 1 := by exact_mod_cast h.lt
  obtain rfl : n = m := by omega
  rcases acc with _ | _ | _ | _ <;> simp only [Near] at h
  · rfl
  all_goals linarith

/-- A mantissa is rounded to itself or its successor. -/
lemma round_cases (m : ℕ) (acc : Accuracy) :
    acc.roundToNearestEven m = m ∨ acc.roundToNearestEven m = m + 1 := by
  rcases acc with _ | _ | _ | _
  · exact .inl rfl
  · exact .inl rfl
  · obtain hp | hp := Nat.mod_two_eq_zero_or_one m
    · exact .inl (by rw [Accuracy.roundToNearestEven, hp, add_zero])
    · exact .inr (by rw [Accuracy.roundToNearestEven, hp])
  · exact .inr rfl

/-- A number is its mantissa, or it lies between the mantissa and its successor. -/
lemma Extends.cases (h : Extends em q) :
    (em.roundBit || em.stickyBit) = false ∧ q = em.mantissa ∨
      (em.roundBit || em.stickyBit) = true ∧ em.mantissa < q ∧ q < em.mantissa + 1 := by
  obtain ⟨m, _ | _, _ | _⟩ := em <;> simp only [Extends, ExtendedMantissa.accuracy, Near] at h
  · exact .inl ⟨rfl, h⟩
  all_goals exact .inr ⟨rfl, by dsimp only; linarith, by dsimp only; linarith⟩

/-- Half a number is half the mantissa with the last bit as its residue. -/
lemma Extends.shiftRightOne (h : Extends em q) : Extends em.shiftRightOne (q / 2) := by
  have split : (em.mantissa : ℚ) = 2 * (em.mantissa / 2 : ℕ) + (em.mantissa % 2 : ℕ) := by
    exact_mod_cast (Nat.div_add_mod em.mantissa 2).symm
  unfold Extends ExtendedMantissa.shiftRightOne
  -- The last bit of the mantissa becomes the round bit.
  obtain hp | hp := Nat.mod_two_eq_zero_or_one em.mantissa <;> rw [hp] at split ⊢ <;>
    push_cast at split <;> obtain ⟨hs, h⟩ | ⟨hs, h⟩ := h.cases <;> rw [hs]
  · show q / 2 = _
    linarith
  · show _ < q / 2 ∧ q / 2 < _
    constructor <;> linarith
  · show q / 2 = _
    linarith
  · show _ < q / 2 ∧ q / 2 < _
    constructor <;> linarith

/-- A mantissa that is shifted stands for the number divided by the power of two. -/
lemma Extends.shiftRight (h : Extends em q) (k : ℕ) : Extends (em >>> k) (q / 2 ^ k) := by
  induction k with
  | zero =>
    rw [pow_zero, div_one]
    exact h
  | succ k ih =>
    rw [pow_succ, ← div_div]
    exact ih.shiftRightOne

/-- Shifting divides the mantissa by the power of two. -/
lemma mantissa_shiftRight (em : ExtendedMantissa) (k : ℕ) :
    (em >>> k).mantissa = em.mantissa / 2 ^ k := by
  induction k with
  | zero => simp [HShiftRight.hShiftRight, Nat.repeat]
  | succ k ih =>
    rw [pow_succ, ← Nat.div_div_eq_div_mul, ← ih]
    rfl

/-! ### Rounding -/

variable {s : Sign} {e : ℤ}

/-- A mantissa has 53 bits, with the one that is not written. -/
lemma mantissaBits_binary64 : Format.binary64.mantissaBits = 53 := rfl

/-- A mantissa of 53 bits or more is shifted to 53 bits. -/
lemma shiftToTargetExponent_eq (hm : 52 ≤ m.log2) (he : -1074 ≤ e + (m.log2 - 52 : ℕ)) :
    shiftToTargetExponent .binary64 m e acc =
      (ExtendedMantissa.ofMantissaAndAccuracy m acc >>> (m.log2 - 52), e + (m.log2 - 52 : ℕ)) := by
  have target : Format.binary64.targetExponent (totalExponent m e) = e + (m.log2 - 52 : ℕ) := by
    simp only [Format.targetExponent, totalExponent, mantissaBits_binary64, Format.minExponent]
    omega
  have amount : (e + (m.log2 - 52 : ℕ) - e).toNat = m.log2 - 52 := by omega
  unfold shiftToTargetExponent
  rw [target, shiftToExponent, amount]

/-- A number of 53 bits has 52 after the first. -/
lemma log2_eq_of_lt (hl : 2 ^ 52 ≤ m) (hu : m < 2 ^ 53) : m.log2 = 52 :=
  (Nat.log2_eq_iff (by omega)).2 ⟨hl, hu⟩

/-- A mantissa with all bits, or with one bit too many because it was rounded, is brought into the
format without a loss. -/
lemma exists_shiftToTargetExponent (hl : 2 ^ 52 ≤ m) (hu : m ≤ 2 ^ 53) (he : -1074 ≤ e) :
    ∃ em e', shiftToTargetExponent .binary64 m e .exact = (em, e') ∧ em.mantissa.log2 = 52 ∧
      e ≤ e' ∧ e' ≤ e + 1 ∧ (em.mantissa * 2 ^ e' : ℚ) = m * 2 ^ e := by
  obtain hu | rfl := Nat.lt_or_eq_of_le hu
  · have full : m.log2 = 52 := log2_eq_of_lt hl hu
    rw [shiftToTargetExponent_eq (by omega) (by omega), full]
    refine ⟨_, _, rfl, full, by omega, by omega, ?_⟩
    rw [mantissa_shiftRight, mantissa_ofMantissaAndAccuracy]
    simp
  · have long : (2 ^ 53).log2 = 53 := Nat.log2_two_pow
    have half : 2 ^ 53 / 2 ^ (53 - 52) = 2 ^ 52 := by norm_num
    rw [shiftToTargetExponent_eq (by omega) (by omega), long]
    refine ⟨_, _, rfl, ?_, by omega, by omega, ?_⟩
    · rw [mantissa_shiftRight, mantissa_ofMantissaAndAccuracy, half]
      exact Nat.log2_two_pow
    · rw [mantissa_shiftRight, mantissa_ofMantissaAndAccuracy, half, zpow_add₀ two_ne_zero]
      push_cast
      ring

/-- The bounds of a number by its bits. -/
lemma bits_of_log2 (hm : 52 ≤ m.log2) :
    2 ^ 52 * 2 ^ (m.log2 - 52) ≤ m ∧ m < 2 ^ 53 * 2 ^ (m.log2 - 52) := by
  have positive : m ≠ 0 := by
    rintro rfl
    simp at hm
  have range := (Nat.log2_eq_iff positive).1 rfl
  rw [← Nat.pow_add, ← Nat.pow_add]
  rwa [show 52 + (m.log2 - 52) = m.log2 by omega, show 53 + (m.log2 - 52) = m.log2 + 1 by omega]

/-- The bounds of a number of 53 bits. -/
lemma bits_of_log2_eq (hm : m.log2 = 52) : 2 ^ 52 ≤ m ∧ m < 2 ^ 53 := by
  simpa [hm] using bits_of_log2 hm.ge

/-- The least number near a mantissa by its bits. -/
lemma Near.bits_le (h : Near m q acc) (hm : 52 ≤ m.log2) :
    (2 ^ 52 * 2 ^ (m.log2 - 52) : ℚ) ≤ q := by
  refine le_trans ?_ h.le
  exact_mod_cast (bits_of_log2 hm).1

/-- The mantissa of the float nearest to a number. -/
def nearestMantissa (m : ℕ) (acc : Accuracy) : ℕ :=
  (ExtendedMantissa.ofMantissaAndAccuracy m acc >>> (m.log2 - 52)).roundedMantissa

/-- The nearest mantissa is rounded from the shifted one. -/
lemma exists_near_nearestMantissa (h : Near m q acc) :
    ∃ acc', Near (m / 2 ^ (m.log2 - 52)) (q / 2 ^ (m.log2 - 52)) acc' ∧
      nearestMantissa m acc = acc'.roundToNearestEven (m / 2 ^ (m.log2 - 52)) := by
  have shifted := (extends_ofMantissaAndAccuracy h).shiftRight (m.log2 - 52)
  rw [Extends, mantissa_shiftRight, mantissa_ofMantissaAndAccuracy] at shifted
  refine ⟨_, shifted, ?_⟩
  rw [nearestMantissa, ExtendedMantissa.roundedMantissa, mantissa_shiftRight,
    mantissa_ofMantissaAndAccuracy]

/-- The nearest mantissa has 53 bits, or is the next power of two. -/
lemma nearestMantissa_bounds (h : Near m q acc) (hm : 52 ≤ m.log2) :
    2 ^ 52 ≤ nearestMantissa m acc ∧ nearestMantissa m acc ≤ 2 ^ 53 := by
  obtain ⟨acc', -, hr⟩ := exists_near_nearestMantissa h
  have bits := bits_of_log2 hm
  have lower : 2 ^ 52 ≤ m / 2 ^ (m.log2 - 52) := (Nat.le_div_iff_mul_le (by positivity)).2 bits.1
  have upper : m / 2 ^ (m.log2 - 52) < 2 ^ 53 := (Nat.div_lt_iff_lt_mul (by positivity)).2 bits.2
  have := round_cases (m / 2 ^ (m.log2 - 52)) acc'
  omega

/-- The relative error of the nearest float. -/
lemma abs_nearestMantissa_sub_le (h : Near m q acc) (hm : 52 ≤ m.log2) :
    |nearestMantissa m acc * 2 ^ (m.log2 - 52) - q| ≤ q / 2 ^ 53 := by
  obtain ⟨acc', hn, hr⟩ := exists_near_nearestMantissa h
  have error := hn.abs_round_sub_le
  have bits := h.bits_le hm
  rw [← hr] at error
  have scale : (0 : ℚ) < 2 ^ (m.log2 - 52) := by positivity
  generalize (2 : ℚ) ^ (m.log2 - 52) = c at *
  calc
    |nearestMantissa m acc * c - q| = |nearestMantissa m acc - q / c| * c := by
      rw [← abs_of_pos scale, ← abs_mul, abs_of_pos scale, sub_mul, div_mul_cancel₀ q scale.ne']
    _ ≤ 1 / 2 * c := by gcongr
    _ ≤ q / 2 ^ 53 := by linarith

/-- A multiple of the last bit is its own nearest mantissa. -/
lemma nearestMantissa_eq {n : ℕ} (h : Near m (n * 2 ^ (m.log2 - 52)) acc) :
    nearestMantissa m acc = n := by
  obtain ⟨acc', hn, hr⟩ := exists_near_nearestMantissa h
  rw [mul_div_cancel_right₀ _ (by positivity)] at hn
  rw [hr, hn.round_eq]

/-- A number `q * 2 ^ e` is rounded to the nearest float, if `q` lies between a mantissa with enough
bits and its successor. -/
lemma exists_roundWithAccuracy (s : Sign) (h : Near m q acc) (hm : 52 ≤ m.log2)
    (he : -1074 ≤ e + (m.log2 - 52 : ℕ)) :
    ∃ m' e' hm', roundWithAccuracy .binary64 s m e acc = .finite s m' e' hm' ∧ m'.log2 = 52 ∧
      e + (m.log2 - 52 : ℕ) ≤ e' ∧ e' ≤ e + (m.log2 - 52 : ℕ) + 1 ∧
      (m' * 2 ^ e' : ℚ) = nearestMantissa m acc * 2 ^ (m.log2 - 52) * 2 ^ e := by
  have range := nearestMantissa_bounds h hm
  obtain ⟨em, e', hs, hm', hl, hu, hv⟩ := exists_shiftToTargetExponent range.1 range.2 he
  have nonzero : em.mantissa ≠ 0 := by
    intro h
    simp [h] at hm'
  refine ⟨em.mantissa, e', Nat.pos_of_ne_zero nonzero, ?_, hm', hl, hu, ?_⟩
  · unfold roundWithAccuracy
    rw [shiftToTargetExponent_eq hm he]
    dsimp only
    rw [← nearestMantissa, hs]
    exact dif_neg nonzero
  · rw [hv, zpow_add₀ two_ne_zero, zpow_natCast]
    ring

/-- A whole number of at most 53 bits is not changed by rounding. -/
lemma exact_of_whole {n : ℕ} (h : Near m q acc) (hm : 52 ≤ m.log2) (hn : q * 2 ^ e = n)
    (hb : n < 2 ^ 53) : (nearestMantissa m acc * 2 ^ (m.log2 - 52) * 2 ^ e : ℚ) = n := by
  have bits := h.bits_le hm
  set k := m.log2 - 52
  have scale : (52 + k + e : ℤ) < 53 := by
    rw [← zpow_lt_zpow_iff_right₀ (one_lt_two : (1 : ℚ) < 2), zpow_add₀ two_ne_zero,
      zpow_add₀ two_ne_zero]
    calc
      (2 ^ (52 : ℤ) * 2 ^ (k : ℤ) * 2 ^ e : ℚ) ≤ q * 2 ^ e := by
        gcongr
        exact_mod_cast bits
      _ = n := hn
      _ < 2 ^ (53 : ℤ) := by exact_mod_cast hb
  have split : q = (n * 2 ^ (-e - k).toNat : ℕ) * 2 ^ k := by
    have shift : (2 : ℚ) ^ (-e - k).toNat * 2 ^ k = (2 ^ e)⁻¹ := by
      rw [← zpow_natCast, ← zpow_natCast, ← zpow_add₀ two_ne_zero, ← zpow_neg]
      congr 1
      omega
    rw [Nat.cast_mul, Nat.cast_pow, Nat.cast_ofNat, mul_assoc, shift, ← hn,
      mul_inv_cancel_right₀ (by positivity)]
  rw [split] at h
  rw [nearestMantissa_eq h, ← split, hn]

/-! ### The bits of a float -/

/-- A minus sign. -/
def isNegative : Sign → Bool
  | .negative => true
  | .positive => false

/-- The number that an unpacked float stands for. -/
def Binary.ofUnpacked : UnpackedFloat → Binary
  | .notANumber => .nan
  | .infinity s => .infinite (isNegative s)
  | .zero s => .finite (isNegative s) 0 (-1074)
  | .finite s m e _ => .finite (isNegative s) m e

/-- The last 52 bits of a float are its mantissa. -/
lemma toNat_unpackMantissa (b : UInt64) :
    (b &&& 0xFFFFFFFFFFFFF).toNat = (@unpackMantissa .binary64 b.toBitVec).toNat := by
  have mask : (0xFFFFFFFFFFFFF : UInt64).toNat = 2 ^ 52 - 1 := rfl
  rw [UInt64.toNat_and, mask, Nat.and_two_pow_sub_one_eq_mod]
  simp [unpackMantissa]

/-- The eleven bits in front of the mantissa are the exponent. -/
lemma toNat_unpackExponent (b : UInt64) :
    ((b >>> 52) &&& 0x7FF).toNat = (@unpackExponent .binary64 b.toBitVec).toNat := by
  have mask : (0x7FF : UInt64).toNat = 2 ^ 11 - 1 := rfl
  rw [UInt64.toNat_and, mask, Nat.and_two_pow_sub_one_eq_mod]
  simp [unpackExponent]

/-- The first bit is the sign. -/
lemma toNat_unpackSign (b : UInt64) :
    (b >>> 63).toNat = (@unpackSign .binary64 b.toBitVec).toNat := by
  have top : b.toNat >>> 63 < 2 := by
    have := b.toNat_lt
    rw [Nat.shiftRight_eq_div_pow]
    omega
  rw [UInt64.toNat_shiftRight]
  show _ = (b.toBitVec.extractLsb' 63 1).toNat
  simp [Nat.mod_eq_of_lt top]

/-- A set bit is a negative sign. -/
lemma isNegative_ofBitVec (v : BitVec 1) : isNegative (.ofBitVec v) = (v.toNat == 1) := by
  decide +revert

/-- The hidden bit of a mantissa stands before the others. -/
lemma toNat_one_append (v : BitVec 52) : (1#1 ++ v).toNat = 2 ^ 52 + v.toNat := by
  have bits := Nat.two_pow_add_eq_or_of_lt v.isLt 1
  rw [mul_one] at bits
  rw [BitVec.toNat_append, Nat.shiftLeft_eq, BitVec.toNat_ofNat, bits]

/-- A float is read from its bits as the model unpacks it. -/
lemma Binary.ofBits_eq (b : UInt64) :
    Binary.ofBits b = .ofUnpacked (UnpackedFloat.unpack .binary64 b.toBitVec) := by
  have sign : (b >>> 63 == 1) = isNegative (.ofBitVec (@unpackSign .binary64 b.toBitVec)) := by
    rw [isNegative_ofBitVec, ← toNat_unpackSign, Bool.eq_iff_iff, beq_iff_eq, beq_iff_eq,
      ← UInt64.toNat_inj]
    rfl
  have infinite (ev : BitVec 11) : ev.toNat = 0x7FF ↔ ev = -1#11 := by
    rw [← BitVec.toNat_inj]
    rfl
  have subnormal (ev : BitVec 11) : ev.toNat = 0 ↔ ev = 0#11 := by
    rw [← BitVec.toNat_inj]
    rfl
  have empty (mv : BitVec 52) : mv.toNat = 0 ↔ mv = 0#52 := by
    rw [← BitVec.toNat_inj]
    rfl
  unfold Binary.ofBits
  rw [toNat_unpackExponent, toNat_unpackMantissa, sign]
  simp only [beq_iff_eq, infinite, subnormal, empty]
  delta UnpackedFloat.unpack
  dsimp only
  by_cases he : @unpackExponent .binary64 b.toBitVec = -1#11
  · by_cases hm : @unpackMantissa .binary64 b.toBitVec = 0#52
    · rw [if_pos he, if_pos hm, if_pos he, if_pos hm]
      rfl
    · rw [if_pos he, if_neg hm, if_pos he, if_neg hm]
      rfl
  by_cases hs : @unpackExponent .binary64 b.toBitVec = 0#11
  · by_cases hm : @unpackMantissa .binary64 b.toBitVec = 0#52
    · rw [if_neg he, if_pos hs, if_neg he, if_pos hs, dif_pos hm, (empty _).2 hm]
      rfl
    · rw [if_neg he, if_pos hs, if_neg he, if_pos hs, dif_neg hm, hs]
      rfl
  · have whole : (1#1 ++ @unpackMantissa .binary64 b.toBitVec).toNat =
        Nat.pow 2 52 + (@unpackMantissa .binary64 b.toBitVec).toNat := toNat_one_append _
    rw [if_neg he, if_neg hs, if_neg he, if_neg hs, ← whole]
    rfl

/-- A float of 53 bits is unpacked as it was packed. -/
lemma unpack_pack (hp : 0 < m) (hm : m.log2 = 52) (hl : -1074 ≤ e) (hu : e ≤ 971) :
    (Float.Model.pack (.finite s m e hp)).unpack = .finite s m e hp := by
  have packed : UnpackedFloat.pack .binary64 (.finite s m e hp) =
      packComponents .binary64 s (BitVec.ofNat 11 (e + 1075).toNat) (BitVec.ofNat 52 m) := by
    have biased : (e + Format.binary64.exponentBias +
        Format.binary64.mantissaBitsWithoutImplicit).toNat = (e + 1075).toNat := by
      show (e + 1023 + 52).toNat = _
      omega
    unfold UnpackedFloat.pack
    dsimp only
    rw [biased, if_neg (by omega), if_pos (by rw [hm]; rfl)]
  have exponent : (BitVec.ofNat 11 (e + 1075).toNat).toNat = (e + 1075).toNat := by
    rw [BitVec.toNat_ofNat]
    omega
  have finite : BitVec.ofNat 11 (e + 1075).toNat ≠ -1#11 := by
    rw [← BitVec.toNat_ne_iff_ne, exponent]
    show _ ≠ 2047
    omega
  have normal : BitVec.ofNat 11 (e + 1075).toNat ≠ 0#11 := by
    rw [← BitVec.toNat_ne_iff_ne, exponent]
    show _ ≠ 0
    omega
  have mantissa : (1#1 ++ BitVec.ofNat 52 m).toNat = m := by
    have := bits_of_log2_eq hm
    rw [toNat_one_append, BitVec.toNat_ofNat]
    omega
  have sign (v : BitVec 11) (w : BitVec 52) :
      Sign.ofBitVec (unpackSign (packComponents .binary64 s v w)) = s := by
    have top : unpackSign (packComponents .binary64 s v w) = s.toBitVec := by
      show (s.toBitVec ++ v ++ w).extractLsb' 63 1 = s.toBitVec
      rw [BitVec.extractLsb'_append_eq_of_le (by decide),
        BitVec.extractLsb'_append_eq_of_le (by decide)]
      exact BitVec.extractLsb'_eq_self
    rw [top]
    cases s <;> rfl
  unfold Float.Model.unpack Float.Model.pack
  rw [UInt64.toBitVec_ofBitVec, packed]
  delta UnpackedFloat.unpack
  dsimp only
  rw [if_neg (by rwa [unpackExponent_packComponents]),
    if_neg (by rwa [unpackExponent_packComponents]), UnpackedFloat.finite.injEq]
  refine ⟨sign _ _, ?_, ?_⟩
  · rwa [unpackMantissa_packComponents]
  · rw [unpackExponent_packComponents, exponent]
    show ((e + 1075).toNat : ℤ) - (1023 + 52) = e
    omega

/-! ### Floats -/

/-- A float stands for a number of a sign. -/
def Represents (x : Float) (s : Sign) (q : ℚ) : Prop :=
  ∃ m e hm, x.toModel.unpack = .finite s m e hm ∧ m.log2 = 52 ∧ (m * 2 ^ e : ℚ) = q

/-- A number far away from what is too small or too large for a float. -/
def Moderate (q : ℚ) : Prop := 2 ^ (-100 : ℤ) ≤ q ∧ q ≤ 2 ^ (100 : ℤ)

/-- A moderate number has a moderate exponent. -/
lemma Moderate.exponent_bounds (h : Moderate (m * 2 ^ e)) (hm : m.log2 = 52) :
    -153 < e ∧ e ≤ 48 := by
  have bits := bits_of_log2_eq hm
  constructor
  · have : (-100 : ℤ) < 53 + e := by
      rw [← zpow_lt_zpow_iff_right₀ (one_lt_two : (1 : ℚ) < 2), zpow_add₀ two_ne_zero]
      calc
        (2 ^ (-100 : ℤ) : ℚ) ≤ m * 2 ^ e := h.1
        _ < 2 ^ (53 : ℤ) * 2 ^ e := by
          gcongr
          exact_mod_cast bits.2
    omega
  · have : (52 + e : ℤ) ≤ 100 := by
      rw [← zpow_le_zpow_iff_right₀ (one_lt_two : (1 : ℚ) < 2), zpow_add₀ two_ne_zero]
      calc
        (2 ^ (52 : ℤ) * 2 ^ e : ℚ) ≤ m * 2 ^ e := by
          gcongr
          exact_mod_cast bits.1
        _ ≤ 2 ^ (100 : ℤ) := h.2
    omega

/-- A result that is rounded has a small relative error, and none if it is a whole number with at
most 53 bits. -/
lemma exists_represents_round (s : Sign) (h : Near m q acc) (hm : 52 ≤ m.log2)
    (hl : -1074 ≤ e + (m.log2 - 52 : ℕ)) (hu : e + (m.log2 - 52 : ℕ) ≤ 970) :
    ∃ p, Represents (.ofModel (.pack (roundWithAccuracy .binary64 s m e acc))) s p ∧
      |p - q * 2 ^ e| ≤ q * 2 ^ e / 2 ^ 53 ∧
      ∀ n : ℕ, n < 2 ^ 53 → q * 2 ^ e = n → p = n := by
  obtain ⟨m', e', hp, hr, hm', hl', hu', hv⟩ := exists_roundWithAccuracy s h hm hl
  refine ⟨_, ⟨m', e', hp, ?_, hm', hv⟩, ?_, fun n hn hq => exact_of_whole h hm hq hn⟩
  · rw [hr]
    exact unpack_pack hp hm' (by omega) (by omega)
  · have scale : (0 : ℚ) < 2 ^ e := by positivity
    rw [← sub_mul, abs_mul, abs_of_pos scale, mul_div_right_comm]
    gcongr
    exact abs_nearestMantissa_sub_le h hm

variable {x y : Float} {t : Sign} {r : ℚ} {n : ℕ}

/-- A product of two numbers of 53 bits has 105 or 106. -/
lemma log2_mul_bounds {m' : ℕ} (hm : m.log2 = 52) (hm' : m'.log2 = 52) :
    104 ≤ (m * m').log2 ∧ (m * m').log2 < 106 := by
  have bits := bits_of_log2_eq hm
  have bits' := bits_of_log2_eq hm'
  have lower : 2 ^ 52 * 2 ^ 52 ≤ m * m' := Nat.mul_le_mul bits.1 bits'.1
  have upper : m * m' < 2 ^ 53 * 2 ^ 53 := Nat.mul_lt_mul'' bits.2 bits'.2
  rw [Nat.le_log2 (by omega), Nat.log2_lt (by omega)]
  exact ⟨by omega, by omega⟩

/-- A quotient of two numbers of 53 bits has 53 or 54, after a shift. -/
lemma log2_div_bounds {m' : ℕ} (hm : m.log2 = 52) (hm' : m'.log2 = 52) :
    52 ≤ (m * 2 ^ 53 / m').log2 ∧ (m * 2 ^ 53 / m').log2 < 54 := by
  have bits := bits_of_log2_eq hm
  have bits' := bits_of_log2_eq hm'
  have lower : 2 ^ 52 ≤ m * 2 ^ 53 / m' := (Nat.le_div_iff_mul_le (by omega)).2 (by omega)
  have upper : m * 2 ^ 53 / m' < 2 ^ 54 := (Nat.div_lt_iff_lt_mul (by omega)).2 (by omega)
  rw [Nat.le_log2 (by omega), Nat.log2_lt (by omega)]
  exact ⟨lower, upper⟩

/-- A product of floats is close to the exact one, and is exact if that is a short whole number. -/
lemma Represents.mul (hx : Represents x s q) (hy : Represents y t r) (hq : Moderate q)
    (hr : Moderate r) :
    ∃ p, Represents (x * y) (s * t) p ∧ |p - q * r| ≤ q * r / 2 ^ 53 ∧
      ∀ n : ℕ, n < 2 ^ 53 → q * r = n → p = n := by
  obtain ⟨m, e, hm, ux, lx, rfl⟩ := hx
  obtain ⟨m', e', hm', uy, ly, rfl⟩ := hy
  have := hq.exponent_bounds lx
  have := hr.exponent_bounds ly
  have product : x * y =
      .ofModel (.pack (roundWithAccuracy .binary64 (s * t) (m * m') (e + e') .exact)) := by
    show Float.ofModel (.pack (UnpackedFloat.mul .binary64 x.toModel.unpack y.toModel.unpack)) = _
    rw [ux, uy]
    rfl
  have bits := log2_mul_bounds lx ly
  have near : Near (m * m') (m * m') .exact := by
    rw [Near, Nat.cast_mul]
  obtain ⟨p, hp, error, whole⟩ := exists_represents_round (e := e + e') (s * t) near (by omega)
    (by omega) (by omega)
  have value : (m * m' * 2 ^ (e + e') : ℚ) = m * 2 ^ e * (m' * 2 ^ e') := by
    rw [zpow_add₀ two_ne_zero]
    ring
  rw [value] at error whole
  rw [product]
  exact ⟨p, hp, error, whole⟩

/-- A quotient is near its whole part, as far as the remainder tells. -/
lemma near_div (m : ℕ) {d : ℕ} (hd : 0 < d) :
    Near (m / d) (m / d : ℚ) (accuracyOfFraction (m % d) d) := by
  have positive : (0 : ℚ) < d := by exact_mod_cast hd
  have quotient : (m / d : ℚ) = (m / d : ℕ) + (m % d : ℕ) / d := by
    rw [div_eq_iff positive.ne', add_mul, div_mul_cancel₀ _ positive.ne']
    exact_mod_cast (Nat.div_add_mod' m d).symm
  have small : ((m % d : ℕ) / d : ℚ) < 1 := by
    rw [div_lt_iff₀ positive, one_mul]
    exact_mod_cast Nat.mod_lt m hd
  rw [quotient]
  unfold accuracyOfFraction
  split
  · next hz => simp [Near, hz]
  · next hz =>
    have large : (0 : ℚ) < (m % d : ℕ) / d :=
      div_pos (by exact_mod_cast Nat.pos_of_ne_zero hz) positive
    -- The remainder lies before, at or behind half of the divisor.
    cases hc : compare (2 * (m % d)) d with
    | lt =>
      have before : (2 * (m % d : ℕ) : ℚ) < d := by exact_mod_cast Nat.compare_eq_lt.1 hc
      have : ((m % d : ℕ) / d : ℚ) < 1 / 2 := by
        rw [div_lt_iff₀ positive]
        linarith
      constructor <;> linarith
    | eq =>
      have middle : (2 * (m % d : ℕ) : ℚ) = d := by exact_mod_cast Nat.compare_eq_eq.1 hc
      have : ((m % d : ℕ) / d : ℚ) = 1 / 2 := by
        rw [div_eq_iff positive.ne']
        linarith
      show _ = _
      rw [this]
    | gt =>
      have behind : (d : ℚ) < 2 * (m % d : ℕ) := by exact_mod_cast Nat.compare_eq_gt.1 hc
      have : 1 / 2 < ((m % d : ℕ) / d : ℚ) := by
        rw [lt_div_iff₀ positive]
        linarith
      constructor <;> linarith

/-- The quotient of two mantissas is taken after a shift by 53 bits. -/
lemma divCore_eq {m' : ℕ} {e' : ℤ} (hm : m.log2 = 52) (hm' : m'.log2 = 52)
    (he : -1021 ≤ e - e') :
    divCore .binary64 m e m' e' =
      (m * 2 ^ 53 / m', e - e' - 53, accuracyOfFraction (m * 2 ^ 53 % m') m') := by
  have target : min (e - e')
      (Format.binary64.targetExponent (totalExponent m e - totalExponent m' e')) = e - e' - 53 := by
    simp only [Format.targetExponent, totalExponent, mantissaBits_binary64, Format.minExponent, hm,
      hm']
    omega
  have shift : (e - e' - (e - e' - 53)).toNat = 53 := by omega
  unfold divCore
  simp only [target, shift, Nat.shiftLeft_eq]

/-- A quotient of floats is close to the exact one. -/
lemma Represents.div (hx : Represents x s q) (hy : Represents y t r) (hq : Moderate q)
    (hr : Moderate r) : ∃ p, Represents (x / y) (s / t) p ∧ |p - q / r| ≤ q / r / 2 ^ 53 := by
  obtain ⟨m, e, hm, ux, lx, rfl⟩ := hx
  obtain ⟨m', e', hm', uy, ly, rfl⟩ := hy
  have := hq.exponent_bounds lx
  have := hr.exponent_bounds ly
  have core := divCore_eq lx ly (by omega : -1021 ≤ e - e')
  have quotient : x / y = .ofModel (.pack (roundWithAccuracy .binary64 (s / t) (m * 2 ^ 53 / m')
      (e - e' - 53) (accuracyOfFraction (m * 2 ^ 53 % m') m'))) := by
    show Float.ofModel (.pack (UnpackedFloat.div .binary64 x.toModel.unpack y.toModel.unpack)) = _
    rw [ux, uy]
    show Float.ofModel (.pack (roundWithAccuracy .binary64 (s / t) (divCore .binary64 m e m' e').1
      (divCore .binary64 m e m' e').2.1 (divCore .binary64 m e m' e').2.2)) = _
    rw [core]
  have bits := log2_div_bounds lx ly
  obtain ⟨p, hp, error, -⟩ := exists_represents_round (e := e - e' - 53) (s / t)
    (near_div (m * 2 ^ 53) hm') bits.1 (by omega) (by omega)
  have value : ((m * 2 ^ 53 : ℕ) / m' * 2 ^ (e - e' - 53) : ℚ) = m * 2 ^ e / (m' * 2 ^ e') := by
    have nonzero : (m' : ℚ) ≠ 0 := by exact_mod_cast hm'.ne'
    rw [zpow_sub₀ two_ne_zero, zpow_sub₀ two_ne_zero]
    push_cast
    field_simp
  rw [value] at error
  rw [quotient]
  exact ⟨p, hp, error⟩

/-- A power of two adds its exponent to the number of bits. -/
lemma log2_mul_two_pow (h : 0 < n) (k : ℕ) : (n * 2 ^ k).log2 = n.log2 + k := by
  have range := (Nat.log2_eq_iff h.ne').1 rfl
  have scale : 0 < 2 ^ k := by positivity
  rw [Nat.log2_eq_iff (by positivity), pow_add, add_right_comm, pow_add]
  exact ⟨Nat.mul_le_mul_right _ range.1, Nat.mul_lt_mul_of_pos_right range.2 scale⟩

/-- Whole numbers with at most 53 bits are floats. -/
lemma represents_toFloat (h : 0 < n) (hn : n < 2 ^ 53) :
    Represents n.toUInt64.toFloat .positive n := by
  have short : n.log2 < 53 := (Nat.log2_lt h.ne').2 hn
  have word : n.toUInt64.toNat = n := by
    rw [Nat.toUInt64_eq, UInt64.toNat_ofNat']
    omega
  have sign : compare (n : ℤ) 0 = .gt := by
    rw [compare_gt_iff_gt]
    omega
  have target : Format.binary64.targetExponent (totalExponent n 0) = n.log2 - 52 := by
    simp only [Format.targetExponent, totalExponent, mantissaBits_binary64, Format.minExponent]
    omega
  have shift : (0 - (n.log2 - 52 : ℤ)).toNat = 52 - n.log2 := by omega
  have converted : n.toUInt64.toFloat = .ofModel (.pack (roundWithAccuracy .binary64 .positive
      (n * 2 ^ (52 - n.log2)) (0 - (52 - n.log2 : ℕ)) .exact)) := by
    show Float.ofModel (.pack (UnpackedFloat.ofNat .binary64 n.toUInt64.toNat)) = _
    rw [word, UnpackedFloat.ofNat, UnpackedFloat.ofInt, UnpackedFloat.normalize, sign]
    dsimp only
    rw [UnpackedFloat.round, Int.toNat_natCast, target, decreaseExponent, shift, Nat.shiftLeft_eq]
  have full : (n * 2 ^ (52 - n.log2)).log2 = 52 := by
    rw [log2_mul_two_pow h]
    omega
  have near : Near (n * 2 ^ (52 - n.log2)) (n * 2 ^ (52 - n.log2) : ℕ) .exact := rfl
  obtain ⟨p, hp, -, whole⟩ := exists_represents_round (e := 0 - (52 - n.log2 : ℕ)) .positive near
    full.ge (by omega) (by omega)
  rw [converted, ← whole n hn]
  · exact hp
  · rw [zero_sub, zpow_neg, zpow_natCast, Nat.cast_mul, Nat.cast_pow, Nat.cast_ofNat,
      mul_inv_cancel_right₀ (by positivity)]

/-- A whole number of at most 53 bits is moderate. -/
lemma Moderate.natCast (h : 0 < n) (hn : n < 2 ^ 53) : Moderate n := by
  have lower : (1 : ℚ) ≤ n := by exact_mod_cast h
  have upper : (n : ℚ) ≤ 2 ^ 53 := by exact_mod_cast hn.le
  constructor
  · exact le_trans (by norm_num) lower
  · exact upper.trans (by norm_num)

/-- A whole number of at most 53 bits is exact. -/
lemma represents_ofNat (h : 0 < n) (hn : n < 2 ^ 53) : Represents (.ofNat n) .positive n := by
  have one : Represents (Nat.toUInt64 1).toFloat .positive (1 : ℕ) :=
    represents_toFloat one_pos (by norm_num)
  have product : Float.ofNat n = n.toUInt64.toFloat * (Nat.toUInt64 1).toFloat := by
    have table : Float.exactlyRepresentablePowersOfTen[0] = (Nat.toUInt64 1).toFloat := by
      decide +kernel
    rw [← table]
    exact dif_pos ⟨hn, Nat.zero_le 22⟩
  obtain ⟨p, hp, -, whole⟩ := (represents_toFloat h hn).mul one (.natCast h hn)
    (.natCast one_pos (by norm_num))
  rw [product, ← whole n hn (by simp)]
  exact hp

/-- The negative of a float is exact. -/
lemma Represents.neg (h : Represents x s q) (hq : Moderate q) : Represents (-x) (-s) q := by
  obtain ⟨m, e, hm, hu, hb, rfl⟩ := h
  have := hq.exponent_bounds hb
  refine ⟨m, e, hm, ?_, hb, rfl⟩
  show (Float.Model.pack x.toModel.unpack.neg).unpack = _
  rw [hu]
  exact unpack_pack hm hb (by omega) (by omega)

/-- What represents a number is finite. -/
lemma Represents.isFinite (h : Represents x s q) : x.isFinite = true := by
  obtain ⟨m, e, hm, hu, -, -⟩ := h
  show x.toModel.unpack.isFinite = true
  rw [hu]
  rfl

end Stylesheet.Number
