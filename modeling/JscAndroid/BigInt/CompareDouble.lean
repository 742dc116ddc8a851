import JscAndroid.BigInt.ToNumber

/-!
# Comparison with doubles

`compareToDouble` and `createFrom(double)` read the mantissa of a double digit by digit from the
top. As a fraction of `2 ^ 64` it is the part of the double below the digits read so far
(`firstDigit_spec`, `nextDigit_spec`). So the digits are those of the integer part, and the bits
left at the end are the fractional part.
-/

namespace JscAndroid.BigInt.CompareDouble

open Arith Arith.Limbs Arith.Bits Arith.Binary64 DigitArith Heap DigitLoops Magnitude AddSub
open Nat
open List
open ToNumber

variable {P : Platform}
variable {y m : BitVec 64} {r : ℤ}

/-! ## The source -/

def rawExponent (doubleBits : BitVec 64) : ℕ := ((doubleBits >>> 52) &&& 0x7FF).toNat

/-- The mantissa with its hidden bit. -/
def mantissa (doubleBits : BitVec 64) : BitVec 64 :=
  (doubleBits &&& 0x000FFFFFFFFFFFFF) ||| 0x0010000000000000

/-- Aligns the mantissa with a digit whose top bit is `msdTopBit`: that digit, the mantissa below
it, and `remainingMantissaBits`. -/
def firstDigit (P : Platform) (mantissa : BitVec 64) (msdTopBit : ℕ) : P.Digit × BitVec 64 × ℤ :=
  let mantissaTopBit := 52
  if msdTopBit < mantissaTopBit then
    let remainingMantissaBits := mantissaTopBit - msdTopBit
    ((mantissa >>> remainingMantissaBits).setWidth P.digitBits,
      mantissa <<< (64 - remainingMantissaBits), remainingMantissaBits)
  else
    ((mantissa <<< (msdTopBit - mantissaTopBit)).setWidth P.digitBits, 0, 0)

/-- Takes the next digit from the mantissa. -/
def nextDigit (P : Platform) (mantissa : BitVec 64) (remainingMantissaBits : ℤ) :
    P.Digit × BitVec 64 × ℤ :=
  if remainingMantissaBits > 0 then
    let remainingMantissaBits := remainingMantissaBits - P.digitBits
    if P.digitBits ≠ 64 then
      ((mantissa >>> (64 - P.digitBits)).setWidth P.digitBits, mantissa <<< P.digitBits,
        remainingMantissaBits)
    else
      (mantissa.setWidth P.digitBits, 0, remainingMantissaBits)
  else
    (0, mantissa, remainingMantissaBits)

/-- The loop of `compareToDouble`, on the digits from the most significant one down. -/
def compareDigits (xSign : Bool) : List P.Digit → BitVec 64 → ℤ → ComparisonResult
  | [], mantissa, _ =>
    if mantissa ≠ 0 then if xSign then .GreaterThan else .LessThan
    else .Equal
  | digit :: digits, mantissa, remainingMantissaBits =>
    let next := nextDigit P mantissa remainingMantissaBits
    if digit > next.1 then if xSign then .LessThan else .GreaterThan
    else if digit < next.1 then if xSign then .GreaterThan else .LessThan
    else compareDigits xSign digits next.2.1 next.2.2

/-- The part of `compareToDouble` for operands of one sign and one bit length. -/
def compareAligned (x : JSBigInt P) (y : BitVec 64) : ComparisonResult :=
  let xSign := x.sign
  let xMSD := x.digit (x.length - 1)
  let msdTopBit := P.digitBits - 1 - clz xMSD
  let first := firstDigit P (mantissa y) msdTopBit
  if xMSD > first.1 then if xSign then .LessThan else .GreaterThan
  else if xMSD < first.1 then if xSign then .GreaterThan else .LessThan
  else compareDigits xSign (x.digits.take (x.length - 1)).reverse first.2.1 first.2.2

/-- `y` is the pattern of the double. Once it is known to be finite, its comparisons with zero are
those of its value. -/
def compareToDouble (x : JSBigInt P) (y : BitVec 64) : ComparisonResult :=
  let rawExponent := rawExponent y
  if rawExponent = 0x7FF then
    if IsNaN y then .Undefined
    else if y = infinity false then .LessThan else .GreaterThan
  else
    let xSign := x.sign
    let ySign := decide (scaled y < 0)
    if xSign ≠ ySign then
      if xSign then .LessThan else .GreaterThan
    else if scaled y = 0 then
      if x.isZero then .Equal else .GreaterThan
    else if x.isZero then .LessThan
    else
      let exponent : ℤ := rawExponent - 0x3FF
      if exponent < 0 then
        if xSign then .LessThan else .GreaterThan
      else
        let xBitLength := bitLength x
        let yBitLength := exponent + 1
        if xBitLength < yBitLength then if xSign then .GreaterThan else .LessThan
        else if xBitLength > yBitLength then if xSign then .LessThan else .GreaterThan
        else compareAligned x y

/-- The loop of `createFrom(double)`: the digits below the most significant one, from the top. -/
def fillDigits (P : Platform) : ℕ → BitVec 64 → ℤ → List P.Digit
  | 0, _, _ => []
  | digits + 1, mantissa, remainingMantissaBits =>
    let next := nextDigit P mantissa remainingMantissaBits
    next.1 :: fillDigits P digits next.2.1 next.2.2

/-- `createFrom` on the pattern of an integral double. Every digit is written, so the zeros that the
result is initialized with are left out. -/
def createFromDouble (value : BitVec 64) : Op P (JSBigInt P) :=
  if scaled value = 0 then
    createZero
  else do
    let sign := decide (scaled value < 0)
    let exponent := rawExponent value - 0x3ff
    let digits := exponent / P.digitBits + 1
    let msdTopBit := exponent % P.digitBits
    let first := firstDigit P (mantissa value) msdTopBit
    let result ← createWithLength digits
    rightTrim ((result.setDigits 0
      (first.1 :: fillDigits P (digits - 1) first.2.1 first.2.2).reverse).setSign sign)

/-! ## Fields of the pattern -/

theorem rawExponent_eq (y : BitVec 64) : rawExponent y = biasedExponent y := by
  rw [rawExponent, biasedExponent, BitVec.toNat_and, BitVec.toNat_ushiftRight,
    shiftRight_eq_div_pow, show (0x7FF : BitVec 64).toNat = 2 ^ 11 - 1 from rfl,
    and_two_pow_sub_one_eq_mod]

theorem toNat_mantissa (y : BitVec 64) : (mantissa y).toNat = 2 ^ 52 + fraction y := by
  have hfraction : (y &&& 0x000FFFFFFFFFFFFF).toNat = fraction y := by
    rw [fraction, BitVec.toNat_and,
      show (0x000FFFFFFFFFFFFF : BitVec 64).toNat = 2 ^ 52 - 1 from rfl, and_two_pow_sub_one_eq_mod]
  have hhidden : (0x0010000000000000 : BitVec 64).toNat = 2 ^ 52 := rfl
  rw [mantissa, BitVec.or_comm,
    toNat_or_of_dvd (by rw [hhidden]) (by rw [hfraction]; exact fraction_lt y), hhidden, hfraction]

theorem scaledMagnitude_eq {e : ℕ} (he : biasedExponent y = e + 0x3ff) :
    scaledMagnitude y * 2 ^ 64 = (mantissa y).toNat * 2 ^ (e + 12) * 2 ^ 1074 := by
  rw [scaledMagnitude, if_neg (by omega), toNat_mantissa, he, mul_assoc, ← pow_add, mul_assoc,
    ← pow_add, show e + 0x3ff - 1 + 64 = e + 12 + 1074 by omega]

/-! ## Taking digits from the mantissa -/

theorem toNat_zero_word : (0 : BitVec 64).toNat = 0 := rfl

/-- Only the topmost `remainingMantissaBits` bits of the mantissa are still in use. -/
structure Aligned (mantissa : BitVec 64) (remainingMantissaBits : ℤ) : Prop where
  le : remainingMantissaBits ≤ 64
  dvd : 2 ^ (64 - remainingMantissaBits).toNat ∣ mantissa.toNat

theorem Aligned.eq_zero (h : Aligned m r) (hr : r ≤ 0) : m = 0 := by
  have h1 : 2 ^ 64 ∣ m.toNat := (pow_dvd_pow 2 (by omega)).trans h.dvd
  exact BitVec.eq_of_toNat_eq (eq_zero_of_dvd_of_lt h1 m.isLt)

theorem aligned_zero (hr : r ≤ 64) : Aligned 0 r := ⟨hr, Nat.dvd_zero _⟩

theorem Aligned.shiftLeft (h : Aligned m r) (k : ℕ) : Aligned (m <<< k) (r - k) := by
  have hdvd : 2 ^ (64 - (r - k)).toNat ∣ m.toNat * 2 ^ k := by
    rw [show (64 - (r - k)).toNat = (64 - r).toNat + k by have := h.le; omega, pow_add]
    exact mul_dvd_mul_right h.dvd _
  refine ⟨by have := h.le; omega, ?_⟩
  rw [BitVec.toNat_shiftLeft, shiftLeft_eq]
  rcases le_total (64 - (r - k)).toNat 64 with hle | hle
  · exact (dvd_mod_iff (pow_dvd_pow 2 hle)).mpr hdvd
  · rw [mod_eq_zero_of_dvd ((pow_dvd_pow 2 hle).trans hdvd)]
    exact dvd_zero _

/-- **One digit** is the integer part of the mantissa at the next weight. -/
theorem nextDigit_spec (h : Aligned m r) :
    m.toNat * 2 ^ P.digitBits = (nextDigit P m r).1.toNat * 2 ^ 64 + (nextDigit P m r).2.1.toNat ∧
      Aligned (nextDigit P m r).2.1 (nextDigit P m r).2.2 := by
  unfold nextDigit
  by_cases hr : r > 0
  · rw [if_pos hr]
    by_cases hw : P.digitBits ≠ 64
    · rw [if_pos hw]
      refine ⟨?_, h.shiftLeft P.digitBits⟩
      have hw : P.digitBits = 32 := P.digitBits_eq.resolve_right hw
      rw [BitVec.toNat_setWidth, BitVec.toNat_ushiftRight, BitVec.toNat_shiftLeft, hw]
      omega
    · rw [if_neg hw]
      dsimp only
      refine ⟨?_, aligned_zero (by have := h.le; omega)⟩
      have hw : P.digitBits = 64 := not_not.mp hw
      rw [BitVec.toNat_setWidth, hw, mod_eq_of_lt m.isLt, toNat_zero_word, add_zero]
  · rw [if_neg hr]
    refine ⟨?_, h⟩
    rw [h.eq_zero (not_lt.mp hr)]
    simp

/-- **The first digit.** -/
theorem firstDigit_spec {t : ℕ} (hm : m.toNat < 2 ^ 53) (ht : t < P.digitBits) :
    m.toNat * 2 ^ (t + 12) = (firstDigit P m t).1.toNat * 2 ^ 64 + (firstDigit P m t).2.1.toNat ∧
      Aligned (firstDigit P m t).2.1 (firstDigit P m t).2.2 := by
  have hfit : m.toNat * 2 ^ t < 2 ^ P.digitBits * 2 ^ 52 := by
    have h1 : 2 * 2 ^ t ≤ 2 ^ P.digitBits := by
      rw [← pow_succ']
      exact Nat.pow_le_pow_right (by omega) ht
    have h2 := mul_lt_mul_of_pos_right hm (show 0 < 2 ^ t by positivity)
    omega
  unfold firstDigit
  by_cases h52 : t < 52
  · rw [if_pos h52]
    dsimp only
    have hsplit : 2 ^ 52 = 2 ^ (52 - t) * 2 ^ t := by
      rw [← pow_add, Nat.sub_add_cancel h52.le]
    have hlow : 2 ^ 64 = 2 ^ (52 - t) * 2 ^ (t + 12) := by
      rw [← pow_add, show 52 - t + (t + 12) = 64 by omega]
    have hdigit : m.toNat / 2 ^ (52 - t) < 2 ^ P.digitBits := by
      refine Nat.div_lt_of_lt_mul ?_
      refine Nat.lt_of_mul_lt_mul_right (a := 2 ^ t) ?_
      rwa [mul_right_comm, ← hsplit, mul_comm (2 ^ 52)]
    refine ⟨?_, ⟨by omega, ?_⟩⟩
    · rw [BitVec.toNat_setWidth, BitVec.toNat_ushiftRight, BitVec.toNat_shiftLeft,
        shiftRight_eq_div_pow, shiftLeft_eq, mod_eq_of_lt hdigit,
        show 64 - (52 - t) = t + 12 by omega]
      conv_rhs => rw [hlow]
      rw [mul_mod_mul_right, ← mul_assoc, ← add_mul, div_add_mod']
    · rw [BitVec.toNat_shiftLeft, shiftLeft_eq,
        show (64 - ((52 - t : ℕ) : ℤ)).toNat = 64 - (52 - t) by omega]
      exact (dvd_mod_iff (pow_dvd_pow 2 (by omega))).mpr (dvd_mul_left _ _)
  · rw [if_neg h52]
    dsimp only
    refine ⟨?_, aligned_zero (by omega)⟩
    have hw : P.digitBits = 64 := by rcases P.digitBits_eq with h | h <;> omega
    have hsplit : 2 ^ t = 2 ^ (t - 52) * 2 ^ 52 := by
      rw [← pow_add, Nat.sub_add_cancel (by omega)]
    have hlt : m.toNat * 2 ^ (t - 52) < 2 ^ 64 := by
      refine Nat.lt_of_mul_lt_mul_right (a := 2 ^ 52) ?_
      rw [mul_assoc, ← hsplit]
      rwa [hw] at hfit
    rw [BitVec.toNat_setWidth, BitVec.toNat_shiftLeft, shiftLeft_eq, hw, mod_mod, mod_eq_of_lt hlt,
      mul_assoc, ← pow_add, show t - 52 + 64 = t + 12 by omega]
    exact (add_zero _).symm

/-! ## Comparing digits -/

/-- A comparison of magnitudes, for numbers of the sign `xSign`. -/
def withSign (xSign : Bool) : ComparisonResult → ComparisonResult
  | .GreaterThan => if xSign then .LessThan else .GreaterThan
  | .LessThan => if xSign then .GreaterThan else .LessThan
  | c => c

theorem ofMagnitudes_mul {m n c : ℕ} (hc : 0 < c) :
    ComparisonResult.ofMagnitudes (m * c) (n * c) = .ofMagnitudes m n := by
  simp only [ComparisonResult.ofMagnitudes, Nat.mul_lt_mul_right hc]

/-- **One comparison of a digit**, after which the lower digits are compared with what is left. -/
theorem compare_digit_step {d c : P.Digit} {xSign : Bool} {lower : ComparisonResult} {v m K : ℕ}
    (hv : v < K) (hm : m < 2 ^ 64)
    (hlower : lower = withSign xSign (.ofMagnitudes (v * 2 ^ 64) (m * K))) :
    (if d > c then if xSign then .LessThan else .GreaterThan
      else if d < c then if xSign then .GreaterThan else .LessThan
      else lower) =
      withSign xSign
        (.ofMagnitudes ((v + K * d.toNat) * 2 ^ 64) ((c.toNat * 2 ^ 64 + m) * K)) := by
  have hx : (v + K * d.toNat) * 2 ^ 64 = v * 2 ^ 64 + K * 2 ^ 64 * d.toNat := by ring
  have hy : (c.toNat * 2 ^ 64 + m) * K = m * K + K * 2 ^ 64 * c.toNat := by ring
  have hv' : v * 2 ^ 64 < K * 2 ^ 64 := mul_lt_mul_of_pos_right hv (by positivity)
  have hm' : m * K < K * 2 ^ 64 := by
    rw [mul_comm]
    exact mul_lt_mul_of_pos_left hm (by omega)
  rw [hx, hy, ofMagnitudes_leading _ _ hv' hm', hlower]
  by_cases h1 : c.toNat < d.toNat
  · rw [if_pos (BitVec.lt_def.mpr h1), if_pos h1]
    rfl
  · rw [if_neg (fun h => h1 (BitVec.lt_def.mp h)), if_neg h1]
    by_cases h2 : d.toNat < c.toNat
    · rw [if_pos (BitVec.lt_def.mpr h2), if_pos h2]
      rfl
    · rw [if_neg (fun h => h2 (BitVec.lt_def.mp h)), if_neg h2]

/-- **The loop compares the digits with the mantissa**, both at the weight of the last bit of it. -/
theorem compareDigits_eq (xSign : Bool) : ∀ (ds : List P.Digit) {m : BitVec 64} {r : ℤ},
    Aligned m r → compareDigits xSign ds m r =
      withSign xSign (.ofMagnitudes (value ds.reverse * 2 ^ 64)
        (m.toNat * (2 ^ P.digitBits) ^ ds.length))
  | [], m, r, _ => by
    have hzero : m ≠ 0 ↔ 0 < m.toNat := by
      rw [Ne, BitVec.toNat_eq, toNat_zero_word]
      omega
    rw [compareDigits, length_nil, pow_zero, mul_one,
      show value ([] : List P.Digit).reverse * 2 ^ 64 = 0 from zero_mul _]
    unfold ComparisonResult.ofMagnitudes
    by_cases hm : m ≠ 0
    · rw [if_pos hm, if_pos (hzero.mp hm)]
      rfl
    · rw [if_neg hm, if_neg (fun h => hm (hzero.mpr h))]
      rfl
  | d :: ds, m, r, h => by
    obtain ⟨h1, h2⟩ := nextDigit_spec h
    have hv := value_lt ds.reverse
    rw [length_reverse] at hv
    rw [compareDigits, compare_digit_step hv (nextDigit P m r).2.1.isLt
      (compareDigits_eq xSign ds h2), ← h1,
      reverse_cons, value_append, value_singleton, length_reverse, length_cons,
      pow_succ' (2 ^ P.digitBits) ds.length, mul_assoc]

/-- **Operands of one bit length** are compared at the weight of the last bit of the mantissa. -/
theorem compareAligned_eq {x : JSBigInt P} (hx : x.Normalized) (hne : x.digits ≠ []) (y : BitVec 64)
    {e : ℕ} (he : bitLength x = e + 1) :
    compareAligned x y = withSign x.sign
      (.ofMagnitudes (value x.digits * 2 ^ 64) ((mantissa y).toNat * 2 ^ (e + 12))) := by
  obtain ⟨hclz, -, -⟩ := msd_shiftLeft_clz hx hne
  have hlen : x.length = x.digits.length := rfl
  have hpos : 1 ≤ x.length := length_pos_iff.mpr hne
  have hm : (mantissa y).toNat < 2 ^ 53 := by
    have := fraction_lt y
    rw [toNat_mantissa]
    omega
  obtain ⟨h1, h2⟩ := firstDigit_spec hm
    (show P.digitBits - 1 - clz (x.digit (x.length - 1)) < P.digitBits by omega)
  have hsplit := value_take_add_drop x.digits (sub_le x.digits.length 1)
  have htop : value (x.digits.drop (x.length - 1)) = (x.digit (x.length - 1)).toNat := by
    rw [value_drop_succ (by omega), Nat.sub_add_cancel hpos, hlen, drop_length]
    rfl
  have hlower := value_lt (x.digits.take (x.length - 1))
  rw [length_take, min_eq_left (by omega)] at hlower
  have hweight : 2 ^ (e + 12) = 2 ^ (P.digitBits - 1 - clz (x.digit (x.length - 1)) + 12) *
      (2 ^ P.digitBits) ^ (x.length - 1) := by
    have hmul : P.digitBits * (x.length - 1) + P.digitBits = x.length * P.digitBits := by
      rw [← mul_succ, succ_eq_add_one, Nat.sub_add_cancel hpos, mul_comm]
    have hexp : e + 12 =
        P.digitBits - 1 - clz (x.digit (x.length - 1)) + 12 + P.digitBits * (x.length - 1) := by
      unfold bitLength at he
      omega
    rw [hexp, pow_add _ _ (P.digitBits * (x.length - 1)), pow_mul]
  rw [compareAligned, compare_digit_step hlower
    (firstDigit P (mantissa y) (P.digitBits - 1 - clz (x.digit (x.length - 1)))).2.1.isLt
    (by
      rw [compareDigits_eq x.sign _ h2, reverse_reverse, length_reverse,
        length_take, min_eq_left (by omega)]),
    ← h1, hweight, ← mul_assoc, hsplit, ← hlen, htop]

/-! ## The order of the values -/

/-- The comparison result for two integers. -/
def ofInts (a b : ℤ) : ComparisonResult :=
  if a < b then .LessThan else if b < a then .GreaterThan else .Equal

theorem signed_mul (b : Bool) (n c : ℤ) : signed b n * c = signed b (n * c) := by
  cases b
  · rfl
  · exact neg_mul _ _

theorem ofInts_signed (b : Bool) (m n : ℕ) :
    ofInts (signed b m) (signed b n) = withSign b (.ofMagnitudes m n) := by
  unfold ofInts ComparisonResult.ofMagnitudes signed
  cases b
  · simp only [Bool.false_eq_true, ↓reduceIte, Int.ofNat_lt]
    split_ifs <;> rfl
  · simp only [↓reduceIte, neg_lt_neg_iff, Int.ofNat_lt]
    rcases lt_trichotomy m n with h | h | h
    · rw [if_neg (by omega), if_pos h, if_pos h]
      rfl
    · rw [if_neg (by omega), if_neg (by omega), if_neg (by omega), if_neg (by omega)]
      rfl
    · rw [if_pos h, if_neg (by omega), if_pos h]
      rfl

theorem ofInts_of_sign_ne {a b : ℤ} {s : Bool} (ha : a < 0 ↔ s = true)
    (hs : s ≠ decide (b < 0)) : ofInts a b = if s then .LessThan else .GreaterThan := by
  unfold ofInts
  cases s with
  | true =>
    have hb : ¬ b < 0 := fun h => hs (decide_eq_true h).symm
    have ha : a < 0 := ha.mpr rfl
    rw [if_pos rfl, if_pos (by omega)]
  | false =>
    have hb : b < 0 := by
      by_contra h
      exact hs (decide_eq_false h).symm
    have ha : ¬ a < 0 := fun h => Bool.false_ne_true (ha.mp h)
    rw [if_neg Bool.false_ne_true, if_neg (by omega), if_pos (by omega)]

theorem scaled_eq_signed (y : BitVec 64) : scaled y = signed (sign y) (scaledMagnitude y) := rfl

/-- A nonzero double under the sign that its comparison with zero tells. -/
theorem scaled_eq_of_ne_zero (h0 : scaled y ≠ 0) :
    scaled y = signed (decide (scaled y < 0)) (scaledMagnitude y) ∧ 0 < scaledMagnitude y := by
  have hpos : scaledMagnitude y ≠ 0 := fun h => h0 (by
    rw [scaled_eq_signed, h]
    cases sign y <;> rfl)
  refine ⟨?_, pos_of_ne_zero hpos⟩
  rw [scaled_eq_signed]
  cases sign y
  · rw [decide_eq_false (show ¬ signed false (scaledMagnitude y : ℤ) < 0 by simp [signed])]
  · rw [decide_eq_true (show signed true (scaledMagnitude y : ℤ) < 0 by
      show -(scaledMagnitude y : ℤ) < 0
      omega)]

theorem scaledMagnitude_lt (h : biasedExponent y < 0x3ff) : scaledMagnitude y < 2 ^ 1074 := by
  have hf := fraction_lt y
  unfold scaledMagnitude
  split_ifs with h0
  · exact lt_of_lt_of_le hf (pow_le_pow_right₀ one_le_two (by omega))
  · calc (2 ^ 52 + fraction y) * 2 ^ (biasedExponent y - 1)
        < 2 ^ 53 * 2 ^ (biasedExponent y - 1) :=
          mul_lt_mul_of_pos_right (by omega) (by positivity)
      _ = 2 ^ (53 + (biasedExponent y - 1)) := (pow_add ..).symm
      _ ≤ 2 ^ 1074 := pow_le_pow_right₀ one_le_two (by omega)

/-- **The binary exponent** of a double that is not below 1. -/
theorem scaledMagnitude_bounds {e : ℕ} (he : biasedExponent y = e + 0x3ff) :
    2 ^ e * 2 ^ 1074 ≤ scaledMagnitude y ∧ scaledMagnitude y < 2 ^ (e + 1) * 2 ^ 1074 := by
  have hf := fraction_lt y
  have hlow : 2 ^ e * 2 ^ 1074 = 2 ^ 52 * 2 ^ (biasedExponent y - 1) := by
    rw [← pow_add, ← pow_add, he, show 52 + (e + 0x3ff - 1) = e + 1074 by omega]
  rw [pow_succ 2 e, mul_right_comm, hlow]
  rw [scaledMagnitude, if_neg (by omega)]
  refine ⟨mul_le_mul_right _ (by omega), ?_⟩
  rw [mul_right_comm]
  exact mul_lt_mul_of_pos_right (by omega) (by positivity)

section
variable {x : JSBigInt P} (hx : x.Normalized)
include hx

/-- **Nonzero operands of one sign** are compared by their magnitudes. -/
theorem compare_magnitudes (hne : x.digits ≠ []) : (let exponent : ℤ := rawExponent y - 0x3FF
     if exponent < 0 then
       if x.sign then ComparisonResult.LessThan else .GreaterThan
     else if bitLength x < exponent + 1 then if x.sign then .GreaterThan else .LessThan
     else if bitLength x > exponent + 1 then if x.sign then .LessThan else .GreaterThan
     else compareAligned x y) =
      withSign x.sign (.ofMagnitudes (value x.digits * 2 ^ 1074) (scaledMagnitude y)) := by
  obtain ⟨hlow, hhigh⟩ := bitLength_spec hx hne
  have hless : ∀ m n : ℕ, m < n →
      withSign x.sign (.ofMagnitudes m n) = if x.sign then .GreaterThan else .LessThan := by
    intro m n h
    rw [ComparisonResult.ofMagnitudes, if_pos h]
    rfl
  have hgreater : ∀ m n : ℕ, n < m →
      withSign x.sign (.ofMagnitudes m n) = if x.sign then .LessThan else .GreaterThan := by
    intro m n h
    rw [ComparisonResult.ofMagnitudes, if_neg (by omega), if_pos h]
    rfl
  rw [rawExponent_eq]
  by_cases hexp : (biasedExponent y : ℤ) - 0x3FF < 0
  · rw [if_pos hexp]
    refine (hgreater _ _ (lt_of_lt_of_le (scaledMagnitude_lt (by omega)) ?_)).symm
    exact Nat.le_mul_of_pos_left _ (hx.value_pos hne)
  · obtain ⟨e, he⟩ : ∃ e : ℕ, biasedExponent y = e + 0x3ff := ⟨biasedExponent y - 0x3ff, by omega⟩
    obtain ⟨hy1, hy2⟩ := scaledMagnitude_bounds he
    have hraw : (biasedExponent y : ℤ) - 0x3FF = e := by omega
    rw [if_neg hexp, hraw]
    by_cases h1 : (bitLength x : ℤ) < e + 1
    · rw [if_pos h1]
      refine (hless _ _ (lt_of_lt_of_le ?_ hy1)).symm
      refine mul_lt_mul_of_pos_right (lt_of_lt_of_le hhigh ?_) (pow_pos two_pos 1074)
      exact Nat.pow_le_pow_right (by omega) (by omega)
    · rw [if_neg h1]
      by_cases h2 : (bitLength x : ℤ) > e + 1
      · rw [if_pos h2]
        refine (hgreater _ _ (lt_of_lt_of_le hy2 (Nat.mul_le_mul_right _ ?_))).symm
        exact (Nat.pow_le_pow_right (by omega) (by omega)).trans hlow
      · rw [if_neg h2, compareAligned_eq hx hne y (e := e) (by omega),
          ← ofMagnitudes_mul (Nat.two_pow_pos 64) (m := value x.digits * 2 ^ 1074),
          scaledMagnitude_eq he, mul_right_comm, ofMagnitudes_mul (Nat.two_pow_pos 1074)]

/-- **Finite doubles** are compared by their values. -/
theorem compareToDouble_finite (hy : IsFinite y) :
    compareToDouble x y = ofInts (x.toInt * 2 ^ 1074) (scaled y) := by
  have hpow : (0 : ℤ) < 2 ^ 1074 := pow_pos (by omega) 1074
  have hneg := hx.toInt_neg_iff
  have hzero := hx.toInt_eq_zero_iff
  have hxs : x.toInt * 2 ^ 1074 = signed x.sign (value x.digits * 2 ^ 1074 : ℕ) := by
    rw [toInt_eq_signed, signed_mul, Nat.cast_mul, Nat.cast_pow, Nat.cast_ofNat]
  rw [compareToDouble, if_neg (by rw [rawExponent_eq]; exact hy)]
  by_cases hsign : x.sign ≠ decide (scaled y < 0)
  · rw [if_pos hsign]
    refine (ofInts_of_sign_ne (Iff.trans ⟨fun h => ?_, fun h => ?_⟩ hneg) hsign).symm
    · exact neg_of_mul_neg_left h hpow.le
    · exact mul_neg_of_neg_of_pos h hpow
  · rw [if_neg hsign]
    have hsign := not_not.mp hsign
    by_cases hy0 : scaled y = 0
    · have hs : x.sign = false := by
        rw [hsign, hy0]
        rfl
      have h2 : 0 ≤ x.toInt := not_lt.mp fun h => by
        rw [hneg.mp h] at hs
        cases hs
      rw [if_pos hy0, hy0]
      unfold ofInts
      by_cases hz : x.digits = []
      · rw [if_pos (JSBigInt.isZero_iff.mpr hz), hzero.mpr hz, zero_mul]
        rfl
      · have h3 := mul_pos (lt_of_le_of_ne h2 (fun h => hz (hzero.mp h.symm))) hpow
        rw [if_neg (fun h => hz (JSBigInt.isZero_iff.mp h)), if_neg (not_lt.mpr h3.le), if_pos h3]
    · obtain ⟨hys, hypos⟩ := scaled_eq_of_ne_zero hy0
      rw [if_neg hy0]
      rw [← hsign] at hys
      by_cases hz : x.digits = []
      · rw [if_pos (JSBigInt.isZero_iff.mpr hz), hys, hzero.mpr hz, hx.zero hz, zero_mul]
        rw [ofInts,
          if_pos (show (0 : ℤ) < signed false (scaledMagnitude y) by simpa [signed] using hypos)]
      · rw [if_neg (fun h => hz (JSBigInt.isZero_iff.mp h)), hys, hxs, ofInts_signed]
        exact compare_magnitudes hx hz
end

/-! ## The integer of a double -/

/-- **The digits below the first one** are those of the mantissa at their weight. -/
theorem fillDigits_spec : ∀ (n : ℕ) {m : BitVec 64} {r : ℤ}, Aligned m r →
    (fillDigits P n m r).length = n ∧
      value (fillDigits P n m r).reverse = m.toNat * (2 ^ P.digitBits) ^ n / 2 ^ 64
  | 0, m, r, _ => by
    refine ⟨rfl, ?_⟩
    rw [pow_zero, Nat.mul_one, div_eq_of_lt m.isLt]
    rfl
  | n + 1, m, r, h => by
    obtain ⟨h1, h2⟩ := nextDigit_spec (P := P) h
    obtain ⟨ih1, ih2⟩ := fillDigits_spec n h2
    rw [fillDigits]
    refine ⟨by rw [length_cons, ih1], ?_⟩
    rw [reverse_cons, value_append, value_singleton, length_reverse, ih1, ih2,
      pow_succ' (2 ^ P.digitBits) n, ← Nat.mul_assoc, h1, Nat.add_mul, Nat.mul_right_comm,
      Nat.add_comm, Nat.mul_comm ((2 ^ P.digitBits) ^ n), Nat.mul_comm _ (2 ^ 64),
      mul_add_div (Nat.two_pow_pos 64)]

/-- The digits that `createFrom` writes for a double that is not below 1: its integer part. -/
theorem digits_spec (e : ℕ) : let first := firstDigit P (mantissa y) (e % P.digitBits)
    let ds := (first.1 :: fillDigits P (e / P.digitBits + 1 - 1) first.2.1 first.2.2).reverse
    ds.length = e / P.digitBits + 1 ∧
      value ds = (mantissa y).toNat * 2 ^ (e + 12) / 2 ^ 64 := by
  have hw := P.digitBits_pos
  have hm : (mantissa y).toNat < 2 ^ 53 := by
    have := fraction_lt y
    rw [toNat_mantissa]
    omega
  obtain ⟨h1, h2⟩ := firstDigit_spec hm (mod_lt e hw)
  obtain ⟨h3, h4⟩ := fillDigits_spec (e / P.digitBits) h2
  have hweight : 2 ^ (e + 12) = 2 ^ (e % P.digitBits + 12) *
      (2 ^ P.digitBits) ^ (e / P.digitBits) := by
    rw [← pow_mul, ← pow_add, add_right_comm, mod_add_div]
  rw [Nat.add_sub_cancel]
  refine ⟨by rw [length_reverse, length_cons, h3], ?_⟩
  rw [reverse_cons, value_append, value_singleton, length_reverse, h3, h4, hweight,
    ← mul_assoc, h1, add_mul, mul_right_comm, add_comm,
    mul_comm ((2 ^ P.digitBits) ^ (e / P.digitBits)), mul_comm _ (2 ^ 64),
    mul_add_div (Nat.two_pow_pos 64)]

section
variable {y : BitVec 64} (hdvd : (2 ^ 1074 : ℤ) ∣ scaled y) (h0 : scaled y ≠ 0)
include hdvd h0

/-- A nonzero integral double is not below 1, and its mantissa gives its magnitude. -/
theorem integral_magnitude : ∃ e z : ℕ, biasedExponent y = e + 0x3ff ∧
    (mantissa y).toNat * 2 ^ (e + 12) = z * 2 ^ 64 ∧ scaledMagnitude y = z * 2 ^ 1074 := by
  obtain ⟨hs, hpos⟩ := scaled_eq_of_ne_zero h0
  have hmag : 2 ^ 1074 ∣ scaledMagnitude y := by
    have h1 : (2 ^ 1074 : ℤ) ∣ (scaledMagnitude y : ℤ) := by
      rw [hs] at hdvd
      unfold signed at hdvd
      split_ifs at hdvd
      · exact (dvd_neg).mp hdvd
      · exact hdvd
    exact_mod_cast h1
  obtain ⟨z, hz⟩ := hmag
  have hexp : ¬ biasedExponent y < 0x3ff := fun h =>
    absurd (le_of_dvd hpos ⟨z, hz⟩) (not_le.mpr (scaledMagnitude_lt h))
  obtain ⟨e, he⟩ : ∃ e : ℕ, biasedExponent y = e + 0x3ff := ⟨biasedExponent y - 0x3ff, by omega⟩
  refine ⟨e, z, he, ?_, by rw [hz, mul_comm]⟩
  refine eq_of_mul_eq_mul_right (pow_pos two_pos 1074) ?_
  rw [← scaledMagnitude_eq he, hz, mul_comm (2 ^ 1074), mul_right_comm]
end

theorem createFromDouble_returns (room : Prop) (hdvd : (2 ^ 1074 : ℤ) ∣ scaled y) :
    Returns room (createFromDouble y : Op P (JSBigInt P))
      fun r => r.Normalized ∧ r.toInt * 2 ^ 1074 = scaled y := by
  unfold createFromDouble
  by_cases h0 : scaled y = 0
  · rw [h0]
    exact (createZero_returns _).imp fun r hr => ⟨hr.1, by rw [hr.2, zero_mul]⟩
  · rw [if_neg h0]
    obtain ⟨e, z, he, hm, hz⟩ := integral_magnitude hdvd h0
    obtain ⟨h1, h2⟩ := digits_spec e
    have hlt := biasedExponent_lt y
    have hlen : e / P.digitBits + 1 ≤ maxLength P := by
      have hw := P.digitBits_eq
      unfold maxLength maxLengthBits
      rcases hw with hw | hw <;> rw [hw] <;> omega
    rw [rawExponent_eq, he, Nat.add_sub_cancel]
    refine (fill_returns h1.symm (by simp)).mono (fun _ => hlen) fun r hr => ⟨hr.1, ?_⟩
    have hs := (scaled_eq_of_ne_zero h0).1
    rw [hz, Nat.cast_mul, Nat.cast_pow, Nat.cast_ofNat] at hs
    rw [hr.2, toInt_eq_signed, h2, hm, Nat.mul_div_cancel _ (Nat.two_pow_pos 64), signed_mul]
    exact hs.symm

/-! ## The comparison is exact -/

/-- **`compareToDouble` orders an integer and a double.** It is undefined just for NaN; an infinity
is above or below every integer, and a finite double is compared by its value, here in units of `2 ^
-1074`. What `createFrom` makes of an integral double is normalized and equal to it. -/
theorem compareToDouble_exact {x : JSBigInt P} (hx : x.Normalized) (y : BitVec 64) :
    (compareToDouble x y = .Undefined ↔ IsNaN y) ∧
      (IsInfinite y → compareToDouble x y = if sign y then .GreaterThan else .LessThan) ∧
      (IsFinite y → compareToDouble x y = ofInts (x.toInt * 2 ^ 1074) (scaled y)) ∧
      (IsFinite y → (2 ^ 1074 : ℤ) ∣ scaled y → Total (createFromDouble y : Op P (JSBigInt P)) ∧
          ∀ vm (r : JSBigInt P) vm', createFromDouble y vm = .ok (r, vm') →
            r.Normalized ∧ r.toInt * 2 ^ 1074 = scaled y ∧ compareToDouble r y = .Equal) := by
  have hfinite := fun hy => compareToDouble_finite hx (y := y) hy
  refine ⟨?_, ?_, hfinite, ?_⟩
  · by_cases hy : IsFinite y
    · rw [hfinite hy]
      constructor
      · intro h
        unfold ofInts at h
        split_ifs at h
      · intro h
        exact absurd h.1 hy
    · rw [compareToDouble, if_pos (by rw [rawExponent_eq]; exact not_not.mp hy)]
      constructor
      · intro h
        by_contra hnan
        split_ifs at h
      · intro h
        rw [if_pos h]
  · rintro ⟨hexp, hfrac⟩
    have hbits := toNat_eq y
    rw [hexp, hfrac] at hbits
    rw [compareToDouble, if_pos (by rw [rawExponent_eq]; exact hexp), if_neg (fun h => h.2 hfrac)]
    cases hs : sign y with
    | true =>
      rw [hs] at hbits
      rw [if_neg (fun h => ?_), if_pos rfl]
      rw [h] at hbits
      exact absurd hbits (by decide)
    | false =>
      rw [hs] at hbits
      rw [if_pos (BitVec.eq_of_toNat_eq hbits), if_neg Bool.false_ne_true]
  · intro hy hdvd
    have hret := createFromDouble_returns (P := P) True hdvd
    refine ⟨hret.total trivial, fun vm r vm' hr => ?_⟩
    obtain ⟨h1, h2⟩ := hret.ok hr
    refine ⟨h1, h2, ?_⟩
    rw [compareToDouble_finite h1 hy, h2]
    rw [ofInts, if_neg (lt_irrefl _), if_neg (lt_irrefl _)]

/-- `2 ^ 53 + 1` is above the double `2 ^ 53`, to which it is rounded as a number; the BigInt made
of that double is equal to it. -/
theorem compareToDouble_exact_above_rounding :
    (⟨false, [9007199254740993]⟩ : JSBigInt .arm64).Normalized ∧
      ofInts ((⟨false, [9007199254740993]⟩ : JSBigInt .arm64).toInt * 2 ^ 1074)
        (scaled 0x4340000000000000) = .GreaterThan ∧
      compareToDouble (⟨false, [9007199254740993]⟩ : JSBigInt .arm64) 0x4340000000000000 =
        ofInts ((⟨false, [9007199254740993]⟩ : JSBigInt .arm64).toInt * 2 ^ 1074)
          (scaled 0x4340000000000000) ∧ ∃ (r : JSBigInt .arm64) (vm' : VM .arm64),
        createFromDouble 0x4340000000000000 VM.zeroed = .ok (r, vm') ∧
          compareToDouble r 0x4340000000000000 = .Equal := by
  have hx : (⟨false, [9007199254740993]⟩ : JSBigInt .arm64).Normalized := by decide
  have hfinite : IsFinite 0x4340000000000000 := by decide
  have hexact := compareToDouble_exact hx 0x4340000000000000
  refine ⟨hx, by decide +kernel, hexact.2.2.1 hfinite, ?_⟩
  obtain ⟨htotal, hequal⟩ := hexact.2.2.2 hfinite (by decide +kernel)
  obtain ⟨r, vm', hr, -⟩ := htotal VM.zeroed VM.zeroed_unlimited
  exact ⟨r, vm', hr, (hequal _ _ _ hr).2.2⟩

end JscAndroid.BigInt.CompareDouble
