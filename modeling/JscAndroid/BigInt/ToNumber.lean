import JscAndroid.Arith.Binary64
import JscAndroid.BigInt.Shift

/-!
# Conversion to double

`toNumberHeap` builds the pattern of a double out of at most three digits: 52 bits below the leading
one are collected into the mantissa, and what is left of the digits decides the rounding.
`mantissaBitsUnset` turns negative when bits of the current digit are left over.

`Collected.Holds` is the invariant: the mantissa, with the hidden bit, is what the digits from the
current one up denote, moved by that count. `decideRounding` compares the remainder with one half.
-/

namespace JscAndroid.BigInt.ToNumber

open Arith Arith.Limbs Arith.Bits Arith.Binary64 DigitArith Heap Magnitude Shift Nat

variable {P : Platform}
variable {x : JSBigInt P}

/-! ## The source -/

def doublePhysicalMantissaSize : ℕ := 52

inductive RoundingResult
  | RoundDown
  | Tie
  | RoundUp
  deriving DecidableEq, Repr

/-- The end of `decideRounding`, once the top unconsumed bit is found. -/
def decideByBits (bigInt : JSBigInt P) (topUnconsumedBit digitIndex : ℕ)
    (currentDigit : BitVec 64) : RoundingResult :=
  let bitmask := (1 : BitVec 64) <<< topUnconsumedBit
  if currentDigit &&& bitmask = 0 then .RoundDown
  else
    let bitmask := bitmask - 1
    if currentDigit &&& bitmask ≠ 0 then .RoundUp
    else if (bigInt.digits.take digitIndex).any (· != 0) then .RoundUp
    else .Tie

def decideRounding (bigInt : JSBigInt P) (mantissaBitsUnset : ℤ) (digitIndex : ℕ)
    (currentDigit : BitVec 64) : RoundingResult :=
  if mantissaBitsUnset > 0 then .RoundDown
  else if mantissaBitsUnset < 0 then
    decideByBits bigInt (-mantissaBitsUnset - 1).toNat digitIndex currentDigit
  else if digitIndex = 0 then .RoundDown
  else
    decideByBits bigInt (P.digitBits - 1) (digitIndex - 1)
      ((bigInt.digit (digitIndex - 1)).setWidth 64)

/-- What has been collected so far. -/
structure Collected where
  mantissa : BitVec 64
  mantissaBitsUnset : ℤ
  digitIndex : ℕ
  currentDigit : BitVec 64
  deriving DecidableEq, Repr

variable {c : Collected}

/-- The bits of the most significant digit below the leading one. -/
def collectTopDigit (bigInt : JSBigInt P) : Collected :=
  let length := bigInt.length
  let msd := bigInt.digit (length - 1)
  let msdLeadingZeros := clz msd
  let currentDigit := msd.setWidth 64
  let shiftAmount := msdLeadingZeros + 1 + (64 - P.digitBits)
  let mantissa := if shiftAmount = 64 then 0 else currentDigit <<< shiftAmount
  ⟨mantissa >>> 12, shiftAmount - 12, length - 1, currentDigit⟩

/-- A digit that fits as a whole, which only digits of 32 bits can. -/
def collectWholeDigit (bigInt : JSBigInt P) (c : Collected) : Collected :=
  if P.digitBits < 64 ∧ c.mantissaBitsUnset ≥ P.digitBits ∧ c.digitIndex > 0 then
    let digitIndex := c.digitIndex - 1
    let currentDigit := (bigInt.digit digitIndex).setWidth 64
    ⟨c.mantissa ||| (currentDigit <<< (c.mantissaBitsUnset - P.digitBits).toNat),
      c.mantissaBitsUnset - P.digitBits, digitIndex, currentDigit⟩
  else c

/-- The upper part of the next digit. -/
def collectPartOfDigit (bigInt : JSBigInt P) (c : Collected) : Collected :=
  if c.mantissaBitsUnset > 0 ∧ c.digitIndex > 0 then
    let digitIndex := c.digitIndex - 1
    let currentDigit := (bigInt.digit digitIndex).setWidth 64
    ⟨c.mantissa ||| (currentDigit >>> (P.digitBits - c.mantissaBitsUnset).toNat),
      c.mantissaBitsUnset - P.digitBits, digitIndex, currentDigit⟩
  else c

def infinity (sign : Bool) : BitVec 64 :=
  if sign then 0xFFF0000000000000 else 0x7FF0000000000000

/-- The pattern of the three fields. -/
def doubleBits (sign : Bool) (exponent : ℕ) (mantissa : BitVec 64) : BitVec 64 :=
  let signBit := if sign then (1 : BitVec 64) <<< 63 else 0
  let exponent := BitVec.ofNat 64 (exponent + 0x3ff) <<< doublePhysicalMantissaSize
  signBit ||| exponent ||| mantissa

def toNumberHeap (bigInt : JSBigInt P) : BitVec 64 :=
  if bigInt.isZero then 0
  else
    let length := bigInt.length
    let sign := bigInt.sign
    let msd := bigInt.digit (length - 1)
    let msdLeadingZeros := clz msd
    let bitLength := length * P.digitBits - msdLeadingZeros
    if bitLength > 1024 then infinity sign
    else
      let exponent := bitLength - 1
      let c := collectPartOfDigit bigInt (collectWholeDigit bigInt (collectTopDigit bigInt))
      let rounding := decideRounding bigInt c.mantissaBitsUnset c.digitIndex c.currentDigit
      if rounding = .RoundUp ∨ (rounding = .Tie ∧ c.mantissa &&& 1 = 1) then
        let mantissa := c.mantissa + 1
        -- the mantissa can overflow, and then the exponent
        if mantissa >>> doublePhysicalMantissaSize ≠ 0 then
          if exponent + 1 > 1023 then infinity sign
          else doubleBits sign (exponent + 1) 0
        else doubleBits sign exponent mantissa
      else doubleBits sign exponent c.mantissa

/-! ## The number of bits -/

/-- The number of bits of the magnitude. -/
def bitLength (x : JSBigInt P) : ℕ := x.length * P.digitBits - clz (x.digit (x.length - 1))

section
variable {x : JSBigInt P} (hx : x.Normalized) (hne : x.digits ≠ [])
include hx hne

theorem msd_shiftLeft_clz : clz (x.digit (x.length - 1)) < P.digitBits ∧
      2 ^ P.digitBits ≤ 2 * ((x.digit (x.length - 1)).toNat * 2 ^ clz (x.digit (x.length - 1))) ∧
      (x.digit (x.length - 1)).toNat * 2 ^ clz (x.digit (x.length - 1)) < 2 ^ P.digitBits := by
  have htop := top_ne_zero hx hne
  have hw := P.digitBits_pos
  obtain ⟨-, h2, h3⟩ := shiftLeft_clz hw htop
  exact ⟨clz_lt htop, h2,
    lt_of_lt_of_le (mul_lt_mul_of_pos_right (lt_succ_self _) (by positivity)) h3⟩

theorem bitLength_pos : 1 ≤ bitLength x := by
  obtain ⟨h1, -, -⟩ := msd_shiftLeft_clz hx hne
  have hpos : 1 ≤ x.length := List.length_pos_iff.mpr hne
  have := mul_le_mul_right P.digitBits hpos
  unfold bitLength
  omega

/-- **The number of bits** is that of the binary numeral. -/
theorem bitLength_spec : 2 ^ (bitLength x - 1) ≤ value x.digits ∧
    value x.digits < 2 ^ bitLength x := by
  obtain ⟨h1, h2, h3⟩ := msd_shiftLeft_clz hx hne
  have hpos : 1 ≤ x.length := List.length_pos_iff.mpr hne
  have hle := mul_le_mul_right P.digitBits hpos
  have hlow := getLast_mul_le_value x.digits hne
  have hhigh := value_lt_getLast x.digits hne
  rw [← digit_top hne] at hlow hhigh
  set d := (x.digit (x.length - 1)).toNat
  set z := clz (x.digit (x.length - 1))
  have hB : (2 ^ P.digitBits) ^ (x.length - 1) * 2 ^ P.digitBits =
      2 ^ (x.length * P.digitBits) := by
    rw [← pow_succ, Nat.sub_add_cancel hpos, ← pow_mul, mul_comm]
  refine ⟨?_, ?_⟩
  · refine le_of_mul_le_mul_right ?_ (show 0 < 2 * 2 ^ z by positivity)
    calc 2 ^ (x.length * P.digitBits - z - 1) * (2 * 2 ^ z)
        = 2 ^ (x.length * P.digitBits) := by
          rw [← mul_assoc, ← pow_succ, ← pow_add]
          congr 1
          omega
      _ = (2 ^ P.digitBits) ^ (x.length - 1) * 2 ^ P.digitBits := hB.symm
      _ ≤ (2 ^ P.digitBits) ^ (x.length - 1) * (2 * (d * 2 ^ z)) := mul_le_mul_left _ h2
      _ = d * (2 ^ P.digitBits) ^ (x.length - 1) * (2 * 2 ^ z) := by ring
      _ ≤ value x.digits * (2 * 2 ^ z) := mul_le_mul_right _ hlow
  · have hd : d + 1 ≤ 2 ^ (P.digitBits - z) := by
      refine Nat.lt_of_mul_lt_mul_right (a := 2 ^ z) ?_
      rwa [← pow_add, Nat.sub_add_cancel h1.le]
    calc value x.digits < (d + 1) * (2 ^ P.digitBits) ^ (x.length - 1) := hhigh
      _ ≤ 2 ^ (P.digitBits - z) * (2 ^ P.digitBits) ^ (x.length - 1) :=
          mul_le_mul_right _ hd
      _ = 2 ^ (x.length * P.digitBits - z) := by
          rw [← pow_mul, ← pow_add]
          congr 1
          have : P.digitBits * (x.length - 1) + P.digitBits = x.length * P.digitBits := by
            rw [← mul_succ, succ_eq_add_one, Nat.sub_add_cancel hpos, mul_comm]
          omega
end

/-! ## Collecting the mantissa -/

/-- `n`, moved to the left by `u` bits, or to the right if that is negative. -/
def shifted (n : ℕ) (u : ℤ) : ℕ := if 0 ≤ u then n * 2 ^ u.toNat else n / 2 ^ (-u).toNat

/-- The invariant of the collection. -/
structure Collected.Holds (x : JSBigInt P) (c : Collected) : Prop where
  index : c.digitIndex < x.length
  current : c.currentDigit.toNat = (x.digit c.digitIndex).toNat
  position : (c.digitIndex * P.digitBits : ℤ) - c.mantissaBitsUnset = bitLength x - 53
  mantissa : c.mantissa.toNat + 2 ^ 52 =
    shifted (value (x.digits.drop c.digitIndex)) c.mantissaBitsUnset
  upper : c.mantissaBitsUnset ≤ 52
  lower : -(P.digitBits : ℤ) < c.mantissaBitsUnset

theorem toNat_setWidth_digit (d : P.Digit) : (d.setWidth 64).toNat = d.toNat := by
  have hle := P.digitBits_le
  rw [BitVec.toNat_setWidth, mod_eq_of_lt]
  exact lt_of_lt_of_le d.isLt (Nat.pow_le_pow_right (by omega) hle)

theorem collectTopDigit_holds (hx : x.Normalized) (hne : x.digits ≠ []) :
    (collectTopDigit x).Holds x := by
  obtain ⟨h1, h2, h3⟩ := msd_shiftLeft_clz hx hne
  have hpos : 1 ≤ x.length := List.length_pos_iff.mpr hne
  have hw := P.digitBits_le
  set d := x.digit (x.length - 1) with hd
  set z := clz d
  have hdrop : value (x.digits.drop (x.length - 1)) = d.toNat :=
    value_drop_last (Nat.sub_add_cancel hpos).symm
  -- the leading one is shifted out of the word
  have hshift : d.toNat * 2 ^ (z + 1 + (64 - P.digitBits)) =
      2 * (d.toNat * 2 ^ z) * 2 ^ (64 - P.digitBits) := by
    ring
  have hB : 2 ^ P.digitBits * 2 ^ (64 - P.digitBits) = 2 ^ 64 := by
    rw [← pow_add, Nat.add_sub_cancel' hw]
  have hge : 2 ^ 64 ≤ d.toNat * 2 ^ (z + 1 + (64 - P.digitBits)) := by
    rw [hshift, ← hB]
    exact mul_le_mul_right _ h2
  have hlt : d.toNat * 2 ^ (z + 1 + (64 - P.digitBits)) < 2 * 2 ^ 64 := by
    rw [hshift, ← hB, mul_assoc 2]
    exact mul_lt_mul_of_pos_left (mul_lt_mul_of_pos_right h3 (by positivity)) (by omega)
  have hmantissa : (if z + 1 + (64 - P.digitBits) = 64 then (0 : BitVec 64)
      else d.setWidth 64 <<< (z + 1 + (64 - P.digitBits))).toNat + 2 ^ 64 =
      d.toNat * 2 ^ (z + 1 + (64 - P.digitBits)) := by
    by_cases h64 : z + 1 + (64 - P.digitBits) = 64
    · rw [if_pos h64]
      rw [h64] at hge hlt ⊢
      have : d.toNat = 1 := by omega
      rw [this]
      rfl
    · rw [if_neg h64, BitVec.toNat_shiftLeft, toNat_setWidth_digit]
      omega
  set a := z + 1 + (64 - P.digitBits) with ha
  have hlen' : x.length * P.digitBits = (x.length - 1) * P.digitBits + P.digitBits := by
    rw [← succ_mul, succ_eq_add_one, Nat.sub_add_cancel hpos]
  refine ⟨by show x.length - 1 < _; omega, toNat_setWidth_digit d, ?_, ?_, ?_, ?_⟩
  · show (((x.length - 1 : ℕ) : ℤ) * P.digitBits) - ((a : ℤ) - 12) =
      ((x.length * P.digitBits - z : ℕ) : ℤ) - 53
    omega
  · show ((if a = 64 then (0 : BitVec 64) else d.setWidth 64 <<< a) >>> 12).toNat + 2 ^ 52 =
      shifted (value (x.digits.drop (x.length - 1))) ((a : ℤ) - 12)
    rw [hdrop, BitVec.toNat_ushiftRight, shiftRight_eq_div_pow]
    have hdiv : (if a = 64 then (0 : BitVec 64) else d.setWidth 64 <<< a).toNat / 2 ^ 12 + 2 ^ 52 =
        d.toNat * 2 ^ a / 2 ^ 12 := by
      omega
    rw [hdiv]
    unfold shifted
    rcases lt_or_ge a 12 with hlt12 | hge12
    · rw [if_neg (by omega), show (-((a : ℤ) - 12)).toNat = 12 - a by omega,
        show 2 ^ 12 = 2 ^ (12 - a) * 2 ^ a by rw [← pow_add, Nat.sub_add_cancel hlt12.le],
        Nat.mul_div_mul_right _ _ (by positivity)]
    · rw [if_pos (by omega), show ((a : ℤ) - 12).toNat = a - 12 by omega,
        show 2 ^ a = 2 ^ (a - 12) * 2 ^ 12 by rw [← pow_add, Nat.sub_add_cancel hge12],
        ← mul_assoc, Nat.mul_div_cancel _ (by positivity)]
  · show (a : ℤ) - 12 ≤ 52
    omega
  · show -(P.digitBits : ℤ) < (a : ℤ) - 12
    omega

theorem value_drop_pred {i : ℕ} (hi : 0 < i) (hl : i < x.length) : value (x.digits.drop (i - 1)) =
      (x.digit (i - 1)).toNat + 2 ^ P.digitBits * value (x.digits.drop i) := by
  have hl' : i - 1 < x.digits.length := by
    have : x.length = x.digits.length := rfl
    omega
  rw [value_drop_succ hl', Nat.sub_add_cancel hi]
  rfl

/-- The mantissa leaves the bits that are not set to the digits to come. -/
theorem Collected.Holds.dvd_mantissa (h : c.Holds x) (hu : 0 ≤ c.mantissaBitsUnset) :
    2 ^ c.mantissaBitsUnset.toNat ∣ c.mantissa.toNat := by
  have hm := h.mantissa
  have hupper := h.upper
  rw [shifted, if_pos hu] at hm
  have h52 : 2 ^ c.mantissaBitsUnset.toNat ∣ 2 ^ 52 := pow_dvd_pow 2 (by omega)
  refine (Nat.dvd_add_left h52).mp ?_
  rw [hm]
  exact dvd_mul_left _ _

theorem shifted_digit_lt {d : ℕ} {u : ℤ} (hd : d < 2 ^ P.digitBits) (hu : 0 ≤ u) :
    shifted d (u - P.digitBits) < 2 ^ u.toNat := by
  unfold shifted
  split_ifs with h
  · rw [show u.toNat = (u - P.digitBits).toNat + P.digitBits by omega, pow_add, mul_comm]
    exact mul_lt_mul_of_pos_left hd (by positivity)
  · refine Nat.div_lt_of_lt_mul ?_
    rwa [← pow_add, show (-(u - P.digitBits)).toNat + u.toNat = P.digitBits by omega]

theorem shifted_digit_add {d v : ℕ} {u : ℤ} (hu : 0 ≤ u) :
    shifted (d + 2 ^ P.digitBits * v) (u - P.digitBits) =
      shifted d (u - P.digitBits) + shifted v u := by
  unfold shifted
  split_ifs with h
  · rw [show u.toNat = (u - P.digitBits).toNat + P.digitBits by omega]
    ring
  · have hB : 2 ^ P.digitBits = 2 ^ (-(u - P.digitBits)).toNat * 2 ^ u.toNat := by
      rw [← pow_add]
      congr 1
      omega
    rw [hB, mul_assoc, add_mul_div_left _ _ (by positivity), mul_comm v]

/-- **One more digit**: what its bits are moved to is joined to the mantissa. -/
theorem Collected.Holds.next (h : c.Holds x) (hu : 0 < c.mantissaBitsUnset) (hi : 0 < c.digitIndex)
    {moved : BitVec 64} (hmoved : moved.toNat =
      shifted (x.digit (c.digitIndex - 1)).toNat (c.mantissaBitsUnset - P.digitBits)) :
    Collected.Holds x ⟨c.mantissa ||| moved, c.mantissaBitsUnset - P.digitBits, c.digitIndex - 1,
      (x.digit (c.digitIndex - 1)).setWidth 64⟩ := by
  have hindex := h.index
  have hupper := h.upper
  have hlt := shifted_digit_lt (x.digit (c.digitIndex - 1)).isLt hu.le
  refine ⟨by show c.digitIndex - 1 < _; omega, toNat_setWidth_digit _, ?_, ?_, ?_, ?_⟩
  · have hp := h.position
    rw [← hp]
    push_cast [hi]
    ring
  · rw [toNat_or_of_dvd (h.dvd_mantissa hu.le) (by rwa [hmoved]), value_drop_pred hi hindex,
      shifted_digit_add hu.le, ← h.mantissa]
    omega
  · show c.mantissaBitsUnset - P.digitBits ≤ 52
    omega
  · show -(P.digitBits : ℤ) < c.mantissaBitsUnset - P.digitBits
    omega

theorem collectWholeDigit_holds (h : c.Holds x) : (collectWholeDigit x c).Holds x ∧
      ((collectWholeDigit x c).mantissaBitsUnset < P.digitBits ∨
        (collectWholeDigit x c).digitIndex = 0) := by
  have hupper := h.upper
  have hw := P.digitBits_ge
  unfold collectWholeDigit
  split_ifs with hc
  · obtain ⟨h64, hu, hi⟩ := hc
    refine ⟨h.next (by omega) hi ?_, .inl ?_⟩
    · have hlt := shifted_digit_lt (x.digit (c.digitIndex - 1)).isLt (u := c.mantissaBitsUnset)
      have h52 : 2 ^ c.mantissaBitsUnset.toNat ≤ 2 ^ 52 :=
        Nat.pow_le_pow_right (by omega) (by omega)
      rw [shifted, if_pos (by omega)] at hlt ⊢
      rw [BitVec.toNat_shiftLeft, toNat_setWidth_digit]
      omega
    · show c.mantissaBitsUnset - P.digitBits < P.digitBits
      omega
  · refine ⟨h, ?_⟩
    rcases P.digitBits_eq with h32 | h32
    · by_contra hcon
      exact hc ⟨by omega, by omega, by omega⟩
    · left
      omega

theorem collectPartOfDigit_holds (h : c.Holds x)
    (hlt : c.mantissaBitsUnset < P.digitBits ∨ c.digitIndex = 0) :
    (collectPartOfDigit x c).Holds x ∧
      ((collectPartOfDigit x c).mantissaBitsUnset > 0 →
        (collectPartOfDigit x c).digitIndex = 0) := by
  unfold collectPartOfDigit
  split_ifs with hc
  · obtain ⟨hu, hi⟩ := hc
    refine ⟨h.next hu hi ?_, ?_⟩
    · rw [shifted, if_neg (by omega), neg_sub, BitVec.toNat_ushiftRight, toNat_setWidth_digit,
        shiftRight_eq_div_pow]
    · show c.mantissaBitsUnset - P.digitBits > 0 → _
      omega
  · refine ⟨h, fun hu => ?_⟩
    by_contra h0
    exact hc ⟨hu, pos_of_ne_zero h0⟩

/-! ## Rounding -/

/-- The comparison of a remainder with one half. -/
def RoundingResult.ofRemainder (remainder modulus : ℕ) : RoundingResult :=
  if 2 * remainder < modulus then .RoundDown
  else if 2 * remainder = modulus then .Tie
  else .RoundUp

theorem ofRemainder_mul {r g c : ℕ} (hc : 0 < c) :
    RoundingResult.ofRemainder (r * c) (g * c) = .ofRemainder r g := by
  unfold RoundingResult.ofRemainder
  rw [← mul_assoc]
  simp only [Nat.mul_lt_mul_right hc, Nat.mul_left_inj hc.ne']

/-- **Guard and sticky bits** compare the remainder with one half. -/
theorem decideByBits_eq (x : JSBigInt P) {b i : ℕ} {cur : BitVec 64} (hb : b < P.digitBits)
    (hcur : cur.toNat = (x.digit i).toNat) :
    decideByBits x b i cur = .ofRemainder (value x.digits % ((2 ^ P.digitBits) ^ i * 2 ^ (b + 1)))
      ((2 ^ P.digitBits) ^ i * 2 ^ (b + 1)) := by
  have hw := P.digitBits_le
  have hb64 : b < 64 := by omega
  have hguard : cur &&& ((1 : BitVec 64) <<< b) = 0 ↔ (x.digit i).toNat / 2 ^ b % 2 = 0 := by
    have hpos : 2 ^ b ≠ 0 := by positivity
    rw [BitVec.toNat_eq, toNat_and_bit _ hb64, hcur,
      show (0 : BitVec 64).toNat = 0 from rfl, mul_eq_zero, or_iff_right hpos]
  have hsticky : cur &&& ((1 : BitVec 64) <<< b - 1) = 0 ↔ (x.digit i).toNat % 2 ^ b = 0 := by
    rw [BitVec.toNat_eq, toNat_and_mask _ hb64, hcur, show (0 : BitVec 64).toNat = 0 from rfl]
  have hany := any_ne_zero_eq_false_iff (x.digits.take i)
  have hlow : value (x.digits.take i) < (2 ^ P.digitBits) ^ i :=
    lt_of_lt_of_le (value_lt _) (Nat.pow_le_pow_right (by positivity) (List.length_take_le _ _))
  have hmlt : (x.digit i).toNat % 2 ^ b < 2 ^ b := mod_lt _ (by positivity)
  rw [decideByBits, value_mod _ _ (show b + 1 ≤ P.digitBits from hb), mod_pow_succ]
  change _ = RoundingResult.ofRemainder (value (x.digits.take i) + (2 ^ P.digitBits) ^ i *
    ((x.digit i).toNat % 2 ^ b + 2 ^ b * ((x.digit i).toNat / 2 ^ b % 2))) _
  have hmod2 := mod_two_eq_zero_or_one ((x.digit i).toNat / 2 ^ b)
  have hB : (2 ^ P.digitBits) ^ i ≠ 0 := by positivity
  rw [pow_succ, ← mul_assoc]
  generalize (x.digit i).toNat / 2 ^ b % 2 = guard at hguard hmod2 ⊢
  generalize (x.digit i).toNat % 2 ^ b = m at hsticky hmlt ⊢
  generalize value (x.digits.take i) = t at hany hlow ⊢
  generalize (2 ^ P.digitBits) ^ i = B at hlow hB ⊢
  generalize 2 ^ b = k at hmlt ⊢
  have hBm : B * m + B ≤ B * k := by
    exact mul_le_mul_left _ hmlt
  unfold RoundingResult.ofRemainder
  rcases hmod2 with h0 | h1
  · rw [if_pos (hguard.mpr h0), h0, mul_zero, add_zero, if_pos (by omega)]
  · have hrem : t + B * (m + k * guard) = B * k + (t + B * m) := by
      rw [h1]
      ring
    rw [if_neg (show ¬cur &&& (1 : BitVec 64) <<< b = 0 by rw [hguard]; omega), hrem,
      if_neg (show ¬2 * (B * k + (t + B * m)) < B * k * 2 by omega)]
    by_cases hm : m = 0
    · rw [if_neg (not_not.mpr (hsticky.mpr hm)), hm]
      by_cases ht : t = 0
      · rw [if_neg (by rw [hany.mpr ht]; simp), if_pos (by omega)]
      · rw [if_pos (by rw [← Bool.not_eq_false, hany]; exact ht), if_neg (by omega)]
    · have hBpos : 1 ≤ B * m := mul_pos (pos_of_ne_zero hB) (pos_of_ne_zero hm)
      rw [if_pos (fun h => hm (hsticky.mp h)), if_neg (by omega)]

section
variable {x : JSBigInt P} {c : Collected} (h : c.Holds x)
  (hdone : c.mantissaBitsUnset > 0 → c.digitIndex = 0)
include h hdone

/-- **Mantissa and rounding, in units of `2 ^ -1074`**: a quotient, and its remainder compared with
one half. -/
theorem Collected.Holds.quotient :
    c.mantissa.toNat + 2 ^ 52 = value x.digits * 2 ^ 1074 / 2 ^ (bitLength x + 1021) ∧
      decideRounding x c.mantissaBitsUnset c.digitIndex c.currentDigit =
        .ofRemainder (value x.digits * 2 ^ 1074 % 2 ^ (bitLength x + 1021))
          (2 ^ (bitLength x + 1021)) := by
  have hp := h.position
  have hm := h.mantissa
  have hi := h.index
  have hlower := h.lower
  have hlen : x.length = x.digits.length := rfl
  by_cases hu : c.mantissaBitsUnset > 0
  · have h0 := hdone hu
    obtain ⟨u, hu'⟩ : ∃ u : ℕ, c.mantissaBitsUnset = u := ⟨c.mantissaBitsUnset.toNat, by omega⟩
    rw [shifted, h0, hu'] at hm
    rw [h0] at hp
    have hsum : u + (bitLength x + 1021) = 1074 := by
      clear hm h hdone
      omega
    have hpow : 2 ^ 1074 = 2 ^ u * 2 ^ (bitLength x + 1021) := by rw [← pow_add, hsum]
    rw [hpow, ← mul_assoc, Nat.mul_div_cancel _ (by positivity), mul_mod_left]
    refine ⟨hm, ?_⟩
    rw [decideRounding, RoundingResult.ofRemainder, if_pos hu, if_pos (by positivity)]
  · obtain ⟨b, hb⟩ : ∃ b : ℕ, c.mantissaBitsUnset = -(b : ℤ) :=
      ⟨(-c.mantissaBitsUnset).toNat, by omega⟩
    have hpow : 2 ^ (bitLength x + 1021) =
        (2 ^ P.digitBits) ^ c.digitIndex * 2 ^ b * 2 ^ 1074 := by
      rw [← pow_mul, ← pow_add, ← pow_add]
      congr 1
      have : ((P.digitBits * c.digitIndex : ℕ) : ℤ) = c.digitIndex * P.digitBits := by
        push_cast
        ring
      omega
    rw [hpow, Nat.mul_div_mul_right _ _ (by positivity), mul_mod_mul_right,
      ofRemainder_mul (by positivity), ← Nat.div_div_eq_div_mul, ← value_drop _ (by omega)]
    refine ⟨?_, ?_⟩
    · rw [hm, hb]
      unfold shifted
      split_ifs with h0
      · obtain rfl : b = 0 := by omega
        simp
      · rw [neg_neg, Int.toNat_natCast]
    · rw [decideRounding, if_neg hu, hb]
      by_cases hb0 : b = 0
      · rw [if_neg (by omega), hb0, pow_zero, mul_one]
        by_cases hi0 : c.digitIndex = 0
        · rw [hi0, pow_zero, mod_one]
          rfl
        · rw [if_neg hi0, decideByBits_eq x (show P.digitBits - 1 < P.digitBits by
              have := P.digitBits_ge; omega) (toNat_setWidth_digit _),
            Nat.sub_add_cancel (by have := P.digitBits_ge; omega), ← pow_succ,
            Nat.sub_add_cancel (pos_of_ne_zero hi0)]
      · rw [if_pos (by omega), show (- -(b : ℤ) - 1).toNat = b - 1 by omega,
          decideByBits_eq x (by omega) h.current, Nat.sub_add_cancel (by omega)]
end

/-! ## Patterns -/

theorem doubleBits_toNat (sign : Bool) {exponent e : ℕ} {mantissa : BitVec 64}
    (hE : exponent + 0x3ff = e) (he : e < 2 ^ 11) (hm : mantissa.toNat < 2 ^ 52) :
    (doubleBits sign exponent mantissa).toNat =
      sign.toNat * 2 ^ 63 + e * 2 ^ 52 + mantissa.toNat := by
  rw [doubleBits, doublePhysicalMantissaSize, hE]
  have hexp : (BitVec.ofNat 64 e <<< 52).toNat = 2 ^ 52 * e := by
    rw [BitVec.toNat_shiftLeft, BitVec.toNat_ofNat, mod_eq_of_lt (by omega), shiftLeft_eq,
      mod_eq_of_lt (by omega), mul_comm]
  have hsign : (if sign = true then (1 : BitVec 64) <<< 63 else 0).toNat = 2 ^ 63 * sign.toNat := by
    cases sign <;> rfl
  have hhigh : ((if sign = true then (1 : BitVec 64) <<< 63 else 0) |||
      BitVec.ofNat 64 e <<< 52).toNat = 2 ^ 63 * sign.toNat + 2 ^ 52 * e := by
    rw [toNat_or_of_dvd (by rw [hsign]; exact dvd_mul_right _ _)
      (by rw [hexp]; omega), hsign, hexp]
  rw [toNat_or_of_dvd (by
    rw [hhigh]
    exact dvd_add ⟨2 ^ 11 * sign.toNat, by ring⟩ (dvd_mul_right _ _)) hm, hhigh]
  ring

/-- The pattern of a normal double, whose biased exponent is `e`. -/
theorem scaled_doubleBits (sign : Bool) (exponent : ℕ) {e : ℕ} (mantissa : BitVec 64)
    (hE : exponent + 0x3ff = e) (he : e ≤ 2046) (hm : mantissa.toNat < 2 ^ 52) :
    Binary64.sign (doubleBits sign exponent mantissa) = sign ∧
      IsFinite (doubleBits sign exponent mantissa) ∧
      fraction (doubleBits sign exponent mantissa) = mantissa.toNat ∧
      scaled (doubleBits sign exponent mantissa) =
        if sign then -(((2 ^ 52 + mantissa.toNat : ℕ) : ℤ) * 2 ^ (e - 1))
        else ((2 ^ 52 + mantissa.toNat : ℕ) : ℤ) * 2 ^ (e - 1) := by
  obtain ⟨h1, h2, h3⟩ := fields_of_toNat (doubleBits_toNat sign hE (by omega) hm) (by omega) hm
  have hfinite : e ≠ 2047 := by omega
  have hnormal : e ≠ 0 := by omega
  refine ⟨h1, by unfold IsFinite; rw [h2]; exact hfinite, h3, ?_⟩
  rw [scaled, scaledMagnitude, h1, h2, h3, if_neg hnormal]
  rfl

/-! ## The conversion -/

section
variable {x : JSBigInt P} (hx : x.Normalized) (hne : x.digits ≠ [])
include hx hne

theorem collected_quotient : let c := collectPartOfDigit x (collectWholeDigit x (collectTopDigit x))
    c.mantissa.toNat + 2 ^ 52 = value x.digits * 2 ^ 1074 / 2 ^ (bitLength x + 1021) ∧
      decideRounding x c.mantissaBitsUnset c.digitIndex c.currentDigit =
        .ofRemainder (value x.digits * 2 ^ 1074 % 2 ^ (bitLength x + 1021))
          (2 ^ (bitLength x + 1021)) := by
  obtain ⟨h1, h2⟩ := collectWholeDigit_holds (collectTopDigit_holds hx hne)
  obtain ⟨h3, h4⟩ := collectPartOfDigit_holds h1 h2
  exact h3.quotient h4

/-- In units of `2 ^ -1074` the magnitude is between `2 ^ 52` and `2 ^ 53` steps of its grid. -/
theorem scaled_bounds : 2 ^ 52 * 2 ^ (bitLength x + 1021) ≤ value x.digits * 2 ^ 1074 ∧
      value x.digits * 2 ^ 1074 < 2 * 2 ^ 52 * 2 ^ (bitLength x + 1021) := by
  obtain ⟨h1, h2⟩ := bitLength_spec hx hne
  have hpos := bitLength_pos hx hne
  generalize bitLength x = l at h1 h2 hpos ⊢
  have e1 : l - 1 + 1074 = 52 + (l + 1021) := by omega
  have e2 : l + 1074 = 53 + (l + 1021) := by omega
  refine ⟨?_, ?_⟩
  · rw [← pow_add, ← e1, pow_add]
    exact Nat.mul_le_mul_right _ h1
  · rw [← pow_succ', ← pow_add, ← e2, pow_add]
    exact mul_lt_mul_of_pos_right h2 (by positivity)
end

/-- The pattern of `s` steps of `2 ^ e` units. -/
structure Steps (s e : ℕ) (b : Bool) (p : BitVec 64) : Prop where
  sign : Binary64.sign p = b
  finite : IsFinite p
  parity : fraction p % 2 = s % 2
  scaled : scaled p = if b then -((s : ℤ) * 2 ^ e) else (s : ℤ) * 2 ^ e

/-- **What the rounding of the collected mantissa builds**, for a magnitude whose exponent fits. -/
theorem toNumberHeap_of_bitLength_le (hx : x.Normalized) (hne : x.digits ≠ [])
    (hl : bitLength x ≤ 1024) {v s : ℕ} (hv : v = value x.digits * 2 ^ 1074)
    (hs : s = roundHalfEven v (2 ^ (bitLength x + 1021))) :
    if s = 2 * 2 ^ 52 ∧ bitLength x = 1024 then toNumberHeap x = infinity x.sign
    else Steps s (bitLength x + 1021) x.sign (toNumberHeap x) := by
  obtain ⟨hm, hround⟩ := collected_quotient hx hne
  obtain ⟨-, hlt⟩ := scaled_bounds hx hne
  have hpos := bitLength_pos hx hne
  have hz : ¬x.isZero = true := fun h0 => hne (JSBigInt.isZero_iff.mp h0)
  rw [← hv] at hm hround hlt
  set q := v / 2 ^ (bitLength x + 1021) with hqdef
  have hq : q < 2 * 2 ^ 52 := Nat.div_lt_of_lt_mul (by rw [mul_comm]; exact hlt)
  have hheap : toNumberHeap x =
      (let c := collectPartOfDigit x (collectWholeDigit x (collectTopDigit x))
      let rounding := decideRounding x c.mantissaBitsUnset c.digitIndex c.currentDigit
      if rounding = .RoundUp ∨ (rounding = .Tie ∧ c.mantissa &&& 1 = 1) then
        if (c.mantissa + 1) >>> 52 ≠ 0 then
          if bitLength x - 1 + 1 > 1023 then infinity x.sign
          else doubleBits x.sign (bitLength x - 1 + 1) 0
        else doubleBits x.sign (bitLength x - 1) (c.mantissa + 1)
      else doubleBits x.sign (bitLength x - 1) c.mantissa) := by
    rw [toNumberHeap, if_neg hz]
    exact if_neg (not_lt.mpr hl)
  dsimp only at hheap hm hround
  generalize collectPartOfDigit x (collectWholeDigit x (collectTopDigit x)) = c at hheap hm hround
  rw [hround] at hheap
  have hodd : c.mantissa &&& 1 = 1 ↔ q % 2 = 1 := by
    rw [BitVec.toNat_eq, BitVec.toNat_and, show (1 : BitVec 64).toNat = 1 from rfl, and_one_is_mod]
    omega
  have hup : (RoundingResult.ofRemainder (v % 2 ^ (bitLength x + 1021))
        (2 ^ (bitLength x + 1021)) = .RoundUp ∨
      (RoundingResult.ofRemainder (v % 2 ^ (bitLength x + 1021)) (2 ^ (bitLength x + 1021)) = .Tie ∧
        c.mantissa &&& 1 = 1)) ↔ s = q + 1 := by
    rw [hs, hodd]
    unfold roundHalfEven RoundingResult.ofRemainder
    split_ifs with h1 h2 h3 h4 h5 <;> simp <;> omega
  have hs' : s = q ∨ s = q + 1 := by
    rw [hs]
    unfold roundHalfEven
    split_ifs
    · exact .inl rfl
    · exact .inr rfl
  rw [← hm] at hup hs' hq
  have hone : (c.mantissa + 1).toNat = c.mantissa.toNat + 1 := by
    rw [BitVec.toNat_add, show (1 : BitVec 64).toNat = 1 from rfl]
    omega
  have hover : (c.mantissa + 1) >>> 52 ≠ 0 ↔ c.mantissa.toNat + 1 = 2 ^ 52 := by
    rw [Ne, BitVec.toNat_eq, BitVec.toNat_ushiftRight, show (0 : BitVec 64).toNat = 0 from rfl]
    omega
  generalize bitLength x = l at *
  have hnormal : ∀ m : BitVec 64, m.toNat < 2 ^ 52 → s = 2 ^ 52 + m.toNat →
      toNumberHeap x = doubleBits x.sign (l - 1) m →
      Steps s (l + 1021) x.sign (toNumberHeap x) := by
    intro m hm' hsm heq
    obtain ⟨a1, a2, a3, a4⟩ := scaled_doubleBits x.sign (l - 1)
      (e := l + 1022) m (by omega) (by omega) hm'
    rw [heq]
    refine ⟨a1, a2, by omega, ?_⟩
    rw [a4, show l + 1022 - 1 = l + 1021 by omega, hsm]
  by_cases hcase : s = c.mantissa.toNat + 2 ^ 52 + 1
  · rw [if_pos (hup.mpr hcase)] at hheap
    by_cases hfull : c.mantissa.toNat + 1 = 2 ^ 52
    · rw [if_pos (hover.mpr hfull)] at hheap
      by_cases hl' : l = 1024
      · rw [if_pos ⟨by omega, hl'⟩, hheap, if_pos (by omega)]
      · rw [if_neg (fun h0 => hl' h0.2)]
        rw [if_neg (by omega)] at hheap
        obtain ⟨a1, a2, a3, a4⟩ := scaled_doubleBits x.sign (l - 1 + 1)
          (e := l + 1023) 0 (by omega) (by omega) (by decide)
        rw [← hheap] at a1 a2 a3 a4
        refine ⟨a1, a2, ?_, ?_⟩
        · rw [a3, show (0 : BitVec 64).toNat = 0 from rfl]
          omega
        · have hval : ((2 ^ 52 + (0 : BitVec 64).toNat : ℕ) : ℤ) * 2 ^ (l + 1023 - 1) =
              (s : ℤ) * 2 ^ (l + 1021) := by
            rw [show l + 1023 - 1 = l + 1021 + 1 by omega, pow_succ (2 : ℤ) (l + 1021),
              show (s : ℤ) = 2 ^ 53 by omega, show (0 : BitVec 64).toNat = 0 from rfl]
            generalize (2 : ℤ) ^ (l + 1021) = g
            ring
          rw [a4, hval]
    · rw [if_neg (fun h0 => hfull (hover.mp h0))] at hheap
      rw [if_neg (by omega)]
      exact hnormal _ (by rw [hone]; omega) (by rw [hone]; omega) hheap
  · rw [if_neg (fun h0 => hcase (hup.mp h0))] at hheap
    rw [if_neg (by omega)]
    exact hnormal _ (by omega) (by omega) hheap

theorem rounds_up_iff {m v l : ℕ} (hl : l ≤ 1024) (hlt : m < 2 ^ l) (hv : v = m * 2 ^ 1074)
    (hfit : v < 2 * 2 ^ 52 * 2 ^ (l + 1021)) :
    (roundHalfEven v (2 ^ (l + 1021)) = 2 * 2 ^ 52 ∧ l = 1024) ↔ 2 ^ 1024 ≤ m + 2 ^ 970 := by
  have h1024 : 2 ^ 1024 = 2 ^ 54 * 2 ^ 970 := by rw [← pow_add]
  by_cases hl' : l = 1024
  · have hg : 2 ^ (l + 1021) = 2 ^ 970 * (2 ^ 1074 * 2) := by
      rw [show l + 1021 = 970 + (1074 + 1) by omega, pow_add, pow_succ 2 1074]
    have hunit : 0 < 2 ^ 1074 := pow_pos two_pos 1074
    rw [roundHalfEven_eq_iff (Nat.two_pow_pos _) hfit (by norm_num), h1024, hg, hv]
    generalize 2 ^ 970 = a
    generalize 2 ^ 1074 = u at hunit
    rw [show (4 * 2 ^ 52 - 1) * (a * (u * 2)) = (4 * 2 ^ 52 - 1) * a * (2 * u) by
      ring, show 2 * (m * u) = m * (2 * u) by ring, Nat.mul_le_mul_right_iff (by omega)]
    omega
  · have h1 : 2 ^ l ≤ 2 ^ 1023 := pow_le_pow_right₀ one_le_two (by omega)
    constructor
    · exact fun h => absurd h.2 hl'
    · intro h
      omega

/-- The conversion is an infinity, or the rounded number of steps. -/
theorem toNumberHeap_cases (hx : x.Normalized) (hne : x.digits ≠ []) {v s : ℕ}
    (hv : v = value x.digits * 2 ^ 1074) (hs : s = roundHalfEven v (2 ^ (bitLength x + 1021))) :
    (toNumberHeap x = infinity x.sign ∧ 2 ^ 1024 ≤ value x.digits + 2 ^ 970) ∨
    (Steps s (bitLength x + 1021) x.sign (toNumberHeap x) ∧
      ¬2 ^ 1024 ≤ value x.digits + 2 ^ 970) := by
  obtain ⟨hlow, hhigh⟩ := bitLength_spec hx hne
  by_cases hl : bitLength x > 1024
  · have hge : 2 ^ 1024 ≤ value x.digits :=
      (pow_le_pow_right₀ one_le_two (by omega)).trans hlow
    refine .inl ⟨?_, hge.trans (le_add_right _ _)⟩
    rw [toNumberHeap, if_neg (fun h0 => hne (JSBigInt.isZero_iff.mp h0))]
    exact if_pos hl
  have hl' : bitLength x ≤ 1024 := Nat.le_of_not_lt hl
  have hspec := toNumberHeap_of_bitLength_le hx hne hl' hv hs
  have hfit := (scaled_bounds hx hne).2
  rw [← hv] at hfit
  rw [← rounds_up_iff hl' hhigh hv hfit, ← hs]
  split_ifs at hspec with hbig
  · exact .inl ⟨hspec, hbig⟩
  · exact .inr ⟨hspec, hbig⟩

theorem infinity_isInfinite (b : Bool) :
    IsInfinite (infinity b) ∧ Binary64.sign (infinity b) = b := by
  cases b <;> decide

/-- **The conversion to double is correctly rounded.** It yields an infinity exactly from
`2 ^ 1024 - 2 ^ 970` on, and the nearest double with ties to even below that. -/
theorem toNumber_correctly_rounded (x : JSBigInt P) (hx : x.Normalized) :
    Binary64.sign (toNumberHeap x) = x.sign ∧
    (IsInfinite (toNumberHeap x) ↔ 2 ^ 1024 - 2 ^ 970 ≤ |x.toInt|) ∧
    (|x.toInt| < 2 ^ 1024 - 2 ^ 970 → IsNearestEven (x.toInt * 2 ^ 1074) (toNumberHeap x)) := by
  have habs : |x.toInt| = (value x.digits : ℕ) := by
    rw [← JSBigInt.natAbs_toInt, Int.natCast_natAbs]
  have hlimit : (2 ^ 1024 - 2 ^ 970 ≤ |x.toInt|) ↔ 2 ^ 1024 ≤ value x.digits + 2 ^ 970 := by
    rw [habs, sub_le_iff_le_add]
    exact_mod_cast Iff.rfl
  by_cases hne : x.digits = []
  · have hzero : toNumberHeap x = 0 := by
      rw [toNumberHeap, if_pos (JSBigInt.isZero_iff.mpr hne)]
    have hint := hx.toInt_eq_zero_iff.mpr hne
    have hscaled : scaled 0 = 0 := by decide
    rw [hlimit, hzero, hx.zero hne, hint, hne, value_nil]
    refine ⟨by decide, ⟨fun h => absurd h (by decide), fun h => ?_⟩, fun _ => ⟨by decide, ?_, ?_⟩⟩
    · omega
    · intro q _
      rw [zero_mul]
      exact abs_nonneg _
    · intro q _ _ _
      decide
  obtain ⟨v, hv⟩ : ∃ v, v = value x.digits * 2 ^ 1074 := ⟨_, rfl⟩
  obtain ⟨s, hs⟩ : ∃ s, s = roundHalfEven v (2 ^ (bitLength x + 1021)) := ⟨_, rfl⟩
  rcases toNumberHeap_cases hx hne hv hs with ⟨hspec, hbig⟩ | ⟨hspec, hbig⟩
  · rw [hspec]
    exact ⟨(infinity_isInfinite _).2,
      ⟨fun _ => hlimit.mpr hbig, fun _ => (infinity_isInfinite _).1⟩,
      fun h => absurd (hlimit.mpr hbig) (not_le.mpr h)⟩
  · refine ⟨hspec.sign, ⟨fun h => absurd h.1 hspec.finite, fun h => absurd (hlimit.mp h) hbig⟩,
      fun _ => ?_⟩
    have hgrid : bitLength x + 1022 - 1 = bitLength x + 1021 := by omega
    have hint : x.toInt * 2 ^ 1074 = if x.sign then -(v : ℤ) else v := by
      rw [hv]
      rw [JSBigInt.toInt, Nat.cast_mul, Nat.cast_pow, Nat.cast_ofNat, ite_mul, neg_mul]
    rw [hint]
    rw [hs, ← hgrid] at hspec
    exact isNearestEven_of_scaled hspec.finite (by omega)
      (by rw [hv]; exact (scaled_bounds hx hne).1) hspec.scaled hspec.parity

/-- `2^53 + 1` is a tie between `2^53` and `2^53 + 2`. -/
theorem toNumber_correctly_rounded_tie :
    Binary64.sign 0x4340000000000000 = false ∧ ¬ IsInfinite 0x4340000000000000 ∧
      IsNearestEven ((2 ^ 53 + 1) * 2 ^ 1074) 0x4340000000000000 := by
  obtain ⟨hsign, hinfinite, hnearest⟩ :=
    toNumber_correctly_rounded (P := Platform.arm64) ⟨false, [2 ^ 53 + 1]⟩ (by decide)
  have hsmall : |JSBigInt.toInt (P := Platform.arm64) ⟨false, [2 ^ 53 + 1]⟩| <
      2 ^ 1024 - 2 ^ 970 := by decide +kernel
  exact ⟨hsign, fun h => not_le.mpr hsmall (hinfinite.mp h), hnearest hsmall⟩

end JscAndroid.BigInt.ToNumber
