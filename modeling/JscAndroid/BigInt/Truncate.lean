import JscAndroid.BigInt.Shift

/-!
# Wrapping to a number of bits

`asUintN` and `asIntN` reduce a BigInt modulo `2 ^ n`. Magnitudes are cut to their `n` lowest bits,
or these are subtracted from `2 ^ n`, as the sign of the operand and the bit `n - 1` demand. That
bit splits the `n` lowest bits of a magnitude by `value_mod`; both cuts and all the tests on the top
digit are read off that equation.

For 64 bits there is a shorter way, which agrees with them (`toBigUInt64Heap_agrees`), and a way
back (`createFrom_toBigUInt64Heap`).
-/

namespace JscAndroid.BigInt.Truncate

open Arith.Limbs Arith.Bits DigitArith Heap DigitLoops AddSub Shift

variable {P : Platform}
variable {n : ℕ}

/-! ## The source -/

/-- The most significant digit without the bits that are not wanted. -/
def truncatedMSD (n : ℕ) (msd : P.Digit) : P.Digit :=
  if n % P.digitBits ≠ 0 then
    let drop := P.digitBits - n % P.digitBits
    (msd <<< drop) >>> drop
  else msd

def truncateToNBits (n : ℕ) (bigInt : JSBigInt P) : Op P (JSBigInt P) := do
  let neededDigits := (n + (P.digitBits - 1)) / P.digitBits
  let result ← createWithLength neededDigits
  let last := neededDigits - 1
  let msd := truncatedMSD n (bigInt.digit last)
  rightTrim ((result.setDigits 0 (bigInt.digits.take last ++ [msd])).setSign bigInt.sign)

/-- The most significant digit of the difference from `2 ^ n`. -/
def negatedMSD (n : ℕ) (msd borrow : P.Digit) : P.Digit :=
  let msdBitsConsumed := n % P.digitBits
  if msdBitsConsumed = 0 then (subStep 0 msd borrow).1
  else
    let drop := P.digitBits - msdBitsConsumed
    let msd := (msd <<< drop) >>> drop
    let minuendMSD := (1 : P.Digit) <<< (P.digitBits - drop)
    (subStep minuendMSD msd borrow).1 &&& (minuendMSD - 1)

/-- Subtracts the `n` lowest bits of the magnitude from `2 ^ n`. -/
def truncateAndSubFromPowerOfTwo (n : ℕ) (bigInt : JSBigInt P) (resultSign : Bool) :
    Op P (JSBigInt P) := do
  let neededDigits := (n + (P.digitBits - 1)) / P.digitBits
  let result ← createWithLength neededDigits
  let last := neededDigits - 1
  let length := bigInt.length
  let limit := min last length
  let low := subDigits (List.replicate last 0) (bigInt.digits.take limit)
  let msd := if last < length then bigInt.digit last else 0
  let resultMSD := negatedMSD n msd low.2
  rightTrim ((result.setDigits 0 (low.1 ++ [resultMSD])).setSign resultSign)

def asIntNImpl (n : ℕ) (bigInt : JSBigInt P) : Op P (JSBigInt P) :=
  if bigInt.isZero then return bigInt
  else if n = 0 then createZero
  else
    let neededLength := (n + P.digitBits - 1) / P.digitBits
    let length := bigInt.length
    if length < neededLength then return bigInt
    else
      let topDigit := bigInt.digit (neededLength - 1)
      let compareDigit := (1 : P.Digit) <<< ((n - 1) % P.digitBits)
      if length = neededLength ∧ topDigit < compareDigit then return bigInt
      else
        let hasBit := topDigit &&& compareDigit == compareDigit
        if !hasBit then truncateToNBits n bigInt
        else if !bigInt.sign then truncateAndSubFromPowerOfTwo n bigInt true
        else if topDigit &&& (compareDigit - 1) = 0 then
          if (bigInt.digits.take (neededLength - 1)).any (· != 0) then
            truncateAndSubFromPowerOfTwo n bigInt false
          else if length = neededLength ∧ topDigit = compareDigit then return bigInt
          else truncateToNBits n bigInt
        else truncateAndSubFromPowerOfTwo n bigInt false

def asUintNImpl (n : ℕ) (bigInt : JSBigInt P) : Op P (JSBigInt P) :=
  if bigInt.isZero then return bigInt
  else if n = 0 then createZero
  else if bigInt.sign then
    if n > maxLengthBits then throw (.outOfMemoryError (some tooBigMessage))
    else truncateAndSubFromPowerOfTwo n bigInt false
  else if n ≥ maxLengthBits then return bigInt
  else
    let neededLength := (n + P.digitBits - 1) / P.digitBits
    if bigInt.length < neededLength then return bigInt
    else
      let bitsInTopDigit := n % P.digitBits
      let topDigit := bigInt.digit (neededLength - 1)
      if bigInt.length = neededLength ∧ (bitsInTopDigit = 0 ∨ topDigit >>> bitsInTopDigit = 0) then
        return bigInt
      else truncateToNBits n bigInt

def asIntN (n : ℕ) (bigInt : JSBigInt P) : Op P (JSBigInt P) := asIntNImpl n bigInt

def asUintN (n : ℕ) (bigInt : JSBigInt P) : Op P (JSBigInt P) := asUintNImpl n bigInt

/-! ## The position of bit `n - 1` -/

section
variable {n : ℕ} (hn : n ≠ 0)
include hn

theorem neededDigits_eq (P : Platform) :
    (n + (P.digitBits - 1)) / P.digitBits = (n - 1) / P.digitBits + 1 := by
  have hw := P.digitBits_pos
  rw [show n + (P.digitBits - 1) = n - 1 + P.digitBits by omega, Nat.add_div_right _ hw]

theorem neededLength_eq (P : Platform) :
    (n + P.digitBits - 1) / P.digitBits = (n - 1) / P.digitBits + 1 := by
  have hw := P.digitBits_pos
  rw [show n + P.digitBits - 1 = n - 1 + P.digitBits by omega, Nat.add_div_right _ hw]

theorem two_pow_eq_split (P : Platform) :
    2 ^ n = (2 ^ P.digitBits) ^ ((n - 1) / P.digitBits) * 2 ^ ((n - 1) % P.digitBits + 1) := by
  rw [pow_succ, ← mul_assoc, ← two_pow_shift, ← pow_succ, Nat.sub_add_cancel (by omega)]

theorem mod_digitBits (P : Platform) :
    n % P.digitBits = if (n - 1) % P.digitBits + 1 = P.digitBits then 0
      else (n - 1) % P.digitBits + 1 := by
  have hlt := bitsShift_lt P (n - 1)
  have hsplit : n = P.digitBits * ((n - 1) / P.digitBits) + ((n - 1) % P.digitBits + 1) := by
    have := Nat.div_add_mod (n - 1) P.digitBits
    omega
  conv_lhs => rw [hsplit, Nat.mul_add_mod]
  split_ifs with h
  · rw [h, Nat.mod_self]
  · exact Nat.mod_eq_of_lt (by omega)

theorem value_mod_two_pow (ds : List P.Digit) :
    value ds % 2 ^ n = value (ds.take ((n - 1) / P.digitBits)) +
      (2 ^ P.digitBits) ^ ((n - 1) / P.digitBits) *
        ((ds.getD ((n - 1) / P.digitBits) 0).toNat % 2 ^ ((n - 1) % P.digitBits + 1)) := by
  rw [two_pow_eq_split hn P, value_mod _ _ (bitsShift_lt P (n - 1))]
end

/-! ## Cutting -/

theorem truncatedMSD_toNat (hn : n ≠ 0) (d : P.Digit) :
    (truncatedMSD n d).toNat = d.toNat % 2 ^ ((n - 1) % P.digitBits + 1) := by
  have hlt := bitsShift_lt P (n - 1)
  rw [truncatedMSD, mod_digitBits hn P]
  by_cases h : (n - 1) % P.digitBits + 1 = P.digitBits
  · rw [if_pos h, if_neg (by omega), h, Nat.mod_eq_of_lt d.isLt]
  · rw [if_neg h]
    exact toNat_shiftLeft_shiftRight d (by omega)

/-- The digit that makes the sum with the subtrahend and the borrow a multiple. -/
theorem negatedMSD_spec (hn : n ≠ 0) (msd borrow : P.Digit) :
    (negatedMSD n msd borrow).toNat < 2 ^ ((n - 1) % P.digitBits + 1) ∧
      2 ^ ((n - 1) % P.digitBits + 1) ∣ borrow.toNat + (negatedMSD n msd borrow).toNat +
        msd.toNat % 2 ^ ((n - 1) % P.digitBits + 1) := by
  have hle : (n - 1) % P.digitBits + 1 ≤ P.digitBits := bitsShift_lt P (n - 1)
  have hpos : 0 < (n - 1) % P.digitBits + 1 := Nat.succ_pos _
  rw [negatedMSD, mod_digitBits hn P]
  generalize (n - 1) % P.digitBits + 1 = b at hle hpos ⊢
  have hB : 2 ^ b ∣ 2 ^ P.digitBits := pow_dvd_pow 2 hle
  by_cases h : b = P.digitBits
  · have hs := subStep_spec 0 msd borrow
    rw [toNat_zero] at hs
    rw [if_pos h, if_pos rfl, h, Nat.mod_eq_of_lt msd.isLt]
    refine ⟨(subStep 0 msd borrow).1.isLt, (subStep 0 msd borrow).2.toNat, ?_⟩
    omega
  · rw [if_neg h]
    dsimp only
    rw [if_neg hpos.ne', show P.digitBits - (P.digitBits - b) = b by omega]
    have hbw : b < P.digitBits := by omega
    set m := (msd <<< (P.digitBits - b)) >>> (P.digitBits - b) with hm
    have hmv : m.toNat = msd.toNat % 2 ^ b := toNat_shiftLeft_shiftRight msd hbw.le
    have hs := subStep_spec ((1 : P.Digit) <<< b) m borrow
    rw [toNat_one_shiftLeft hbw] at hs
    rw [toNat_and_mask _ hbw, ← hmv]
    refine ⟨Nat.mod_lt _ (by positivity), ?_⟩
    -- the mask takes away a multiple of `2 ^ b`
    set r := (subStep ((1 : P.Digit) <<< b) m borrow).1.toNat
    have hdvd : 2 ^ b ∣ 2 ^ b * (r / 2 ^ b) + (borrow.toNat + r % 2 ^ b + m.toNat) := by
      have hr := Nat.div_add_mod r (2 ^ b)
      rw [show 2 ^ b * (r / 2 ^ b) + (borrow.toNat + r % 2 ^ b + m.toNat) =
        2 ^ b + 2 ^ P.digitBits * (subStep ((1 : P.Digit) <<< b) m borrow).2.toNat by omega]
      exact dvd_add (dvd_refl _) (hB.mul_right _)
    exact (Nat.dvd_add_right (dvd_mul_right _ _)).mp hdvd

/-- A number below the modulus is determined by its sum being a multiple. -/
theorem eq_sub_mod {M u v : ℕ} (hu : u < M) (hv : v < M) (h : M ∣ u + v) : u = (M - v) % M := by
  obtain ⟨k, hk⟩ := h
  rcases k with _ | _ | k
  · have h0 : u = 0 ∧ v = 0 := by omega
    rw [h0.1, h0.2, Nat.sub_zero, Nat.mod_self]
  · rw [Nat.mod_eq_of_lt (by omega)]
    omega
  · have : M * (k + 1 + 1) = M * k + M + M := by ring
    omega

section
variable {n : ℕ} (hn : n ≠ 0) {x : JSBigInt P}
include hn

/-- **The lowest bits.** -/
theorem truncateToNBits_returns (hl : (n - 1) / P.digitBits < x.length) :
    Returns (x.length ≤ maxLength P) (truncateToNBits n x)
      (Denotes (signed x.sign (value x.digits % 2 ^ n : ℕ))) := by
  rw [truncateToNBits, neededDigits_eq hn P]
  dsimp only
  rw [Nat.add_sub_cancel]
  have hq : (x.digits.take ((n - 1) / P.digitBits)).length = (n - 1) / P.digitBits :=
    List.length_take_of_le hl.le
  refine (fill_returns (by rw [List.length_append, hq]; rfl) (by simp)).mono hl.trans_le
    fun r hr => ⟨hr.1, hr.2.trans ?_⟩
  rw [toInt_eq_signed, value_append, value_singleton, hq, truncatedMSD_toNat hn,
    value_mod_two_pow hn]
  rfl

omit hn in
/-- The digits that `truncateAndSubFromPowerOfTwo` stores, with `q` of them below the last one. -/
theorem subtracted_low (x : JSBigInt P) (q : ℕ) :
    (subDigits (List.replicate q 0) (x.digits.take (min q x.length))).1.length = q ∧
      value (subDigits (List.replicate q 0) (x.digits.take (min q x.length))).1 +
          value (x.digits.take q) = (2 ^ P.digitBits) ^ q *
          (subDigits (List.replicate q 0) (x.digits.take (min q x.length))).2.toNat := by
  have htake : x.digits.take (min q x.length) = x.digits.take q := List.take_eq_take_min.symm
  rw [htake]
  obtain ⟨h1, h2⟩ := subDigits_sum (show (x.digits.take q).length ≤
    (List.replicate q (0 : P.Digit)).length by simp)
  rw [List.length_replicate] at h1 h2
  exact ⟨h1, by rw [h2, value_replicate_zero, zero_add]⟩

/-- **The lowest bits, subtracted from the power of two.** -/
theorem truncateAndSub_returns (x : JSBigInt P) (b : Bool) :
    Returns (n ≤ maxLengthBits) (truncateAndSubFromPowerOfTwo n x b)
      (Denotes (signed b ((2 ^ n - value x.digits % 2 ^ n) % 2 ^ n : ℕ))) := by
  have hroom : n ≤ maxLengthBits → (n - 1) / P.digitBits + 1 ≤ maxLength P := by
    intro hmax
    have hdvd : maxLengthBits = maxLength P * P.digitBits := by
      unfold maxLength maxLengthBits
      rcases P.digitBits_eq with h | h <;> rw [h]
    exact Nat.div_lt_of_lt_mul (by rw [mul_comm]; omega)
  rw [truncateAndSubFromPowerOfTwo, neededDigits_eq hn P]
  dsimp only
  rw [Nat.add_sub_cancel]
  have hmod := value_mod_two_pow hn x.digits
  have hpow := two_pow_eq_split hn P
  set q := (n - 1) / P.digitBits
  have hmsd : (if q < x.length then x.digit q else 0) = x.digit q := by
    split_ifs with hq
    · rfl
    · exact (List.getD_eq_default _ _ (Nat.le_of_not_lt hq)).symm
  rw [hmsd]
  obtain ⟨l1, l2⟩ := subtracted_low x q
  set low := subDigits (List.replicate q 0) (x.digits.take (min q x.length))
  obtain ⟨m1, m2⟩ := negatedMSD_spec hn (x.digit q) low.2
  have hlen : q + 1 = (low.1 ++ [negatedMSD n (x.digit q) low.2]).length := by
    rw [List.length_append, l1]
    rfl
  refine (fill_returns hlen (by simp)).mono hroom fun r hr => ⟨hr.1, hr.2.trans ?_⟩
  rw [toInt_eq_signed]
  congr 2
  refine eq_sub_mod ?_ (Nat.mod_lt _ (by positivity)) ?_
  · have hlt := value_lt low.1
    rw [l1] at hlt
    rw [value_append, value_singleton, l1]
    have := Nat.mul_le_mul_left ((2 ^ P.digitBits) ^ q) m1
    rw [Nat.mul_succ] at this
    omega
  · rw [value_append, value_singleton, l1, hmod, hpow]
    obtain ⟨k, hk⟩ := m2
    refine ⟨k, ?_⟩
    rw [mul_assoc, ← hk, mul_add, mul_add]
    unfold JSBigInt.digit
    omega
end

/-! ## Residues -/

/-- `z` is the residue of `x` modulo `2 ^ n` in the interval that starts at `low`. -/
structure IsResidue (n : ℕ) (low x z : ℤ) : Prop where
  le : low ≤ z
  lt : z < low + 2 ^ n
  congr : z ≡ x [ZMOD 2 ^ n]

theorem IsResidue.unique {low x y z : ℤ} (hy : IsResidue n low x y) (hz : IsResidue n low x z) :
    z = y := by
  have hdvd : (2 ^ n : ℤ) ∣ z - y := (hy.congr.trans hz.congr.symm).dvd
  have habs : |z - y| < 2 ^ n := by
    rw [abs_lt]
    have h1 := hy.le
    have h2 := hy.lt
    have h3 := hz.le
    have h4 := hz.lt
    constructor <;> linarith
  have := Int.eq_zero_of_abs_lt_dvd hdvd habs
  omega

theorem signed_mod_modEq (b : Bool) (v n : ℕ) :
    signed b (v % 2 ^ n : ℕ) ≡ signed b v [ZMOD 2 ^ n] := by
  have h : ((v % 2 ^ n : ℕ) : ℤ) ≡ v [ZMOD 2 ^ n] := by
    push_cast
    exact Int.mod_modEq _ _
  cases b
  · exact h
  · exact h.neg

theorem signed_sub_modEq (b : Bool) (v n : ℕ) :
    signed b ((2 ^ n - v % 2 ^ n) % 2 ^ n : ℕ) ≡ signed (!b) v [ZMOD 2 ^ n] := by
  have hlt : v % 2 ^ n ≤ 2 ^ n := (Nat.mod_lt _ (by positivity)).le
  have h1 : ((2 ^ n - v % 2 ^ n : ℕ) : ℤ) ≡ -(v : ℤ) [ZMOD 2 ^ n] := by
    rw [Int.modEq_iff_dvd]
    refine ⟨-(v / 2 ^ n : ℕ) - 1, ?_⟩
    have := Nat.div_add_mod v (2 ^ n)
    push_cast [hlt]
    zify at this
    linear_combination this
  have h2 := signed_mod_modEq b (2 ^ n - v % 2 ^ n) n
  refine h2.trans ?_
  rw [signed_not]
  cases b
  · exact h1
  · exact h1.neg

section
variable {n : ℕ} (hn : n ≠ 0) {x : JSBigInt P}

/-- The digit that holds bit `n - 1`, and the digit with this bit alone. -/
def topDigit (n : ℕ) (x : JSBigInt P) : P.Digit := x.digit ((n - 1) / P.digitBits)

def compareDigit (P : Platform) (n : ℕ) : P.Digit := (1 : P.Digit) <<< ((n - 1) % P.digitBits)

theorem compareDigit_toNat (P : Platform) (n : ℕ) :
    (compareDigit P n).toNat = 2 ^ ((n - 1) % P.digitBits) :=
  toNat_one_shiftLeft (bitsShift_lt P (n - 1))

theorem hasBit_iff : topDigit n x &&& compareDigit P n = compareDigit P n ↔
    (topDigit n x).toNat % 2 ^ ((n - 1) % P.digitBits + 1) =
      2 ^ ((n - 1) % P.digitBits) + (topDigit n x).toNat % 2 ^ ((n - 1) % P.digitBits) := by
  rw [BitVec.toNat_eq, compareDigit_toNat, compareDigit, toNat_and_bit _ (bitsShift_lt P (n - 1)),
    Nat.mod_pow_succ, add_comm (2 ^ _), add_left_cancel_iff]

theorem value_lt_of_short (hl : x.length < (n - 1) / P.digitBits + 1) :
    value x.digits < 2 ^ (n - 1) := by
  refine lt_of_lt_of_le (value_lt x.digits) ?_
  rw [← pow_mul]
  refine Nat.pow_le_pow_right (by omega) (le_trans ?_ (Nat.mul_div_le (n - 1) P.digitBits))
  exact Nat.mul_le_mul_left _ (Nat.le_of_lt_succ hl)

/-- A magnitude of just as many digits is bounded by its top digit. -/
theorem value_lt_of_top {k : ℕ} (hl : x.length = (n - 1) / P.digitBits + 1)
    (ht : (topDigit n x).toNat < k) :
    value x.digits < (2 ^ P.digitBits) ^ ((n - 1) / P.digitBits) * k := by
  have hlen : x.digits.length = (n - 1) / P.digitBits + 1 := hl
  have hne : x.digits ≠ [] := List.length_pos_iff.mp (by rw [hlen]; exact Nat.succ_pos _)
  have h1 := value_lt_getLast x.digits hne
  rw [← digit_top hne, hl, hlen, mul_comm] at h1
  exact lt_of_lt_of_le h1 (Nat.mul_le_mul_left _ ht)

include hn

theorem hasBit_iff_le : topDigit n x &&& compareDigit P n = compareDigit P n ↔
    2 ^ (n - 1) ≤ value x.digits % 2 ^ n := by
  have hlow := value_lt (x.digits.take ((n - 1) / P.digitBits))
  have hlen : (2 ^ P.digitBits) ^ (x.digits.take ((n - 1) / P.digitBits)).length ≤
      (2 ^ P.digitBits) ^ ((n - 1) / P.digitBits) :=
    Nat.pow_le_pow_right (by positivity) (List.length_take_le _ _)
  rw [hasBit_iff, two_pow_shift P (n - 1), value_mod_two_pow hn]
  change _ ↔ _ ≤ _ + _ * ((topDigit n x).toNat % 2 ^ ((n - 1) % P.digitBits + 1))
  rw [Nat.mod_pow_succ]
  generalize (2 ^ P.digitBits) ^ ((n - 1) / P.digitBits) = B at hlen
  have hm : (topDigit n x).toNat % 2 ^ ((n - 1) % P.digitBits) < 2 ^ ((n - 1) % P.digitBits) :=
    Nat.mod_lt _ (by positivity)
  generalize (topDigit n x).toNat % 2 ^ ((n - 1) % P.digitBits) = m at hm ⊢
  rcases Nat.mod_two_eq_zero_or_one ((topDigit n x).toNat / 2 ^ ((n - 1) % P.digitBits)) with h | h
  · rw [h, mul_zero, add_zero]
    have h1 := Nat.mul_le_mul_left B (show m + 1 ≤ 2 ^ ((n - 1) % P.digitBits) from hm)
    rw [Nat.mul_succ] at h1
    omega
  · rw [h, mul_one, mul_add]
    omega

/-- The one magnitude with bit `n - 1` set whose other bits are all zero. -/
theorem special_iff (h : topDigit n x &&& compareDigit P n = compareDigit P n) :
    (topDigit n x &&& (compareDigit P n - 1) = 0 ∧
      (x.digits.take ((n - 1) / P.digitBits)).any (· != 0) = false) ↔
        value x.digits % 2 ^ n = 2 ^ (n - 1) := by
  have hmask : topDigit n x &&& (compareDigit P n - 1) = 0 ↔
      (topDigit n x).toNat % 2 ^ ((n - 1) % P.digitBits) = 0 := by
    rw [BitVec.toNat_eq, compareDigit, toNat_and_mask _ (bitsShift_lt P (n - 1)), toNat_zero]
  have hB : (2 ^ P.digitBits) ^ ((n - 1) / P.digitBits) ≠ 0 := by positivity
  rw [hmask, any_ne_zero_eq_false_iff, value_mod_two_pow hn, two_pow_shift P (n - 1)]
  change _ ↔ _ + _ * ((topDigit n x).toNat % 2 ^ ((n - 1) % P.digitBits + 1)) = _
  rw [hasBit_iff.mp h, mul_add]
  generalize (topDigit n x).toNat % 2 ^ ((n - 1) % P.digitBits) = m
  generalize value (x.digits.take ((n - 1) / P.digitBits)) = t
  rw [show t + ((2 ^ P.digitBits) ^ ((n - 1) / P.digitBits) * 2 ^ ((n - 1) % P.digitBits) +
      (2 ^ P.digitBits) ^ ((n - 1) / P.digitBits) * m) =
      (2 ^ P.digitBits) ^ ((n - 1) / P.digitBits) * 2 ^ ((n - 1) % P.digitBits) +
      (t + (2 ^ P.digitBits) ^ ((n - 1) / P.digitBits) * m) by omega, add_eq_left,
    Nat.add_eq_zero_iff, mul_eq_zero, or_iff_right hB, and_comm]
end

/-! ## The operations -/

theorem IsResidue.of_denotes {low x z : ℤ} {r : JSBigInt P} (h1 : low ≤ z) (h2 : z < low + 2 ^ n)
    (h3 : z ≡ x [ZMOD 2 ^ n]) (hr : Denotes z r) : r.Normalized ∧ IsResidue n low x r.toInt :=
  ⟨hr.1, by rw [hr.2]; exact ⟨h1, h2, h3⟩⟩

section
variable {n : ℕ} {x : JSBigInt P} (hx : x.Normalized)
include hx

/-- `asUintN` can only fail for a negative operand and more bits than a BigInt can have. -/
theorem asUintNImpl_returns (hl : x.length ≤ maxLength P) :
    Returns (x.sign = true → n ≤ maxLengthBits) (asUintNImpl n x)
      fun r => r.Normalized ∧ IsResidue n 0 x.toInt r.toInt := by
  have hpow : ((2 ^ n : ℕ) : ℤ) = 2 ^ n := by push_cast; rfl
  have hpos : 0 < 2 ^ n := by positivity
  have hcut : ∀ {v : ℕ}, v < 2 ^ n → (v : ℤ) ≡ x.toInt [ZMOD 2 ^ n] → ∀ r : JSBigInt P,
      Denotes v r → r.Normalized ∧ IsResidue n 0 x.toInt r.toInt := by
    intro v hv hcongr r hr
    exact IsResidue.of_denotes (by omega) (by omega) hcongr hr
  have hself : x.sign ≠ true → value x.digits < 2 ^ n →
      x.Normalized ∧ IsResidue n 0 x.toInt x.toInt := by
    intro hs hlt
    have hint : x.toInt = value x.digits := if_neg hs
    exact hcut hlt (by rw [hint]) x ⟨hx, hint⟩
  refine .ite (fun hz => ?_) fun _ => .ite (fun hn => ?_) fun hn => .ite (fun hs => .ite
    (fun hbig => .throw fun h => absurd (h hs) (Nat.not_le_of_lt hbig)) fun hbig => ?_)
    fun hs => .ite (fun hmax => ?_) fun _ => ?_
  · have h0 := JSBigInt.isZero_iff.mp hz
    refine .pure (hself (by rw [hx.zero h0]; simp) ?_)
    rwa [h0]
  · refine (createZero_returns _).imp fun r hr => ?_
    rw [hr.2, hn]
    exact ⟨hr.1, by omega, by omega, Int.modEq_one⟩
  · have hcongr := signed_sub_modEq false (value x.digits) n
    rw [show (!false) = x.sign from hs.symm] at hcongr
    exact (truncateAndSub_returns hn x false).mono (fun h => h hs)
      (hcut (Nat.mod_lt _ hpos) hcongr)
  · refine .pure (hself hs (lt_of_lt_of_le (value_lt x.digits) ?_))
    rw [← pow_mul]
    refine Nat.pow_le_pow_right (by omega) (le_trans ?_ hmax)
    rw [mul_comm]
    exact (Nat.mul_le_mul_right _ hl).trans (Nat.div_mul_le_self _ _)
  dsimp only
  rw [neededLength_eq hn P]
  refine .ite (fun hshort => ?_) fun hshort => .ite (fun hfits => ?_) fun _ => ?_
  · have hle : 2 ^ (n - 1) ≤ 2 ^ n := Nat.pow_le_pow_right (by omega) (by omega)
    exact .pure (hself hs (lt_of_lt_of_le (value_lt_of_short hshort) hle))
  · have htop : (topDigit n x).toNat < 2 ^ ((n - 1) % P.digitBits + 1) := by
      have hmod := mod_digitBits hn P
      by_cases hw : (n - 1) % P.digitBits + 1 = P.digitBits
      · rw [hw]
        exact (topDigit n x).isLt
      · rw [if_neg hw] at hmod
        rcases hfits.2 with h0 | h0
        · omega
        · rw [hmod, BitVec.toNat_eq, BitVec.toNat_ushiftRight, Nat.shiftRight_eq_div_pow,
            toNat_zero, Nat.div_eq_zero_iff] at h0
          have hp : 0 < 2 ^ ((n - 1) % P.digitBits + 1) := by positivity
          exact h0.resolve_left hp.ne'
    have hval := value_lt_of_top hfits.1 htop
    rw [← two_pow_eq_split hn P] at hval
    exact .pure (hself hs hval)
  · have hcongr := signed_mod_modEq false (value x.digits) n
    have hsign : x.sign = false := Bool.eq_false_iff.mpr hs
    have hcut' := truncateToNBits_returns hn (Nat.lt_of_succ_le (Nat.le_of_not_lt hshort))
    rw [hsign] at hcut'
    refine hcut'.mono (fun _ => hl) (hcut (Nat.mod_lt _ hpos) ?_)
    rwa [toInt_eq_signed, hsign]

theorem asIntNImpl_returns (hn : n ≠ 0) : Returns (x.length ≤ maxLength P) (asIntNImpl n x)
      fun r => r.Normalized ∧ IsResidue n (-2 ^ (n - 1)) x.toInt r.toInt := by
  have hsucc : 2 ^ n = 2 * 2 ^ (n - 1) := by rw [← pow_succ', Nat.sub_add_cancel (by omega)]
  have hpow : (2 ^ n : ℤ) = 2 * (2 ^ (n - 1) : ℕ) := by exact_mod_cast hsucc
  have hcast : (2 ^ (n - 1) : ℤ) = (2 ^ (n - 1) : ℕ) := by push_cast; rfl
  have hpos : 0 < 2 ^ (n - 1) := by positivity
  have hcut : ∀ {b : Bool} {v : ℕ}, (v < 2 ^ (n - 1) ∨ b = true ∧ v ≤ 2 ^ (n - 1)) →
      signed b v ≡ x.toInt [ZMOD 2 ^ n] → ∀ r : JSBigInt P, Denotes (signed b v) r →
      r.Normalized ∧ IsResidue n (-2 ^ (n - 1)) x.toInt r.toInt := by
    intro b v hv hcongr r hr
    have hz : -(2 ^ (n - 1) : ℕ) ≤ signed b v ∧ signed b v < (2 ^ (n - 1) : ℕ) := by
      rcases hv with hv | ⟨rfl, hv⟩
      · cases b <;> simp only [signed] <;> omega
      · simp only [signed, if_true]
        omega
    exact IsResidue.of_denotes (by omega) (by omega) hcongr hr
  have hsmall : value x.digits < 2 ^ (n - 1) →
      x.Normalized ∧ IsResidue n (-2 ^ (n - 1)) x.toInt x.toInt := fun hlt =>
    hcut (Or.inl hlt) rfl x ⟨hx, rfl⟩
  unfold asIntNImpl
  dsimp only
  rw [if_neg hn, neededLength_eq hn P, Nat.add_sub_cancel]
  refine .ite (fun hz => .pure (hsmall ?_)) fun _ => .ite
    (fun hshort => .pure (hsmall (value_lt_of_short hshort))) fun hshort => ?_
  · rwa [JSBigInt.isZero_iff.mp hz]
  have hlong : (n - 1) / P.digitBits < x.length :=
    Nat.lt_of_succ_le (Nat.le_of_not_lt hshort)
  have hmax : x.length ≤ maxLength P → n ≤ maxLengthBits := by
    intro hl
    have h1 := Nat.div_add_mod (n - 1) P.digitBits
    have h2 := bitsShift_lt P (n - 1)
    have h3 : P.digitBits * ((n - 1) / P.digitBits + 1) ≤ P.digitBits * maxLength P :=
      Nat.mul_le_mul_left _ (hlong.trans_le hl)
    have h4 : P.digitBits * maxLength P ≤ maxLengthBits := Nat.mul_div_le _ _
    rw [mul_add] at h3
    omega
  have hne : ∀ a b : P.Digit, (!(a == b)) = true ↔ a ≠ b := by simp
  refine .ite (fun hcmp => .pure (hsmall ?_)) fun _ => .ite (fun hbit => ?_) fun hbit => ?_
  · have hlt : (topDigit n x).toNat < (compareDigit P n).toNat := BitVec.lt_def.mp hcmp.2
    rw [compareDigit_toNat] at hlt
    rw [two_pow_shift P (n - 1)]
    exact value_lt_of_top hcmp.1 hlt
  · have hV := mt (hasBit_iff_le hn).mpr ((hne _ _).mp hbit)
    have hcongr := signed_mod_modEq x.sign (value x.digits) n
    exact (truncateToNBits_returns hn hlong).imp (hcut (Or.inl (not_le.mp hV)) hcongr)
  · replace hbit := not_not.mp (mt (hne _ _).mpr hbit)
    have hV := (hasBit_iff_le hn).mp hbit
    have hsub : (2 ^ n - value x.digits % 2 ^ n) % 2 ^ n = 2 ^ n - value x.digits % 2 ^ n :=
      Nat.mod_eq_of_lt (by omega)
    refine .ite (fun hs => ?_) fun hs => ?_
    · have hcongr := signed_sub_modEq true (value x.digits) n
      rw [show (!true) = x.sign from (Bool.not_eq_true' _ ▸ hs).symm] at hcongr
      exact (truncateAndSub_returns hn x true).mono hmax
        (hcut (Or.inr ⟨rfl, by rw [hsub]; omega⟩) hcongr)
    · replace hs : x.sign = true := by simpa using hs
      have hsubtract : value x.digits % 2 ^ n ≠ 2 ^ (n - 1) →
          Returns (x.length ≤ maxLength P) (truncateAndSubFromPowerOfTwo n x false)
            fun r => r.Normalized ∧ IsResidue n (-2 ^ (n - 1)) x.toInt r.toInt := by
        intro hne
        have hcongr := signed_sub_modEq false (value x.digits) n
        rw [show (!false) = x.sign from hs.symm] at hcongr
        exact (truncateAndSub_returns hn x false).mono hmax
          (hcut (Or.inl (by rw [hsub]; omega)) hcongr)
      have hspecial := special_iff hn hbit
      refine .ite (fun hmask => .ite (fun hany => hsubtract fun h0 => ?_) fun hany => ?_)
        fun hmask => hsubtract fun h0 => hmask (hspecial.mpr h0).1
      · have := (hspecial.mpr h0).2
        rw [hany] at this
        cases this
      have hV' := hspecial.mp ⟨hmask, Bool.eq_false_iff.mpr hany⟩
      refine .ite (fun hexact => ?_) fun _ => ?_
      · have htop : topDigit n x = compareDigit P n := hexact.2
        have hlt : value x.digits < 2 ^ n := by
          rw [two_pow_eq_split hn P]
          refine value_lt_of_top hexact.1 ?_
          rw [htop, compareDigit_toNat]
          exact Nat.pow_lt_pow_right (by omega) (by omega)
        rw [Nat.mod_eq_of_lt hlt] at hV'
        exact .pure (hcut (Or.inr ⟨hs, hV'.le⟩) rfl x ⟨hx, rfl⟩)
      · have hcongr := signed_mod_modEq x.sign (value x.digits) n
        exact (truncateToNBits_returns hn hlong).imp (hcut (Or.inr ⟨hs, hV'.le⟩) hcongr)

theorem asIntNImpl_zero_returns (room : Prop) : Returns room (asIntNImpl 0 x) (Denotes 0) := by
  unfold asIntNImpl
  by_cases hz : x.isZero = true
  · rw [if_pos hz]
    exact .pure ⟨hx, hx.toInt_eq_zero_iff.mpr (JSBigInt.isZero_iff.mp hz)⟩
  · rw [if_neg hz]
    exact createZero_returns _
end

/-- **`asUintN` and `asIntN` are modular reduction.** Whatever they return is normalized and the one
residue in the range asked for, and unless an allocation fails they throw only for `asUintN` of a
negative number to more than `maxLengthBits` bits. -/
theorem asN_exact (n : ℕ) (x : JSBigInt P) (hx : x.Normalized) (hl : x.length ≤ maxLength P)
    (vm : VM P) : (∀ r vm', asUintN n x vm = .ok (r, vm') → r.Normalized ∧ ∀ z : ℤ,
      (0 ≤ z ∧ z < 2 ^ n ∧ z ≡ x.toInt [ZMOD 2 ^ n]) ↔ z = r.toInt) ∧
    (∀ r vm', asIntN n x vm = .ok (r, vm') → r.Normalized ∧ (n = 0 → r.toInt = 0) ∧
      (n ≠ 0 → ∀ z : ℤ, (-2 ^ (n - 1) ≤ z ∧ z < 2 ^ (n - 1) ∧ z ≡ x.toInt [ZMOD 2 ^ n]) ↔
        z = r.toInt)) ∧ (VM.Unlimited vm → (∃ r vm', asIntN n x vm = .ok (r, vm')) ∧
      ((∃ e, asUintN n x vm = .error e) ↔ x.toInt < 0 ∧ maxLengthBits < n)) := by
  refine ⟨fun r vm' h => ?_, fun r vm' h => ⟨?_, fun hn => ?_, fun hn z => ?_⟩, fun hvm => ⟨?_, ?_⟩⟩
  · obtain ⟨h1, h2⟩ := (asUintNImpl_returns hx hl).ok h
    refine ⟨h1, fun z => ⟨fun hz => ?_, fun hz => ?_⟩⟩
    · exact h2.unique ⟨hz.1, by rw [zero_add]; exact hz.2.1, hz.2.2⟩
    · rw [hz]
      exact ⟨h2.le, by rw [← zero_add (2 ^ n)]; exact h2.lt, h2.congr⟩
  · by_cases hn : n = 0
    · rw [hn] at h
      exact ((asIntNImpl_zero_returns hx True).ok h).1
    · exact ((asIntNImpl_returns hx hn).ok h).1
  · rw [hn] at h
    exact ((asIntNImpl_zero_returns hx True).ok h).2
  · have h2 := ((asIntNImpl_returns hx hn).ok h).2
    have hpow : (2 ^ n : ℤ) = 2 * 2 ^ (n - 1) := by
      rw [← pow_succ', Nat.sub_add_cancel (by omega)]
    constructor
    · rintro ⟨z1, z2, z3⟩
      exact h2.unique ⟨z1, by linarith, z3⟩
    · intro hz
      rw [hz]
      have := h2.lt
      exact ⟨h2.le, by linarith, h2.congr⟩
  · by_cases hn : n = 0
    · rw [hn]
      obtain ⟨r, vm', hr, -⟩ := (asIntNImpl_zero_returns hx True).unlimited trivial hvm
      exact ⟨r, vm', hr⟩
    · obtain ⟨r, vm', hr, -⟩ := (asIntNImpl_returns hx hn).unlimited hl hvm
      exact ⟨r, vm', hr⟩
  · rw [hx.toInt_neg_iff]
    constructor
    · rintro ⟨e, he⟩
      by_contra hc
      rw [not_and, not_lt] at hc
      obtain ⟨r, vm', hr, -⟩ := (asUintNImpl_returns hx hl).unlimited hc hvm
      rw [asUintN, hr] at he
      cases he
    · rintro ⟨hs, hbig⟩
      refine ⟨.outOfMemoryError (some tooBigMessage), ?_⟩
      have hz : ¬x.isZero = true := by
        rw [JSBigInt.isZero_iff]
        intro h0
        rw [hx.zero h0] at hs
        cases hs
      rw [asUintN, asUintNImpl, if_neg hz, if_neg (by omega), if_pos hs, if_pos hbig]
      rfl

/-- `asIntN(3, -12n) = -4n` and `asUintN(65, -1n) = 2^65 - 1` on a 64-bit platform. -/
theorem asN_exact_examples :
    (∃ r vm', asIntN (P := Platform.arm64) 3 ⟨true, [12]⟩ VM.zeroed = .ok (r, vm') ∧
      (-4 : ℤ) = r.toInt) ∧
    ∃ r vm', asUintN (P := Platform.arm64) 65 ⟨true, [1]⟩ VM.zeroed = .ok (r, vm') ∧
      (2 ^ 65 - 1 : ℤ) = r.toInt := by
  refine ⟨⟨⟨true, [4]⟩, VM.zeroed, by rfl, ?_⟩, ⟨⟨false, [-1, 1]⟩, VM.zeroed, by rfl, ?_⟩⟩
  · exact ((((asN_exact 3 ⟨true, [12]⟩ (by decide) (by decide)
      VM.zeroed).2.1 ⟨true, [4]⟩ VM.zeroed (by rfl)).2.2 (by decide)) (-4)).mp (by decide)
  · exact (((asN_exact 65 ⟨true, [1]⟩ (by decide) (by decide)
      VM.zeroed).1 ⟨false, [-1, 1]⟩ VM.zeroed (by rfl)).2 (2 ^ 65 - 1)).mp (by decide)

/-! ## 64-bit integers -/

/-- The lowest 64 bits of the magnitude. -/
def lowBits (x : JSBigInt P) : BitVec 64 :=
  if P.digitBits = 32 then
    (x.digit 0).setWidth 64 ||| if 1 < x.length then (x.digit 1).setWidth 64 <<< 32 else 0
  else (x.digit 0).setWidth 64

def toBigUInt64Heap (x : JSBigInt P) : BitVec 64 :=
  if x.length = 0 then 0 else if !x.sign then lowBits x else ~~~(lowBits x - 1)

/-- There is no `rightTrim`, so the length has to be right at once. -/
def createFromImpl (value : BitVec 64) (sign : Bool) : Op P (JSBigInt P) := do
  if value = 0 then
    createZero
  else if P.digitBits = 64 ∨ value ≤ 0xffffffff then
    let bigInt ← createWithLength 1
    return (bigInt.setDigits 0 [value.setWidth _]).setSign sign
  else
    let bigInt ← createWithLength 2
    let lowBits := (value &&& 0xffffffff).setWidth _
    let highBits := ((value >>> 32) &&& 0xffffffff).setWidth _
    return (bigInt.setDigits 0 [lowBits, highBits]).setSign sign

/-- `createFrom` for a `uint64_t`. -/
def createFromUInt64 (value : BitVec 64) : Op P (JSBigInt P) := createFromImpl value false

/-- `createFrom` for an `int64_t`. -/
def createFromInt64 (value : BitVec 64) : Op P (JSBigInt P) :=
  if value.slt 0 then createFromImpl (-(value + 1) + 1) true else createFromImpl value false

theorem lowBits_eq (x : JSBigInt P) : lowBits x = BitVec.ofNat 64 (value x.digits) := by
  refine BitVec.eq_of_toNat_eq ?_
  unfold lowBits JSBigInt.digit JSBigInt.length
  generalize x.digits = ds
  obtain ⟨w, twoDigit, x86, rfl | rfl⟩ := P
  · rcases ds with _ | ⟨d, _ | ⟨e, ds⟩⟩
    · simp
    · simp
    · have hd : d.toNat < 2 ^ 32 := d.isLt
      have he : e.toNat < 2 ^ 32 := e.isLt
      have hor := Nat.shiftLeft_add_eq_or_of_lt hd e.toNat
      have hlow : d.toNat % 2 ^ 64 ||| e.toNat <<< 32 % 2 ^ 64 =
          (d.toNat + 2 ^ 32 * (e.toNat + 2 ^ 32 * value ds)) % 2 ^ 64 := by
        rw [Nat.mod_eq_of_lt (by omega), Nat.mod_eq_of_lt (by omega), Nat.or_comm]
        omega
      simpa [Nat.shiftLeft_eq] using hlow
  · rcases ds with _ | ⟨d, ds⟩
    · simp
    · simpa using (Nat.mod_eq_of_lt d.isLt).symm

theorem toBigUInt64Heap_eq (x : JSBigInt P) : toBigUInt64Heap x = BitVec.ofInt 64 x.toInt := by
  rw [toBigUInt64Heap, JSBigInt.toInt, lowBits_eq]
  by_cases h0 : x.length = 0
  · rw [List.eq_nil_of_length_eq_zero h0]
    simp
  · rw [if_neg h0]
    cases x.sign
    · simp
    · simp [BitVec.not_eq_neg_add, BitVec.ofInt_neg]

/-- **The way to 64-bit integers agrees with `asUintN` and `asIntN`**, which always return. -/
theorem toBigUInt64Heap_agrees (x : JSBigInt P) (hx : x.Normalized) (hl : x.length ≤ maxLength P) :
    Returns True (asUintN 64 x) (Denotes (toBigUInt64Heap x).toNat) ∧
      Returns True (asIntN 64 x) (Denotes (toBigUInt64Heap x).toInt) := by
  rw [toBigUInt64Heap_eq]
  refine ⟨(asUintNImpl_returns hx hl).mono (fun _ _ => by decide) fun r hr => ⟨hr.1, ?_⟩,
    (asIntNImpl_returns hx (by decide)).mono (fun _ => hl) fun r hr => ⟨hr.1, ?_⟩⟩
  · refine IsResidue.unique ⟨Int.natCast_nonneg _, ?_, ?_⟩ hr.2
    · omega
    · rw [BitVec.toNat_ofInt, Int.toNat_of_nonneg (by omega)]
      exact Int.mod_modEq _ _
  · refine IsResidue.unique ⟨BitVec.le_toInt _, ?_, ?_⟩ hr.2
    · have := (BitVec.ofInt 64 x.toInt).toInt_lt
      omega
    · rw [BitVec.toInt_ofInt]
      exact Int.bmod_emod

/-- `-1n` is written as all ones. -/
theorem toBigUInt64Heap_agrees_minus_one :
    Returns True (asUintN (P := Platform.arm64) 64 ⟨true, [1]⟩) (Denotes (2 ^ 64 - 1)) :=
  (toBigUInt64Heap_agrees (P := Platform.arm64) ⟨true, [1]⟩ (by decide) (by decide)).1

/-- A cell of one or two digits that is filled at once. -/
theorem filled_returns (ds : List P.Digit) (hne : ds ≠ []) (hlen : ds.length ≤ 2)
    (htop : (ds.getLast hne).toNat ≠ 0) (sign : Bool) : Returns True (do
      let bigInt ← createWithLength ds.length
      return (bigInt.setDigits 0 ds).setSign sign) (Denotes (signed sign (value ds : ℕ))) := by
  refine ((createWithLength_returns _).room_of fun _ => hlen.trans ?_).bind ?_
  · unfold maxLength maxLengthBits
    rcases P.digitBits_eq with h | h <;> rw [h] <;> norm_num
  · rintro c ⟨hc, -⟩
    rw [setDigits_all hc]
    refine .pure ⟨⟨fun _ h => htop ?_, fun h => absurd h hne⟩, rfl⟩
    simpa using congrArg BitVec.toNat h

theorem createFromImpl_returns (v : BitVec 64) (sign : Bool) :
    Returns True (createFromImpl v sign : Op P (JSBigInt P)) (Denotes (signed sign v.toNat)) := by
  unfold createFromImpl
  split_ifs with h0 h1
  · rw [h0]
    cases sign <;> exact createZero_returns _
  · have hd : (v.setWidth P.digitBits).toNat = v.toNat := by
      rw [BitVec.toNat_setWidth]
      rw [BitVec.le_def] at h1
      rcases P.digitBits_eq with h | h <;> rw [h] at h1 ⊢ <;> simp at h1 <;> omega
    rw [← hd]
    refine filled_returns [_] (by simp) (by simp) ?_ sign
    rw [List.getLast_singleton, hd]
    exact fun h => h0 (BitVec.eq_of_toNat_eq h)
  · rw [not_or, BitVec.le_def] at h1
    have hw : P.digitBits = 32 := P.digitBits_eq.resolve_right h1.1
    have h2 : 0xffffffff < v.toNat := by simpa using h1.2
    have hand : ∀ n, n &&& 4294967295 = n % 2 ^ 32 := fun n => Nat.and_two_pow_sub_one_eq_mod n 32
    have hd : v.toNat = value [((v &&& 0xffffffff).setWidth P.digitBits : P.Digit),
        ((v >>> 32) &&& 0xffffffff).setWidth P.digitBits] := by
      simp [hw, hand]
      omega
    rw [hd]
    refine filled_returns [_, _] (by simp) (by simp) ?_ sign
    simp [hw, hand]
    omega

theorem createFromInt64_returns (v : BitVec 64) :
    Returns True (createFromInt64 v : Op P (JSBigInt P)) (Denotes v.toInt) := by
  unfold createFromInt64
  split_ifs with h
  · have hv : signed true (-(v + 1) + 1).toNat = v.toInt := by
      simp [BitVec.slt, signed, BitVec.toInt_eq_toNat_cond] at h ⊢
      bv_omega
    exact hv ▸ createFromImpl_returns _ true
  · have hv : signed false v.toNat = v.toInt := by
      simp [BitVec.slt, signed, BitVec.toInt_eq_toNat_cond] at h ⊢
      omega
    exact hv ▸ createFromImpl_returns _ false

/-- **64-bit integers survive as BigInts**: the BigInt created from one denotes it, with or without
a sign, and leads back to it. -/
theorem createFrom_toBigUInt64Heap (v : BitVec 64) :
    Returns True (createFromUInt64 v : Op P _)
        (fun r => Denotes v.toNat r ∧ toBigUInt64Heap r = v) ∧
      Returns True (createFromInt64 v : Op P _)
        fun r => Denotes v.toInt r ∧ toBigUInt64Heap r = v := by
  refine ⟨(createFromImpl_returns v false).mono id fun r hr => ⟨hr, ?_⟩,
    (createFromInt64_returns v).mono id fun r hr => ⟨hr, ?_⟩⟩
  · rw [toBigUInt64Heap_eq, hr.2]
    simp [signed]
  · rw [toBigUInt64Heap_eq, hr.2, BitVec.ofInt_toInt]

end JscAndroid.BigInt.Truncate
