import JscAndroid.BigInt.DigitLoops

/-!
# Comparing, copying and shifting

The operations on magnitudes that division rests on: `absoluteCompare` orders normalized
magnitudes, `copy` and `unaryMinusImpl` build a fresh cell, and `absoluteLeftShiftAlwaysCopy` moves
the bits of a magnitude up by less than a digit. Each is settled by what its result denotes.
-/

namespace JscAndroid.BigInt.Magnitude

open Arith.Limbs DigitArith Heap DigitLoops List

variable {P : Platform}
variable {y x : JSBigInt P}

/-! ## Comparison -/

inductive ComparisonResult
  | Equal
  | Undefined
  | GreaterThan
  | LessThan
  deriving DecidableEq, Repr

/-- The loop of `absoluteCompare`, on the digits from the most significant one down. -/
def compareLoop : List P.Digit → List P.Digit → ComparisonResult
  | a :: as, b :: bs =>
    if a = b then compareLoop as bs
    else if b < a then .GreaterThan else .LessThan
  | _, _ => .Equal

def absoluteCompare (x y : JSBigInt P) : ComparisonResult :=
  if x.length ≠ y.length then
    if x.length < y.length then .LessThan else .GreaterThan
  else compareLoop x.digits.reverse y.digits.reverse

/-- The comparison result for two numbers. -/
def ComparisonResult.ofMagnitudes (m n : ℕ) : ComparisonResult :=
  if m < n then .LessThan else if n < m then .GreaterThan else .Equal

theorem ofMagnitudes_leading {m n K : ℕ} (c d : ℕ) (hm : m < K) (hn : n < K) :
    ComparisonResult.ofMagnitudes (m + K * c) (n + K * d) =
      if d < c then .GreaterThan else if c < d then .LessThan else .ofMagnitudes m n := by
  unfold ComparisonResult.ofMagnitudes
  rcases lt_trichotomy c d with h | h | h
  · have h1 := Nat.mul_le_mul_left K (show c + 1 ≤ d from h)
    rw [mul_add] at h1
    rw [if_pos (by omega), if_neg (by omega), if_pos h]
  · subst h
    simp only [lt_irrefl, ↓reduceIte, add_lt_add_iff_right]
  · have h1 := Nat.mul_le_mul_left K (show d + 1 ≤ c from h)
    rw [mul_add] at h1
    rw [if_neg (by omega), if_pos (by omega), if_pos h]

theorem compareLoop_eq : ∀ as bs : List P.Digit, as.length = bs.length →
    compareLoop as bs = .ofMagnitudes (value as.reverse) (value bs.reverse)
  | [], [], _ => rfl
  | a :: as, b :: bs, hl => by
    have hl' : as.length = bs.length := by simpa using hl
    have ha := value_lt as.reverse
    have hb := value_lt bs.reverse
    rw [compareLoop, compareLoop_eq as bs hl']
    simp only [reverse_cons, value_append, value_singleton, length_reverse] at ha hb ⊢
    rw [← hl'] at hb ⊢
    rw [ofMagnitudes_leading _ _ ha hb]
    by_cases h1 : a = b
    · rw [if_pos h1, h1, if_neg (Nat.lt_irrefl _), if_neg (Nat.lt_irrefl _)]
    · have h2 : a.toNat ≠ b.toNat := fun h => h1 (BitVec.eq_of_toNat_eq h)
      rw [if_neg h1]
      by_cases h3 : b.toNat < a.toNat
      · rw [if_pos (BitVec.lt_def.mpr h3), if_pos h3]
      · rw [if_neg (fun h => h3 (BitVec.lt_def.mp h)), if_neg h3, if_pos (by omega)]

theorem top_ne_zero (hy : y.Normalized) (hne : y.digits ≠ []) : y.digit (y.length - 1) ≠ 0 := by
  have h := hy.top hne
  have hl := length_pos_iff.mpr hne
  rwa [JSBigInt.digit, JSBigInt.length, getD_eq_getElem _ _ (by omega), ← getLast_eq_getElem hne]

theorem value_of_length_one (h : y.length = 1) : value y.digits = (y.digit 0).toNat := by
  obtain ⟨d, hd⟩ := length_eq_one_iff.mp h
  rw [JSBigInt.digit, hd]
  rfl

theorem value_lt_of_length_lt (hy : y.Normalized) (h : x.length < y.length) :
    value x.digits < value y.digits := by
  unfold JSBigInt.length at h
  have hne : y.digits ≠ [] := length_pos_iff.mp (by omega)
  have h1 := value_lt x.digits
  have h2 := hy.pow_le_value hne
  have h3 : (2 ^ P.digitBits) ^ x.digits.length ≤ (2 ^ P.digitBits) ^ (y.digits.length - 1) :=
    Nat.pow_le_pow_right (by positivity) (by omega)
  omega

/-- **`absoluteCompare` compares magnitudes.** -/
theorem absoluteCompare_eq (hx : x.Normalized) (hy : y.Normalized) :
    absoluteCompare x y = .ofMagnitudes (value x.digits) (value y.digits) := by
  unfold absoluteCompare
  split_ifs with h1 h2
  · have := value_lt_of_length_lt hy h2
    rw [ComparisonResult.ofMagnitudes, if_pos this]
  · have := value_lt_of_length_lt hx (show y.length < x.length by omega)
    rw [ComparisonResult.ofMagnitudes, if_neg (by omega), if_pos this]
  · have hl : x.digits.length = y.digits.length := not_not.mp h1
    rw [compareLoop_eq _ _ (by simpa using hl), reverse_reverse, reverse_reverse]

theorem absoluteCompare_eq_lessThan_iff (hx : x.Normalized) (hy : y.Normalized) :
    absoluteCompare x y = .LessThan ↔ value x.digits < value y.digits := by
  rw [absoluteCompare_eq hx hy]
  unfold ComparisonResult.ofMagnitudes
  split_ifs <;> simp_all

/-! ## Copies -/

/-- A fresh BigInt with the sign and the digits of `x`. -/
def copy (x : JSBigInt P) : Op P (JSBigInt P) := do
  let result ← createWithLength x.length
  return (result.setDigits 0 x.digits).setSign x.sign

def unaryMinusImpl (x : JSBigInt P) : Op P (JSBigInt P) := do
  if x.isZero then
    createZero
  else
    let result ← copy x
    return result.setSign (!x.sign)

theorem copy_returns (x : JSBigInt P) :
    Returns (x.length ≤ maxLength P) (copy x) fun r => r = x := by
  refine (createWithLength_returns _).bind ?_
  rintro c ⟨hlen, -⟩
  rw [setDigits_all hlen]
  exact .pure rfl

theorem unaryMinusImpl_returns (hx : x.Normalized) :
    Returns (x.length ≤ maxLength P) (unaryMinusImpl x) (Denotes (-x.toInt)) := by
  unfold unaryMinusImpl
  split_ifs with hz
  · have h0 := hx.toInt_eq_zero_iff.mpr (JSBigInt.isZero_iff.mp hz)
    rw [h0]
    exact createZero_returns _
  · refine (copy_returns x).bind ?_
    intro r hr
    rw [hr]
    refine .pure ⟨⟨hx.top, fun h0 => absurd (JSBigInt.isZero_iff.mpr h0) hz⟩, ?_⟩
    unfold JSBigInt.toInt
    cases x.sign <;> simp

/-! ## Left shift by less than a digit -/

inductive LeftShiftMode
  | SameSizeResult
  | AlwaysAddOneDigit
  deriving DecidableEq, Repr

/-- Shifts into a fresh BigInt, also when `shift` is 0. -/
def absoluteLeftShiftAlwaysCopy (x : JSBigInt P) (shift : ℕ) (mode : LeftShiftMode) :
    Op P (JSBigInt P) := do
  let n := x.length
  let resultLength := if mode = .AlwaysAddOneDigit then n + 1 else n
  let result ← createWithLength resultLength
  if shift = 0 then
    let result := result.setDigits 0 x.digits
    return if mode = .AlwaysAddOneDigit then result.setDigits n [0] else result
  else
    let shifted := leftShiftLoop shift x.digits 0
    let result := result.setDigits 0 shifted.1
    return if mode = .AlwaysAddOneDigit then result.setDigits n [shifted.2] else result

/-- Writing `ds` and then one more digit into a buffer of just that size. -/
theorem setDigits_setDigits_last (c : JSBigInt P) (ds : List P.Digit) (d : P.Digit)
    (h : c.digits.length = ds.length + 1) :
    ((c.setDigits 0 ds).setDigits ds.length [d]).digits = ds ++ [d] := by
  simp only [JSBigInt.setDigits_digits, overwrite, take_zero, nil_append, zero_add]
  rw [take_left' rfl, drop_of_length_le]
  · rw [append_nil]
  · simp [h]

theorem leftShift_addOneDigit_returns (x : JSBigInt P) {shift : ℕ} (hs : shift < P.digitBits) :
    Returns (x.length < maxLength P) (absoluteLeftShiftAlwaysCopy x shift .AlwaysAddOneDigit)
      fun r => r.digits.length = x.digits.length + 1 ∧
        value r.digits = value x.digits * 2 ^ shift := by
  simp only [absoluteLeftShiftAlwaysCopy, ↓reduceIte]
  refine ((createWithLength_returns _).room_of Nat.succ_le_of_lt).bind ?_
  rintro c ⟨hlen, -⟩
  split_ifs with h0
  · refine .pure ?_
    have hd : ((c.setDigits 0 x.digits).setDigits x.length [0]).digits = x.digits ++ [0] :=
      setDigits_setDigits_last c x.digits 0 hlen
    rw [hd, h0]
    refine ⟨by simp, ?_⟩
    rw [value_append]
    simp
  · refine .pure ?_
    obtain ⟨h1, -, h3⟩ := leftShiftLoop_spec hs.le x.digits 0 (by rw [toNat_zero]; positivity)
    have hd := setDigits_setDigits_last c (leftShiftLoop shift x.digits 0).1
      (leftShiftLoop shift x.digits 0).2 (by rw [h1]; exact hlen)
    rw [h1] at hd
    rw [JSBigInt.length, hd]
    refine ⟨by rw [length_append, h1, length_singleton], ?_⟩
    rw [value_append, value_singleton, h1, h3, toNat_zero, add_zero]

theorem leftShift_sameSize_returns {shift : ℕ} (hs : shift < P.digitBits)
    (hfit : value x.digits * 2 ^ shift < (2 ^ P.digitBits) ^ x.digits.length) :
    Returns (x.length ≤ maxLength P) (absoluteLeftShiftAlwaysCopy x shift .SameSizeResult)
      fun r => r.digits.length = x.digits.length ∧ value r.digits = value x.digits * 2 ^ shift := by
  simp only [absoluteLeftShiftAlwaysCopy, reduceCtorEq, ↓reduceIte]
  refine (createWithLength_returns _).bind ?_
  rintro c ⟨hlen, -⟩
  split_ifs with h0
  · refine .pure ?_
    rw [setDigits_all hlen, h0]
    simp
  · refine .pure ?_
    obtain ⟨h1, -, h3⟩ := leftShiftLoop_spec hs.le x.digits 0 (by rw [toNat_zero]; positivity)
    rw [setDigits_all (hlen.trans h1.symm)]
    exact ⟨h1, eq_of_add_mul h3 hfit⟩

end JscAndroid.BigInt.Magnitude
