import JscAndroid.BigInt.Heap

/-!
# Loops over digits

The loops that the operations on magnitudes are made of. Each runs from the least significant digit
up and hands a carry (or borrow, or the bits shifted out) to the next round. The theorem beside a
loop says what the stored digits denote; the carry goes with the weight of the digits already
stored.
-/

namespace JscAndroid.BigInt.DigitLoops

open Arith.Limbs DigitArith List Nat
open BitVec hiding toNat_one

variable {P : Platform}

theorem toNat_zero : (0 : P.Digit).toNat = 0 := by simp

/-! ## Adding and subtracting in place -/

/-- One round of an addition: both additions count into one new carry. -/
def addStep (x y carry : P.Digit) : P.Digit × P.Digit :=
  let (sum, newCarry) := digitAdd x y 0
  digitAdd sum carry newCarry

/-- One round of a subtraction: both subtractions count into one new borrow. -/
def subStep (x y borrow : P.Digit) : P.Digit × P.Digit :=
  let (difference, newBorrow) := digitSub x y 0
  digitSub difference borrow newBorrow

theorem zero_add_one_lt : (0 : P.Digit).toNat + 1 < 2 ^ P.digitBits := by
  exact P.one_lt_base

theorem addStep_spec (x y carry : P.Digit) :
    (addStep x y carry).1.toNat + 2 ^ P.digitBits * (addStep x y carry).2.toNat =
      x.toNat + y.toNat + carry.toNat := by
  have hB := P.base_ge
  have h1 := digitAdd_spec x y 0 zero_add_one_lt
  have h2 := digitAdd_snd_le x y 0 zero_add_one_lt
  rw [toNat_zero] at h1 h2
  have h3 := digitAdd_spec (digitAdd x y 0).1 carry (digitAdd x y 0).2 (by omega)
  simp only [addStep]
  omega

theorem addStep_le (x y : P.Digit) {carry : P.Digit} (hc : carry.toNat ≤ 1) :
    (addStep x y carry).2.toNat ≤ 1 := by
  have h := addStep_spec x y carry
  by_contra hge
  have := mul_le_mul_left (2 ^ P.digitBits) (show 2 ≤ (addStep x y carry).2.toNat by omega)
  omega

theorem subStep_spec (x y borrow : P.Digit) :
    (subStep x y borrow).1.toNat + y.toNat + borrow.toNat =
      x.toNat + 2 ^ P.digitBits * (subStep x y borrow).2.toNat := by
  have hB := P.base_ge
  have h1 := digitSub_spec x y 0 zero_add_one_lt
  have h2 := digitSub_snd_le x y 0 zero_add_one_lt
  rw [toNat_zero] at h1 h2
  have h3 := digitSub_spec (digitSub x y 0).1 borrow (digitSub x y 0).2 (by omega)
  simp only [subStep]
  omega

theorem subStep_le (x y : P.Digit) {borrow : P.Digit} (hb : borrow.toNat ≤ 1) :
    (subStep x y borrow).2.toNat ≤ 1 := by
  have h := subStep_spec x y borrow
  by_contra hge
  have := mul_le_mul_left (2 ^ P.digitBits) (show 2 ≤ (subStep x y borrow).2.toNat by omega)
  omega

/-- The loop of `absoluteInplaceAdd`, over the digits of the summand. -/
def inplaceAddLoop : List P.Digit → List P.Digit → P.Digit → List P.Digit × P.Digit
  | x :: xs, y :: ys, carry =>
    let step := addStep x y carry
    let rest := inplaceAddLoop xs ys step.2
    (step.1 :: rest.1, rest.2)
  | _, _, carry => ([], carry)

/-- The loop of `absoluteInplaceSub`, over the digits of the subtrahend. -/
def inplaceSubLoop : List P.Digit → List P.Digit → P.Digit → List P.Digit × P.Digit
  | x :: xs, y :: ys, borrow =>
    let step := subStep x y borrow
    let rest := inplaceSubLoop xs ys step.2
    (step.1 :: rest.1, rest.2)
  | _, _, borrow => ([], borrow)

/-- Adds `summand` onto the digits from `startIndex` on; returns the carry. -/
def absoluteInplaceAdd (u summand : List P.Digit) (startIndex : ℕ) : List P.Digit × P.Digit :=
  let r := inplaceAddLoop (u.drop startIndex) summand 0
  (overwrite u startIndex r.1, r.2)

/-- Subtracts `subtrahend` from the digits from `startIndex` on; returns the borrow. -/
def absoluteInplaceSub (u subtrahend : List P.Digit) (startIndex : ℕ) : List P.Digit × P.Digit :=
  let r := inplaceSubLoop (u.drop startIndex) subtrahend 0
  (overwrite u startIndex r.1, r.2)

theorem inplaceAddLoop_spec : ∀ (xs ys : List P.Digit) (carry : P.Digit),
    ys.length ≤ xs.length → carry.toNat ≤ 1 → (inplaceAddLoop xs ys carry).1.length = ys.length ∧
      (inplaceAddLoop xs ys carry).2.toNat ≤ 1 ∧ value (inplaceAddLoop xs ys carry).1 +
          (2 ^ P.digitBits) ^ ys.length * (inplaceAddLoop xs ys carry).2.toNat =
        value (xs.take ys.length) + value ys + carry.toNat
  | xs, [], carry, _, hc => by
    cases xs <;> simp [inplaceAddLoop, hc]
  | [], y :: ys, carry, hl, _ => by simp at hl
  | x :: xs, y :: ys, carry, hl, hc => by
    obtain ⟨h1, h2, h3⟩ := inplaceAddLoop_spec xs ys (addStep x y carry).2 (by simpa using hl)
      (addStep_le x y hc)
    have hs := addStep_spec x y carry
    simp only [inplaceAddLoop, length_cons, take_succ_cons, value_cons]
    refine ⟨by omega, h2, ?_⟩
    rw [pow_succ', Nat.mul_assoc]
    have := congrArg (2 ^ P.digitBits * ·) h3
    simp only [Nat.mul_add] at this
    omega

theorem inplaceSubLoop_spec : ∀ (xs ys : List P.Digit) (borrow : P.Digit),
    ys.length ≤ xs.length → borrow.toNat ≤ 1 → (inplaceSubLoop xs ys borrow).1.length = ys.length ∧
      (inplaceSubLoop xs ys borrow).2.toNat ≤ 1 ∧
      value (inplaceSubLoop xs ys borrow).1 + value ys + borrow.toNat = value (xs.take ys.length) +
          (2 ^ P.digitBits) ^ ys.length * (inplaceSubLoop xs ys borrow).2.toNat
  | xs, [], borrow, _, hc => by
    cases xs <;> simp [inplaceSubLoop, hc]
  | [], y :: ys, borrow, hl, _ => by simp at hl
  | x :: xs, y :: ys, borrow, hl, hc => by
    obtain ⟨h1, h2, h3⟩ := inplaceSubLoop_spec xs ys (subStep x y borrow).2 (by simpa using hl)
      (subStep_le x y hc)
    have hs := subStep_spec x y borrow
    simp only [inplaceSubLoop, length_cons, take_succ_cons, value_cons]
    refine ⟨by omega, h2, ?_⟩
    rw [pow_succ', Nat.mul_assoc]
    have := congrArg (2 ^ P.digitBits * ·) h3
    simp only [Nat.mul_add] at this
    omega

/-! ## Multiplying by a digit -/

/-- The loop of `internalMultiplyAdd`: `carry` and `high` are what the rounds so far left over. -/
def multiplyAddLoop (factor : P.Digit) :
    List P.Digit → P.Digit → P.Digit → List P.Digit × P.Digit × P.Digit
  | [], carry, high => ([], carry, high)
  | d :: ds, carry, high =>
    let (current, newHigh) := digitMul P d factor
    let (current, newCarry) := digitAdd current high 0
    let (current, newCarry) := digitAdd current carry newCarry
    let rest := multiplyAddLoop factor ds newCarry newHigh
    (current :: rest.1, rest.2)

/-- Stores `source * factor + summand` into `result`, from the first `n` digits of `source`. The
digits of `result` above those are set as well, if it has any. -/
def internalMultiplyAdd (source : List P.Digit) (factor summand : P.Digit) (n : ℕ)
    (result : List P.Digit) : List P.Digit :=
  let r := multiplyAddLoop factor (source.take n) summand 0
  if result.length > n then
    overwrite result 0 (r.1 ++ (r.2.1 + r.2.2) :: List.replicate (result.length - (n + 1)) 0)
  else
    overwrite result 0 r.1

/-- The round of a multiplication: the four digits that meet in it and what is left over. -/
theorem carry_add_lt {B cur c acc m k : ℕ} (hm : m ≤ (B - 1) * (B - 1))
    (hacc : acc + k ≤ 2 * (B - 1))
    (h : cur + B * c = acc + k + m) (hB : 0 < B) : c < B := by
  by_contra hge
  have h1 := mul_le_mul_left B (Nat.le_of_not_lt hge)
  obtain ⟨b, rfl⟩ : ∃ b, B = b + 1 := ⟨B - 1, by omega⟩
  simp only [Nat.add_sub_cancel] at hm hacc
  have h2 : (b + 1) * (b + 1) = b * b + 2 * b + 1 := by ring
  omega

theorem digit_mul_le (a b : P.Digit) :
    a.toNat * b.toNat ≤ (2 ^ P.digitBits - 1) * (2 ^ P.digitBits - 1) := by
  exact Nat.mul_le_mul (by omega) (by omega)

/-- **Multiplication by a digit.** The sum of the two leftovers is itself a digit. -/
theorem multiplyAddLoop_spec (factor : P.Digit) : ∀ (ds : List P.Digit) (carry high : P.Digit),
    carry.toNat + high.toNat < 2 ^ P.digitBits →
      (multiplyAddLoop factor ds carry high).1.length = ds.length ∧
      (multiplyAddLoop factor ds carry high).2.1.toNat +
          (multiplyAddLoop factor ds carry high).2.2.toNat < 2 ^ P.digitBits ∧
      value (multiplyAddLoop factor ds carry high).1 + (2 ^ P.digitBits) ^ ds.length *
          ((multiplyAddLoop factor ds carry high).2.1.toNat +
            (multiplyAddLoop factor ds carry high).2.2.toNat) =
        value ds * factor.toNat + (carry.toNat + high.toNat)
  | [], carry, high, h => by simp [multiplyAddLoop, h]
  | d :: ds, carry, high, h => by
    have hB := P.base_ge
    have hm := digitMul_spec d factor
    set p := digitMul P d factor with hp
    have a1 := digitAdd_spec p.1 high 0 zero_add_one_lt
    have a2 := digitAdd_snd_le p.1 high 0 zero_add_one_lt
    set s1 := digitAdd p.1 high 0 with hs1
    rw [toNat_zero] at a1 a2
    have b1 := digitAdd_spec s1.1 carry s1.2 (by omega)
    set s2 := digitAdd s1.1 carry s1.2 with hs2
    have hsum : s2.1.toNat + 2 ^ P.digitBits * (s2.2.toNat + p.2.toNat) =
        (carry.toNat + high.toNat) + 0 + d.toNat * factor.toNat := by
      rw [Nat.mul_add]; omega
    have hlt : s2.2.toNat + p.2.toNat < 2 ^ P.digitBits :=
      carry_add_lt (digit_mul_le d factor) (by omega) hsum (by omega)
    obtain ⟨h1, h2, h3⟩ := multiplyAddLoop_spec factor ds s2.2 p.2 hlt
    simp only [multiplyAddLoop, length_cons, value_cons, ← hp, ← hs1, ← hs2]
    refine ⟨by omega, h2, ?_⟩
    rw [pow_succ', mul_assoc]
    have h4 := congrArg (2 ^ P.digitBits * ·) h3
    simp only [Nat.mul_add] at h4 hsum ⊢
    have h5 : (d.toNat + 2 ^ P.digitBits * value ds) * factor.toNat =
        d.toNat * factor.toNat + 2 ^ P.digitBits * (value ds * factor.toNat) := by ring
    omega

/-- **`internalMultiplyAdd` into a longer result**: the product fits, and the result is written
completely. -/
theorem internalMultiplyAdd_spec (source result : List P.Digit) (factor summand : P.Digit) {n : ℕ}
    (hn : n ≤ source.length) (hr : n < result.length) :
    (internalMultiplyAdd source factor summand n result).length = result.length ∧
      value (internalMultiplyAdd source factor summand n result) =
        value (source.take n) * factor.toNat + summand.toNat := by
  have hl : (source.take n).length = n := by rw [length_take]; omega
  obtain ⟨h1, h2, h3⟩ := multiplyAddLoop_spec factor (source.take n) summand 0 (by
    rw [toNat_zero]; simpa using summand.isLt)
  unfold internalMultiplyAdd
  set r := multiplyAddLoop factor (source.take n) summand 0
  have hlen : result.length =
      (r.1 ++ (r.2.1 + r.2.2) :: replicate (result.length - (n + 1)) 0).length := by
    simp only [length_append, length_cons, length_replicate]
    omega
  rw [if_pos hr, overwrite_all hlen]
  refine ⟨hlen.symm, ?_⟩
  rwa [value_append, value_cons, value_replicate_zero, h1, toNat_add, mod_eq_of_lt h2]

/-! ## Shifting -/

/-- The loop of `absoluteLeftShiftAlwaysCopy` for a nonzero shift. -/
def leftShiftLoop (shift : ℕ) : List P.Digit → P.Digit → List P.Digit × P.Digit
  | [], carry => ([], carry)
  | d :: ds, carry =>
    let rest := leftShiftLoop shift ds (d >>> (P.digitBits - shift))
    (((d <<< shift) ||| carry) :: rest.1, rest.2)

/-- The loop of `inplaceRightShift`: `carry` holds the bits left of the digit before. -/
def rightShiftLoop (shift : ℕ) : List P.Digit → P.Digit → List P.Digit
  | [], carry => [carry]
  | d :: ds, carry =>
    ((d <<< (P.digitBits - shift)) ||| carry) :: rightShiftLoop shift ds (d >>> shift)

/-- Shifts right in place; `shift` is below `digitBits`. -/
def inplaceRightShift (shift : ℕ) (u : List P.Digit) : List P.Digit :=
  if shift = 0 then u
  else
    match u with
    | [] => []
    | d :: ds => rightShiftLoop shift ds (d >>> shift)

/-- The bits that two neighbours contribute to a digit do not overlap. -/
theorem toNat_shiftLeft_or {d carry : P.Digit} {s : ℕ} (hs : s ≤ P.digitBits)
    (hc : carry.toNat < 2 ^ s) :
    ((d <<< s) ||| carry).toNat + 2 ^ P.digitBits * (d.toNat / 2 ^ (P.digitBits - s)) =
      d.toNat * 2 ^ s + carry.toNat := by
  have hp : 2 ^ P.digitBits = 2 ^ (P.digitBits - s) * 2 ^ s := by
    rw [← pow_add]; congr 1; omega
  have h1 : (d <<< s).toNat = (d.toNat % 2 ^ (P.digitBits - s)) <<< s := by
    rw [toNat_shiftLeft, Nat.shiftLeft_eq, Nat.shiftLeft_eq, hp, mul_mod_mul_right]
  rw [toNat_or, h1, ← shiftLeft_add_eq_or_of_lt hc, Nat.shiftLeft_eq, hp]
  calc d.toNat % 2 ^ (P.digitBits - s) * 2 ^ s + carry.toNat +
        2 ^ (P.digitBits - s) * 2 ^ s * (d.toNat / 2 ^ (P.digitBits - s))
      = (2 ^ (P.digitBits - s) * (d.toNat / 2 ^ (P.digitBits - s)) +
          d.toNat % 2 ^ (P.digitBits - s)) * 2 ^ s + carry.toNat := by ring
    _ = d.toNat * 2 ^ s + carry.toNat := by rw [div_add_mod]

theorem leftShiftLoop_spec {shift : ℕ} (hs : shift ≤ P.digitBits) :
    ∀ (ds : List P.Digit) (carry : P.Digit), carry.toNat < 2 ^ shift →
      (leftShiftLoop shift ds carry).1.length = ds.length ∧
      (leftShiftLoop shift ds carry).2.toNat < 2 ^ shift ∧ value (leftShiftLoop shift ds carry).1 +
          (2 ^ P.digitBits) ^ ds.length * (leftShiftLoop shift ds carry).2.toNat =
        value ds * 2 ^ shift + carry.toNat
  | [], carry, hc => by simp [leftShiftLoop, hc]
  | d :: ds, carry, hc => by
    have hd : (d >>> (P.digitBits - shift)).toNat = d.toNat / 2 ^ (P.digitBits - shift) := by
      rw [toNat_ushiftRight, shiftRight_eq_div_pow]
    have hc' : (d >>> (P.digitBits - shift)).toNat < 2 ^ shift := by
      rw [hd]
      refine Nat.div_lt_of_lt_mul ?_
      rw [← pow_add, Nat.sub_add_cancel hs]
      exact d.isLt
    obtain ⟨h1, h2, h3⟩ := leftShiftLoop_spec hs ds _ hc'
    have h4 := toNat_shiftLeft_or (d := d) hs hc
    simp only [leftShiftLoop, length_cons, value_cons]
    refine ⟨by omega, h2, ?_⟩
    rw [pow_succ', mul_assoc]
    have h5 := congrArg (2 ^ P.digitBits * ·) h3
    simp only [Nat.mul_add] at h5
    rw [hd] at h5
    have h6 : (d.toNat + 2 ^ P.digitBits * value ds) * 2 ^ shift =
        d.toNat * 2 ^ shift + 2 ^ P.digitBits * (value ds * 2 ^ shift) := by ring
    omega

/-- A digit moved to the right fits what it leaves of a digit. -/
theorem shiftRight_parts {shift : ℕ} (hs : shift ≤ P.digitBits) (d : P.Digit) :
    (d >>> shift).toNat = d.toNat / 2 ^ shift ∧
      2 ^ P.digitBits = 2 ^ shift * 2 ^ (P.digitBits - shift) ∧
      (d >>> shift).toNat < 2 ^ (P.digitBits - shift) := by
  have hd : (d >>> shift).toNat = d.toNat / 2 ^ shift := by
    rw [toNat_ushiftRight, shiftRight_eq_div_pow]
  have hp : 2 ^ P.digitBits = 2 ^ shift * 2 ^ (P.digitBits - shift) := by
    rw [← pow_add]; congr 1; omega
  refine ⟨hd, hp, ?_⟩
  rw [hd]
  exact Nat.div_lt_of_lt_mul (by rw [← hp]; exact d.isLt)

theorem rightShiftLoop_spec {shift : ℕ} (hs : shift ≤ P.digitBits) :
    ∀ (ds : List P.Digit) (carry : P.Digit), carry.toNat < 2 ^ (P.digitBits - shift) →
      (rightShiftLoop shift ds carry).length = ds.length + 1 ∧
      value (rightShiftLoop shift ds carry) = carry.toNat + 2 ^ (P.digitBits - shift) * value ds
  | [], carry, _ => by simp [rightShiftLoop]
  | d :: ds, carry, hc => by
    obtain ⟨hd, hp, hc'⟩ := shiftRight_parts hs d
    obtain ⟨h1, h2⟩ := rightShiftLoop_spec hs ds _ hc'
    have h3 := toNat_shiftLeft_or (d := d) (s := P.digitBits - shift) (by omega) hc
    rw [Nat.sub_sub_self hs] at h3
    simp only [rightShiftLoop, length_cons, value_cons]
    refine ⟨by omega, ?_⟩
    rw [h2, hd, Nat.mul_add, ← Nat.add_assoc, h3]
    ring

theorem inplaceRightShift_spec {shift : ℕ} (hs : shift < P.digitBits) (u : List P.Digit) :
    (inplaceRightShift shift u).length = u.length ∧
      value (inplaceRightShift shift u) = value u / 2 ^ shift := by
  unfold inplaceRightShift
  split_ifs with h0
  · simp [h0]
  · cases u with
    | nil => simp
    | cons d ds =>
      obtain ⟨hd, hp, hc⟩ := shiftRight_parts hs.le d
      obtain ⟨h1, h2⟩ := rightShiftLoop_spec hs.le ds _ hc
      simp only [value_cons]
      refine ⟨h1, ?_⟩
      rw [h2, hd, hp, mul_assoc, add_mul_div_left _ _ (by positivity)]

/-! ## Dividing by a digit -/

/-- The loop of `absoluteDivWithDigitDivisor`, from the most significant digit down: the quotient
digits and the remainder. -/
def divLoop (divisor : P.Digit) : List P.Digit → List P.Digit × P.Digit
  | [] => ([], 0)
  | d :: ds =>
    let above := divLoop divisor ds
    let (q, remainder) := digitDiv P above.2 d divisor
    (q :: above.1, remainder)

/-- **Division by a digit.** -/
theorem divLoop_spec {divisor : P.Digit} (hd : divisor ≠ 0) : ∀ ds : List P.Digit,
    (divLoop divisor ds).1.length = ds.length ∧
      value (divLoop divisor ds).1 = value ds / divisor.toNat ∧
      (divLoop divisor ds).2.toNat = value ds % divisor.toNat
  | [] => by simp [divLoop]
  | d :: ds => by
    obtain ⟨h1, h2, h3⟩ := divLoop_spec hd ds
    obtain ⟨q1, q2⟩ := digitDiv_spec (divLoop divisor ds).2 d divisor
      (by rw [h3]; exact mod_lt _ (toNat_pos_of_ne hd))
    have hval : d.toNat + 2 ^ P.digitBits * value ds =
        divisor.toNat * (2 ^ P.digitBits * (value ds / divisor.toNat)) +
          (value ds % divisor.toNat * 2 ^ P.digitBits + d.toNat) := by
      conv_lhs => rw [← div_add_mod (value ds) divisor.toNat]
      ring
    simp only [divLoop, length_cons, value_cons]
    refine ⟨by omega, ?_, ?_⟩
    · rw [q1, h2, h3, hval, mul_add_div (toNat_pos_of_ne hd), add_comm]
    · rw [q2, h3, hval, mul_add_mod]

end JscAndroid.BigInt.DigitLoops
