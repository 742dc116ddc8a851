import JscAndroid.BigInt.DigitLoops

/-!
# Multiplication

`multiplyImpl` adds `y * x_i` onto the accumulator, one digit of `x` at a time. The second loop of
`multiplyAccumulate`, which carries upward what is left over, has no bound of its own; it stays
inside the accumulator because the whole product does. The loops log their rounds, so that an index
beyond the accumulator would be seen.
-/

namespace JscAndroid.BigInt.Multiply

open Arith.Limbs DigitArith Heap DigitLoops List

variable {P : Platform}

/-- A round of one of the loops of `multiplyAccumulate`. -/
structure Round (P : Platform) where
  accumulatorIndex : ℕ
  carry : P.Digit
  high : P.Digit
  counters : List P.Digit

/-- The loop `while (carry || high)`, on the accumulator from `accumulatorIndex` on. -/
def carryLoop : ℕ → List P.Digit → P.Digit → P.Digit → List (Round P) × List P.Digit
  | accumulatorIndex, [], carry, high =>
    if carry = 0 ∧ high = 0 then ([], [])
    else ([⟨accumulatorIndex, carry, high, []⟩], [])
  | accumulatorIndex, acc :: accs, carry, high =>
    if carry = 0 ∧ high = 0 then ([], acc :: accs)
    else
      let s1 := digitAdd acc high 0
      let s2 := digitAdd s1.1 carry s1.2
      let rest := carryLoop (accumulatorIndex + 1) accs s2.2 0
      (⟨accumulatorIndex, carry, high, [0, s1.2]⟩ :: rest.1, s2.1 :: rest.2)

/-- The loop over the digits of the multiplicand, followed by `carryLoop`. -/
def multiplyAccumulateLoop (multiplier : P.Digit) :
    List P.Digit → ℕ → List P.Digit → P.Digit → P.Digit → List (Round P) × List P.Digit
  | [], accumulatorIndex, accs, carry, high => carryLoop accumulatorIndex accs carry high
  | _ :: _, accumulatorIndex, [], carry, high => ([⟨accumulatorIndex, carry, high, []⟩], [])
  | d :: ds, accumulatorIndex, acc :: accs, carry, high =>
    let s1 := digitAdd acc high 0
    let s2 := digitAdd s1.1 carry s1.2
    let p := digitMul P multiplier d
    let s3 := digitAdd s2.1 p.1 s2.2
    let rest := multiplyAccumulateLoop multiplier ds (accumulatorIndex + 1) accs s3.2 p.2
    (⟨accumulatorIndex, carry, high, [0, s1.2, s2.2]⟩ :: rest.1, s3.1 :: rest.2)

/-- Adds `multiplicand * multiplier` onto the accumulator, from `accumulatorIndex` on. -/
def multiplyAccumulate (multiplicand : List P.Digit) (multiplier : P.Digit)
    (accumulator : List P.Digit) (accumulatorIndex : ℕ) : List (Round P) × List P.Digit :=
  if multiplier = 0 then ([], accumulator)
  else
    let r := multiplyAccumulateLoop multiplier multiplicand accumulatorIndex
      (accumulator.drop accumulatorIndex) 0 0
    (r.1, accumulator.take accumulatorIndex ++ r.2)

/-- The loop of `multiplyImpl` over the digits of `x`, from digit `i` on. -/
def multiplyLoop (y : List P.Digit) :
    List P.Digit → ℕ → List P.Digit → List (Round P) × List P.Digit
  | [], _, result => ([], result)
  | d :: ds, i, result =>
    let r := multiplyAccumulate y d result i
    let rest := multiplyLoop y ds (i + 1) r.2
    (r.1 ++ rest.1, rest.2)

def multiplyImpl (x y : JSBigInt P) : Op P (JSBigInt P) := do
  if x.isZero then
    return x
  if y.isZero then
    return y
  let resultLength := x.length + y.length
  let result ← createWithLength resultLength
  -- `initialize(InitializationType::WithZero)`
  let result := result.setDigits 0 (List.replicate resultLength 0)
  let product := (multiplyLoop y.digits x.digits 0 result.digits).2
  let result := { result with digits := product }
  rightTrim (result.setSign (x.sign != y.sign))

def multiply (x y : JSBigInt P) : Op P (JSBigInt P) := multiplyImpl x y

/-- The rounds of all `multiplyAccumulate` calls that `multiply x y` makes. -/
def multiplyRounds (x y : JSBigInt P) : List (Round P) :=
  (multiplyLoop y.digits x.digits 0 (List.replicate (x.length + y.length) 0)).1

/-- **A sound round**: it stays in the `n` digits of the accumulator, the pending carry and high
word together are a digit, and no counter is about to wrap. -/
structure Round.Sound (n : ℕ) (r : Round P) : Prop where
  index : r.accumulatorIndex < n
  pending : r.carry.toNat + r.high.toNat < 2 ^ P.digitBits
  counter : ∀ c ∈ r.counters, c.toNat + 1 < 2 ^ P.digitBits

/-- `v` is stored in `len` digits, by rounds that are sound in `n` digits. -/
structure Stores (n len v : ℕ) (r : List (Round P) × List P.Digit) : Prop where
  length : r.2.length = len
  value : value r.2 = v
  sound : ∀ round ∈ r.1, round.Sound n

theorem Stores.cons {n len v : ℕ} {r : List (Round P) × List P.Digit} (h : Stores n len v r)
    {round : Round P} (hround : round.Sound n) {d : P.Digit} {w : ℕ}
    (hw : d.toNat + 2 ^ P.digitBits * v = w) :
    Stores n (len + 1) w (round :: r.1, d :: r.2) := by
  refine ⟨?_, ?_, fun a ha => ?_⟩
  · rw [length_cons, h.length]
  · rw [value_cons, h.value, hw]
  · rcases mem_cons.mp ha with rfl | ha
    · exact hround
    · exact h.sound a ha

theorem lt_of_digit_add {d v w len : ℕ} (hw : d + 2 ^ P.digitBits * v = w)
    (hfit : w < (2 ^ P.digitBits) ^ (len + 1)) : v < (2 ^ P.digitBits) ^ len := by
  rw [pow_succ', ← hw] at hfit
  exact Nat.lt_of_mul_lt_mul_left (lt_of_le_of_lt (Nat.le_add_left _ _) hfit)

/-! ## The loops -/

theorem carryLoop_spec : ∀ (accs : List P.Digit) (idx : ℕ) (carry high : P.Digit),
    carry.toNat + high.toNat < 2 ^ P.digitBits →
    value accs + (carry.toNat + high.toNat) < (2 ^ P.digitBits) ^ accs.length →
      Stores (idx + accs.length) accs.length (value accs + (carry.toNat + high.toNat))
        (carryLoop idx accs carry high)
  | [], idx, carry, high, _, hfit => by
    simp only [value_nil, length_nil, pow_zero] at hfit
    have h1 : carry = 0 := eq_zero_of_toNat (by omega)
    have h2 : high = 0 := eq_zero_of_toNat (by omega)
    constructor <;> simp [carryLoop, h1, h2]
  | acc :: accs, idx, carry, high, hp, hfit => by
    have hB := P.base_ge
    rw [carryLoop]
    split_ifs with hstop
    · constructor <;> simp [hstop.1, hstop.2]
    · have h0 := zero_add_one_lt (P := P)
      have a1 := digitAdd_spec acc high 0 h0
      have a2 := digitAdd_snd_le acc high 0 h0
      set s1 := digitAdd acc high 0
      rw [toNat_zero] at a1 a2
      have b1 := digitAdd_spec s1.1 carry s1.2 (by omega)
      set s2 := digitAdd s1.1 carry s1.2
      have hval : s2.1.toNat + 2 ^ P.digitBits * (value accs + s2.2.toNat) =
          value (acc :: accs) + (carry.toNat + high.toNat) := by
        rw [value_cons, mul_add]; omega
      have hrest := carryLoop_spec accs (idx + 1) s2.2 0 (by rw [toNat_zero]; omega)
        (lt_of_digit_add hval hfit)
      rw [add_right_comm] at hrest
      refine hrest.cons ⟨by simp, hp, fun c hc => ?_⟩ hval
      simp only [mem_cons, not_mem_nil, or_false] at hc
      rcases hc with rfl | rfl
      · exact h0
      · omega

/-- **The accumulating loop**: as long as the sum fits into the accumulator, it is stored exactly
and every round is sound. -/
theorem multiplyAccumulateLoop_spec (multiplier : P.Digit) :
    ∀ (ds : List P.Digit) (idx : ℕ) (accs : List P.Digit) (carry high : P.Digit),
    carry.toNat + high.toNat < 2 ^ P.digitBits → ds.length ≤ accs.length →
    value accs + value ds * multiplier.toNat + (carry.toNat + high.toNat) <
      (2 ^ P.digitBits) ^ accs.length →
      Stores (idx + accs.length) accs.length
        (value accs + value ds * multiplier.toNat + (carry.toNat + high.toNat))
        (multiplyAccumulateLoop multiplier ds idx accs carry high)
  | [], idx, accs, carry, high, hp, _, hfit => by
    simp only [value_nil, Nat.zero_mul, Nat.add_zero] at hfit ⊢
    exact carryLoop_spec accs idx carry high hp hfit
  | d :: ds, idx, [], carry, high, _, hl, _ => by simp at hl
  | d :: ds, idx, acc :: accs, carry, high, hp, hl, hfit => by
    have hB := P.base_ge
    have h0 := zero_add_one_lt (P := P)
    have a1 := digitAdd_spec acc high 0 h0
    have a2 := digitAdd_snd_le acc high 0 h0
    have hm := digitMul_spec multiplier d
    rw [multiplyAccumulateLoop]
    set s1 := digitAdd acc high 0
    rw [toNat_zero] at a1 a2
    have b1 := digitAdd_spec s1.1 carry s1.2 (by omega)
    have b2 := digitAdd_snd_le s1.1 carry s1.2 (by omega)
    set s2 := digitAdd s1.1 carry s1.2
    set p := digitMul P multiplier d
    have c1 := digitAdd_spec s2.1 p.1 s2.2 (by omega)
    set s3 := digitAdd s2.1 p.1 s2.2
    have hsum : s3.1.toNat + 2 ^ P.digitBits * (s3.2.toNat + p.2.toNat) =
        acc.toNat + (carry.toNat + high.toNat) + multiplier.toNat * d.toNat := by
      rw [mul_add]; omega
    have hlt : s3.2.toNat + p.2.toNat < 2 ^ P.digitBits :=
      carry_add_lt (digit_mul_le multiplier d) (by omega) hsum (by omega)
    have hval : s3.1.toNat + 2 ^ P.digitBits *
          (value accs + value ds * multiplier.toNat + (s3.2.toNat + p.2.toNat)) =
        value (acc :: accs) + value (d :: ds) * multiplier.toNat +
          (carry.toNat + high.toNat) := by
      have h4 : (d.toNat + 2 ^ P.digitBits * value ds) * multiplier.toNat =
          multiplier.toNat * d.toNat + 2 ^ P.digitBits * (value ds * multiplier.toNat) := by ring
      rw [value_cons, value_cons, mul_add, mul_add]
      omega
    have hrest := multiplyAccumulateLoop_spec multiplier ds (idx + 1) accs s3.2 p.2 hlt
      (by simpa using hl) (lt_of_digit_add hval hfit)
    rw [add_right_comm] at hrest
    refine hrest.cons ⟨by simp, hp, fun c hc => ?_⟩ hval
    simp only [mem_cons, not_mem_nil, or_false] at hc
    rcases hc with rfl | rfl | rfl
    · exact h0
    · omega
    · omega

/-- **One digit of the multiplier**: the accumulator grows by `multiplicand * multiplier`, at the
weight of `idx`. -/
theorem multiplyAccumulate_spec (multiplicand : List P.Digit) (multiplier : P.Digit)
    (accumulator : List P.Digit) (idx : ℕ) (hl : multiplicand.length + idx < accumulator.length)
    (hfit : value accumulator < (2 ^ P.digitBits) ^ (multiplicand.length + idx)) :
    Stores accumulator.length accumulator.length
      (value accumulator + (2 ^ P.digitBits) ^ idx * (value multiplicand * multiplier.toNat))
      (multiplyAccumulate multiplicand multiplier accumulator idx) := by
  unfold multiplyAccumulate
  split_ifs with h0
  · constructor <;> simp [h0]
  · have hB : 0 < 2 ^ P.digitBits := by positivity
    have hdrop : (accumulator.drop idx).length = accumulator.length - idx := length_drop
    -- the part of the accumulator from `idx` on, plus the new product, fits into one digit more
    -- than the multiplicand has
    have hlow : value (accumulator.drop idx) < (2 ^ P.digitBits) ^ multiplicand.length := by
      rw [value_drop _ (by omega)]
      refine Nat.div_lt_of_lt_mul ?_
      rwa [← pow_add, add_comm]
    have hy := value_lt multiplicand
    have hm := multiplier.isLt
    have hsum : value (accumulator.drop idx) + value multiplicand * multiplier.toNat <
        (2 ^ P.digitBits) ^ (multiplicand.length + 1) := by
      have h3 : multiplier.toNat * ((2 ^ P.digitBits) ^ multiplicand.length) +
          (2 ^ P.digitBits) ^ multiplicand.length ≤
          (2 ^ P.digitBits) ^ (multiplicand.length + 1) := by
        rw [pow_succ', ← Nat.succ_mul]
        exact Nat.mul_le_mul_right _ hm
      have h4 : value multiplicand * multiplier.toNat ≤
          multiplier.toNat * ((2 ^ P.digitBits) ^ multiplicand.length) := by
        rw [mul_comm]; exact Nat.mul_le_mul_left _ hy.le
      omega
    obtain ⟨h1, h2, h3⟩ := multiplyAccumulateLoop_spec multiplier multiplicand idx
      (accumulator.drop idx) 0 0 (by rw [toNat_zero]; omega) (by omega) (by
        exact lt_of_lt_of_le hsum (Nat.pow_le_pow_right hB (by omega)))
    refine ⟨?_, ?_, ?_⟩
    · rw [length_append, length_take]; omega
    · rw [value_append, h2, length_take, min_eq_left (by omega), toNat_zero,
        value_take_add_drop accumulator (show idx ≤ accumulator.length by omega)]
      ring
    · intro r hr
      have := h3 r hr
      rwa [hdrop, Nat.add_sub_cancel' (by omega)] at this

/-- **The product loop**, from digit `i` of `x` on. -/
theorem multiplyLoop_spec (y : List P.Digit) : ∀ (ds : List P.Digit) (i : ℕ)
    (result : List P.Digit), result.length = i + ds.length + y.length →
    value result < (2 ^ P.digitBits) ^ (y.length + i) →
      Stores result.length result.length
        (value result + (2 ^ P.digitBits) ^ i * (value ds * value y)) (multiplyLoop y ds i result)
  | [], i, result, _, _ => by constructor <;> simp [multiplyLoop]
  | d :: ds, i, result, hl, hfit => by
    simp only [length_cons] at hl
    obtain ⟨h1, h2, h3⟩ := multiplyAccumulate_spec y d result i (by omega) hfit
    have hd := d.isLt
    have hy := value_lt y
    have hfit' : value (multiplyAccumulate y d result i).2 <
        (2 ^ P.digitBits) ^ (y.length + (i + 1)) := by
      have e1 : (2 ^ P.digitBits) ^ (y.length + (i + 1)) =
          (2 ^ P.digitBits) ^ i * ((2 ^ P.digitBits) ^ y.length * 2 ^ P.digitBits) := by
        rw [pow_add]; ring
      have e2 : (2 ^ P.digitBits) ^ (y.length + i) =
          (2 ^ P.digitBits) ^ i * (2 ^ P.digitBits) ^ y.length := by rw [pow_add]; ring
      have e3 : value y * d.toNat + (2 ^ P.digitBits) ^ y.length ≤
          (2 ^ P.digitBits) ^ y.length * 2 ^ P.digitBits := by
        calc value y * d.toNat + (2 ^ P.digitBits) ^ y.length
            ≤ (2 ^ P.digitBits) ^ y.length * d.toNat + (2 ^ P.digitBits) ^ y.length := by
              have := Nat.mul_le_mul_right d.toNat hy.le
              omega
          _ = (2 ^ P.digitBits) ^ y.length * (d.toNat + 1) := by ring
          _ ≤ (2 ^ P.digitBits) ^ y.length * 2 ^ P.digitBits := Nat.mul_le_mul_left _ hd
      have e4 := Nat.mul_le_mul_left ((2 ^ P.digitBits) ^ i) e3
      rw [mul_add] at e4
      omega
    obtain ⟨k1, k2, k3⟩ := multiplyLoop_spec y ds (i + 1) (multiplyAccumulate y d result i).2
      (by omega) hfit'
    simp only [multiplyLoop]
    refine ⟨k1.trans h1, ?_, ?_⟩
    · rw [k2, h2, value_cons]
      ring
    · intro r hr
      rcases mem_append.mp hr with hr | hr
      · exact h3 r hr
      · have := k3 r hr
        rwa [h1] at this

theorem multiplyLoop_zero_spec (x y : List P.Digit) :
    Stores (x.length + y.length) (x.length + y.length) (value x * value y)
      (multiplyLoop y x 0 (List.replicate (x.length + y.length) 0)) := by
  obtain ⟨h1, h2, h3⟩ := multiplyLoop_spec y x 0 (replicate (x.length + y.length) 0)
    (by simp) (by rw [value_replicate_zero]; positivity)
  rw [length_replicate] at h1 h3
  refine ⟨h1, ?_, h3⟩
  rw [h2, value_replicate_zero]
  simp

/-! ## The operation -/

theorem toInt_mul_sign (x y r : JSBigInt P) (hs : r.sign = (x.sign != y.sign))
    (hv : value r.digits = value x.digits * value y.digits) : r.toInt = x.toInt * y.toInt := by
  unfold JSBigInt.toInt
  rw [hs, hv]
  cases x.sign <;> cases y.sign <;> simp

theorem multiplyImpl_returns {x y : JSBigInt P} (hx : x.Normalized) (hy : y.Normalized) :
    Returns (x.length + y.length ≤ maxLength P) (multiplyImpl x y)
      (Denotes (x.toInt * y.toInt)) := by
  unfold multiplyImpl
  split_ifs with h1 h2
  · have := hx.toInt_eq_zero_iff.mpr (JSBigInt.isZero_iff.mp h1)
    exact .pure ⟨hx, by rw [this]; simp⟩
  · have := hy.toInt_eq_zero_iff.mpr (JSBigInt.isZero_iff.mp h2)
    exact .pure ⟨hy, by rw [this]; simp⟩
  · refine (createWithLength_returns _).bind ?_
    rintro c ⟨hlen, -⟩
    rw [setDigits_all (by simpa using hlen)]
    obtain ⟨k1, k2, -⟩ := multiplyLoop_zero_spec x.digits y.digits
    refine (rightTrim_returns fun h0 => absurd (JSBigInt.isZero_iff.mpr ?_) h1).mono
      (fun h => k1.trans_le h) fun r hr => ⟨hr.1, hr.2.trans (toInt_mul_sign x y _ rfl k2)⟩
    have : x.digits.length + y.digits.length = 0 := by
      rw [← k1]
      exact congrArg length h0
    exact eq_nil_of_length_eq_zero (by omega)

/-- **Multiplication is exact and stays inside its buffer.** For normalized operands whose lengths
sum to at most `maxLength`, the product is returned unless an allocation fails, it is normalized,
and every round of every `multiplyAccumulate` call is sound. -/
theorem multiply_exact (x y : JSBigInt P) (hx : x.Normalized) (hy : y.Normalized)
    (hlen : x.length + y.length ≤ maxLength P) (vm : VM P) :
    (VM.Unlimited vm → ∃ r vm', multiply x y vm = .ok (r, vm')) ∧
      (∀ r vm', multiply x y vm = .ok (r, vm') → r.Normalized ∧ r.toInt = x.toInt * y.toInt) ∧
      ∀ r ∈ multiplyRounds x y, r.Sound (x.length + y.length) := by
  refine ⟨fun hvm => ?_, fun r vm' h => (multiplyImpl_returns hx hy).ok h,
    (multiplyLoop_zero_spec x.digits y.digits).sound⟩
  obtain ⟨r, vm', hr, -⟩ := (multiplyImpl_returns hx hy).unlimited hlen hvm
  exact ⟨r, vm', hr⟩

/-- `-(2^64 - 1) * (2^65 - 1)` on a 64-bit platform. -/
theorem multiply_exact_two_digits :
    ∃ r vm', multiply (P := Platform.arm64) ⟨true, [-1]⟩ ⟨false, [-1, 1]⟩ VM.zeroed =
      .ok (r, vm') ∧ r.toInt = -((2 ^ 64 - 1) * (2 ^ 65 - 1)) := by
  obtain ⟨h1, h2, -⟩ := multiply_exact (P := Platform.arm64) ⟨true, [-1]⟩ ⟨false, [-1, 1]⟩
    (by decide) (by decide) (by decide) VM.zeroed
  obtain ⟨r, vm', hr⟩ := h1 VM.zeroed_unlimited
  exact ⟨r, vm', hr, (h2 r vm' hr).2.trans (by decide)⟩

end JscAndroid.BigInt.Multiply
