import JscAndroid.Arith.QuotientEstimate

/-!
# Digits of a BigInt

A `Digit` is one machine register, 32 or 64 bits wide, and all arithmetic on it wraps around. The
helpers of `JSBigInt` work on single digits and report what did not fit. Each has one specification,
which holds on every platform:

* `digitAdd_spec`, `digitSub_spec`: nothing is lost as long as the counter itself does not wrap;
* `digitMul_spec`: `low + B * high` is the product;
* `digitDiv_spec`: quotient and remainder of `high * B + low` by a divisor above `high`;
* `digitDiv_portable`: without the x86 instruction, two correction rounds are enough.
-/

namespace JscAndroid.BigInt.DigitArith

open Arith.QuotientEstimate
open BitVec hiding two_mul

/-- What the digit arithmetic depends on: the width of `UCPURegister`, `HAVE(TWO_DIGIT)`, and
whether `digitDiv` is the x86 `div` instruction. -/
structure Platform where
  digitBits : ℕ
  twoDigit : Bool
  x86 : Bool
  digitBits_eq : digitBits = 32 ∨ digitBits = 64

namespace Platform

/-- The `arm64-v8a` build; its compiler has a type of 128 bits. -/
def arm64 : Platform := ⟨64, true, false, Or.inr rfl⟩

/-- One machine register. -/
abbrev Digit (P : Platform) : Type := BitVec P.digitBits

/-- Half the bits of a digit. -/
def halfDigitBits (P : Platform) : ℕ := P.digitBits / 2

/-- The low half of a digit, all ones. -/
def halfDigitMask (P : Platform) : P.Digit :=
  ((1 : P.Digit) <<< P.halfDigitBits) - 1

theorem digitBits_ge (P : Platform) : 32 ≤ P.digitBits := by
  rcases P.digitBits_eq with h | h <;> omega

theorem digitBits_eq_half (P : Platform) : P.digitBits = P.halfDigitBits + P.halfDigitBits := by
  unfold halfDigitBits
  rcases P.digitBits_eq with h | h <;> omega

theorem base_eq (P : Platform) : 2 ^ P.digitBits = 2 ^ P.halfDigitBits * 2 ^ P.halfDigitBits := by
  conv_lhs => rw [P.digitBits_eq_half]
  rw [pow_add]

theorem base_ge (P : Platform) : 2 ^ 32 ≤ 2 ^ P.digitBits :=
  Nat.pow_le_pow_right (by norm_num) P.digitBits_ge

theorem one_lt_base (P : Platform) : 1 < 2 ^ P.digitBits := by
  have := P.base_ge
  omega

theorem digitBits_pos (P : Platform) : 0 < P.digitBits := by
  have := P.digitBits_ge
  omega

theorem digitBits_le (P : Platform) : P.digitBits ≤ 64 := by
  rcases P.digitBits_eq with h | h <;> omega

end Platform

theorem toNat_one {P : Platform} : (1 : P.Digit).toNat = 1 := by
  exact Nat.mod_eq_of_lt P.one_lt_base

theorem toNat_sub_one {P : Platform} {d : P.Digit} (h : 0 < d.toNat) :
    (d - 1).toNat = d.toNat - 1 := by
  rw [toNat_sub_of_le (by rw [le_def, toNat_one]; omega), toNat_one]

/-! ## Addition and subtraction -/

section
variable {w : ℕ}

/-- The sum, and the counter `carry`, incremented if the sum wrapped around. -/
def digitAdd (a b carry : BitVec w) : BitVec w × BitVec w :=
  let result := a + b
  (result, carry + if result < a then 1 else 0)

/-- The difference, and the counter `borrow`, incremented if the difference wrapped around. -/
def digitSub (a b borrow : BitVec w) : BitVec w × BitVec w :=
  let result := a - b
  (result, borrow + if result > a then 1 else 0)

theorem toNat_add_ite {c : BitVec w} (hc : c.toNat + 1 < 2 ^ w) (p : Prop) [Decidable p] :
    (c + if p then 1 else 0 : BitVec w).toNat = c.toNat + if p then 1 else 0 := by
  have h1 : (1 : BitVec w).toNat = 1 := by
    simp only [ofNat_eq_ofNat]
    exact Nat.mod_eq_of_lt (by omega)
  split_ifs
  · rw [toNat_add, h1, Nat.mod_eq_of_lt hc]
  · simp

theorem add_lt_left_iff (a b : BitVec w) : a + b < a ↔ 2 ^ w ≤ a.toNat + b.toNat := by
  rw [lt_def, toNat_add]
  rcases lt_or_ge (a.toNat + b.toNat) (2 ^ w) with h | h
  · rw [Nat.mod_eq_of_lt h]
    omega
  · rw [Nat.mod_eq_sub_mod h, Nat.mod_eq_of_lt (by omega)]
    omega

/-- **Addition loses nothing**: what does not fit into the digit is in the counter. -/
theorem digitAdd_spec (a b carry : BitVec w) (hc : carry.toNat + 1 < 2 ^ w) :
    (digitAdd a b carry).1.toNat + 2 ^ w * (digitAdd a b carry).2.toNat =
      a.toNat + b.toNat + 2 ^ w * carry.toNat := by
  simp only [digitAdd]
  rw [toNat_add_ite hc]
  simp only [lt_def, toNat_add]
  rcases lt_or_ge (a.toNat + b.toNat) (2 ^ w) with h | h
  · rw [Nat.mod_eq_of_lt h, if_neg (by omega)]; ring
  · have hm : (a.toNat + b.toNat) % 2 ^ w = a.toNat + b.toNat - 2 ^ w := by
      rw [Nat.mod_eq_sub_mod h, Nat.mod_eq_of_lt (by omega)]
    rw [if_pos (by omega), Nat.mul_add]
    omega

theorem digitAdd_snd_le (a b carry : BitVec w) (hc : carry.toNat + 1 < 2 ^ w) :
    (digitAdd a b carry).2.toNat ≤ carry.toNat + 1 := by
  simp only [digitAdd]
  rw [toNat_add_ite hc]
  split_ifs <;> omega

/-- **Subtraction loses nothing**: what was borrowed is in the counter. -/
theorem digitSub_spec (a b borrow : BitVec w) (hc : borrow.toNat + 1 < 2 ^ w) :
    (digitSub a b borrow).1.toNat + b.toNat + 2 ^ w * borrow.toNat =
      a.toNat + 2 ^ w * (digitSub a b borrow).2.toNat := by
  simp only [digitSub]
  rw [toNat_add_ite hc]
  simp only [lt_def, toNat_sub]
  rcases lt_or_ge a.toNat b.toNat with h | h
  · rw [Nat.mod_eq_of_lt (by omega), if_pos (by omega), Nat.mul_add]
    omega
  · have hm : (2 ^ w - b.toNat + a.toNat) % 2 ^ w = a.toNat - b.toNat := by
      rw [Nat.mod_eq_sub_mod (by omega), Nat.mod_eq_of_lt (by omega)]
      omega
    rw [if_neg (by omega), add_zero]
    omega

theorem digitSub_snd_le (a b borrow : BitVec w) (hc : borrow.toNat + 1 < 2 ^ w) :
    (digitSub a b borrow).2.toNat ≤ borrow.toNat + 1 := by
  simp only [digitSub]
  rw [toNat_add_ite hc]
  split_ifs <;> omega
end

/-! ## Multiplication -/

section
variable (P : Platform)

/-- The low and the high half of the product. Without a type of two digits the product is put
together from four products of half digits. -/
def digitMul (a b : P.Digit) : P.Digit × P.Digit :=
  if P.twoDigit then
    let result : BitVec (2 * P.digitBits) := a.setWidth _ * b.setWidth _
    (result.setWidth _, (result >>> P.digitBits).setWidth _)
  else
    let aLow := a &&& P.halfDigitMask
    let aHigh := a >>> P.halfDigitBits
    let bLow := b &&& P.halfDigitMask
    let bHigh := b >>> P.halfDigitBits
    let rLow := aLow * bLow
    let rMid1 := aLow * bHigh
    let rMid2 := aHigh * bLow
    let rHigh := aHigh * bHigh
    let (low, carry) := digitAdd rLow (rMid1 <<< P.halfDigitBits) 0
    let (low, carry) := digitAdd low (rMid2 <<< P.halfDigitBits) carry
    let high := (rMid1 >>> P.halfDigitBits) + (rMid2 >>> P.halfDigitBits) + rHigh + carry
    (low, high)

variable {P}

theorem two_pow_halfDigitBits_lt : 2 ^ P.halfDigitBits < 2 ^ P.digitBits := by
  have h1 := P.digitBits_eq_half
  have h2 := P.digitBits_ge
  exact Nat.pow_lt_pow_right (by norm_num) (by omega)

theorem toNat_halfDigitMask : P.halfDigitMask.toNat = 2 ^ P.halfDigitBits - 1 := by
  have h2 := two_pow_halfDigitBits_lt (P := P)
  have h3 : 0 < 2 ^ P.halfDigitBits := by positivity
  have h4 := P.one_lt_base
  simp only [Platform.halfDigitMask, toNat_sub, toNat_shiftLeft,
    ofNat_eq_ofNat, toNat_ofNat, Nat.mod_eq_of_lt h4, Nat.shiftLeft_eq, one_mul,
    Nat.mod_eq_of_lt h2]
  rw [Nat.mod_eq_sub_mod (by omega), Nat.mod_eq_of_lt (by omega)]
  omega

theorem toNat_low (a : P.Digit) :
    (a &&& P.halfDigitMask).toNat = a.toNat % 2 ^ P.halfDigitBits := by
  rw [toNat_and, toNat_halfDigitMask, Nat.and_two_pow_sub_one_eq_mod]

theorem toNat_high (a : P.Digit) :
    (a >>> P.halfDigitBits).toNat = a.toNat / 2 ^ P.halfDigitBits := by
  rw [toNat_ushiftRight, Nat.shiftRight_eq_div_pow]

theorem high_lt (a : P.Digit) : a.toNat / 2 ^ P.halfDigitBits < 2 ^ P.halfDigitBits := by
  have h := a.isLt
  rw [P.base_eq] at h
  exact Nat.div_lt_of_lt_mul h

theorem toNat_mul_half {a b : P.Digit} (ha : a.toNat < 2 ^ P.halfDigitBits)
    (hb : b.toNat < 2 ^ P.halfDigitBits) : (a * b).toNat = a.toNat * b.toNat := by
  rw [toNat_mul, Nat.mod_eq_of_lt]
  rw [P.base_eq]
  exact Nat.mul_lt_mul'' ha hb

theorem toNat_shiftLeft_half (a : P.Digit) : (a <<< P.halfDigitBits).toNat =
    2 ^ P.halfDigitBits * (a.toNat % 2 ^ P.halfDigitBits) := by
  rw [toNat_shiftLeft, Nat.shiftLeft_eq, P.base_eq, mul_comm, Nat.mul_mod_mul_left]

/-- The columns of the half-digit product: `l`, `m1`, `m2`, `t` are the four products, `c` is the
number of carries out of the low digit. -/
theorem columns_add (h l m1 m2 t low c : ℕ)
    (hlow : low + h * h * c = l + h * (m1 % h) + h * (m2 % h)) :
    low + h * h * (m1 / h + m2 / h + t + c) = l + h * m1 + h * m2 + h * h * t := by
  have h1 := Nat.div_add_mod m1 h
  have h2 := Nat.div_add_mod m2 h
  calc low + h * h * (m1 / h + m2 / h + t + c)
      = (low + h * h * c) + h * (h * (m1 / h)) + h * (h * (m2 / h)) + h * h * t := by ring
    _ = l + h * (h * (m1 / h) + m1 % h) + h * (h * (m2 / h) + m2 % h) + h * h * t := by
        rw [hlow]; ring
    _ = l + h * m1 + h * m2 + h * h * t := by rw [h1, h2]

/-- Adding up the four products: the middle ones are split over the two digits of the result. -/
theorem addColumns_spec (rLow rMid1 rMid2 rHigh : P.Digit)
    (hlt : rLow.toNat + 2 ^ P.halfDigitBits * rMid1.toNat + 2 ^ P.halfDigitBits * rMid2.toNat +
      2 ^ P.digitBits * rHigh.toNat < 2 ^ P.digitBits * 2 ^ P.digitBits) :
    let r1 := digitAdd rLow (rMid1 <<< P.halfDigitBits) 0
    let r2 := digitAdd r1.1 (rMid2 <<< P.halfDigitBits) r1.2
    r2.1.toNat + 2 ^ P.digitBits *
        ((rMid1 >>> P.halfDigitBits) + (rMid2 >>> P.halfDigitBits) + rHigh + r2.2).toNat =
      rLow.toNat + 2 ^ P.halfDigitBits * rMid1.toNat + 2 ^ P.halfDigitBits * rMid2.toNat +
        2 ^ P.digitBits * rHigh.toNat := by
  intro r1 r2
  have hbase := P.base_ge
  have z0 : (0 : P.Digit).toNat = 0 := by simp
  have s1 : r1.1.toNat + 2 ^ P.digitBits * r1.2.toNat = _ :=
    digitAdd_spec rLow (rMid1 <<< P.halfDigitBits) 0 (by rw [z0]; omega)
  have c1 : r1.2.toNat ≤ _ := digitAdd_snd_le rLow (rMid1 <<< P.halfDigitBits) 0 (by rw [z0]; omega)
  have s2 : r2.1.toNat + 2 ^ P.digitBits * r2.2.toNat = _ :=
    digitAdd_spec r1.1 (rMid2 <<< P.halfDigitBits) r1.2 (by omega)
  rw [toNat_shiftLeft_half, z0] at s1
  rw [toNat_shiftLeft_half] at s2
  rw [P.base_eq] at s1 s2 hlt ⊢
  have hcol := columns_add (2 ^ P.halfDigitBits) rLow.toNat rMid1.toNat rMid2.toNat rHigh.toNat
    r2.1.toNat r2.2.toNat (by omega)
  rw [← hcol] at hlt ⊢
  have hsum : rMid1.toNat / 2 ^ P.halfDigitBits + rMid2.toNat / 2 ^ P.halfDigitBits +
      rHigh.toNat + r2.2.toNat < 2 ^ P.digitBits := by
    rw [P.base_eq]
    exact Nat.lt_of_mul_lt_mul_left (lt_of_le_of_lt (Nat.le_add_left _ _) hlt)
  rw [toNat_add, toNat_add, toNat_add, toNat_high, toNat_high,
    Nat.mod_add_mod, add_assoc _ rHigh.toNat, Nat.mod_add_mod, ← add_assoc,
    Nat.mod_eq_of_lt hsum]

/-- **The product of two digits**, on every platform. -/
theorem digitMul_spec (a b : P.Digit) :
    (digitMul P a b).1.toNat + 2 ^ P.digitBits * (digitMul P a b).2.toNat = a.toNat * b.toNat := by
  have ha := a.isLt
  have hb := b.isLt
  have hab : a.toNat * b.toNat < 2 ^ P.digitBits * 2 ^ P.digitBits := Nat.mul_lt_mul'' ha hb
  unfold digitMul
  split_ifs with htwo
  · have hw : P.digitBits ≤ 2 * P.digitBits := by omega
    have hpow : (2 : ℕ) ^ (2 * P.digitBits) = 2 ^ P.digitBits * 2 ^ P.digitBits := by
      rw [two_mul, pow_add]
    simp only [toNat_setWidth, toNat_ushiftRight, toNat_mul,
      Nat.shiftRight_eq_div_pow]
    rw [Nat.mod_eq_of_lt (lt_of_lt_of_le ha (Nat.pow_le_pow_right (by norm_num) hw)),
      Nat.mod_eq_of_lt (lt_of_lt_of_le hb (Nat.pow_le_pow_right (by norm_num) hw)), hpow,
      Nat.mod_eq_of_lt hab, Nat.mod_eq_of_lt (Nat.div_lt_of_lt_mul hab)]
    exact Nat.mod_add_div _ _
  · have hal : (a &&& P.halfDigitMask).toNat < 2 ^ P.halfDigitBits := by
      rw [toNat_low]; exact Nat.mod_lt _ (by positivity)
    have hbl : (b &&& P.halfDigitMask).toNat < 2 ^ P.halfDigitBits := by
      rw [toNat_low]; exact Nat.mod_lt _ (by positivity)
    have hah : (a >>> P.halfDigitBits).toNat < 2 ^ P.halfDigitBits := by
      rw [toNat_high]; exact high_lt a
    have hbh : (b >>> P.halfDigitBits).toNat < 2 ^ P.halfDigitBits := by
      rw [toNat_high]; exact high_lt b
    have hprod : ((a &&& P.halfDigitMask) * (b &&& P.halfDigitMask)).toNat +
        2 ^ P.halfDigitBits * ((a &&& P.halfDigitMask) * (b >>> P.halfDigitBits)).toNat +
        2 ^ P.halfDigitBits * ((a >>> P.halfDigitBits) * (b &&& P.halfDigitMask)).toNat +
        2 ^ P.digitBits * ((a >>> P.halfDigitBits) * (b >>> P.halfDigitBits)).toNat =
        a.toNat * b.toNat := by
      rw [toNat_mul_half hal hbl, toNat_mul_half hal hbh, toNat_mul_half hah hbl,
        toNat_mul_half hah hbh, toNat_low, toNat_low, toNat_high, toNat_high, P.base_eq]
      conv_rhs => rw [← Nat.mod_add_div a.toNat (2 ^ P.halfDigitBits),
        ← Nat.mod_add_div b.toNat (2 ^ P.halfDigitBits)]
      ring
    rw [← hprod] at hab ⊢
    exact addColumns_spec _ _ _ _ hab
end

/-! ## Division -/

section
variable (P : Platform)

/-- The number of leading zero bits. -/
def clz {w : ℕ} (d : BitVec w) : ℕ := d.clz.toNat

/-- `1ull << halfDigitBits`. -/
def halfDigitBase : P.Digit := (1 : P.Digit) <<< P.halfDigitBits

/-- The loop that corrects an estimated half digit `q` of the quotient. It ends at `q = 0` at the
latest, so `q` rounds are enough. -/
def correctHalfDigit (vn1 vn0 un : P.Digit) : ℕ → P.Digit → P.Digit → P.Digit
  | 0, q, _ => q
  | fuel + 1, q, rhat =>
    if q ≥ halfDigitBase P ∨ q * vn0 > rhat * halfDigitBase P + un then
      let q := q - 1
      let rhat := rhat + vn1
      if rhat ≥ halfDigitBase P then q else correctHalfDigit vn1 vn0 un fuel q rhat
    else q

/-- One half digit of the quotient: the estimate from the leading half digits, corrected. -/
def quotientHalfDigit (vn1 vn0 u un : P.Digit) : P.Digit :=
  let q := u / vn1
  let rhat := u - q * vn1
  correctHalfDigit P vn1 vn0 un q.toNat q rhat

/-- Quotient and remainder of the two digits `high`, `low` by `divisor`. -/
def digitDiv (high low divisor : P.Digit) : P.Digit × P.Digit :=
  if P.x86 then
    -- `div`: the two-digit dividend is in the register pair (high, low)
    let dividend := high.toNat * 2 ^ P.digitBits + low.toNat
    (BitVec.ofNat _ (dividend / divisor.toNat), BitVec.ofNat _ (dividend % divisor.toNat))
  else
    let s := clz divisor
    let divisor := divisor <<< s
    let vn1 := divisor >>> P.halfDigitBits
    let vn0 := divisor &&& P.halfDigitMask
    -- all ones unless `s` is 0, where the shift below must not be used
    let sZeroMask : P.Digit := (-(BitVec.ofNat _ s)).sshiftRight (P.digitBits - 1)
    let shiftMask := P.digitBits - 1
    let un32 := (high <<< s) ||| ((low >>> ((P.digitBits - s) &&& shiftMask)) &&& sZeroMask)
    let un10 := low <<< s
    let un1 := un10 >>> P.halfDigitBits
    let un0 := un10 &&& P.halfDigitMask
    let q1 := quotientHalfDigit P vn1 vn0 un32 un1
    let un21 := un32 * halfDigitBase P + un1 - q1 * divisor
    let q0 := quotientHalfDigit P vn1 vn0 un21 un0
    let remainder := (un21 * halfDigitBase P + un0 - q0 * divisor) >>> s
    (q1 * halfDigitBase P + q0, remainder)

variable {P}

theorem toNat_halfDigitBase : (halfDigitBase P).toNat = 2 ^ P.halfDigitBits := by
  have h2 := two_pow_halfDigitBits_lt (P := P)
  have h4 := P.one_lt_base
  simp only [halfDigitBase, toNat_shiftLeft, ofNat_eq_ofNat, toNat_ofNat,
    Nat.mod_eq_of_lt h4, Nat.shiftLeft_eq, one_mul, Nat.mod_eq_of_lt h2]

theorem toNat_mul_add {a b c : P.Digit} (h : a.toNat * b.toNat + c.toNat < 2 ^ P.digitBits) :
    (a * b + c).toNat = a.toNat * b.toNat + c.toNat := by
  rw [toNat_add, toNat_mul, Nat.mod_add_mod, Nat.mod_eq_of_lt h]

theorem toNat_mul_add_sub_mul {a b c q d : P.Digit} {r : ℕ} (hr : r < 2 ^ P.digitBits)
    (h : a.toNat * b.toNat + c.toNat = q.toNat * d.toNat + r) : (a * b + c - q * d).toNat = r := by
  have h1 : a * b + c = BitVec.ofNat _ r + q * d := by
    apply eq_of_toNat_eq
    rw [toNat_add, toNat_mul, Nat.mod_add_mod, h, toNat_add,
      toNat_ofNat, toNat_mul, Nat.mod_add_mod, Nat.add_mod_mod, add_comm]
  rw [h1, add_sub_cancel, toNat_ofNat, Nat.mod_eq_of_lt hr]

/-- One of the two half-digit divisions of `digitDiv`: the dividend is `u * h + un`. -/
structure HalfDivision (P : Platform) where
  divisor : P.Digit
  u : P.Digit
  un : P.Digit

namespace HalfDivision

section
variable (c : HalfDivision P)

def vn1 : P.Digit := c.divisor >>> P.halfDigitBits

def vn0 : P.Digit := c.divisor &&& P.halfDigitMask

def dividend : ℕ := c.u.toNat * 2 ^ P.halfDigitBits + c.un.toNat

/-- The half digit of the quotient. -/
def digit : ℕ := c.dividend / c.divisor.toNat

def quotient : P.Digit := quotientHalfDigit P c.vn1 c.vn0 c.u c.un

/-- What `digitDiv` goes on with. It is computed with wrap-around. -/
def remainder : P.Digit := c.u * halfDigitBase P + c.un - c.quotient * c.divisor

/-- The correction loop, left after at most `n` rounds. -/
def correct (n : ℕ) : P.Digit :=
  correctHalfDigit P c.vn1 c.vn0 c.un n (c.u / c.vn1) (c.u - c.u / c.vn1 * c.vn1)

/-- The values of `q` and `rhat` when `correctHalfDigit` evaluates its condition. -/
def tests : ℕ → P.Digit → P.Digit → List (P.Digit × P.Digit)
  | 0, _, _ => []
  | fuel + 1, q, rhat =>
    (q, rhat) ::
      if q ≥ halfDigitBase P ∨ q * c.vn0 > rhat * halfDigitBase P + c.un then
        if rhat + c.vn1 ≥ halfDigitBase P then [] else tests fuel (q - 1) (rhat + c.vn1)
      else []

/-- No operation of the condition or of the increment of `rhat` wraps around. -/
structure NoWrap (q rhat : P.Digit) : Prop where
  left : (q * c.vn0).toNat = q.toNat * c.vn0.toNat
  right : (rhat * halfDigitBase P + c.un).toNat = rhat.toNat * 2 ^ P.halfDigitBits + c.un.toNat
  next : (rhat + c.vn1).toNat = rhat.toNat + c.vn1.toNat

/-- The divisor has its top bit set, and the quotient is a half digit. -/
structure Normal : Prop where
  top : 2 ^ P.digitBits ≤ 2 * c.divisor.toNat
  u_lt : c.u.toNat < c.divisor.toNat
  un_lt : c.un.toNat < 2 ^ P.halfDigitBits

/-- **The invariant of the correction loop.** -/
structure Estimate (q rhat : P.Digit) : Prop where
  eq : q.toNat * c.vn1.toNat + rhat.toNat = c.u.toNat
  le : q.toNat ≤ 2 ^ P.halfDigitBits + 1
  rhat_lt : rhat.toNat < 2 ^ P.halfDigitBits
  ge : c.digit ≤ q.toNat

theorem split : c.divisor.toNat = c.vn1.toNat * 2 ^ P.halfDigitBits + c.vn0.toNat := by
  rw [vn1, vn0, toNat_high, toNat_low, mul_comm, Nat.div_add_mod]

theorem vn1_lt : c.vn1.toNat < 2 ^ P.halfDigitBits := by
  rw [vn1, toNat_high]; exact high_lt _

theorem vn0_lt : c.vn0.toNat < 2 ^ P.halfDigitBits := by
  rw [vn0, toNat_low]; exact Nat.mod_lt _ (by positivity)
end

variable {c : HalfDivision P} {q rhat : P.Digit} (hc : c.Normal)

include hc

namespace Normal

theorem divisor_pos : 0 < c.divisor.toNat := by
  have := hc.u_lt
  omega

theorem vn1_ge : 2 ^ P.halfDigitBits ≤ 2 * c.vn1.toNat := by
  have htop := hc.top
  have hv0 := c.vn0_lt
  rw [c.split, P.base_eq] at htop
  by_contra hlt
  have heven : 2 ^ P.halfDigitBits = 2 * 2 ^ (P.halfDigitBits - 1) := by
    rw [← pow_succ']
    congr 1
    have := P.digitBits_eq_half
    have := P.digitBits_pos
    omega
  have hle : 2 * c.vn1.toNat + 2 ≤ 2 ^ P.halfDigitBits := by omega
  nlinarith

/-- The quotient is a half digit, since the dividend is below the divisor. -/
theorem quotient_lt : c.digit < 2 ^ P.halfDigitBits := by
  have hun := hc.un_lt
  refine Nat.div_lt_of_lt_mul ?_
  calc c.dividend < (c.u.toNat + 1) * 2 ^ P.halfDigitBits := by
        rw [dividend, Nat.add_mul]; omega
    _ ≤ c.divisor.toNat * 2 ^ P.halfDigitBits := Nat.mul_le_mul_right _ hc.u_lt

theorem noWrap (he : c.Estimate q rhat) : c.NoWrap q rhat := by
  have hbase := P.base_eq
  have hv0 := c.vn0_lt
  have hv1 := c.vn1_lt
  have hun := hc.un_lt
  have hr := he.rhat_lt
  set h := 2 ^ P.halfDigitBits with hdef
  have hr1 : (rhat.toNat + 1) * h ≤ h * h := Nat.mul_le_mul_right _ hr
  rw [Nat.add_mul] at hr1
  refine ⟨?_, ?_, ?_⟩
  · rw [toNat_mul, Nat.mod_eq_of_lt]
    calc q.toNat * c.vn0.toNat ≤ (h + 1) * (h - 1) := Nat.mul_le_mul he.le (by omega)
      _ < h * h := by
        obtain ⟨k, hk⟩ : ∃ k, h = k + 1 := ⟨h - 1, by omega⟩
        rw [hk]; simp only [Nat.add_sub_cancel]; ring_nf; omega
      _ = 2 ^ P.digitBits := hbase.symm
  · rw [toNat_mul_add (by rw [toNat_halfDigitBase, ← hdef]; omega), toNat_halfDigitBase]
  · rw [toNat_add, Nat.mod_eq_of_lt]
    nlinarith

theorem le_quotient {k : ℕ} (hk : k * c.divisor.toNat ≤ c.dividend) :
    k ≤ c.digit :=
  (Nat.le_div_iff_mul_le hc.divisor_pos).mpr hk

/-- If the condition holds, the estimate is too large, and the next one keeps the invariant as
long as its `rhat` is a half digit. -/
theorem next (he : c.Estimate q rhat)
    (htest : 2 ^ P.halfDigitBits ≤ q.toNat ∨
      rhat.toNat * 2 ^ P.halfDigitBits + c.un.toNat < q.toNat * c.vn0.toNat) :
    c.digit < q.toNat ∧ (q - 1).toNat = q.toNat - 1 ∧
      (q.toNat - 1) * c.vn1.toNat + (rhat.toNat + c.vn1.toNat) = c.u.toNat := by
  have heq := he.eq
  have hlt : c.digit < q.toNat := by
    rcases htest with h1 | h1
    · exact hc.quotient_lt.trans_le h1
    · refine (Nat.div_lt_iff_lt_mul hc.divisor_pos).mpr ?_
      have hU : c.dividend < (c.dividend + 1) * 1 := by omega
      exact lt_of_test hU (by omega) c.split rfl heq h1
  have hpos : 0 < q.toNat := Nat.zero_lt_of_lt hlt
  have hmul : (q.toNat - 1) * c.vn1.toNat + c.vn1.toNat = q.toNat * c.vn1.toNat := by
    rw [← Nat.succ_mul]; congr 1; omega
  exact ⟨hlt, toNat_sub_one hpos, by omega⟩

/-- **The correction loop** keeps the invariant, and ends at the exact half digit if it has as many
rounds as the estimate is too large. -/
theorem correctHalfDigit_spec : ∀ (fuel : ℕ) (q rhat : P.Digit), c.Estimate q rhat →
    (q.toNat ≤ c.digit + fuel →
      (correctHalfDigit P c.vn1 c.vn0 c.un fuel q rhat).toNat = c.digit) ∧
      ∀ t ∈ c.tests fuel q rhat, c.Estimate t.1 t.2 := by
  intro fuel
  induction fuel with
  | zero =>
    intro q rhat he
    refine ⟨fun hf => le_antisymm hf he.ge, ?_⟩
    simp [tests]
  | succ fuel ih =>
    intro q rhat he
    have hv0 := c.vn0_lt
    have hle := he.le
    have hw := hc.noWrap he
    rw [correctHalfDigit, tests]
    simp only [le_def, lt_def, hw.left, hw.right, toNat_halfDigitBase]
    simp only [hw.next, List.forall_mem_cons]
    split_ifs with htest hover
    · -- the loop is left because the next test would overflow
      obtain ⟨hlt, hqn, e1⟩ := hc.next he htest
      rw [hqn]
      refine ⟨fun _ => le_antisymm (hc.le_quotient ?_) (by omega), he, by simp⟩
      have e2 : (q.toNat - 1) * c.vn0.toNat ≤
          (rhat.toNat + c.vn1.toNat) * 2 ^ P.halfDigitBits :=
        Nat.mul_le_mul (by omega) hv0.le |>.trans (Nat.mul_le_mul_right _ hover)
      rw [c.split, dividend, ← e1]
      linarith
    · -- another round
      obtain ⟨hlt, hqn, e1⟩ := hc.next he htest
      have he' : c.Estimate (q - 1) (rhat + c.vn1) :=
        ⟨by rw [hqn, hw.next]; exact e1, by omega, by rw [hw.next]; omega, by omega⟩
      obtain ⟨h1, h2⟩ := ih _ _ he'
      exact ⟨fun hf => h1 (by omega), he, h2⟩
    · -- the test fails: the estimate is exact
      push Not at htest
      refine ⟨fun _ => le_antisymm (hc.le_quotient ?_) he.ge, he, by simp⟩
      rw [c.split, dividend, ← he.eq]
      linarith

/-- The first estimate is at most two too large. -/
theorem estimate : c.Estimate (c.u / c.vn1) (c.u - c.u / c.vn1 * c.vn1) ∧
    (c.u / c.vn1).toNat ≤ c.digit + 2 := by
  have hv1 := c.vn1_lt
  have hv0 := c.vn0_lt
  have hge := hc.vn1_ge
  have hu := hc.u_lt
  have hun := hc.un_lt
  have hpos : 0 < c.vn1.toNat := by omega
  have hrhat : (c.u - c.u / c.vn1 * c.vn1).toNat = c.u.toNat % c.vn1.toNat := by
    have h1 := toNat_mul_add_sub_mul (b := 0) (c := c.u) (q := c.u / c.vn1) (d := c.vn1)
      (r := c.u.toNat % c.vn1.toNat) (lt_of_le_of_lt (Nat.mod_le _ _) c.u.isLt) (by
        rw [toNat_udiv, mul_comm _ c.vn1.toNat]
        simp [Nat.div_add_mod])
    simpa using h1
  have hdm := Nat.div_add_mod' c.u.toNat c.vn1.toNat
  have hmod := Nat.mod_lt c.u.toNat hpos
  have hsplit := c.split
  rw [toNat_udiv]
  have hle : c.u.toNat / c.vn1.toNat ≤ 2 ^ P.halfDigitBits + 1 := by
    refine Nat.lt_succ_iff.mp ((Nat.div_lt_iff_lt_mul hpos).mpr ?_)
    nlinarith
  refine ⟨⟨by rw [hrhat]; exact hdm, by rw [toNat_udiv]; exact hle,
    by rw [hrhat]; omega, ?_⟩, ?_⟩
  · rw [toNat_udiv]
    refine Nat.lt_succ_iff.mp ((Nat.div_lt_iff_lt_mul hc.divisor_pos).mpr ?_)
    rw [dividend]
    nlinarith
  · rw [← Nat.sub_le_iff_le_add]
    refine hc.le_quotient ?_
    have hk : c.u.toNat / c.vn1.toNat - 2 ≤ 2 * c.vn1.toNat := by omega
    rcases le_total (c.u.toNat / c.vn1.toNat) 2 with h2 | h2
    · simp [Nat.sub_eq_zero_of_le h2]
    obtain ⟨k, hkq⟩ := Nat.exists_eq_add_of_le' h2
    rw [hkq] at hk hdm ⊢
    calc k * c.divisor.toNat
        ≤ k * c.vn1.toNat * 2 ^ P.halfDigitBits + k * 2 ^ P.halfDigitBits := by
          rw [hsplit]; nlinarith
      _ ≤ (k * c.vn1.toNat + 2 * c.vn1.toNat) * 2 ^ P.halfDigitBits := by
          rw [Nat.add_mul]; exact Nat.add_le_add_left (Nat.mul_le_mul_right _ hk) _
      _ ≤ c.u.toNat * 2 ^ P.halfDigitBits := Nat.mul_le_mul_right _ (by rw [← hdm]; linarith)
      _ ≤ c.dividend := Nat.le_add_right _ _

/-- Two rounds are enough, and so is any larger number. -/
theorem toNat_correct (n : ℕ) : (c.correct (n + 2)).toNat = c.digit :=
  (hc.correctHalfDigit_spec _ _ _ hc.estimate.1).1 (by have := hc.estimate.2; omega)

theorem toNat_quotient : c.quotient.toNat = c.digit :=
  (hc.correctHalfDigit_spec _ _ _ hc.estimate.1).1 (Nat.le_add_left _ _)

theorem toNat_remainder : c.remainder.toNat = c.dividend % c.divisor.toNat := by
  refine toNat_mul_add_sub_mul ((Nat.mod_lt _ hc.divisor_pos).trans c.divisor.isLt) ?_
  rw [toNat_halfDigitBase, hc.toNat_quotient]
  exact (Nat.div_add_mod' _ _).symm

end Normal

end HalfDivision

theorem sZeroMask_eq {w s : ℕ} (hs : s < w) :
    (-(BitVec.ofNat w s)).sshiftRight (w - 1) = if s = 0 then 0 else BitVec.allOnes w := by
  have hlt : s < 2 ^ (w - 1) := (Nat.le_sub_one_of_lt hs).trans_lt Nat.lt_two_pow_self
  have hpow : 2 ^ (w - 1) * 2 = 2 ^ w := Nat.pow_pred_mul (by omega)
  split_ifs with h0
  · simp [h0]
  have hmsb : (-(BitVec.ofNat w s)).msb = true := by
    rw [msb_eq_decide, toNat_neg, toNat_ofNat, Nat.mod_eq_of_lt (show s < 2 ^ w by omega),
      Nat.mod_eq_of_lt (by omega), decide_eq_true_iff]
    omega
  ext i hi
  rw [getElem_sshiftRight, getElem_allOnes]
  split_ifs with h
  · obtain rfl : i = 0 := by omega
    rw [← hmsb, msb_eq_getLsbD_last]
    exact (getLsbD_eq_getElem (by omega)).symm
  · exact hmsb

theorem clz_lt {w : ℕ} {d : BitVec w} (hd : d ≠ 0) : clz d < w := by
  have h := clz_lt_iff_ne_zero.mpr hd
  have hww : w < 2 ^ w := Nat.lt_two_pow_self
  rw [lt_def] at h
  simpa [clz] using h

/-- Shifting out the leading zeros loses nothing and sets the top bit. -/
theorem shiftLeft_clz {w : ℕ} (hw : 0 < w) {d : BitVec w} (hd : d ≠ 0) :
    (d <<< clz d).toNat = d.toNat * 2 ^ clz d ∧ 2 ^ w ≤ 2 * (d.toNat * 2 ^ clz d) ∧
      (d.toNat + 1) * 2 ^ clz d ≤ 2 ^ w := by
  have hlt := clz_lt hd
  have h1 : d.toNat < 2 ^ (w - clz d) := toNat_lt_two_pow_sub_clz
  have h2 : 2 ^ (w - 1 - clz d) ≤ d.toNat := two_pow_sub_clz_le_toNat_of_ne_zero hw hd
  have h3 : (d.toNat + 1) * 2 ^ clz d ≤ 2 ^ w := by
    calc _ ≤ 2 ^ (w - clz d) * 2 ^ clz d := Nat.mul_le_mul_right _ h1
      _ = 2 ^ w := by rw [← pow_add]; congr 1; omega
  have hpos : 0 < 2 ^ clz d := by positivity
  refine ⟨?_, ?_, h3⟩
  · rw [toNat_shiftLeft, Nat.shiftLeft_eq, Nat.mod_eq_of_lt (by linarith)]
  · calc 2 ^ w = 2 * (2 ^ (w - 1 - clz d) * 2 ^ clz d) := by
          rw [← pow_add, ← pow_succ']; congr 1; omega
      _ ≤ 2 * (d.toNat * 2 ^ clz d) := Nat.mul_le_mul_left _ (Nat.mul_le_mul_right _ h2)

/-- The bits that a shift to the left moves out of `low` are moved into `high`. -/
theorem shiftLeft_pair {high low : P.Digit} {s : ℕ} (hs : s < P.digitBits)
    (hh : (high.toNat + 1) * 2 ^ s ≤ 2 ^ P.digitBits) :
    ((high <<< s) ||| ((low >>> ((P.digitBits - s) &&& (P.digitBits - 1))) &&&
        (-(BitVec.ofNat _ s)).sshiftRight (P.digitBits - 1))).toNat =
      high.toNat * 2 ^ s + low.toNat / 2 ^ (P.digitBits - s) := by
  have hlow := low.isLt
  have hhigh : high.toNat * 2 ^ s < 2 ^ P.digitBits := by
    have : 0 < 2 ^ s := by positivity
    rw [Nat.add_mul] at hh
    omega
  rw [sZeroMask_eq hs]
  split_ifs with h0
  · subst h0
    simp only [Nat.sub_zero, ofNat_eq_ofNat, and_zero, or_zero]
    rw [Nat.div_eq_of_lt hlow]
    simp
  · have hmask : (P.digitBits - s) &&& (P.digitBits - 1) = P.digitBits - s := by
      rcases P.digitBits_eq with h | h
      · rw [h] at hs ⊢
        rw [show (32 - 1 : ℕ) = 2 ^ 5 - 1 from rfl, Nat.and_two_pow_sub_one_eq_mod]
        omega
      · rw [h] at hs ⊢
        rw [show (64 - 1 : ℕ) = 2 ^ 6 - 1 from rfl, Nat.and_two_pow_sub_one_eq_mod]
        omega
    have hsmall : low.toNat / 2 ^ (P.digitBits - s) < 2 ^ s := by
      refine Nat.div_lt_of_lt_mul ?_
      rwa [← pow_add, Nat.sub_add_cancel hs.le]
    rw [hmask, and_allOnes, toNat_or, toNat_shiftLeft,
      toNat_ushiftRight, Nat.shiftLeft_eq, Nat.mod_eq_of_lt hhigh,
      Nat.shiftRight_eq_div_pow, ← Nat.shiftLeft_eq, ← Nat.shiftLeft_add_eq_or_of_lt hsmall]

/-- The two steps of the division, on numbers: `h` is the half-digit base, `V` the shifted divisor,
`U` and `un0` the shifted dividend, `d` the divisor and `D` the dividend before the shift by `k`. -/
theorem two_step_div {h V U un0 D d k : ℕ} (hk : 0 < k) (hV : V = d * k) (hd : 0 < d)
    (hD : U * h + un0 = D * k) :
    U / V * h + (U % V * h + un0) / V = D / d ∧ (U % V * h + un0) % V / k = D % d := by
  have hVpos : 0 < V := by rw [hV]; positivity
  have h1 := Nat.div_add_mod U V
  set q1 := U / V
  set r1 := U % V
  have h2 : D * k = V * (q1 * h) + (r1 * h + un0) := by
    rw [← hD, ← h1]; ring
  have h3 : D * k / V = q1 * h + (r1 * h + un0) / V := by
    rw [h2, Nat.mul_add_div hVpos]
  have h4 : D * k % V = (r1 * h + un0) % V := by
    rw [h2, Nat.mul_add_mod]
  rw [← h3, ← h4, hV]
  refine ⟨Nat.mul_div_mul_right _ _ hk, ?_⟩
  rw [Nat.mul_mod_mul_right, Nat.mul_div_cancel _ hk]

/-- The division that gives the high half of the quotient, of the dividend shifted like the
divisor. -/
def firstDivision (high low divisor : P.Digit) : HalfDivision P :=
  let s := clz divisor
  ⟨divisor <<< s, (high <<< s) ||| ((low >>> ((P.digitBits - s) &&& (P.digitBits - 1))) &&&
    (-(BitVec.ofNat _ s)).sshiftRight (P.digitBits - 1)), (low <<< s) >>> P.halfDigitBits⟩

/-- The division that gives the low half. -/
def secondDivision (high low divisor : P.Digit) : HalfDivision P :=
  let s := clz divisor
  ⟨divisor <<< s, (firstDivision high low divisor).remainder, (low <<< s) &&& P.halfDigitMask⟩

section
variable {high low divisor : P.Digit}

theorem digitDiv_eq (hx : P.x86 = false) : digitDiv P high low divisor =
    ((firstDivision high low divisor).quotient * halfDigitBase P +
      (secondDivision high low divisor).quotient,
      (secondDivision high low divisor).remainder >>> clz divisor) := by
  rw [digitDiv, if_neg (by simp [hx])]
  rfl

variable (h : high.toNat < divisor.toNat)

include h

theorem divisor_ne_zero : divisor ≠ 0 := by
  rintro rfl
  simp at h

variable (low)

/-- The shifted dividend is the dividend of the first division, followed by a half digit. -/
theorem firstDivision_spec : (firstDivision high low divisor).Normal ∧
    (firstDivision high low divisor).dividend * 2 ^ P.halfDigitBits +
        (secondDivision high low divisor).un.toNat =
      (high.toNat * 2 ^ P.digitBits + low.toNat) * 2 ^ clz divisor := by
  have hd0 := divisor_ne_zero h
  have hlow := low.isLt
  obtain ⟨hs1, hs2, hs3⟩ := shiftLeft_clz P.digitBits_pos hd0
  have hslt := clz_lt hd0
  have hshift : (high.toNat + 1) * 2 ^ clz divisor ≤ divisor.toNat * 2 ^ clz divisor :=
    Nat.mul_le_mul_right _ h
  have hun32 : (firstDivision high low divisor).u.toNat = _ :=
    shiftLeft_pair hslt ((Nat.mul_le_mul_right _ (by omega)).trans hs3)
  simp only [HalfDivision.dividend]
  set s := clz divisor with hsdef
  have hpows : 2 ^ (P.digitBits - s) * 2 ^ s = 2 ^ P.digitBits := by
    rw [← pow_add]; congr 1; omega
  refine ⟨⟨hs2.trans_eq (by rw [← hs1]; rfl), ?_, ?_⟩, ?_⟩
  · have : low.toNat / 2 ^ (P.digitBits - s) < 2 ^ s :=
      Nat.div_lt_of_lt_mul (by rw [hpows]; exact hlow)
    rw [Nat.add_mul] at hshift
    refine lt_of_lt_of_eq ?_ hs1.symm
    omega
  · exact (toNat_high _).trans_lt (high_lt _)
  · have hun10 : (low <<< s).toNat = low.toNat % 2 ^ (P.digitBits - s) * 2 ^ s := by
      rw [toNat_shiftLeft, Nat.shiftLeft_eq, ← hpows, Nat.mul_mod_mul_right]
    have e1 : (firstDivision high low divisor).un.toNat * 2 ^ P.halfDigitBits +
        (secondDivision high low divisor).un.toNat = (low <<< s).toNat := by
      simp only [firstDivision, secondDivision, toNat_high, toNat_low, Nat.div_add_mod', ← hsdef]
    calc _ = (firstDivision high low divisor).u.toNat * 2 ^ P.digitBits +
          ((firstDivision high low divisor).un.toNat * 2 ^ P.halfDigitBits +
          (secondDivision high low divisor).un.toNat) := by rw [P.base_eq]; ring
      _ = high.toNat * 2 ^ P.digitBits * 2 ^ s + (2 ^ (P.digitBits - s) *
          (low.toNat / 2 ^ (P.digitBits - s)) + low.toNat % 2 ^ (P.digitBits - s)) * 2 ^ s := by
        rw [e1, hun32, hun10, ← hpows]; ring
      _ = _ := by rw [Nat.div_add_mod]; ring

theorem secondDivision_normal : (secondDivision high low divisor).Normal := by
  obtain ⟨hc, -⟩ := firstDivision_spec low h
  refine ⟨hc.top, ?_, ?_⟩
  · exact hc.toNat_remainder.trans_lt (Nat.mod_lt _ hc.divisor_pos)
  · exact (toNat_low _).trans_lt (Nat.mod_lt _ (by positivity))
end

/-- **The two-by-one division**, on every platform. -/
theorem digitDiv_spec (high low divisor : P.Digit) (h : high.toNat < divisor.toNat) :
    (digitDiv P high low divisor).1.toNat =
        (high.toNat * 2 ^ P.digitBits + low.toNat) / divisor.toNat ∧
      (digitDiv P high low divisor).2.toNat =
        (high.toNat * 2 ^ P.digitBits + low.toNat) % divisor.toNat := by
  have hdpos : 0 < divisor.toNat := by omega
  have hq : (high.toNat * 2 ^ P.digitBits + low.toNat) / divisor.toNat < 2 ^ P.digitBits := by
    refine Nat.div_lt_of_lt_mul ?_
    calc high.toNat * 2 ^ P.digitBits + low.toNat < (high.toNat + 1) * 2 ^ P.digitBits := by
          rw [Nat.add_mul]; omega
      _ ≤ divisor.toNat * 2 ^ P.digitBits := Nat.mul_le_mul_right _ h
  cases hx : P.x86 with
  | true =>
    have hr := Nat.mod_lt (high.toNat * 2 ^ P.digitBits + low.toNat) hdpos
    rw [digitDiv, if_pos hx]
    exact ⟨Nat.mod_eq_of_lt hq, Nat.mod_eq_of_lt (by omega)⟩
  | false =>
    obtain ⟨hc, hD⟩ := firstDivision_spec low h
    have hc' := secondDivision_normal low h
    obtain ⟨hquot, hrem⟩ := two_step_div
      (V := (firstDivision high low divisor).divisor.toNat) (by positivity)
      (shiftLeft_clz P.digitBits_pos (divisor_ne_zero h)).1 hdpos hD
    rw [← hc.toNat_remainder] at hquot hrem
    rw [digitDiv_eq hx]
    constructor
    · rw [← hquot] at hq ⊢
      rw [toNat_mul_add, toNat_halfDigitBase, hc.toNat_quotient, hc'.toNat_quotient]
      · rfl
      · rwa [toNat_halfDigitBase, hc.toNat_quotient, hc'.toNat_quotient]
    · rwa [toNat_ushiftRight, Nat.shiftRight_eq_div_pow, hc'.toNat_remainder]

/-- **The portable division is exact.** On a platform without the x86 instruction it returns the
quotient and the remainder. Each of the two correction loops has its result after two rounds, and
whenever its condition is evaluated, the estimate is `u` divided by `vn1` with remainder `rhat` and
nothing wraps around. -/
theorem digitDiv_portable (hx : P.x86 = false) (high low divisor : P.Digit)
    (h : high.toNat < divisor.toNat) :
    (digitDiv P high low divisor).1.toNat =
        (high.toNat * 2 ^ P.digitBits + low.toNat) / divisor.toNat ∧
      (digitDiv P high low divisor).2.toNat =
        (high.toNat * 2 ^ P.digitBits + low.toNat) % divisor.toNat ∧
      digitDiv P high low divisor = ((firstDivision high low divisor).quotient * halfDigitBase P +
        (secondDivision high low divisor).quotient,
        (secondDivision high low divisor).remainder >>> clz divisor) ∧
      ∀ c ∈ [firstDivision high low divisor, secondDivision high low divisor],
        (∀ n, c.correct (n + 2) = c.quotient) ∧
        ∀ n, ∀ t ∈ c.tests n (c.u / c.vn1) (c.u - c.u / c.vn1 * c.vn1),
          t.1.toNat * c.vn1.toNat + t.2.toNat = c.u.toNat ∧ c.NoWrap t.1 t.2 := by
  obtain ⟨hquot, hrem⟩ := digitDiv_spec high low divisor h
  refine ⟨hquot, hrem, digitDiv_eq hx, ?_⟩
  intro c hmem
  have hc : c.Normal := by
    simp only [List.mem_cons, List.not_mem_nil, or_false] at hmem
    rcases hmem with rfl | rfl
    · exact (firstDivision_spec low h).1
    · exact secondDivision_normal low h
  constructor
  · intro n
    exact eq_of_toNat_eq (by rw [hc.toNat_correct, hc.toNat_quotient])
  · intro n t ht
    have he := (hc.correctHalfDigit_spec n _ _ hc.estimate.1).2 t ht
    exact ⟨he.eq, hc.noWrap he⟩

/-- The largest dividend of `3` on 64-bit ARM: its digits are `2` and all ones. -/
theorem digitDiv_arm64 : (digitDiv .arm64 2 (allOnes 64) 3).1.toNat = 2 ^ 64 - 1 :=
  (digitDiv_portable (P := .arm64) rfl 2 (allOnes 64) 3 (by decide)).1.trans (by decide +kernel)

/-- Returns whether `factor1 * factor2 > (high << digitBits) + low`. -/
def productGreaterThan (P : Platform) (factor1 factor2 high low : P.Digit) : Bool :=
  let (resultLow, resultHigh) := digitMul P factor1 factor2
  resultHigh > high || (resultHigh == high && resultLow > low)

theorem productGreaterThan_iff {factor1 factor2 high low : P.Digit} :
    productGreaterThan P factor1 factor2 high low = true ↔
      high.toNat * 2 ^ P.digitBits + low.toNat < factor1.toNat * factor2.toNat := by
  rw [← digitMul_spec factor1 factor2]
  unfold productGreaterThan
  set r := digitMul P factor1 factor2
  simp only [Bool.or_eq_true, decide_eq_true_eq, Bool.and_eq_true, beq_iff_eq, lt_def, ← toNat_inj]
  set B := 2 ^ P.digitBits
  constructor
  · rintro (h | ⟨h, h'⟩)
    · have := Nat.mul_le_mul_left B (show high.toNat + 1 ≤ r.2.toNat from h)
      rw [Nat.mul_add, mul_comm B high.toNat] at this
      omega
    · rw [h, mul_comm]; omega
  · intro h
    rcases Nat.lt_trichotomy r.2.toNat high.toNat with h' | h' | h'
    · have := Nat.mul_le_mul_left B (show r.2.toNat + 1 ≤ high.toNat from h')
      rw [Nat.mul_add, mul_comm B high.toNat] at this
      omega
    · rw [h', mul_comm] at h
      exact Or.inr ⟨h', by omega⟩
    · exact Or.inl h'
end

end JscAndroid.BigInt.DigitArith
