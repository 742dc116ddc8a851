import JscAndroid.Arith.Numerals
import JscAndroid.BigInt.Magnitude

/-!
# Printing

`toStringBasePowerOfTwo` cuts the digits of a BigInt into characters of `bitsPerChar` bits.
`toStringGeneric` divides by the largest power of the radix that fits a digit, and prints each
remainder as a chunk of characters. Both are settled by the list of digit values they write: it is
the numeral of the magnitude, so the text is `canonicalNumeral` (`toString_ok`).
-/

namespace JscAndroid.BigInt.ToString

open Arith.Limbs Arith.Numerals DigitArith Heap DigitLoops Magnitude List Nat

variable {radix : ℕ}

/-- A code unit of a string. -/
abbrev UChar : Type := ℕ

variable {s : List UChar}

/-! ## The source -/

def radixDigits : List UChar := "0123456789abcdefghijklmnopqrstuvwxyz".toList.map Char.toNat

def maxBitsPerCharTable : List ℕ :=
  [0, 0, 32, 51, 64, 75, 83, 90, 96,
    102, 107, 111, 115, 119, 122, 126, 128,
    131, 134, 136, 139, 141, 143, 145, 147,
    149, 151, 153, 154, 156, 158, 159, 160,
    162, 163, 165, 166]

def bitsPerCharTableShift : ℕ := 5

def bitsPerCharTableMultiplier : ℕ := 1 <<< bitsPerCharTableShift

/-- `JSString::MaxLength`. -/
def maxStringLength : ℕ := 2 ^ 31 - 1

def hasOneBitSet (value : ℕ) : Bool := (value - 1) &&& value == 0 && value != 0

/-- The number of trailing zero bits of an `unsigned`. -/
def ctz (value : ℕ) : ℕ := (BitVec.ofNat 32 value).ctz.toNat

variable {P : Platform}
variable {x : JSBigInt P}

def digitPowLoop : ℕ → P.Digit → P.Digit → P.Digit → P.Digit
  | 0, result, _, _ => result
  | fuel + 1, result, base, exponent =>
    if exponent > 0 then
      digitPowLoop fuel (if exponent &&& 1 ≠ 0 then result * base else result) (base * base)
        (exponent >>> 1)
    else result

/-- `base` to the power `exponent`, in digit arithmetic. -/
def digitPow (base exponent : P.Digit) : P.Digit := digitPowLoop P.digitBits 1 base exponent

/-- An over-approximation of the length of the resulting string. -/
def calculateMaximumCharactersRequired (length radix : ℕ) (lastDigit : P.Digit) (sign : Bool) :
    ℕ :=
  let leadingZeros := clz lastDigit
  let bitLength := length * P.digitBits - leadingZeros
  let maxBitsPerChar := maxBitsPerCharTable.getD radix 0
  let minBitsPerChar := maxBitsPerChar - 1
  (bitLength * bitsPerCharTableMultiplier + (minBitsPerChar - 1)) / minBitsPerChar + sign.toNat

/-- The loop `while (availableBits >= bitsPerChar)`: the characters, and what is left. -/
def takeChars (bitsPerChar : ℕ) (charMask : P.Digit) :
    ℕ → P.Digit → ℕ → List ℕ × P.Digit × ℕ
  | 0, digit, availableBits => ([], digit, availableBits)
  | fuel + 1, digit, availableBits =>
    if availableBits ≥ bitsPerChar then
      let r := takeChars bitsPerChar charMask fuel (digit >>> bitsPerChar)
        (availableBits - bitsPerChar)
      ((digit &&& charMask).toNat :: r.1, r.2)
    else ([], digit, availableBits)

/-- The loop over all digits but the most significant one. -/
def digitsLoop (bitsPerChar : ℕ) (charMask : P.Digit) :
    List P.Digit → P.Digit → ℕ → List ℕ × P.Digit × ℕ
  | [], digit, availableBits => ([], digit, availableBits)
  | newDigit :: ds, digit, availableBits =>
    let current := (digit ||| (newDigit <<< availableBits)) &&& charMask
    let consumedBits := bitsPerChar - availableBits
    let r := takeChars bitsPerChar charMask P.digitBits (newDigit >>> consumedBits)
      (P.digitBits - consumedBits)
    let rest := digitsLoop bitsPerChar charMask ds r.2.1 r.2.2
    (current.toNat :: (r.1 ++ rest.1), rest.2)

/-- The loop `while (digit)`. -/
def takeAllChars (bitsPerChar : ℕ) (charMask : P.Digit) : ℕ → P.Digit → List ℕ
  | 0, _ => []
  | fuel + 1, digit =>
    if digit = 0 then []
    else (digit &&& charMask).toNat :: takeAllChars bitsPerChar charMask fuel
      (digit >>> bitsPerChar)

/-- The digit values that `toStringBasePowerOfTwo` writes, from the end of the string on. -/
def powerOfTwoChars (x : JSBigInt P) (bitsPerChar : ℕ) (charMask : P.Digit) : List ℕ :=
  let msd := x.digit (x.length - 1)
  let r := digitsLoop bitsPerChar charMask (x.digits.take (x.length - 1)) 0 0
  let current := (r.2.1 ||| (msd <<< r.2.2)) &&& charMask
  let digit := msd >>> (bitsPerChar - r.2.2)
  r.1 ++ current.toNat :: takeAllChars bitsPerChar charMask P.digitBits digit

def charsRequired (x : JSBigInt P) (bitsPerChar : ℕ) : ℕ :=
  let msdLeadingZeros := clz (x.digit (x.length - 1))
  let bitLength := x.length * P.digitBits - msdLeadingZeros
  (bitLength + bitsPerChar - 1) / bitsPerChar + x.sign.toNat

def radixDigit (d : ℕ) : UChar := radixDigits.getD d 0

def minus : UChar := '-'.toNat

/-- Printing for a radix that is a power of two. The buffer has `charsRequired` characters and is
filled from the end. -/
def toStringBasePowerOfTwo (x : JSBigInt P) (radix : ℕ) : Op P (List UChar) := do
  let bitsPerChar := ctz radix
  let charMask := BitVec.ofNat P.digitBits (radix - 1)
  if charsRequired x bitsPerChar > maxStringLength then
    throw (.outOfMemoryError none)
  else
    let written := (powerOfTwoChars x bitsPerChar charMask).map radixDigit ++
      if x.sign then [minus] else []
    return List.replicate (charsRequired x bitsPerChar - written.length) 0 ++ written.reverse

/-- The loop that divides by `chunkDivisor`: the characters of the chunks, and the rest. Every
round takes at least a bit off the dividend. -/
def chunkLoop (radix chunkChars : ℕ) (chunkDivisor : P.Digit) :
    ℕ → List P.Digit → ℕ → List ℕ × List P.Digit
  | 0, dividend, _ => ([], dividend)
  | fuel + 1, dividend, nonZeroDigit =>
    let (rest, chunk) := divLoop chunkDivisor dividend
    let chars := lowDigits radix chunkChars chunk.toNat
    let nonZeroDigit := if rest.getD nonZeroDigit 0 = 0 then nonZeroDigit - 1 else nonZeroDigit
    if nonZeroDigit > 0 then
      let r := chunkLoop radix chunkChars chunkDivisor fuel rest nonZeroDigit
      (chars ++ r.1, r.2)
    else (chars, rest)

/-- `while (size > 1 && resultString[size - 1] == '0') size--`. -/
def removeLeadingZeroes (chars : List UChar) : List UChar :=
  let stripped := chars.rdropWhile (· == '0'.toNat)
  if stripped.length = 0 then chars.take 1 else stripped

/-- Printing for any other radix. `rest` is allocated in the first round and divided in place. -/
def toStringGeneric (x : JSBigInt P) (radix : ℕ) : Op P (List UChar) := do
  let length := x.length
  let maxBitsPerChar := maxBitsPerCharTable.getD radix 0
  let maximumCharactersRequired :=
    calculateMaximumCharactersRequired length radix (x.digit (length - 1)) x.sign
  if maximumCharactersRequired > maxStringLength then
    throw (.outOfMemoryError none)
  else if length = 1 then
    let chars := printLoop radix P.digitBits (x.digit 0).toNat
    return finish chars x.sign
  else
    let chunkChars := P.digitBits * bitsPerCharTableMultiplier / maxBitsPerChar
    let chunkDivisor := digitPow (BitVec.ofNat P.digitBits radix)
      (BitVec.ofNat P.digitBits chunkChars)
    let _ ← createWithLength (P := P) length
    let r := chunkLoop radix chunkChars chunkDivisor (length * P.digitBits) x.digits (length - 1)
    let chars := r.1 ++ printLoop radix P.digitBits (r.2.getD 0 0).toNat
    return finish chars x.sign
where
  finish (chars : List ℕ) (sign : Bool) : List UChar :=
    (removeLeadingZeroes (chars.map radixDigit) ++ if sign then [minus] else []).reverse

def toString (x : JSBigInt P) (radix : ℕ) : Op P (List UChar) := do
  if x.isZero then
    return ['0'.toNat]
  else if hasOneBitSet radix then
    toStringBasePowerOfTwo x radix
  else
    toStringGeneric x radix

/-! ## What is to be printed -/

/-- The numeral of `z`: a minus sign if `z` is negative, then the digits of the magnitude, lower
case and without leading zeros. -/
def canonicalNumeral (radix : ℕ) (z : ℤ) : List UChar :=
  (if z < 0 then [minus] else []) ++ ((digits radix z.natAbs).map radixDigit).reverse

/-! ## The table -/

/-- **The table is a rounded logarithm**: an entry is `32 * log2 radix`, rounded up, and exact only
for powers of two. -/
theorem maxBitsPerCharTable_spec : ∀ radix < 37, 2 ≤ radix →
    32 ≤ maxBitsPerCharTable.getD radix 0 ∧ maxBitsPerCharTable.getD radix 0 ≤ 166 ∧
    radix ^ 32 ≤ 2 ^ maxBitsPerCharTable.getD radix 0 ∧
    2 ^ (maxBitsPerCharTable.getD radix 0 - 1) ≤ radix ^ 32 ∧
    (hasOneBitSet radix = false → radix ^ 32 < 2 ^ maxBitsPerCharTable.getD radix 0) := by
  decide

theorem hasOneBitSet_spec : ∀ radix < 37, 2 ≤ radix → hasOneBitSet radix = true →
    1 ≤ ctz radix ∧ ctz radix ≤ 5 ∧ radix = 2 ^ ctz radix := by
  decide +kernel

/-! ## The number of bits -/

theorem split_top (hne : x.digits ≠ []) : ∃ n, x.digits.length = n + 1 ∧
    x.digit (x.length - 1) = x.digits.getD n 0 ∧ value x.digits = value (x.digits.take n) +
      (2 ^ P.digitBits) ^ n * (x.digits.getD n 0).toNat := by
  obtain ⟨n, hn⟩ : ∃ n, x.digits.length = n + 1 :=
    ⟨x.digits.length - 1, by have := length_pos_iff.mpr hne; omega⟩
  refine ⟨n, hn, ?_, ?_⟩
  · rw [JSBigInt.digit, JSBigInt.length, hn]
    rfl
  · rw [value_take_add_drop x.digits (show n ≤ x.digits.length by omega), value_drop_last hn]

theorem bitLength_spec (hx : x.Normalized) (hne : x.digits ≠ []) :
    0 < x.length * P.digitBits - clz (x.digit (x.length - 1)) ∧
      2 ^ (x.length * P.digitBits - clz (x.digit (x.length - 1)) - 1) ≤ value x.digits ∧
      value x.digits < 2 ^ (x.length * P.digitBits - clz (x.digit (x.length - 1))) := by
  have htop := top_ne_zero hx hne
  have hlt := clz_lt htop
  obtain ⟨n, hn, hdig, hsplit⟩ := split_top hne
  have hlow := value_lt (x.digits.take n)
  rw [length_take, min_eq_left (by omega)] at hlow
  rw [hdig] at htop hlt ⊢
  set d := x.digits.getD n 0
  have h1 : d.toNat < 2 ^ (P.digitBits - clz d) := BitVec.toNat_lt_two_pow_sub_clz
  have h2 : 2 ^ (P.digitBits - 1 - clz d) ≤ d.toNat :=
    BitVec.two_pow_sub_clz_le_toNat_of_ne_zero (by have := P.digitBits_ge; omega) htop
  have hlen : x.length * P.digitBits = P.digitBits * n + P.digitBits := by
    show x.digits.length * P.digitBits = _
    rw [hn]; ring
  have e1 : x.length * P.digitBits - clz d - 1 = P.digitBits * n + (P.digitBits - 1 - clz d) := by
    omega
  have e2 : x.length * P.digitBits - clz d = P.digitBits * n + (P.digitBits - clz d) := by omega
  refine ⟨by omega, ?_, ?_⟩
  · rw [e1, pow_add, pow_mul, hsplit]
    exact (mul_le_mul_left _ h2).trans (le_add_left _ _)
  · rw [e2, pow_add, pow_mul]
    have := mul_le_mul_left ((2 ^ P.digitBits) ^ n) (show d.toNat + 1 ≤ _ from h1)
    rw [mul_add] at this
    omega

/-- **The estimate is never too small**: the digits of the magnitude and the sign fit. -/
theorem length_digits_le (hx : x.Normalized) (hne : x.digits ≠ []) (h2 : 2 ≤ radix)
    (h36 : radix ≤ 36) : (digits radix (value x.digits)).length + x.sign.toNat ≤
      calculateMaximumCharactersRequired x.length radix (x.digit (x.length - 1)) x.sign := by
  obtain ⟨-, hb1, hb2⟩ := bitLength_spec hx hne
  obtain ⟨ht1, -, -, ht4, -⟩ := maxBitsPerCharTable_spec radix (by omega) h2
  set bitLength := x.length * P.digitBits - clz (x.digit (x.length - 1))
  set m := maxBitsPerCharTable.getD radix 0
  have hpos := hx.value_pos hne
  set k := (digits radix (value x.digits)).length with hk
  have hkpos : 0 < k := by
    exact length_pos_iff.mpr (digits_ne_nil_iff_ne_zero.mpr (by omega))
  -- the leading digit alone is worth `radix ^ (k - 1)`
  have hlow : radix ^ (k - 1) ≤ value x.digits :=
    (lt_digits_length_iff (by omega) _).mp (by omega)
  have hlt : (m - 1) * (k - 1) < 32 * bitLength :=
    mul_lt_of_pow_lt ht4 (lt_of_le_of_lt hlow hb2)
  have hmul : k * (m - 1) = (m - 1) * (k - 1) + (m - 1) := by
    obtain ⟨j, hj⟩ : ∃ j, k = j + 1 := ⟨k - 1, by omega⟩
    rw [hj, Nat.add_sub_cancel, add_mul, one_mul, mul_comm]
  have hle : k ≤ (bitLength * 32 + (m - 1 - 1)) / (m - 1) := by
    rw [le_div_iff_mul_le (by omega)]
    omega
  exact Nat.add_le_add_right hle _

/-! ## Powers of the radix -/

theorem digitPowLoop_spec : ∀ (fuel : ℕ) (result base exponent : P.Digit),
    exponent.toNat < 2 ^ fuel → (digitPowLoop fuel result base exponent).toNat =
        result.toNat * base.toNat ^ exponent.toNat % 2 ^ P.digitBits
  | 0, result, base, exponent, h => by
    have h0 : exponent.toNat = 0 := by simpa using h
    rw [digitPowLoop, h0, pow_zero, Nat.mul_one, mod_eq_of_lt result.isLt]
  | fuel + 1, result, base, exponent, h => by
    have hhalf : (exponent >>> 1).toNat = exponent.toNat / 2 := by
      rw [BitVec.toNat_ushiftRight, shiftRight_eq_div_pow]
    rw [digitPowLoop]
    split_ifs with hpos hodd
    · have hbit : exponent.toNat % 2 = 1 := by
        by_contra hne
        refine hodd (BitVec.eq_of_toNat_eq ?_)
        rw [BitVec.toNat_and, toNat_one, toNat_zero, and_one_is_mod]
        omega
      rw [digitPowLoop_spec fuel _ _ _ (by rw [hhalf]; rw [pow_succ] at h; omega)]
      have he : exponent.toNat = 1 + 2 * (exponent.toNat / 2) := by omega
      conv_rhs => rw [he, pow_add, pow_one, pow_mul, pow_two, ← mul_assoc]
      exact ModEq.mul (mod_modEq _ _) ((mod_modEq _ _).pow _)
    · have hbit : exponent.toNat % 2 = 0 := by
        have h0 := congrArg BitVec.toNat (not_not.mp hodd)
        rwa [BitVec.toNat_and, toNat_one, toNat_zero, and_one_is_mod] at h0
      rw [digitPowLoop_spec fuel _ _ _ (by rw [hhalf]; rw [pow_succ] at h; omega)]
      have he : exponent.toNat = 2 * (exponent.toNat / 2) := by omega
      conv_rhs => rw [he, pow_mul, pow_two]
      exact ModEq.mul rfl ((mod_modEq _ _).pow _)
    · have h0 : exponent.toNat = 0 := by
        have := mt BitVec.lt_def.mpr hpos
        rw [toNat_zero] at this
        omega
      rw [h0, pow_zero, mul_one, mod_eq_of_lt result.isLt]

/-- **The chunk divisor does not overflow**: `chunkChars` characters fit a digit. -/
theorem chunkDivisor_spec (h2 : 2 ≤ radix) (h36 : radix ≤ 36) (hp : hasOneBitSet radix = false) :
    0 < P.digitBits * bitsPerCharTableMultiplier / maxBitsPerCharTable.getD radix 0 ∧
    (digitPow (P := P) (BitVec.ofNat P.digitBits radix) (BitVec.ofNat P.digitBits
      (P.digitBits * bitsPerCharTableMultiplier / maxBitsPerCharTable.getD radix 0))).toNat =
        radix ^ (P.digitBits * bitsPerCharTableMultiplier /
          maxBitsPerCharTable.getD radix 0) ∧
      radix ^ (P.digitBits * bitsPerCharTableMultiplier / maxBitsPerCharTable.getD radix 0) <
        2 ^ P.digitBits := by
  obtain ⟨ht1, ht2, -, -, ht5⟩ := maxBitsPerCharTable_spec radix (by omega) h2
  have hlt5 := ht5 hp
  have hB := P.base_ge
  have h32 := P.digitBits_ge
  have h64 := P.digitBits_le
  have hmult : bitsPerCharTableMultiplier = 32 := rfl
  rw [hmult]
  set m := maxBitsPerCharTable.getD radix 0
  set c := P.digitBits * 32 / m with hc
  have hcpos : 0 < c := div_pos (by omega) (by omega)
  have hmc : m * c ≤ P.digitBits * 32 := mul_div_le _ _
  have hc64 : c ≤ 64 := by
    exact Nat.div_le_of_le_mul (by nlinarith)
  -- a number that is not a power of two stays strictly below
  have hlt : radix ^ c < 2 ^ P.digitBits := by
    have h1 : (radix ^ c) ^ 32 < (2 ^ P.digitBits) ^ 32 := by
      calc (radix ^ c) ^ 32 = (radix ^ 32) ^ c := by rw [← pow_mul, ← pow_mul, mul_comm]
        _ < (2 ^ m) ^ c := Nat.pow_lt_pow_left hlt5 (by omega)
        _ = 2 ^ (m * c) := (pow_mul 2 m c).symm
        _ ≤ 2 ^ (P.digitBits * 32) := Nat.pow_le_pow_right (by norm_num) hmc
        _ = (2 ^ P.digitBits) ^ 32 := pow_mul 2 P.digitBits 32
    exact (Nat.pow_lt_pow_iff_left (by norm_num)).mp h1
  have hr : (BitVec.ofNat P.digitBits radix).toNat = radix := by
    rw [BitVec.toNat_ofNat, mod_eq_of_lt (by omega)]
  have he : (BitVec.ofNat P.digitBits c).toNat = c := by
    rw [BitVec.toNat_ofNat, mod_eq_of_lt (by omega)]
  refine ⟨hcpos, ?_, hlt⟩
  rw [digitPow, digitPowLoop_spec _ _ _ _ (BitVec.isLt _), hr, he, toNat_one, one_mul,
    mod_eq_of_lt hlt]

/-! ## Powers of two -/

section
variable {b : ℕ} (hb1 : 1 ≤ b) (hb5 : b ≤ 5)

/-- The mask for a character of `b` bits. -/
def charMask (P : Platform) (b : ℕ) : P.Digit := BitVec.ofNat P.digitBits (2 ^ b - 1)

theorem two_le_two_pow {b : ℕ} (hb1 : 1 ≤ b) : 2 ≤ 2 ^ b :=
  Nat.pow_le_pow_right (n := 2) (by norm_num) hb1

include hb5 in
theorem toNat_and_charMask (d : P.Digit) : (d &&& charMask P b).toNat = d.toNat % 2 ^ b := by
  have hB := P.base_ge
  have hlt : 2 ^ b ≤ 2 ^ 5 := Nat.pow_le_pow_right (by norm_num) hb5
  rw [charMask, BitVec.toNat_and, BitVec.toNat_ofNat, mod_eq_of_lt (by omega),
    and_two_pow_sub_one_eq_mod]

include hb1 hb5

/-- What a loop leaves behind: characters `cs`, and `availableBits < b` bits in `digit`. -/
structure CharsSpec (b : ℕ) (total n : ℕ) (cs : List ℕ) (digit : P.Digit) (availableBits : ℕ) :
    Prop where
  available : availableBits < b
  digit_lt : digit.toNat < 2 ^ availableBits
  bits : b * cs.length + availableBits = total
  lt : ∀ c ∈ cs, c < 2 ^ b
  eq : ofDigits (2 ^ b) cs + (2 ^ b) ^ cs.length * digit.toNat = n

theorem takeChars_spec : ∀ (fuel : ℕ) (digit : P.Digit) (availableBits : ℕ),
    availableBits ≤ fuel → digit.toNat < 2 ^ availableBits → CharsSpec b availableBits digit.toNat
        (takeChars b (charMask P b) fuel digit availableBits).1
        (takeChars b (charMask P b) fuel digit availableBits).2.1
        (takeChars b (charMask P b) fuel digit availableBits).2.2
  | 0, digit, availableBits, hf, hd => by
    rw [takeChars]
    exact ⟨show availableBits < b by omega, hd, by simp, by simp, by simp⟩
  | fuel + 1, digit, availableBits, hf, hd => by
    rw [takeChars]
    split_ifs with h
    · have hsh : (digit >>> b).toNat = digit.toNat / 2 ^ b := by
        rw [BitVec.toNat_ushiftRight, shiftRight_eq_div_pow]
      have hlt : (digit >>> b).toNat < 2 ^ (availableBits - b) := by
        rw [hsh]
        refine Nat.div_lt_of_lt_mul ?_
        rwa [← pow_add, Nat.add_sub_cancel' h]
      have ih := takeChars_spec fuel (digit >>> b) (availableBits - b) (by omega) hlt
      dsimp only
      refine ⟨ih.available, ih.digit_lt, ?_, ?_, ?_⟩
      · have := ih.bits
        rw [length_cons, mul_add]
        omega
      · intro c hc
        rcases mem_cons.mp hc with rfl | hc
        · rw [toNat_and_charMask hb5]
          exact mod_lt _ (by positivity)
        · exact ih.lt c hc
      · rw [ofDigits_cons, length_cons, pow_succ', toNat_and_charMask hb5, mul_assoc,
          add_assoc, ← mul_add, ih.eq, hsh]
        exact mod_add_div _ _
    · exact ⟨show availableBits < b by omega, hd, by simp, by simp, by simp⟩

/-- The character that takes the leftover bits and the low bits of the next digit. -/
theorem current_spec {digit : P.Digit} (newDigit : P.Digit) {availableBits : ℕ}
    (ha : availableBits < b)
    (hd : digit.toNat < 2 ^ availableBits) :
    ((digit ||| (newDigit <<< availableBits)) &&& charMask P b).toNat =
        (digit.toNat + 2 ^ availableBits * newDigit.toNat) % 2 ^ b ∧
      (newDigit >>> (b - availableBits)).toNat =
        (digit.toNat + 2 ^ availableBits * newDigit.toNat) / 2 ^ b := by
  have h32 := P.digitBits_ge
  have h := toNat_shiftLeft_or (d := newDigit) (show availableBits ≤ P.digitBits by omega) hd
  have hsplit : 2 ^ b = 2 ^ availableBits * 2 ^ (b - availableBits) := by
    rw [← pow_add, Nat.add_sub_cancel' ha.le]
  constructor
  · rw [toNat_and_charMask hb5, BitVec.or_comm, add_comm digit.toNat, mul_comm, ← h]
    obtain ⟨c, hc⟩ : 2 ^ b ∣ 2 ^ P.digitBits := pow_dvd_pow 2 (by omega)
    rw [hc, mul_assoc, add_mul_mod_self_left]
  · rw [BitVec.toNat_ushiftRight, shiftRight_eq_div_pow, hsplit, ← Nat.div_div_eq_div_mul,
      add_mul_div_left _ _ (by positivity), div_eq_of_lt hd, zero_add]

theorem digitsLoop_spec : ∀ (ds : List P.Digit) (digit : P.Digit) (availableBits : ℕ),
    availableBits < b → digit.toNat < 2 ^ availableBits →
      CharsSpec b (availableBits + P.digitBits * ds.length)
        (digit.toNat + 2 ^ availableBits * value ds)
        (digitsLoop b (charMask P b) ds digit availableBits).1
        (digitsLoop b (charMask P b) ds digit availableBits).2.1
        (digitsLoop b (charMask P b) ds digit availableBits).2.2
  | [], digit, availableBits, ha, hd => by
    rw [digitsLoop]
    exact ⟨ha, hd, by simp, by simp, by simp⟩
  | newDigit :: ds, digit, availableBits, ha, hd => by
    have h32 := P.digitBits_ge
    obtain ⟨hc1, hc2⟩ := current_spec hb1 hb5 newDigit ha hd
    have hq : (newDigit >>> (b - availableBits)).toNat <
        2 ^ (P.digitBits - (b - availableBits)) := by
      rw [BitVec.toNat_ushiftRight, shiftRight_eq_div_pow]
      refine Nat.div_lt_of_lt_mul ?_
      rw [← pow_add, Nat.add_sub_cancel' (by omega)]
      exact newDigit.isLt
    have ht := takeChars_spec hb1 hb5 P.digitBits (newDigit >>> (b - availableBits))
      (P.digitBits - (b - availableBits)) (by omega) hq
    rw [digitsLoop]
    set t := takeChars b (charMask P b) P.digitBits (newDigit >>> (b - availableBits))
      (P.digitBits - (b - availableBits))
    have ih := digitsLoop_spec ds t.2.1 t.2.2 ht.available ht.digit_lt
    set r := digitsLoop b (charMask P b) ds t.2.1 t.2.2
    refine ⟨ih.available, ih.digit_lt, ?_, ?_, ?_⟩
    · have h1 := ht.bits
      have h2 := ih.bits
      simp only [length_cons, length_append, mul_add]
      omega
    · intro c hc
      rcases mem_cons.mp hc with rfl | hc
      · rw [hc1]
        exact mod_lt _ (by positivity)
      · rcases mem_append.mp hc with hc | hc
        · exact ht.lt c hc
        · exact ih.lt c hc
    · -- both loops shift by whole characters; the leftover bits are part of what follows
      have h1 := ht.eq
      have h2 := ih.eq
      rw [hc2] at h1
      have hpow : (2 ^ b) ^ t.1.length * 2 ^ t.2.2 * 2 ^ b = 2 ^ P.digitBits *
          2 ^ availableBits := by
        rw [← pow_mul, ← pow_add, ← pow_add, ← pow_add]
        congr 1
        have := ht.bits
        omega
      set N := digit.toNat + 2 ^ availableBits * newDigit.toNat with hN
      calc ofDigits (2 ^ b) (((digit ||| (newDigit <<< availableBits)) &&& charMask P b).toNat ::
              (t.1 ++ r.1)) + (2 ^ b) ^ ((digit ||| (newDigit <<< availableBits) &&& charMask
                P b).toNat ::
              (t.1 ++ r.1)).length * r.2.1.toNat
          = N % 2 ^ b + 2 ^ b * (ofDigits (2 ^ b) t.1 + (2 ^ b) ^ t.1.length *
              (ofDigits (2 ^ b) r.1 + (2 ^ b) ^ r.1.length * r.2.1.toNat)) := by
            rw [ofDigits_cons, ofDigits_append, hc1, length_cons, length_append]
            ring
        _ = N % 2 ^ b + 2 ^ b * (N / 2 ^ b) + (2 ^ b) ^ t.1.length * 2 ^ t.2.2 * 2 ^ b *
          value ds := by
            rw [h2, ← h1]
            ring
        _ = N + 2 ^ P.digitBits * 2 ^ availableBits * value ds := by rw [mod_add_div, hpow]
        _ = digit.toNat + 2 ^ availableBits * value (newDigit :: ds) := by
            rw [value_cons]
            ring

theorem takeAllChars_eq : ∀ (fuel : ℕ) (digit : P.Digit), digit.toNat < 2 ^ fuel →
    takeAllChars b (charMask P b) fuel digit = digits (2 ^ b) digit.toNat
  | 0, digit, h => by
    have h0 : digit.toNat = 0 := by simpa using h
    rw [takeAllChars, h0, digits_zero]
  | fuel + 1, digit, h => by
    rw [takeAllChars]
    split_ifs with h0
    · rw [h0, toNat_zero, digits_zero]
    · have hpos : 0 < digit.toNat := toNat_pos_of_ne h0
      have hb2 := two_le_two_pow hb1
      have hsh : (digit >>> b).toNat = digit.toNat / 2 ^ b := by
        rw [BitVec.toNat_ushiftRight, shiftRight_eq_div_pow]
      rw [takeAllChars_eq fuel (digit >>> b) (by
        rw [hsh]
        refine Nat.div_lt_of_lt_mul (lt_of_lt_of_le h ?_)
        rw [pow_succ']
        exact mul_le_mul_right _ hb2), hsh, toNat_and_charMask hb5,
        digits_def' (by omega) hpos]

/-- **The characters are the numeral.** -/
theorem powerOfTwoChars_eq (hx : x.Normalized) (hne : x.digits ≠ []) :
    powerOfTwoChars x b (charMask P b) = digits (2 ^ b) (value x.digits) := by
  have hb2 := two_le_two_pow hb1
  have htop := top_ne_zero hx hne
  obtain ⟨n, hn, hdig, hsplit⟩ := split_top hne
  have hlen : x.length - 1 = n := by
    show x.digits.length - 1 = n
    omega
  have hl := digitsLoop_spec hb1 hb5 (x.digits.take n) 0 0 (by omega) (by rw [toNat_zero]; simp)
  unfold powerOfTwoChars
  dsimp only
  rw [hdig] at htop ⊢
  rw [hlen]
  set r := digitsLoop b (charMask P b) (x.digits.take n) 0 0
  set msd := x.digits.getD n 0
  obtain ⟨hc1, hc2⟩ := current_spec hb1 hb5 msd hl.available hl.digit_lt
  rw [takeAllChars_eq hb1 hb5 _ _ (BitVec.isLt _), hc1, hc2]
  set N := r.2.1.toNat + 2 ^ r.2.2 * msd.toNat with hN
  have hmsd : 0 < msd.toNat := toNat_pos_of_ne htop
  have hNpos : 0 < N := by
    have : 0 < 2 ^ r.2.2 * msd.toNat := mul_pos (by positivity) hmsd
    omega
  rw [← digits_def' (by omega) hNpos]
  refine IsNumeral.eq_digits (by omega) ?_
  have happ := (isNumeral_digits (by omega) N).append
    (digits_ne_nil_iff_ne_zero.mpr (by omega)) hl.lt
  have heq : ofDigits (2 ^ b) r.1 + (2 ^ b) ^ r.1.length * N = value x.digits := by
    have h1 := hl.eq
    have h2 := hl.bits
    rw [toNat_zero, pow_zero, one_mul, zero_add] at h1
    rw [length_take, min_eq_left (by omega), zero_add] at h2
    have hpow : (2 ^ P.digitBits) ^ n = (2 ^ b) ^ r.1.length * 2 ^ r.2.2 := by
      rw [← pow_mul, ← pow_mul, ← pow_add, h2]
    rw [hsplit, hpow, ← h1]
    ring
  rwa [heq] at happ

omit hb5 in
/-- **The buffer has exactly the right size.** -/
theorem charsRequired_eq (hx : x.Normalized) (hne : x.digits ≠ []) :
    charsRequired x b = (digits (2 ^ b) (value x.digits)).length + x.sign.toNat := by
  have hb2 := two_le_two_pow hb1
  obtain ⟨h0, hlow, hhigh⟩ := bitLength_spec hx hne
  unfold charsRequired
  dsimp only
  set bitLength := x.length * P.digitBits - clz (x.digit (x.length - 1))
  congr 1
  set k := (digits (2 ^ b) (value x.digits)).length with hk
  have hpos := hx.value_pos hne
  have hkpos : 0 < k := by
    exact length_pos_iff.mpr (digits_ne_nil_iff_ne_zero.mpr (by omega))
  have h1 : (2 ^ b) ^ (k - 1) ≤ value x.digits :=
    (lt_digits_length_iff (by omega) _).mp (by omega)
  have h2 : value x.digits < (2 ^ b) ^ k :=
    (digits_length_le_iff (by omega) _).mp le_rfl
  rw [← pow_mul] at h1 h2
  have h3 : b * (k - 1) < bitLength :=
    (Nat.pow_lt_pow_iff_right (by norm_num)).mp (lt_of_le_of_lt h1 hhigh)
  have h4 : bitLength - 1 < b * k :=
    (Nat.pow_lt_pow_iff_right (by norm_num)).mp (lt_of_le_of_lt hlow h2)
  obtain ⟨j, hj⟩ : ∃ j, k = j + 1 := ⟨k - 1, by omega⟩
  rw [hj, mul_add] at h4
  rw [hj, Nat.add_sub_cancel] at h3
  refine Nat.div_eq_of_lt_le ?_ ?_
  · rw [hj, add_mul, mul_comm]
    omega
  · rw [hj, add_mul, add_mul, mul_comm]
    omega
end

theorem canonicalNumeral_toInt (hx : x.Normalized) (radix : ℕ) :
    canonicalNumeral radix x.toInt = (if x.sign then [minus] else []) ++
      ((digits radix (value x.digits)).map radixDigit).reverse := by
  rw [canonicalNumeral, JSBigInt.natAbs_toInt]
  simp only [hx.toInt_neg_iff]

theorem length_canonicalNumeral (hx : x.Normalized) (radix : ℕ) :
    (canonicalNumeral radix x.toInt).length =
      (digits radix (value x.digits)).length + x.sign.toNat := by
  rw [canonicalNumeral_toInt hx, length_append, length_reverse, length_map,
    add_comm]
  cases x.sign <;> rfl

theorem toStringBasePowerOfTwo_ok {vm vm' : VM P} (hx : x.Normalized) (hne : x.digits ≠ [])
    (h2 : 2 ≤ radix) (h36 : radix ≤ 36) (hp : hasOneBitSet radix = true)
    (h : toStringBasePowerOfTwo x radix vm = .ok (s, vm')) :
    s = canonicalNumeral radix x.toInt := by
  obtain ⟨hb1, hb5, hr⟩ := hasOneBitSet_spec radix (by omega) h2 hp
  have hmask : BitVec.ofNat P.digitBits (radix - 1) = charMask P (ctz radix) := by
    rw [charMask, ← hr]
  have hchars := powerOfTwoChars_eq hb1 hb5 hx hne
  have hreq := charsRequired_eq hb1 hx hne
  rw [← hr] at hchars hreq
  unfold toStringBasePowerOfTwo at h
  split_ifs at h with hm hs
  · cases h
  · obtain ⟨rfl, -⟩ := pure_ok.mp h
    rw [hmask, hchars, hreq, canonicalNumeral_toInt hx, hs]
    simp
  · obtain ⟨rfl, -⟩ := pure_ok.mp h
    rw [hmask, hchars, hreq, canonicalNumeral_toInt hx]
    simp [hs]

/-! ## Other radices -/

/-- `nz` is the position of the most significant nonzero digit. -/
structure TopAt (ds : List P.Digit) (nz : ℕ) : Prop where
  lt : nz < ds.length
  lower : (2 ^ P.digitBits) ^ nz ≤ value ds
  upper : value ds < (2 ^ P.digitBits) ^ (nz + 1)

theorem TopAt.divLoop {ds : List P.Digit} {nz : ℕ} {divisor : P.Digit} (h : TopAt ds nz)
    (hnz : 0 < nz) (hd : divisor ≠ 0) : TopAt (divLoop divisor ds).1
      (if (divLoop divisor ds).1.getD nz 0 = 0 then nz - 1 else nz) := by
  obtain ⟨h1, h2, -⟩ := divLoop_spec hd ds
  set q := (DigitLoops.divLoop divisor ds).1
  have hlt := h.lt
  have hdlt := divisor.isLt
  have hdpos : 0 < divisor.toNat := toNat_pos_of_ne hd
  have hup : value q < (2 ^ P.digitBits) ^ (nz + 1) := by
    rw [h2]
    exact lt_of_le_of_lt (div_le_self _ _) h.upper
  -- the digits of the quotient from `nz` on are digit `nz` alone
  have hdrop : value (q.drop nz) = (q.getD nz 0).toNat := by
    rw [value_drop_succ (by omega), value_drop_eq_zero (by omega) hup, mul_zero, add_zero]
  have hsplit := value_take_add_drop q (show nz ≤ q.length by omega)
  rw [hdrop] at hsplit
  have hlow := value_lt (q.take nz)
  rw [length_take, min_eq_left (by omega)] at hlow
  split_ifs with h0
  · refine ⟨by omega, ?_, ?_⟩
    · rw [h2, le_div_iff_mul_le hdpos]
      calc (2 ^ P.digitBits) ^ (nz - 1) * divisor.toNat
          ≤ (2 ^ P.digitBits) ^ (nz - 1) * 2 ^ P.digitBits := mul_le_mul_left _ hdlt.le
        _ = (2 ^ P.digitBits) ^ nz := by rw [← pow_succ, Nat.sub_add_cancel hnz]
        _ ≤ value ds := h.lower
    · rwa [Nat.sub_add_cancel hnz, hsplit, h0]
  · refine ⟨by omega, ?_, hup⟩
    have := mul_le_mul_left ((2 ^ P.digitBits) ^ nz) (toNat_pos_of_ne h0)
    omega

/-- **The chunks.** They are the low digits of the dividend, and one nonzero digit is left. -/
theorem chunkLoop_spec {chunkChars : ℕ} {chunkDivisor : P.Digit} (hr : 2 ≤ radix)
    (hc : 0 < chunkChars) (hd : chunkDivisor.toNat = radix ^ chunkChars) :
    ∀ (fuel : ℕ) (ds : List P.Digit) (nz : ℕ), 0 < nz → TopAt ds nz → value ds < 2 ^ fuel →
      (∀ c ∈ (chunkLoop radix chunkChars chunkDivisor fuel ds nz).1, c < radix) ∧
      TopAt (chunkLoop radix chunkChars chunkDivisor fuel ds nz).2 0 ∧
      ofDigits radix (chunkLoop radix chunkChars chunkDivisor fuel ds nz).1 +
          radix ^ (chunkLoop radix chunkChars chunkDivisor fuel ds nz).1.length *
            value (chunkLoop radix chunkChars chunkDivisor fuel ds nz).2 = value ds
  | 0, ds, nz, hnz, ht, hf => by
    have h1 := ht.lower
    have h2 : 1 ≤ (2 ^ P.digitBits) ^ nz := one_le_pow _ _ (by positivity)
    have h3 := P.base_ge
    omega
  | fuel + 1, ds, nz, hnz, ht, hf => by
    have hdpos : 2 ≤ chunkDivisor.toNat := by
      rw [hd]
      calc 2 ≤ radix := hr
        _ = radix ^ 1 := (pow_one _).symm
        _ ≤ radix ^ chunkChars := Nat.pow_le_pow_right (by omega) hc
    have hd0 : chunkDivisor ≠ 0 := fun h0 => by rw [h0, toNat_zero] at hdpos; omega
    obtain ⟨h1, h2, h3⟩ := divLoop_spec hd0 ds
    have htop := ht.divLoop hnz hd0
    rw [chunkLoop]
    dsimp only
    set q := (DigitLoops.divLoop chunkDivisor ds).1
    set chunk := (DigitLoops.divLoop chunkDivisor ds).2
    set nz' := if q.getD nz 0 = 0 then nz - 1 else nz
    have hchunk : ofDigits radix (lowDigits radix chunkChars chunk.toNat) = chunk.toNat := by
      rw [ofDigits_lowDigits, ← hd, h3, mod_mod]
    have hval : chunk.toNat + radix ^ chunkChars * value q = value ds := by
      rw [h2, h3, ← hd]
      exact mod_add_div _ _
    split_ifs with hgo
    · have hlt : value q < 2 ^ fuel := by
        rw [h2]
        refine Nat.div_lt_of_lt_mul (lt_of_lt_of_le hf ?_)
        rw [pow_succ']
        exact mul_le_mul_right _ hdpos
      obtain ⟨i1, i2, i3⟩ := chunkLoop_spec hr hc hd fuel q nz' hgo htop hlt
      refine ⟨fun c hc' => ?_, i2, ?_⟩
      · rcases mem_append.mp hc' with hc' | hc'
        · exact lowDigits_lt (by omega) _ _ c hc'
        · exact i1 c hc'
      · rw [ofDigits_append, length_append, length_lowDigits, hchunk, pow_add, add_assoc,
          mul_assoc, ← mul_add, i3, hval]
    · have h0 : nz' = 0 := by omega
      rw [h0] at htop
      refine ⟨lowDigits_lt (by omega) _ _, htop, ?_⟩
      rw [hchunk, length_lowDigits, hval]

theorem radixDigit_eq_zero_iff : ∀ d < 36, radixDigit d = '0'.toNat ↔ d = 0 := by decide

theorem removeLeadingZeroes_eq {L : List ℕ} {n : ℕ} (hL : IsNumeral radix L n) (h36 : radix ≤ 36)
    (hne : L ≠ []) : removeLeadingZeroes (L.map radixDigit) = L.map radixDigit := by
  have hlast : ¬ ((L.map radixDigit).getLast (by simpa using hne) == '0'.toNat) = true := by
    rw [getLast_map, beq_iff_eq]
    intro h0
    have hlt := hL.lt _ (getLast_mem hne)
    exact hL.top hne ((radixDigit_eq_zero_iff _ (by omega)).mp h0)
  have heq : (L.map radixDigit).rdropWhile (· == '0'.toNat) = L.map radixDigit :=
    rdropWhile_eq_self_iff.mpr fun _ => hlast
  rw [removeLeadingZeroes, heq, if_neg (by simpa using hne)]

section
variable (hx : x.Normalized) (hne : x.digits ≠ []) (h2 : 2 ≤ radix)
include hx hne h2

theorem finish_eq (h36 : radix ≤ 36) {chars : List ℕ} (hc : chars = digits radix (value x.digits)) :
    toStringGeneric.finish chars x.sign = canonicalNumeral radix x.toInt := by
  have hpos := hx.value_pos hne
  rw [hc, toStringGeneric.finish, removeLeadingZeroes_eq (isNumeral_digits (by omega) _) h36
    (digits_ne_nil_iff_ne_zero.mpr (by omega)), canonicalNumeral_toInt hx, reverse_append]
  cases x.sign <;> rfl

theorem toStringGeneric_ok {vm vm' : VM P} (h36 : radix ≤ 36) (hp : hasOneBitSet radix = false)
    (h : toStringGeneric x radix vm = .ok (s, vm')) : s = canonicalNumeral radix x.toInt := by
  have hlen0 : 0 < x.digits.length := length_pos_iff.mpr hne
  unfold toStringGeneric at h
  split_ifs at h with hm hone
  · cases h
  · obtain ⟨rfl, -⟩ := pure_ok.mp h
    have hval := value_of_length_one hone
    have hpos := hx.value_pos hne
    refine finish_eq hx hne h2 h36 ?_
    rw [hval, printLoop_eq (by omega) (BitVec.isLt _) (by omega)]
  · obtain ⟨c, vm1, -, h⟩ := bind_ok.mp h
    obtain ⟨rfl, -⟩ := pure_ok.mp h
    obtain ⟨hc1, hc2, -⟩ := chunkDivisor_spec h2 h36 hp
    have hlen : x.length = x.digits.length := rfl
    have htop : TopAt x.digits (x.length - 1) := by
      refine ⟨by omega, hx.pow_le_value hne, ?_⟩
      rw [hlen, Nat.sub_add_cancel hlen0]
      exact value_lt _
    have hfuel : value x.digits < 2 ^ (x.length * P.digitBits) := by
      rw [mul_comm, pow_mul]
      exact value_lt _
    obtain ⟨r1, r2, r3⟩ := chunkLoop_spec h2 hc1 hc2 (x.length * P.digitBits) x.digits
      (x.length - 1) (by omega) htop hfuel
    refine finish_eq hx hne h2 h36 ?_
    set r := chunkLoop radix _ _ (x.length * P.digitBits) x.digits (x.length - 1)
    have hlast : value r.2 = (r.2.getD 0 0).toNat := by
      have h0 := r2.lt
      rw [← drop_zero (l := r.2), value_drop_succ h0,
        value_drop_eq_zero (by omega) (by have := r2.upper; simpa using this)]
      rfl
    have hpos : 0 < value r.2 := by
      have := r2.lower
      rw [pow_zero] at this
      omega
    rw [printLoop_eq (by omega) (BitVec.isLt _) (by omega), ← hlast]
    refine IsNumeral.eq_digits (by omega) ?_
    rw [← r3]
    exact (isNumeral_digits (by omega) _).append
      (digits_ne_nil_iff_ne_zero.mpr (by omega)) r1

/-- **Printing is canonical**, whichever printer is taken. -/
theorem toString_ok {vm vm' : VM P} (h36 : radix ≤ 36) (h : toString x radix vm = .ok (s, vm')) :
    s = canonicalNumeral radix x.toInt := by
  rw [toString, if_neg (fun h0 => hne (JSBigInt.isZero_iff.mp h0))] at h
  split_ifs at h with hp
  · exact toStringBasePowerOfTwo_ok hx hne h2 h36 hp h
  · exact toStringGeneric_ok hx hne h2 h36 (Bool.eq_false_iff.mpr hp) h
end

/-- Printing succeeds if no allocation fails: no BigInt is long enough to exceed
`JSString::MaxLength`. -/
theorem toString_unlimited {vm : VM P} (hx : x.length ≤ maxLength P) (h2 : 2 ≤ radix)
    (h36 : radix ≤ 36) (hvm : VM.Unlimited vm) : ∃ s vm', toString x radix vm = .ok (s, vm') := by
  have hbits : x.length * P.digitBits ≤ 2 ^ 20 :=
    (mul_le_mul_right _ hx).trans (div_mul_le_self _ _)
  have hsign : x.sign.toNat ≤ 1 := Bool.toNat_le x.sign
  unfold toString
  split_ifs with hz hp
  · exact ⟨_, vm, rfl⟩
  · obtain ⟨-, hb5, -⟩ := hasOneBitSet_spec radix (by omega) h2 hp
    have hreq : ¬ charsRequired x (ctz radix) > maxStringLength := by
      unfold charsRequired maxStringLength
      dsimp only
      set bitLength := x.length * P.digitBits - clz (x.digit (x.length - 1))
      have h1 := div_le_self (bitLength + ctz radix - 1) (ctz radix)
      omega
    rw [toStringBasePowerOfTwo, if_neg hreq]
    exact ⟨_, vm, rfl⟩
  · obtain ⟨ht1, ht2, -, -, -⟩ := maxBitsPerCharTable_spec radix (by omega) h2
    have hreq : ¬ calculateMaximumCharactersRequired x.length radix
      (x.digit (x.length - 1)) x.sign >
        maxStringLength := by
      unfold calculateMaximumCharactersRequired maxStringLength
      dsimp only
      rw [show bitsPerCharTableMultiplier = 32 from rfl]
      have h1 := div_le_self ((x.length * P.digitBits - clz (x.digit (x.length - 1))) * 32 +
        (maxBitsPerCharTable.getD radix 0 - 1 - 1)) (maxBitsPerCharTable.getD radix 0 - 1)
      omega
    unfold toStringGeneric
    split_ifs with hone
    · exact ⟨_, vm, rfl⟩
    · obtain ⟨c, vm1, hc, -⟩ := (createWithLength_returns _).unlimited hx hvm
      exact ⟨_, vm1, bind_ok.mpr ⟨c, vm1, hc, rfl⟩⟩

end JscAndroid.BigInt.ToString
