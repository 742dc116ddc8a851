import Mathlib

/-!
# Counting the bits of a machine word

`bitCount` of StdLibExtras.h adds up the bits of a 32-bit word in parallel: within pairs of bits,
within groups of four, within bytes, and a multiplication sums up the bytes. Read as a numeral in
base 256, each of these steps works on the digits one by one.
-/

namespace JscAndroid.Wtf.BitCount

open BitVec Nat

/-- `bitCount` of an `unsigned`. -/
def bitCount32 (bits : BitVec 32) : BitVec 32 :=
  let bits := bits - ((bits >>> 1) &&& 0x55555555#32)
  let bits := (bits &&& 0x33333333#32) + ((bits >>> 2) &&& 0x33333333#32)
  (((bits + (bits >>> 4)) &&& 0xF0F0F0F#32) * 0x1010101#32) >>> 24

/-- `bitCount` of a `uint64_t`. -/
def bitCount (bits : BitVec 64) : ℕ :=
  (bitCount32 (bits.setWidth 32)).toNat + (bitCount32 ((bits >>> 32).setWidth 32)).toNat

/-! ## The steps, byte by byte -/

/-- A shifted numeral under a mask whose digits leave room for the shift. -/
theorem shiftRight_and_digit (k : ℕ) {u d m M : ℕ} (hd : d < 256) (hk : k ≤ 8)
    (hm : m < 2 ^ (8 - k)) :
    (256 * u + d) / 2 ^ k &&& (256 * M + m) = 256 * (u / 2 ^ k &&& M) + (d / 2 ^ k &&& m) := by
  have hm' : m < 2 ^ 8 := hm.trans_le (Nat.pow_le_pow_right two_pos (sub_le 8 k))
  refine eq_of_testBit_eq fun i => ?_
  rw [testBit_and, testBit_div_two_pow, testBit_two_pow_mul_add u (i := 8) hd,
    testBit_two_pow_mul_add M hm',
    testBit_two_pow_mul_add _ (and_lt_two_pow _ hm'), testBit_and, testBit_and,
    testBit_div_two_pow, testBit_div_two_pow]
  by_cases hi : i < 8
  · by_cases hik : i + k < 8
    · simp [hi, hik]
    · -- the shift brings in bits of the next digit only where the mask has none
      have hi' : 8 - k ≤ i := by omega
      simp [hi, testBit_lt_two_pow (hm.trans_le (Nat.pow_le_pow_right two_pos hi'))]
  · rw [if_neg hi, if_neg hi, if_neg (by omega), Nat.sub_add_comm (not_lt.mp hi)]

/-- What the first step makes of a byte: the sums of its pairs of bits. -/
def pairSums (d : ℕ) : ℕ := d - (d / 2 &&& 0x55)

/-- What the second step makes of it: the sums of its two halves. -/
def halfSums (d : ℕ) : ℕ := (pairSums d &&& 0x33) + (pairSums d / 4 &&& 0x33)

theorem pairSums_le (d : ℕ) : pairSums d ≤ d := sub_le _ _

theorem bytes_spec : ∀ d < 256, (d / 2 &&& 0x55) ≤ d ∧ halfSums d % 16 ≤ 4 ∧ halfSums d / 16 ≤ 4 ∧
    halfSums d % 16 + halfSums d / 16 = (BitVec.ofNat 8 d).cpop.toNat := by
  decide +kernel

/-- The numeral with these four digits. -/
def ofBytes (a b c d : ℕ) : ℕ := 256 * (256 * (256 * a + b) + c) + d

theorem shiftRight_and_bytes (k a : ℕ) {b c d m : ℕ} (hb : b < 256) (hc : c < 256) (hd : d < 256)
    (hk : k ≤ 8) (hm : m < 2 ^ (8 - k)) :
    ofBytes a b c d / 2 ^ k &&& ofBytes m m m m =
      ofBytes (a / 2 ^ k &&& m) (b / 2 ^ k &&& m) (c / 2 ^ k &&& m) (d / 2 ^ k &&& m) := by
  unfold ofBytes
  rw [shiftRight_and_digit k hd hk hm, shiftRight_and_digit k hc hk hm,
    shiftRight_and_digit k hb hk hm]

section
variable {a b c d : ℕ} (ha : a < 256) (hb : b < 256) (hc : c < 256) (hd : d < 256)
include ha hb hc hd

theorem pairSums_bytes : ofBytes a b c d - (ofBytes a b c d / 2 &&& 0x55555555) =
    ofBytes (pairSums a) (pairSums b) (pairSums c) (pairSums d) := by
  have h := shiftRight_and_bytes 1 a hb hc hd (by decide) (m := 0x55) (by decide)
  rw [show ofBytes 0x55 0x55 0x55 0x55 = 0x55555555 by rfl, pow_one] at h
  have h1 := (bytes_spec a ha).1
  have h2 := (bytes_spec b hb).1
  have h3 := (bytes_spec c hc).1
  have h4 := (bytes_spec d hd).1
  rw [h]
  unfold ofBytes pairSums
  omega

omit ha in
theorem halfSums_bytes {x : ℕ}
    (h : x = ofBytes (pairSums a) (pairSums b) (pairSums c) (pairSums d)) :
    (x &&& 0x33333333) + (x / 4 &&& 0x33333333) =
      ofBytes (halfSums a) (halfSums b) (halfSums c) (halfSums d) := by
  have h2 := (pairSums_le b).trans_lt hb
  have h3 := (pairSums_le c).trans_lt hc
  have h4 := (pairSums_le d).trans_lt hd
  have hmask : ofBytes 0x33 0x33 0x33 0x33 = 0x33333333 := rfl
  have hand := shiftRight_and_bytes 0 (pairSums a) h2 h3 h4 (by decide) (m := 0x33) (by decide)
  have hshift := shiftRight_and_bytes 2 (pairSums a) h2 h3 h4 (by decide) (m := 0x33) (by decide)
  simp only [pow_zero, Nat.div_one, hmask] at hand
  rw [hmask, show (2 : ℕ) ^ 2 = 4 by rfl] at hshift
  subst h
  rw [hand, hshift]
  unfold ofBytes halfSums
  omega
end

/-- The multiplication leaves the sum of the four digits in the top one. -/
theorem mul_bytes {a b c d : ℕ} (h : a + b + c + d < 256) :
    ofBytes a b c d * 0x1010101 % 2 ^ 32 / 2 ^ 24 = a + b + c + d := by
  have hlow : ofBytes (a + b + c + d) (b + c + d) (c + d) d < 2 ^ 32 := by
    unfold ofBytes
    omega
  have hprod : ofBytes a b c d * 0x1010101 =
      ofBytes (a + b + c + d) (b + c + d) (c + d) d + 2 ^ 32 * ofBytes 0 a (a + b) (a + b + c) := by
    unfold ofBytes
    ring
  rw [hprod, add_mul_mod_self_left, mod_eq_of_lt hlow]
  unfold ofBytes
  omega

theorem sum_bytes {a b c d : ℕ} (ha : a % 16 ≤ 4 ∧ a / 16 ≤ 4) (hb : b % 16 ≤ 4 ∧ b / 16 ≤ 4)
    (hc : c % 16 ≤ 4 ∧ c / 16 ≤ 4) (hd : d % 16 ≤ 4 ∧ d / 16 ≤ 4) :
    (ofBytes a b c d + ofBytes a b c d / 16 &&& 0xF0F0F0F) * 0x1010101 % 2 ^ 32 / 2 ^ 24 =
      (a % 16 + a / 16) + (b % 16 + b / 16) + (c % 16 + c / 16) + (d % 16 + d / 16) := by
  have hsum : ofBytes a b c d + ofBytes a b c d / 16 =
      ofBytes (a + a / 16) (b + b / 16 + 16 * (a % 16)) (c + c / 16 + 16 * (b % 16))
        (d + d / 16 + 16 * (c % 16)) := by
    unfold ofBytes
    omega
  have hand := shiftRight_and_bytes 0 (a + a / 16) (b := b + b / 16 + 16 * (a % 16))
    (c := c + c / 16 + 16 * (b % 16)) (d := d + d / 16 + 16 * (c % 16)) (m := 0xF) (by omega)
    (by omega) (by omega) (by decide) (by decide)
  have hmask (y : ℕ) : y &&& 0xF = y % 16 := and_two_pow_sub_one_eq_mod y 4
  simp only [pow_zero, Nat.div_one, hmask, show ofBytes 0xF 0xF 0xF 0xF = 0xF0F0F0F by rfl] at hand
  have hhalf {x : ℕ} (e : ℕ) (hx : x % 16 ≤ 4 ∧ x / 16 ≤ 4) :
      (x + x / 16 + 16 * e) % 16 = x % 16 + x / 16 := by omega
  rw [hsum, hand, hhalf _ hb, hhalf _ hc, hhalf _ hd, ← Nat.add_zero (a + a / 16), hhalf 0 ha,
    mul_bytes (by omega)]

/-! ## The count -/

theorem exists_append {m n : ℕ} (x : BitVec (m + n)) :
    ∃ (y : BitVec m) (z : BitVec n), x = y ++ z :=
  ⟨_, _, extractLsb'_append_extractLsb'.symm⟩

theorem toNat_append_eq {m n : ℕ} (y : BitVec m) (z : BitVec n) :
    (y ++ z).toNat = 2 ^ n * y.toNat + z.toNat := by
  rw [toNat_append, Nat.shiftLeft_eq, mul_comm, two_pow_add_eq_or_of_lt z.isLt]

theorem toNat_bitCount32_of_bytes {bits : BitVec 32} {a b c d : ℕ} (ha : a < 256) (hb : b < 256)
    (hc : c < 256) (hd : d < 256) (h : bits.toNat = ofBytes a b c d) :
    (bitCount32 bits).toNat = (halfSums a % 16 + halfSums a / 16) +
      (halfSums b % 16 + halfSums b / 16) + (halfSums c % 16 + halfSums c / 16) +
      (halfSums d % 16 + halfSums d / 16) := by
  have hpairs : (bits - ((bits >>> 1) &&& 0x55555555#32)).toNat =
      ofBytes (pairSums a) (pairSums b) (pairSums c) (pairSums d) := by
    have hle : ((bits >>> 1) &&& 0x55555555#32).toNat ≤ bits.toNat := by
      exact and_le_left.trans (div_le_self _ _)
    rw [toNat_sub_of_le hle, toNat_and, toNat_ushiftRight, h]
    exact pairSums_bytes ha hb hc hd
  unfold bitCount32
  dsimp only
  generalize bits - ((bits >>> 1) &&& 0x55555555#32) = pairs at hpairs ⊢
  have hhalves : ((pairs &&& 0x33333333#32) + ((pairs >>> 2) &&& 0x33333333#32)).toNat =
      ofBytes (halfSums a) (halfSums b) (halfSums c) (halfSums d) := by
    have hlt (y : ℕ) : y &&& 0x33333333 < 2 ^ 30 := and_le_right.trans_lt (by decide)
    rw [toNat_add, toNat_and, toNat_and, toNat_ushiftRight,
      shiftRight_eq_div_pow, mod_eq_of_lt]
    · exact halfSums_bytes hb hc hd hpairs
    · have h1 := hlt pairs.toNat
      have h2 := hlt (pairs.toNat / 2 ^ 2)
      change (pairs.toNat &&& 0x33333333) + (pairs.toNat / 2 ^ 2 &&& 0x33333333) < 2 ^ 32
      omega
  generalize (pairs &&& 0x33333333#32) + ((pairs >>> 2) &&& 0x33333333#32) = halves at hhalves ⊢
  have hbytes (x : ℕ) (hx : x < 256) : halfSums x % 16 ≤ 4 ∧ halfSums x / 16 ≤ 4 :=
    ⟨(bytes_spec x hx).2.1, (bytes_spec x hx).2.2.1⟩
  have ha' := hbytes a ha
  have hb' := hbytes b hb
  have hc' := hbytes c hc
  have hd' := hbytes d hd
  have hlt : halves.toNat + halves.toNat / 2 ^ 4 < 2 ^ 32 := by
    have hbound : halves.toNat < 2 ^ 31 := by
      rw [hhalves]
      unfold ofBytes
      omega
    omega
  rw [toNat_ushiftRight, toNat_mul, toNat_and, toNat_add,
    toNat_ushiftRight, shiftRight_eq_div_pow, shiftRight_eq_div_pow,
    mod_eq_of_lt hlt, hhalves]
  exact sum_bytes ha' hb' hc' hd'

theorem toNat_bitCount32 (bits : BitVec 32) : (bitCount32 bits).toNat = bits.cpop.toNat := by
  obtain ⟨abc, d, rfl⟩ := exists_append (n := 8) bits
  obtain ⟨ab, c, rfl⟩ := exists_append (n := 8) abc
  obtain ⟨a, b, rfl⟩ := exists_append (n := 8) ab
  have hvalue : (a ++ b ++ c ++ d).toNat = ofBytes a.toNat b.toNat c.toNat d.toNat := by
    simp only [toNat_append_eq]
    rfl
  have hcount (x : BitVec 8) :
      halfSums x.toNat % 16 + halfSums x.toNat / 16 = x.cpop.toNat := by
    rw [(bytes_spec x.toNat x.isLt).2.2.2, ofNat_toNat, setWidth_eq]
  have h := toNat_bitCount32_of_bytes a.isLt b.isLt c.isLt d.isLt hvalue
  rw [hcount, hcount, hcount, hcount] at h
  rwa [toNat_cpop_append, toNat_cpop_append, toNat_cpop_append]

/-- **The count** is the number of ones. -/
theorem bitCount_eq (bits : BitVec 64) : bitCount bits = bits.cpop.toNat := by
  obtain ⟨y, z, rfl⟩ := exists_append (n := 32) bits
  have hlow : (y ++ z).setWidth 32 = z := setWidth_append_eq_right
  have hhigh : ((y ++ z) >>> 32).setWidth 32 = y := by
    ext i hi
    simp only [getElem_setWidth, getLsbD_ushiftRight, getLsbD_append]
    simp [hi]
  rw [bitCount, hlow, hhigh, toNat_bitCount32, toNat_bitCount32, toNat_cpop_append, add_comm]

end JscAndroid.Wtf.BitCount
