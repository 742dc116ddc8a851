import JscAndroid.Arith.Limbs

/-!
# Bits of word lists and of integers

`testBit_value` finds a bit of a little-endian word list in the word that holds it. An integer is
read as an infinite two's complement by Mathlib's `Int.testBit`; `HasBits z b` says that `z` has the
bits `b`, and `HasBits.unique` that they determine it.
-/

namespace JscAndroid.Arith.Bits

open Limbs BitVec Nat

variable {w : ℕ}

/-! ## Single bits and masks -/

theorem toNat_one_shiftLeft {s : ℕ} (hs : s < w) : ((1 : BitVec w) <<< s).toNat = 2 ^ s := by
  have hone : (1 : BitVec w).toNat = 1 := by
    exact mod_eq_of_lt (Nat.one_lt_two_pow (by omega))
  rw [toNat_shiftLeft, hone, Nat.shiftLeft_eq, one_mul,
    mod_eq_of_lt (Nat.pow_lt_pow_right (by omega) hs)]

theorem toNat_and_mask (d : BitVec w) {s : ℕ} (hs : s < w) :
    (d &&& ((1 : BitVec w) <<< s - 1)).toNat = d.toNat % 2 ^ s := by
  have hone : (1 : BitVec w).toNat = 1 := by
    exact mod_eq_of_lt (Nat.one_lt_two_pow (by omega))
  have hle : (1 : BitVec w) ≤ (1 : BitVec w) <<< s := by
    rw [le_def, toNat_one_shiftLeft hs, hone]
    exact Nat.one_le_two_pow
  rw [toNat_and, toNat_sub_of_le hle, toNat_one_shiftLeft hs, hone,
    and_two_pow_sub_one_eq_mod]

theorem toNat_and_bit (d : BitVec w) {s : ℕ} (hs : s < w) :
    (d &&& ((1 : BitVec w) <<< s)).toNat = 2 ^ s * (d.toNat / 2 ^ s % 2) := by
  rw [toNat_and, toNat_one_shiftLeft hs, and_two_pow, testBit_eq_decide_div_mod_eq]
  rcases mod_two_eq_zero_or_one (d.toNat / 2 ^ s) with h | h <;> simp [h]

theorem toNat_shiftLeft_shiftRight (d : BitVec w) {k : ℕ} (hk : k ≤ w) :
    ((d <<< (w - k)) >>> (w - k)).toNat = d.toNat % 2 ^ k := by
  have hB : 2 ^ w = 2 ^ k * 2 ^ (w - k) := by rw [← pow_add, Nat.add_sub_cancel' hk]
  rw [toNat_ushiftRight, toNat_shiftLeft, shiftRight_eq_div_pow,
    Nat.shiftLeft_eq, hB, mul_mod_mul_right, Nat.mul_div_cancel _ (by positivity)]

theorem toNat_or_of_dvd {a b : BitVec w} {k : ℕ} (ha : 2 ^ k ∣ a.toNat) (hb : b.toNat < 2 ^ k) :
    (a ||| b).toNat = a.toNat + b.toNat := by
  obtain ⟨c, hc⟩ := ha
  rw [toNat_or, hc, two_pow_add_eq_or_of_lt hb]

/-! ## Word lists -/

theorem testBit_value (hw : 0 < w) : ∀ (ds : List (BitVec w)) (i : ℕ),
    (value ds).testBit i = (ds.getD (i / w) 0).getLsbD (i % w)
  | [], i => by simp
  | d :: ds, i => by
    rw [value_cons, Nat.add_comm, testBit_two_pow_mul_add _ d.isLt]
    split_ifs with h
    · rw [div_eq_of_lt h, mod_eq_of_lt h]
      rfl
    · have hle : w ≤ i := Nat.le_of_not_lt h
      rw [testBit_value hw ds, div_eq_sub_div hw hle, List.getD_cons_succ,
        mod_eq_sub_mod hle]

/-- A word list built word by word with `op` has the bits given by `f`. -/
theorem testBit_value_of_getD (hw : 0 < w) (op : BitVec w → BitVec w → BitVec w)
    (f : Bool → Bool → Bool) (hop : ∀ a b i, i < w →
      (op a b).getLsbD i = f (a.getLsbD i) (b.getLsbD i))
    {xs ys rs : List (BitVec w)} (h : ∀ j, rs.getD j 0 = op (xs.getD j 0) (ys.getD j 0)) (i : ℕ) :
    (value rs).testBit i = f ((value xs).testBit i) ((value ys).testBit i) := by
  rw [testBit_value hw, testBit_value hw, testBit_value hw, h, hop _ _ _ (mod_lt _ hw)]

/-- The integer `z` has the bits `b` in two's complement. -/
def HasBits (z : ℤ) (b : ℕ → Bool) : Prop := ∀ i, z.testBit i = b i

theorem testBit_natCast (n i : ℕ) : (n : ℤ).testBit i = n.testBit i := rfl

/-- The bits of a negative number are those of its predecessor's magnitude, inverted. -/
theorem testBit_neg_succ (n i : ℕ) : (-((n : ℤ) + 1)).testBit i = !n.testBit i := by
  rfl

/-- **Bits determine the integer.** -/
theorem HasBits.unique {y z : ℤ} {b : ℕ → Bool} (hy : HasBits y b) (hz : HasBits z b) : y = z := by
  -- beyond the length of both magnitudes the bits show the sign
  have hbig : ∀ m n : ℕ, ∃ i, m.testBit i = false ∧ n.testBit i = false := fun m n =>
    ⟨m + n, testBit_lt_two_pow (lt_of_le_of_lt (le_add_right m n) Nat.lt_two_pow_self),
      testBit_lt_two_pow (lt_of_le_of_lt (le_add_left n m) Nat.lt_two_pow_self)⟩
  have h : ∀ i, y.testBit i = z.testBit i := fun i => (hy i).trans (hz i).symm
  cases y with
  | ofNat m =>
    cases z with
    | ofNat n => exact congrArg Int.ofNat (eq_of_testBit_eq h)
    | negSucc n =>
      obtain ⟨i, h1, h2⟩ := hbig m n
      have := h i
      simp only [Int.testBit, h1, h2] at this
      cases this
  | negSucc m =>
    cases z with
    | ofNat n =>
      obtain ⟨i, h1, h2⟩ := hbig m n
      have := h i
      simp only [Int.testBit, h1, h2] at this
      cases this
    | negSucc n =>
      refine congrArg Int.negSucc (eq_of_testBit_eq fun i => ?_)
      have := h i
      simpa [Int.testBit] using this

end JscAndroid.Arith.Bits
