import Mathlib

/-!
# Double precision patterns

A 64-bit pattern is read as sign, biased exponent and fraction. Every finite pattern denotes a
multiple of `2 ^ -1074`, so its value is kept as an integer in that unit (`scaled`).

The patterns from an exponent on are multiples of one power of two, and all others are small
(`dvd_or_lt`); so rounding to that multiple (`roundHalfEven`) is rounding to the nearest pattern
(`isNearestEven_of_scaled`).
-/

namespace JscAndroid.Arith.Binary64

open Nat

/-! ## Patterns -/

def sign (d : BitVec 64) : Bool := d.toNat / 2 ^ 63 = 1

def biasedExponent (d : BitVec 64) : ℕ := d.toNat / 2 ^ 52 % 2 ^ 11

def fraction (d : BitVec 64) : ℕ := d.toNat % 2 ^ 52

def IsNaN (d : BitVec 64) : Prop := biasedExponent d = 2047 ∧ fraction d ≠ 0

def IsInfinite (d : BitVec 64) : Prop := biasedExponent d = 2047 ∧ fraction d = 0

def IsFinite (d : BitVec 64) : Prop := biasedExponent d ≠ 2047

instance (d : BitVec 64) : Decidable (IsNaN d) := inferInstanceAs (Decidable (_ ∧ _))
instance (d : BitVec 64) : Decidable (IsInfinite d) := inferInstanceAs (Decidable (_ ∧ _))
instance (d : BitVec 64) : Decidable (IsFinite d) := inferInstanceAs (Decidable (_ ≠ _))

/-- The magnitude of a finite pattern, in units of `2 ^ -1074`. -/
def scaledMagnitude (d : BitVec 64) : ℕ :=
  if biasedExponent d = 0 then fraction d
  else (2 ^ 52 + fraction d) * 2 ^ (biasedExponent d - 1)

/-- The value of a finite pattern, in units of `2 ^ -1074`. -/
def scaled (d : BitVec 64) : ℤ :=
  if sign d then -(scaledMagnitude d : ℤ) else scaledMagnitude d

theorem biasedExponent_lt (d : BitVec 64) : biasedExponent d < 2048 := mod_lt _ (by norm_num)

theorem fraction_lt (d : BitVec 64) : fraction d < 2 ^ 52 := mod_lt _ (by norm_num)

theorem toNat_eq (d : BitVec 64) :
    d.toNat = (sign d).toNat * 2 ^ 63 + biasedExponent d * 2 ^ 52 + fraction d := by
  unfold sign biasedExponent fraction
  by_cases h : d.toNat / 2 ^ 63 = 1
  · rw [decide_eq_true h, Bool.toNat_true]
    omega
  · rw [decide_eq_false h, Bool.toNat_false]
    omega

theorem fields_of_toNat {d : BitVec 64} {s : Bool} {e f : ℕ}
    (h : d.toNat = s.toNat * 2 ^ 63 + e * 2 ^ 52 + f) (he : e < 2 ^ 11) (hf : f < 2 ^ 52) :
    sign d = s ∧ biasedExponent d = e ∧ fraction d = f := by
  rw [sign, biasedExponent, fraction, h]
  cases s
  · rw [Bool.toNat_false]
    refine ⟨decide_eq_false (by omega), by omega, by omega⟩
  · rw [Bool.toNat_true]
    refine ⟨decide_eq_true (by omega), by omega, by omega⟩

/-- **The grid.** The patterns of exponent `e` and above are multiples of `2 ^ (e - 1)`; those below
are smaller than `2 ^ 52` of these. -/
theorem dvd_or_lt (d : BitVec 64) {e : ℕ} (he : 1 ≤ e) :
    (2 ^ (e - 1) : ℤ) ∣ scaled d ∨ |scaled d| < 2 ^ 52 * 2 ^ (e - 1) := by
  have hf := fraction_lt d
  have habs : |scaled d| = scaledMagnitude d := by
    unfold scaled
    split_ifs
    · rw [abs_neg, abs_cast]
    · exact abs_cast _
  rcases lt_or_ge (biasedExponent d) e with hlt | hge
  · right
    rw [habs]
    unfold scaledMagnitude
    have hone : 1 ≤ 2 ^ (e - 1) := Nat.one_le_two_pow
    split_ifs with h0
    · exact_mod_cast (show fraction d < 2 ^ 52 * 2 ^ (e - 1) by omega)
    · have hpow : 2 * 2 ^ (biasedExponent d - 1) ≤ 2 ^ (e - 1) := by
        rw [← pow_succ']
        exact Nat.pow_le_pow_right (by omega) (by omega)
      have h1 : (2 ^ 52 + fraction d) * 2 ^ (biasedExponent d - 1) <
          2 ^ 53 * 2 ^ (biasedExponent d - 1) :=
        mul_lt_mul_of_pos_right (by omega) (by positivity)
      exact_mod_cast (show (2 ^ 52 + fraction d) * 2 ^ (biasedExponent d - 1) <
        2 ^ 52 * 2 ^ (e - 1) by omega)
  · left
    have hdvd : (2 ^ (e - 1) : ℤ) ∣ scaledMagnitude d := by
      rw [scaledMagnitude, if_neg (by omega)]
      have h1 : 2 ^ (e - 1) ∣ 2 ^ (biasedExponent d - 1) := pow_dvd_pow 2 (by omega)
      exact_mod_cast h1.mul_left _
    unfold scaled
    split_ifs
    · exact (dvd_neg).mpr hdvd
    · exact hdvd

/-! ## Rounding to an integer -/

/-- `v / g` to the nearest integer, ties to even. -/
def roundHalfEven (v g : ℕ) : ℕ :=
  if 2 * (v % g) < g ∨ (2 * (v % g) = g ∧ v / g % 2 = 0) then v / g else v / g + 1

theorem roundHalfEven_eq_iff {v g n : ℕ} (hg : 0 < g) (hlt : v < 2 * n * g) (hn : 0 < n) :
    roundHalfEven v g = 2 * n ↔ (4 * n - 1) * g ≤ 2 * v := by
  have hv := div_add_mod v g
  have hr := mod_lt v hg
  have hq : v / g < 2 * n := Nat.div_lt_of_lt_mul (by rw [mul_comm]; exact hlt)
  unfold roundHalfEven
  generalize v / g = q at hv hq ⊢
  -- away from the last quotient both sides fail
  rcases lt_or_ge (q + 1) (2 * n) with hsmall | hlast
  · have h1 := mul_le_mul_left g (show q + 2 ≤ 2 * n by omega)
    have h2 : (4 * n - 1) * g + g = 2 * (g * (2 * n)) := by
      rw [← succ_mul, succ_eq_add_one, Nat.sub_add_cancel (by omega)]
      ring
    rw [mul_add] at h1
    constructor
    · intro h
      split_ifs at h <;> omega
    · intro h
      omega
  · obtain rfl : q = 2 * n - 1 := by omega
    have h2 : (4 * n - 1) * g = 2 * (g * (2 * n - 1)) + g := by
      obtain ⟨k, rfl⟩ : ∃ k, n = k + 1 := ⟨n - 1, by omega⟩
      rw [show 4 * (k + 1) - 1 = 4 * k + 3 by omega, show 2 * (k + 1) - 1 = 2 * k + 1 by omega]
      ring
    split_ifs with hround <;> omega

section
variable {v g : ℕ} (hg : 0 < g)
include hg

/-- No multiple of `g` is nearer, and only an even one is as near as another. -/
theorem roundHalfEven_nearest (k : ℤ) : |(v : ℤ) - roundHalfEven v g * g| ≤ |(v : ℤ) - k * g| ∧
      (k ≠ roundHalfEven v g → |(v : ℤ) - roundHalfEven v g * g| = |(v : ℤ) - k * g| →
        roundHalfEven v g % 2 = 0) := by
  have hv : (g : ℤ) * (v / g : ℕ) + (v % g : ℕ) = v := by exact_mod_cast div_add_mod v g
  have hr : ((v % g : ℕ) : ℤ) < g := by exact_mod_cast mod_lt v hg
  have hr0 : (0 : ℤ) ≤ (v % g : ℕ) := Int.natCast_nonneg _
  -- a multiple other than the two neighbours is at least `g` away
  have hbelow : k < (v / g : ℕ) → k * g + g ≤ g * (v / g : ℕ) := fun h => by nlinarith
  have habove : ((v / g : ℕ) : ℤ) + 1 < k → g * (v / g : ℕ) + 2 * g ≤ k * g := fun h => by nlinarith
  have hcases : k < (v / g : ℕ) ∨ k = (v / g : ℕ) ∨ k = (v / g : ℕ) + 1 ∨
      ((v / g : ℕ) : ℤ) + 1 < k := by omega
  unfold roundHalfEven
  generalize v % g = r at *
  generalize hq : v / g = q at *
  have hdist : (v : ℤ) - q * g = r := by linarith
  have hdist' : (v : ℤ) - (q + 1) * g = r - g := by linarith
  split_ifs with hround
  · rw [hdist, abs_of_nonneg hr0]
    rcases hcases with h | h | h | h
    · have := hbelow h
      rw [abs_of_nonneg (by linarith)]
      exact ⟨by linarith, fun _ h0 => by exfalso; linarith⟩
    · rw [h, hdist, abs_of_nonneg hr0]
      exact ⟨le_refl _, fun h0 => absurd rfl h0⟩
    · rw [h, abs_of_neg (by linarith)]
      refine ⟨by omega, fun _ h0 => ?_⟩
      rcases hround with h1 | h1
      · omega
      · exact h1.2
    · have := habove h
      rw [abs_of_neg (by linarith)]
      refine ⟨by omega, fun _ h0 => ?_⟩
      omega
  · push_cast
    rw [abs_of_neg (by linarith)]
    rcases hcases with h | h | h | h
    · have := hbelow h
      rw [abs_of_nonneg (by linarith)]
      refine ⟨by omega, fun _ h0 => ?_⟩
      omega
    · rw [h, hdist, abs_of_nonneg hr0]
      refine ⟨by omega, fun _ h0 => ?_⟩
      omega
    · rw [h, abs_of_neg (by linarith)]
      exact ⟨le_refl _, fun h0 => absurd rfl h0⟩
    · have := habove h
      rw [abs_of_neg (by linarith)]
      exact ⟨by linarith, fun _ h0 => by exfalso; linarith⟩
end

/-! ## Rounding to a pattern -/

/-- `p` is the finite pattern nearest to `v`, which is given in units of `2 ^ -1074`; of two that
are equally near it is the one with an even fraction. -/
structure IsNearestEven (v : ℤ) (p : BitVec 64) : Prop where
  finite : IsFinite p
  nearest : ∀ q, IsFinite q → |v - scaled p| ≤ |v - scaled q|
  even : ∀ q, IsFinite q → scaled q ≠ scaled p → |v - scaled p| = |v - scaled q| →
    fraction p % 2 = 0

/-- **Rounding to the grid of an exponent is rounding to the nearest pattern.** -/
theorem isNearestEven_of_scaled {s : Bool} {v e : ℕ} {p : BitVec 64} (hp : IsFinite p)
    (he : 1 ≤ e) (hv : 2 ^ 52 * 2 ^ (e - 1) ≤ v)
    (hscaled : scaled p = if s then -((roundHalfEven v (2 ^ (e - 1)) : ℤ) * 2 ^ (e - 1))
      else (roundHalfEven v (2 ^ (e - 1)) : ℤ) * 2 ^ (e - 1))
    (heven : fraction p % 2 = roundHalfEven v (2 ^ (e - 1)) % 2) :
    IsNearestEven (if s then -(v : ℤ) else v) p := by
  have hg : 0 < 2 ^ (e - 1) := by positivity
  have hgrid := fun k => roundHalfEven_nearest (v := v) hg k
  have hcast : ((2 ^ (e - 1) : ℕ) : ℤ) = 2 ^ (e - 1) := by push_cast; rfl
  simp only [hcast] at hgrid
  -- what holds for every competitor, with the sign of the number taken out
  have key : ∀ z : ℤ, ((2 ^ (e - 1) : ℤ) ∣ z ∨ |z| < 2 ^ 52 * 2 ^ (e - 1)) →
      |(v : ℤ) - roundHalfEven v (2 ^ (e - 1)) * 2 ^ (e - 1)| ≤ |(v : ℤ) - z| ∧
        (z ≠ roundHalfEven v (2 ^ (e - 1)) * 2 ^ (e - 1) →
          |(v : ℤ) - roundHalfEven v (2 ^ (e - 1)) * 2 ^ (e - 1)| = |(v : ℤ) - z| →
          roundHalfEven v (2 ^ (e - 1)) % 2 = 0) := by
    rintro z (⟨k, rfl⟩ | hz)
    · rw [mul_comm _ k]
      refine ⟨(hgrid k).1, fun hne => (hgrid k).2 fun h0 => hne ?_⟩
      rw [h0]
    · have hz' := (abs_lt.mp hz).2
      have h1 := (hgrid (2 ^ 52)).1
      rw [abs_of_nonneg (show (0 : ℤ) ≤ v - 2 ^ 52 * 2 ^ (e - 1) by linarith)] at h1
      rw [abs_of_nonneg (show (0 : ℤ) ≤ v - z by linarith)]
      exact ⟨by linarith, fun _ h0 => by exfalso; linarith⟩
  have hflip : ∀ z w : ℤ, |(-z) - w| = |z - (-w)| := fun z w => by
    rw [← abs_neg]
    ring
  refine ⟨hp, fun q _ => ?_, fun q _ hne heq => ?_⟩
  · have hq := dvd_or_lt q he
    rw [hscaled]
    cases s
    · exact (key _ hq).1
    · simp only [↓reduceIte]
      rw [hflip, hflip, neg_neg]
      exact (key _ (by rw [dvd_neg, abs_neg]; exact hq)).1
  · have hq := dvd_or_lt q he
    rw [hscaled] at hne heq
    rw [heven]
    cases s
    · exact (key _ hq).2 hne heq
    · simp only [↓reduceIte] at hne heq
      rw [hflip, hflip, neg_neg] at heq
      refine (key _ (by rw [dvd_neg, abs_neg]; exact hq)).2 (fun h0 => hne ?_) heq
      rw [← h0, neg_neg]

end JscAndroid.Arith.Binary64
