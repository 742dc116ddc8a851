import Mathlib

/-!
# Estimating a quotient digit from leading digits

The arithmetic of schoolbook division in base `B`. The dividend is `U = U3 * K + r`, the divisor `V
= V2 * K + s`: `U3` and `V2` are the leading digits that the estimate looks at (`Leads`). An
estimate `qhat` of `U / V` is kept with a remainder `rhat` against the leading divisor digit `v1`,
so that `qhat * v1 + rhat = u1`.

* `lt_of_test`: if the two-digit test `rhat * B + u2 < qhat * v2` succeeds, `qhat` is too large.
* `pred_mul_le_of_not_test`: if it fails, `qhat` is at most one too large.
* `pred_pred_mul_le_of_eq`: if the leading digits agree, `B - 1` is at most one too large.
-/

namespace JscAndroid.Arith.QuotientEstimate

variable {B K U V U3 V2 u1 u2 v1 v2 qhat rhat : ℕ}

structure Leads (K d X : ℕ) : Prop where
  le : d * K ≤ X
  lt : X < (d + 1) * K

namespace Leads

variable {X a b d r : ℕ}

theorem of_eq (h : X = r + K * d) (hr : r < K) : Leads K d X := by
  constructor <;> linarith

/-- One leading digit less. -/
theorem coarsen (h : Leads K (a * B + b) X) (hb : b < B) : Leads (B * K) a X := by
  have h1 := h.le
  have h2 := h.lt
  constructor <;> nlinarith

end Leads

/-- **The test finds estimates that are too large.** -/
theorem lt_of_test (hU : U < (U3 + 1) * K) (hV : V2 * K ≤ V)
    (hV2 : V2 = v1 * B + v2) (hU3 : U3 = u1 * B + u2) (hq : qhat * v1 + rhat = u1)
    (htest : rhat * B + u2 < qhat * v2) : U < qhat * V := by
  have h1 : U3 + 1 ≤ qhat * V2 := by
    have : qhat * V2 = (qhat * v1) * B + qhat * v2 := by rw [hV2]; ring
    have h2 : U3 = (qhat * v1) * B + (rhat * B + u2) := by rw [hU3, ← hq]; ring
    omega
  calc U < (U3 + 1) * K := hU
    _ ≤ qhat * V2 * K := Nat.mul_le_mul_right _ h1
    _ = qhat * (V2 * K) := by ring
    _ ≤ qhat * V := Nat.mul_le_mul_left _ hV

/-- **Estimates that pass the test are at most one too large.** -/
theorem pred_mul_le_of_not_test (hU : U3 * K ≤ U) (hV : V < (V2 + 1) * K)
    (hV2 : V2 = v1 * B + v2) (hU3 : U3 = u1 * B + u2) (hq : qhat * v1 + rhat = u1)
    (hqV : qhat ≤ V2 + 1) (htest : qhat * v2 ≤ rhat * B + u2) : (qhat - 1) * V ≤ U := by
  have h1 : qhat * V2 ≤ U3 := by
    have h2 : qhat * V2 = (qhat * v1) * B + qhat * v2 := by rw [hV2]; ring
    have h3 : U3 = (qhat * v1) * B + (rhat * B + u2) := by rw [hU3, ← hq]; ring
    omega
  rcases eq_zero_or_pos qhat with h0 | h0
  · simp [h0]
  · have h2 : (qhat - 1) * (V2 + 1) ≤ U3 := by
      obtain ⟨k, rfl⟩ : ∃ k, qhat = k + 1 := ⟨qhat - 1, by omega⟩
      have : (k + 1 - 1) * (V2 + 1) + (V2 + 1) = (k + 1) * V2 + (k + 1) := by
        simp only [Nat.add_sub_cancel]; ring
      omega
    calc (qhat - 1) * V ≤ (qhat - 1) * ((V2 + 1) * K) := Nat.mul_le_mul_left _ hV.le
      _ = (qhat - 1) * (V2 + 1) * K := by ring
      _ ≤ U3 * K := Nat.mul_le_mul_right _ h2
      _ ≤ U := hU

/-- **Equal leading digits**: with `v1 ≥ B / 2` the largest digit is at most one too large. -/
theorem pred_pred_mul_le_of_eq (hB : B ≤ 2 * v1) (hU : v1 * B * K ≤ U)
    (hV : V < (v1 + 1) * K) : (B - 2) * V ≤ U := by
  have h1 : (B - 2) * (v1 + 1) ≤ v1 * B := by
    rcases lt_or_ge B 2 with h | h
    · have : B - 2 = 0 := by omega
      rw [this]; simp
    · obtain ⟨b, rfl⟩ : ∃ b, B = b + 2 := ⟨B - 2, by omega⟩
      simp only [Nat.add_sub_cancel]
      nlinarith
  calc (B - 2) * V ≤ (B - 2) * ((v1 + 1) * K) := Nat.mul_le_mul_left _ hV.le
    _ = (B - 2) * (v1 + 1) * K := by ring
    _ ≤ v1 * B * K := Nat.mul_le_mul_right _ h1
    _ ≤ U := hU

end JscAndroid.Arith.QuotientEstimate
