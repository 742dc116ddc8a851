import JscAndroid.BigInt.Magnitude

/-!
# Division and remainder

`absoluteDivWithDigitDivisor` divides by one digit, `absoluteDivWithBigIntDivisor` is Algorithm D
for divisors of two digits or more, with the book's names. In round `j` the digits of `u` from `j`
on are divided by the (shifted) divisor; those above `j` denote less than it, so that the quotient
of the round is a digit.

* `estimate_spec`: `qhat` is that digit or one more, once the two-digit test is done.
* `divisionRound_spec`: a round leaves quotient and remainder of the digits from `j` on.
* `divisionLoop_spec`: all rounds together leave those of `u`.
-/

namespace JscAndroid.BigInt.Divide

open Arith.Limbs Arith.QuotientEstimate DigitArith Heap DigitLoops Magnitude JSBigInt List Nat

variable {P : Platform}
variable {k : ℕ} {y : JSBigInt P}

/-! ## The source -/

/-- Divides by one digit. The quotient is only computed if it is wanted. -/
def absoluteDivWithDigitDivisor (x : JSBigInt P) (divisor : P.Digit) (quotient : Bool) :
    Op P (Option (JSBigInt P) × P.Digit) := do
  if divisor = 1 then
    return (if quotient then some x else none, 0)
  else if quotient then
    let result ← createWithLength x.length
    let r := divLoop divisor x.digits
    return (some (result.setDigits 0 r.1), r.2)
  else
    return (none, (divLoop divisor x.digits).2)

/-- The loop that decrements `qhat` while the two-digit test finds it too large. It leaves when
`rhat` overflows. The test fails for `qhat = 0`, so there are at most `qhat` rounds. -/
def correctQhat (vn1 vn2 ujn2 : P.Digit) : ℕ → P.Digit → P.Digit → P.Digit
  | 0, qhat, _ => qhat
  | fuel + 1, qhat, rhat =>
    if productGreaterThan P qhat vn2 rhat ujn2 then
      if rhat + vn1 < rhat then qhat - 1
      else correctQhat vn1 vn2 ujn2 fuel (qhat - 1) (rhat + vn1)
    else qhat

/-- Step D3: the estimate of the quotient digit of round `j`. -/
def estimate (divisor u : List P.Digit) (j : ℕ) : P.Digit :=
  let n := divisor.length
  let vn1 := divisor.getD (n - 1) 0
  let ujn := u.getD (j + n) 0
  if ujn = vn1 then BitVec.allOnes P.digitBits
  else
    let r := digitDiv P ujn (u.getD (j + n - 1) 0) vn1
    correctQhat vn1 (divisor.getD (n - 2) 0) (u.getD (j + n - 2) 0) r.1.toNat r.1 r.2

/-- Steps D3 and D4 of round `j`: the quotient digit, and `qhatv` and `u` after the round. -/
def divisionRound (divisor : List P.Digit) (j : ℕ) (qhatv u : List P.Digit) :
    P.Digit × List P.Digit × List P.Digit :=
  let n := divisor.length
  let qhat := estimate divisor u j
  let qhatv := internalMultiplyAdd divisor qhat 0 n qhatv
  let sub := absoluteInplaceSub u qhatv j
  if sub.2 ≠ 0 then
    let add := absoluteInplaceAdd sub.1 divisor j
    (qhat - 1, qhatv, add.1.set (j + n) (add.1.getD (j + n) 0 + add.2))
  else (qhat, qhatv, sub.1)

/-- The rounds `j - 1, …, 0`; `q` holds the quotient digits from `j` on. -/
def divisionLoop (divisor : List P.Digit) :
    ℕ → List P.Digit → List P.Digit → List P.Digit → List P.Digit × List P.Digit
  | 0, _, u, q => (q, u)
  | j + 1, qhatv, u, q =>
    let r := divisionRound divisor j qhatv u
    divisionLoop divisor j r.2.1 r.2.2 (r.1 :: q)

/-- The quotient to be computed, if it is wanted. -/
def createQuotient (quotient : Bool) (length : ℕ) : Op P (Option (JSBigInt P)) := do
  if quotient then
    let q ← createWithLength length
    return some q
  else
    return none

/-- Step D1 for the divisor: it is copied only if there is something to shift. -/
def shiftDivisor (divisor : JSBigInt P) (shift : ℕ) : Op P (JSBigInt P) := do
  if shift > 0 then
    absoluteLeftShiftAlwaysCopy divisor shift .SameSizeResult
  else
    return divisor

/-- Algorithm D; `quotient` and `remainder` say which results are wanted. -/
def absoluteDivWithBigIntDivisor (dividend divisor : JSBigInt P) (quotient remainder : Bool) :
    Op P (Option (JSBigInt P) × Option (JSBigInt P)) := do
  let n := divisor.length
  let m := dividend.length - n
  let q ← createQuotient quotient (m + 1)
  let qhatv ← createWithLength (n + 1)
  let shift := clz (divisor.digit (n - 1))
  let divisor ← shiftDivisor divisor shift
  let u ← absoluteLeftShiftAlwaysCopy dividend shift .AlwaysAddOneDigit
  let r := divisionLoop divisor.digits (m + 1) qhatv.digits u.digits []
  return (q.map (·.setDigits 0 r.1),
    if remainder then some { u with digits := inplaceRightShift shift r.2 } else none)

def zeroDivisorMessage : String := "0 is an invalid divisor value."

def divideImpl (x y : JSBigInt P) : Op P (JSBigInt P) := do
  if y.isZero then
    throw (.rangeError zeroDivisorMessage)
  else if absoluteCompare x y = .LessThan then
    createZero
  else
    let resultSign := x.sign != y.sign
    if y.length = 1 then
      let divisor := y.digit 0
      if divisor = 1 then
        if resultSign = x.sign then return x else unaryMinusImpl x
      else
        let r ← absoluteDivWithDigitDivisor x divisor true
        match r.1 with
        | some quotient => rightTrim (quotient.setSign resultSign)
        | none => return x -- not reached: the quotient was wanted
    else
      let r ← absoluteDivWithBigIntDivisor x y true false
      match r.1 with
      | some quotient => rightTrim (quotient.setSign resultSign)
      | none => return x -- not reached: the quotient was wanted

def remainderImpl (x y : JSBigInt P) : Op P (JSBigInt P) := do
  if y.isZero then
    throw (.rangeError zeroDivisorMessage)
  else if absoluteCompare x y = .LessThan then
    return x
  else if y.length = 1 then
    let divisor := y.digit 0
    if divisor = 1 then createZero
    else
      let r ← absoluteDivWithDigitDivisor x divisor false
      if r.2 = 0 then createZero
      else
        let remainder ← createWithLength 1
        rightTrim ((remainder.setDigits 0 [r.2]).setSign x.sign)
  else
    let r ← absoluteDivWithBigIntDivisor x y false true
    match r.2 with
    | some remainder => rightTrim (remainder.setSign x.sign)
    | none => return x -- not reached: the remainder was wanted

def divide (x y : JSBigInt P) : Op P (JSBigInt P) := divideImpl x y

def remainder (x y : JSBigInt P) : Op P (JSBigInt P) := remainderImpl x y

/-! ## The estimate -/

/-- What the correction loop keeps: `qhat` and `rhat` belong together, and `qhat` is not too
small. -/
structure EstimateInv (U V vn1 u1 qhat rhat : ℕ) : Prop where
  eq : qhat * vn1 + rhat = u1
  notSmall : U < (qhat + 1) * V

/-- **The correction loop**, with the leading digits of `U` and `V`. The result is the quotient
`U / V` or one more. -/
theorem correctQhat_spec {U V K u1 : ℕ} {vn1 vn2 ujn2 : P.Digit} (hv : 0 < vn1.toNat)
    (hU : Leads K (u1 * 2 ^ P.digitBits + ujn2.toNat) U)
    (hV : Leads K (vn1.toNat * 2 ^ P.digitBits + vn2.toNat) V) :
    ∀ (fuel : ℕ) (qhat rhat : P.Digit), qhat.toNat ≤ fuel →
      EstimateInv U V vn1.toNat u1 qhat.toNat rhat.toNat →
      U < ((correctQhat vn1 vn2 ujn2 fuel qhat rhat).toNat + 1) * V ∧
        ((correctQhat vn1 vn2 ujn2 fuel qhat rhat).toNat - 1) * V ≤ U
  | 0, qhat, rhat, hf, inv => by
    refine ⟨inv.notSmall, ?_⟩
    have h0 : (correctQhat vn1 vn2 ujn2 0 qhat rhat).toNat - 1 = 0 := by
      show qhat.toNat - 1 = 0
      omega
    rw [h0, zero_mul]
    exact zero_le _
  | fuel + 1, qhat, rhat, hf, inv => by
    -- any digit is small enough for the comparison with the leading digits of the divisor
    have hdigit : ∀ d : P.Digit, d.toNat ≤ vn1.toNat * 2 ^ P.digitBits + vn2.toNat + 1 := by
      intro d
      have h2 := mul_le_mul_right (2 ^ P.digitBits) (show 1 ≤ vn1.toNat from hv)
      omega
    have hnext : rhat.toNat * 2 ^ P.digitBits + ujn2.toNat < qhat.toNat * vn2.toNat →
        U < ((qhat - 1).toNat + 1) * V ∧ (qhat - 1).toNat < qhat.toNat ∧
          (qhat - 1).toNat * vn1.toNat + (rhat.toNat + vn1.toNat) = u1 := by
      intro ht
      have hlt : U < qhat.toNat * V := lt_of_test hU.lt hV.le rfl rfl inv.eq ht
      have hpos : 0 < qhat.toNat := by
        rcases Nat.eq_zero_or_pos qhat.toNat with h0 | h0
        · rw [h0] at hlt; omega
        · exact h0
      have h1 := inv.eq
      have h2 : qhat.toNat * vn1.toNat = (qhat.toNat - 1) * vn1.toNat + vn1.toNat := by
        rw [← succ_mul]; congr 1; omega
      rw [toNat_sub_one hpos, Nat.sub_add_cancel hpos]
      exact ⟨hlt, by omega, by omega⟩
    rw [correctQhat]
    split_ifs with htest hover
    · -- the test succeeds and `rhat` overflows
      obtain ⟨hlt, -, heq⟩ := hnext (productGreaterThan_iff.mp htest)
      refine ⟨hlt, pred_mul_le_of_not_test hU.le hV.lt rfl rfl heq (hdigit _) ?_⟩
      calc (qhat - 1).toNat * vn2.toNat ≤ 2 ^ P.digitBits * 2 ^ P.digitBits :=
            Nat.mul_le_mul (qhat - 1).isLt.le vn2.isLt.le
        _ ≤ (rhat.toNat + vn1.toNat) * 2 ^ P.digitBits :=
            mul_le_mul_right _ ((add_lt_left_iff _ _).mp hover)
        _ ≤ (rhat.toNat + vn1.toNat) * 2 ^ P.digitBits + ujn2.toNat := le_add_right _ _
    · -- the test succeeds: one more round
      obtain ⟨hlt, hless, heq⟩ := hnext (productGreaterThan_iff.mp htest)
      have hsum : (rhat + vn1).toNat = rhat.toNat + vn1.toNat := by
        rw [BitVec.toNat_add, mod_eq_of_lt (not_le.mp (mt (add_lt_left_iff _ _).mpr hover))]
      exact correctQhat_spec hv hU hV fuel _ _ (by omega) ⟨by rw [hsum, heq], hlt⟩
    · have ht : qhat.toNat * vn2.toNat ≤ rhat.toNat * 2 ^ P.digitBits + ujn2.toNat := by
        have := mt productGreaterThan_iff.mpr htest
        omega
      exact ⟨inv.notSmall, pred_mul_le_of_not_test hU.le hV.lt rfl rfl inv.eq (hdigit _) ht⟩

/-- The top of a divisor whose most significant bit is set: `value` against its leading digits. -/
theorem value_leading {v : List P.Digit} (hl : v.length = k + 2) :
    value v = value (v.take k) + (2 ^ P.digitBits) ^ k *
      ((v.getD (k + 1) 0).toNat * 2 ^ P.digitBits + (v.getD k 0).toNat) := by
  rw [value_take_add_drop v (show k ≤ v.length by omega), value_drop_succ (by omega),
    value_drop_succ (by omega), drop_of_length_le (by omega : v.length ≤ k + 1 + 1), value_nil]
  ring

/-- The digits that round `j` looks at: three leading ones, and nothing above. -/
theorem value_window {t : List P.Digit} (hl : k + 3 ≤ t.length) (hz : value (t.drop (k + 3)) = 0) :
    value t = value (t.take k) + (2 ^ P.digitBits) ^ k *
      (((t.getD (k + 2) 0).toNat * 2 ^ P.digitBits + (t.getD (k + 1) 0).toNat) *
        2 ^ P.digitBits + (t.getD k 0).toNat) := by
  rw [value_take_add_drop t (show k ≤ t.length by omega), value_drop_succ (by omega),
    value_drop_succ (by omega), value_drop_succ (by omega), hz]
  ring

theorem getD_drop (u : List P.Digit) (j i : ℕ) : (u.drop j).getD i 0 = u.getD (j + i) 0 := by
  rw [getD_eq_getElem?_getD, getD_eq_getElem?_getD, getElem?_drop]

/-- **The estimate** of round `j` is the quotient digit or one more. -/
theorem estimate_spec {divisor u : List P.Digit} {j : ℕ} (hn : divisor.length = k + 2)
    (hl : j + k + 3 ≤ u.length) (htop : 2 ^ P.digitBits ≤ 2 * (divisor.getD (k + 1) 0).toNat)
    (hz : value (u.drop (j + k + 3)) = 0)
    (hlt : value (u.drop j) < 2 ^ P.digitBits * value divisor) :
    value (u.drop j) < ((estimate divisor u j).toNat + 1) * value divisor ∧
      ((estimate divisor u j).toNat - 1) * value divisor ≤ value (u.drop j) := by
  have hV := value_leading hn
  have hU := value_window (t := u.drop j) (k := k) (by rw [length_drop]; omega)
    (by rw [drop_drop]; exact hz)
  simp only [getD_drop] at hU
  have hlowV := value_lt (divisor.take k)
  have hlowU := value_lt ((u.drop j).take k)
  rw [length_take, min_eq_left (by omega)] at hlowV
  rw [length_take, length_drop, min_eq_left (by omega)] at hlowU
  replace hU := Leads.of_eq hU hlowU
  replace hV := Leads.of_eq hV hlowV
  set U := value (u.drop j)
  set V := value divisor
  set K := (2 ^ P.digitBits) ^ k
  simp only [estimate, hn, show j + (k + 2) - 1 = j + (k + 1) by omega,
    show k + 2 - 1 = k + 1 by omega]
  set vn1 := divisor.getD (k + 1) 0
  set vn2 := divisor.getD k 0
  set ujn := u.getD (j + (k + 2)) 0
  set ujn1 := u.getD (j + (k + 1)) 0
  set ujn2 := u.getD (j + k) 0
  have hV1 := hV.coarsen vn2.isLt
  have hU1 := hU.coarsen ujn2.isLt
  have hU2 := (hU1.coarsen ujn1.isLt).le
  split_ifs with heq
  · have hones : (BitVec.allOnes P.digitBits).toNat = 2 ^ P.digitBits - 1 :=
      BitVec.toNat_allOnes
    rw [hones]
    refine ⟨by rw [Nat.sub_add_cancel (by omega)]; exact hlt, ?_⟩
    rw [heq, ← mul_assoc] at hU2
    exact pred_pred_mul_le_of_eq htop hU2 hV1.lt
  · have hujn : ujn.toNat < vn1.toNat := by
      have h1 : ujn.toNat * (2 ^ P.digitBits * (2 ^ P.digitBits * K)) <
          (vn1.toNat + 1) * (2 ^ P.digitBits * (2 ^ P.digitBits * K)) := by
        calc _ ≤ U := hU2
          _ < 2 ^ P.digitBits * V := hlt
          _ ≤ 2 ^ P.digitBits * ((vn1.toNat + 1) * (2 ^ P.digitBits * K)) :=
              mul_le_mul_left _ hV1.lt.le
          _ = (vn1.toNat + 1) * (2 ^ P.digitBits * (2 ^ P.digitBits * K)) := by ring
      have h2 := lt_of_mul_lt_mul_right h1
      have h3 : ujn.toNat ≠ vn1.toNat := fun h => heq (BitVec.eq_of_toNat_eq h)
      omega
    obtain ⟨q1, q2⟩ := digitDiv_spec ujn ujn1 vn1 hujn
    have hvpos : 0 < vn1.toNat := by omega
    set u1 := ujn.toNat * 2 ^ P.digitBits + ujn1.toNat
    have h1 : u1 + 1 ≤ (u1 / vn1.toNat + 1) * vn1.toNat := by
      have := div_add_mod' u1 vn1.toNat
      have := mod_lt u1 hvpos
      rw [add_mul]
      omega
    refine correctQhat_spec hvpos hU hV _ _ _ le_rfl ⟨?_, ?_⟩
    · rw [q1, q2]
      exact div_add_mod' _ _
    · rw [q1]
      calc U < (u1 + 1) * (2 ^ P.digitBits * K) := hU1.lt
        _ ≤ (u1 / vn1.toNat + 1) * vn1.toNat * (2 ^ P.digitBits * K) :=
            mul_le_mul_right _ h1
        _ = (u1 / vn1.toNat + 1) * (vn1.toNat * (2 ^ P.digitBits * K)) := by ring
        _ ≤ (u1 / vn1.toNat + 1) * V := mul_le_mul_left _ hV1.le

/-! ## The rounds -/

theorem absoluteInplaceSub_spec (u ys : List P.Digit) (j : ℕ) (hl : j + ys.length ≤ u.length) :
    ∃ r : List P.Digit, r.length = ys.length ∧ (absoluteInplaceSub u ys j).1 = overwrite u j r ∧
      (absoluteInplaceSub u ys j).2.toNat ≤ 1 ∧
      value r + value ys = value ((u.drop j).take ys.length) +
        (2 ^ P.digitBits) ^ ys.length * (absoluteInplaceSub u ys j).2.toNat := by
  obtain ⟨h1, h2, h3⟩ := inplaceSubLoop_spec (u.drop j) ys 0
    (by rw [length_drop]; omega) (by rw [toNat_zero]; omega)
  exact ⟨_, h1, rfl, h2, h3⟩

theorem absoluteInplaceAdd_spec (u ys : List P.Digit) (j : ℕ) (hl : j + ys.length ≤ u.length) :
    ∃ r : List P.Digit, r.length = ys.length ∧ (absoluteInplaceAdd u ys j).1 = overwrite u j r ∧
      (absoluteInplaceAdd u ys j).2.toNat ≤ 1 ∧
      value r + (2 ^ P.digitBits) ^ ys.length * (absoluteInplaceAdd u ys j).2.toNat =
        value ((u.drop j).take ys.length) + value ys := by
  obtain ⟨h1, h2, h3⟩ := inplaceAddLoop_spec (u.drop j) ys 0
    (by rw [length_drop]; omega) (by rw [toNat_zero]; omega)
  exact ⟨_, h1, rfl, h2, h3⟩

/-- Adding back: after the subtraction went below zero, adding the divisor and its carry leaves
the true difference `W`. -/
theorem addBack_eq {B Bn rl rt rl' c V W : ℕ} (hrl' : rl' < Bn) (hrt : rt < B) (hc : c ≤ 1)
    (hadd : rl' + Bn * c = rl + V) (hsub : rl + Bn * rt + V = W + B * Bn) :
    rl' = W ∧ rt + c = B := by
  have h1 : rl' + Bn * (rt + c) = W + Bn * B := by
    rw [mul_add, mul_comm Bn B]
    omega
  have h2 : rt + c = B := by
    by_contra hne
    have h3 := mul_le_mul_left Bn (show rt + c + 1 ≤ B by omega)
    rw [mul_add] at h3
    omega
  rw [h2] at h1
  exact ⟨by omega, h2⟩

/-- What one round of the division does to `u`, from digit `j` on. -/
structure RoundSpec (V : ℕ) (j : ℕ) (u u' : List P.Digit) (qhat : P.Digit) : Prop where
  length : u'.length = u.length
  low : u'.take j = u.take j
  quotient : qhat.toNat = value (u.drop j) / V
  remainder : value (u'.drop j) = value (u.drop j) % V

/-- A block overwritten by `r`, then its first digits by `s`, then its last digit by `d`. -/
theorem set_overwrite_overwrite {u r s : List P.Digit} {j n : ℕ} {d : P.Digit}
    (hl : j + (n + 1) ≤ u.length) (hr : r.length = n + 1) (hs : s.length = n) :
    (overwrite (overwrite u j r) j s).getD (j + n) 0 = r.getD n 0 ∧
      ((overwrite (overwrite u j r) j s).set (j + n) d).take j = u.take j ∧
      ((overwrite (overwrite u j r) j s).set (j + n) d).drop j =
        s ++ d :: u.drop (j + (n + 1)) := by
  have h0 : (overwrite u j r).length = u.length := length_overwrite (by omega)
  have h1 : (overwrite (overwrite u j r) j s).drop j =
      s ++ r.getD n 0 :: u.drop (j + (n + 1)) := by
    rw [drop_overwrite (by omega), hs, ← drop_drop, drop_overwrite (by omega), hr,
      drop_append_of_le_length (by omega), drop_eq_getElem_cons (by omega),
      drop_of_length_le (by omega : r.length ≤ n + 1), getD_eq_getElem _ _ (by omega)]
    rfl
  refine ⟨?_, ?_, ?_⟩
  · rw [← getD_drop, h1, getD_append_right _ _ _ _ (by omega), hs, Nat.sub_self]
    rfl
  · rw [take_set, set_eq_of_length_le (by simp), take_overwrite (by omega),
      take_overwrite (by omega)]
  · rw [drop_set, if_neg (by omega), h1, Nat.add_sub_cancel_left,
      set_append_right _ _ (by omega), hs, Nat.sub_self]
    rfl

/-- **One round of Algorithm D.** -/
theorem divisionRound_spec {divisor qhatv u : List P.Digit} {j : ℕ} (hn : divisor.length = k + 2)
    (hq : qhatv.length = k + 3) (hl : j + k + 3 ≤ u.length)
    (htop : 2 ^ P.digitBits ≤ 2 * (divisor.getD (k + 1) 0).toNat)
    (hlt : value (u.drop (j + 1)) < value divisor) :
    (divisionRound divisor j qhatv u).2.1.length = k + 3 ∧
      RoundSpec (value divisor) j u (divisionRound divisor j qhatv u).2.2
        (divisionRound divisor j qhatv u).1 := by
  have hV := value_lt divisor
  rw [hn] at hV
  -- nothing stands above the window
  have hz : value (u.drop (j + k + 3)) = 0 := by
    have : value ((u.drop (j + 1)).drop (k + 2)) = 0 :=
      value_drop_eq_zero (by rw [length_drop]; omega) (hlt.trans hV)
    rwa [drop_drop, show j + 1 + (k + 2) = j + k + 3 by omega] at this
  have hU : value (u.drop j) < 2 ^ P.digitBits * value divisor := by
    have h2 := mul_le_mul_left (2 ^ P.digitBits)
      (show value (u.drop (j + 1)) + 1 ≤ value divisor from hlt)
    rw [value_drop_succ (by omega)]
    rw [mul_add] at h2
    omega
  have htake : value ((u.drop j).take (k + 3)) = value (u.drop j) := by
    rw [value_take_add_drop (u.drop j) (show k + 3 ≤ (u.drop j).length by
      rw [length_drop]; omega), drop_drop, show j + (k + 3) = j + k + 3 by omega, hz]
    simp
  obtain ⟨he1, he2⟩ := estimate_spec hn hl htop hz hU
  obtain ⟨hm1, hm2⟩ := internalMultiplyAdd_spec divisor qhatv (estimate divisor u j) 0
    (show k + 2 ≤ divisor.length by omega) (by omega)
  rw [hq] at hm1
  rw [take_of_length_le (by omega), toNat_zero, mul_comm] at hm2
  simp only [divisionRound, hn]
  set qhat := estimate divisor u j
  set prod := internalMultiplyAdd divisor qhat 0 (k + 2) qhatv
  obtain ⟨r, hr1, hr2, hr3, hr4⟩ := absoluteInplaceSub_spec u prod j (by omega)
  rw [hm1, htake, hm2] at hr4
  rw [hm1] at hr1
  set sub := absoluteInplaceSub u prod j
  have hrlt := value_lt r
  rw [hr1] at hrlt
  set U := value (u.drop j)
  set V := value divisor
  split_ifs with hc
  · -- a borrow: `qhat` was one too large
    have hc1 : sub.2.toNat = 1 := by
      have : sub.2.toNat ≠ 0 := fun h => hc (eq_zero_of_toNat h)
      omega
    rw [hc1] at hr4
    have hqpos : 0 < qhat.toNat := by
      rcases Nat.eq_zero_or_pos qhat.toNat with h0 | h0
      · rw [h0] at hr4; omega
      · exact h0
    have hpred : qhat.toNat * V = (qhat.toNat - 1) * V + V := by
      rw [← succ_mul]; congr 1; omega
    obtain ⟨s, hs1, hs2, hs3, hs4⟩ := absoluteInplaceAdd_spec sub.1 divisor j (by
      rw [hr2, length_overwrite (by omega)]; omega)
    rw [hn] at hs1
    set add := absoluteInplaceAdd sub.1 divisor j
    rw [hr2] at hs2
    have hover : add.1.length = u.length := by
      have h0 : (overwrite u j r).length = u.length := length_overwrite (by omega)
      rw [hs2, length_overwrite (by omega), h0]
    obtain ⟨b1, b2, b3⟩ := set_overwrite_overwrite
      (show j + (k + 2 + 1) ≤ u.length by omega) hr1 hs1
    rw [← hs2] at b1 b2 b3
    rw [hn, hr2, drop_overwrite (by omega), take_append_of_le_length (by omega)] at hs4
    have hrsplit : value r = value (r.take (k + 2)) +
        (2 ^ P.digitBits) ^ (k + 2) * (r.getD (k + 2) 0).toNat := by
      rw [value_take_add_drop r (show k + 2 ≤ r.length by omega), value_drop_last hr1]
    have hslt := value_lt s
    rw [hs1] at hslt
    have hpow : 2 ^ P.digitBits * (2 ^ P.digitBits) ^ (k + 2) = (2 ^ P.digitBits) ^ (k + 3) :=
      (pow_succ' _ _).symm
    obtain ⟨e1, e2⟩ := addBack_eq (W := U - (qhat.toNat - 1) * V) hslt
      (r.getD (k + 2) 0).isLt hs3 hs4 (by rw [hpow]; omega)
    have hd : (add.1.getD (j + (k + 2)) 0 + add.2).toNat = 0 := by
      rw [b1, BitVec.toNat_add, e2, mod_self]
    have hdiv : U / V = qhat.toNat - 1 := by
      refine Nat.div_eq_of_lt_le he2 ?_
      rw [Nat.sub_add_cancel hqpos]
      omega
    refine ⟨hm1, ⟨by rw [length_set, hover], b2, ?_, ?_⟩⟩
    · rw [toNat_sub_one hqpos]
      exact hdiv.symm
    · rw [b3, value_append, value_cons, hd, show j + (k + 2 + 1) = j + k + 3 by omega, hz,
        mod_eq_sub_div_mul, hdiv]
      simpa using e1
  · -- no borrow: `qhat` is the quotient digit
    have hc0 : sub.2.toNat = 0 := by
      have : sub.2 = 0 := not_not.mp hc
      rw [this, toNat_zero]
    rw [hc0] at hr4
    have hdiv : U / V = qhat.toNat := Nat.div_eq_of_lt_le (by omega) he1
    refine ⟨hm1, ⟨by rw [hr2, length_overwrite (by omega)],
      by rw [hr2, take_overwrite (by omega)], hdiv.symm, ?_⟩⟩
    rw [hr2, drop_overwrite (by omega), hr1, value_append,
      show j + (k + 3) = j + k + 3 by omega, hz, mod_eq_sub_div_mul, hdiv]
    omega

/-- **All rounds of Algorithm D.** -/
theorem divisionLoop_spec {divisor : List P.Digit} (hn : divisor.length = k + 2)
    (htop : 2 ^ P.digitBits ≤ 2 * (divisor.getD (k + 1) 0).toNat) :
    ∀ (j : ℕ) (qhatv u q : List P.Digit), qhatv.length = k + 3 → j + k + 2 ≤ u.length →
      value (u.drop j) < value divisor →
      ∃ ds : List P.Digit, (divisionLoop divisor j qhatv u q).1 = ds ++ q ∧ ds.length = j ∧
        value ds = value u / value divisor ∧
        value (divisionLoop divisor j qhatv u q).2 = value u % value divisor ∧
        (divisionLoop divisor j qhatv u q).2.length = u.length
  | 0, qhatv, u, q, _, _, hlt => by
    exact ⟨[], rfl, rfl, (div_eq_of_lt hlt).symm, (mod_eq_of_lt hlt).symm, rfl⟩
  | j + 1, qhatv, u, q, hq, hl, hlt => by
    have hpos : 0 < value divisor := by omega
    obtain ⟨h1, hr⟩ := divisionRound_spec hn hq (show j + k + 3 ≤ u.length by omega) htop hlt
    rw [divisionLoop]
    set r := divisionRound divisor j qhatv u
    obtain ⟨ds, d1, d2, d3, d4, d5⟩ := divisionLoop_spec hn htop j r.2.1 r.2.2 (r.1 :: q) h1
      (by rw [hr.length]; omega) (by rw [hr.remainder]; exact mod_lt _ hpos)
    -- what the round takes off `u` is a multiple of the divisor
    have hu : value u = value r.2.2 +
        value divisor * ((2 ^ P.digitBits) ^ j * r.1.toNat) := by
      rw [value_take_add_drop u (show j ≤ u.length by omega), value_take_add_drop r.2.2
        (show j ≤ r.2.2.length by rw [hr.length]; omega), hr.low, hr.remainder, hr.quotient]
      conv_lhs => rw [← div_add_mod (value (u.drop j)) (value divisor)]
      ring
    refine ⟨ds ++ [r.1], ?_, by simp [d2], ?_, ?_, by rw [d5, hr.length]⟩
    · rw [d1]; simp
    · rw [value_append, value_singleton, d2, d3, hu, add_mul_div_left _ _ hpos]
    · rw [d4, hu, add_mul_mod_self_left]

/-! ## Algorithm D as a whole -/

/-- Shifting the divisor so that its top bit is set keeps its length. -/
theorem shiftDivisor_returns (hy : y.Normalized) (hk : y.digits.length = k + 2) :
    Returns (y.length ≤ maxLength P) (shiftDivisor y (clz (y.digit (y.length - 1))))
      fun v => v.digits.length = k + 2 ∧
        value v.digits = value y.digits * 2 ^ clz (y.digit (y.length - 1)) ∧
        2 ^ P.digitBits ≤ 2 * (v.digits.getD (k + 1) 0).toNat := by
  have hne : y.digits ≠ [] := length_pos_iff.mp (by omega)
  have htop := top_ne_zero hy hne
  have hdig : y.digit (y.length - 1) = y.digits.getD (k + 1) 0 := by
    rw [digit, JSBigInt.length, hk]
    rfl
  obtain ⟨-, hs2, hs3⟩ := shiftLeft_clz (by have := P.digitBits_ge; omega) htop
  have hslt := clz_lt htop
  -- the value against the top digit
  have hsplit : value y.digits = value (y.digits.take (k + 1)) +
      (2 ^ P.digitBits) ^ (k + 1) * (y.digit (y.length - 1)).toNat := by
    rw [hdig, value_take_add_drop y.digits (show k + 1 ≤ y.digits.length by omega),
      value_drop_last hk]
  have hlow := value_lt (y.digits.take (k + 1))
  rw [length_take, min_eq_left (by omega)] at hlow
  have hlead := Leads.of_eq hsplit hlow
  set shift := clz (y.digit (y.length - 1))
  set top := (y.digit (y.length - 1)).toNat
  have hlv : Returns (y.length ≤ maxLength P) (shiftDivisor y shift)
      fun v => v.digits.length = k + 2 ∧ value v.digits = value y.digits * 2 ^ shift := by
    unfold shiftDivisor
    split_ifs with h0
    · have hfit : value y.digits * 2 ^ shift < (2 ^ P.digitBits) ^ y.digits.length := by
        calc value y.digits * 2 ^ shift < (top + 1) * (2 ^ P.digitBits) ^ (k + 1) * 2 ^ shift :=
              mul_lt_mul_of_pos_right hlead.lt (by positivity)
          _ = (top + 1) * 2 ^ shift * (2 ^ P.digitBits) ^ (k + 1) := by ring
          _ ≤ 2 ^ P.digitBits * (2 ^ P.digitBits) ^ (k + 1) := mul_le_mul_right _ hs3
          _ = (2 ^ P.digitBits) ^ y.digits.length := by rw [hk, ← pow_succ']
      exact (leftShift_sameSize_returns hslt hfit).imp fun v hv => ⟨hv.1.trans hk, hv.2⟩
    · refine .pure ⟨hk, ?_⟩
      rw [show shift = 0 by omega]
      simp
  refine hlv.imp fun v hlv => ⟨hlv.1, hlv.2, ?_⟩
  have htopv : top * 2 ^ shift ≤ (v.digits.getD (k + 1) 0).toNat := by
    rw [← value_drop_last hlv.1, value_drop _ (by omega), le_div_iff_mul_le (by positivity),
      hlv.2, mul_right_comm]
    exact mul_le_mul_right _ hlead.le
  omega

theorem createQuotient_returns (quotient : Bool) (length : ℕ) :
    Returns (length ≤ maxLength P) (createQuotient quotient length) fun q : Option (JSBigInt P) =>
        quotient = true → ∃ q0, q = some q0 ∧ q0.digits.length = length := by
  unfold createQuotient
  split_ifs with hw
  · exact (createWithLength_returns _).bind fun q hq => .pure fun _ => ⟨q, rfl, hq.1⟩
  · exact .pure fun h => absurd h hw

/-- **Algorithm D.** What it returns denotes quotient and remainder of the magnitudes. -/
theorem absoluteDivWithBigIntDivisor_returns {x : JSBigInt P} (quotient remainder : Bool)
    (hy : y.Normalized) (hn : 2 ≤ y.length) (hxy : y.length ≤ x.length) :
    Returns (x.length < maxLength P) (absoluteDivWithBigIntDivisor x y quotient remainder)
      fun r => (quotient = true → ∃ q, r.1 = some q ∧ q.length = x.length - y.length + 1 ∧
          value q.digits = value x.digits / value y.digits) ∧
        (remainder = true → ∃ s, r.2 = some s ∧ s.length = x.length + 1 ∧
          value s.digits = value x.digits % value y.digits) := by
  obtain ⟨k, hk⟩ : ∃ k, y.digits.length = k + 2 := ⟨y.digits.length - 2, by
    unfold JSBigInt.length at hn; omega⟩
  have hne : y.digits ≠ [] := length_pos_iff.mp (by omega)
  have hxy' : y.digits.length ≤ x.digits.length := hxy
  have hslt := clz_lt (top_ne_zero hy hne)
  refine ((createQuotient_returns _ _).room_of fun h => by omega).bind fun q hq => ?_
  refine ((createWithLength_returns _).room_of fun h => by omega).bind fun qhatv hqhatv => ?_
  refine ((shiftDivisor_returns hy hk).room_of fun h => by omega).bind fun v hv => ?_
  refine (leftShift_addOneDigit_returns x hslt).bind fun u hu => .pure ?_
  obtain ⟨hv1, hv2, hv3⟩ := hv
  obtain ⟨hu1, hu2⟩ := hu
  set shift := clz (y.digit (y.length - 1))
  have hqv : qhatv.digits.length = k + 3 := by
    rw [hqhatv.1]
    show y.digits.length + 1 = k + 3
    omega
  have hm : x.length - y.length + 1 + k + 2 = u.digits.length := by
    show x.digits.length - y.digits.length + 1 + k + 2 = _
    omega
  -- the digits of `u` above the first window denote less than the divisor
  have hstart : value (u.digits.drop (x.length - y.length + 1)) < value v.digits := by
    rw [value_drop _ (by omega), hu2, hv2]
    refine Nat.div_lt_of_lt_mul ?_
    have h1 := value_lt x.digits
    have h2 := hy.pow_le_value hne
    have h3 : (2 ^ P.digitBits) ^ x.digits.length ≤
        (2 ^ P.digitBits) ^ (x.length - y.length + 1) * value y.digits := by
      calc (2 ^ P.digitBits) ^ x.digits.length
          = (2 ^ P.digitBits) ^ (x.length - y.length + 1) *
              (2 ^ P.digitBits) ^ (y.digits.length - 1) := by
            rw [← pow_add]
            congr 1
            omega
        _ ≤ _ := mul_le_mul_left _ h2
    rw [← mul_assoc]
    exact mul_lt_mul_of_pos_right (lt_of_lt_of_le h1 h3) (by positivity)
  obtain ⟨ds, d1, d2, d3, d4, d5⟩ := divisionLoop_spec hv1 hv3 (x.length - y.length + 1)
    qhatv.digits u.digits [] hqv (by omega) hstart
  rw [append_nil] at d1
  have hpow : 0 < 2 ^ shift := by positivity
  rw [hu2, hv2, Nat.mul_div_mul_right _ _ hpow] at d3
  rw [hu2, hv2, mul_mod_mul_right] at d4
  refine ⟨fun hw => ?_, fun hw => ?_⟩
  · obtain ⟨q0, rfl, hq0⟩ := hq hw
    refine ⟨q0.setDigits 0 ds, by rw [← d1]; rfl, ?_⟩
    rw [setDigits_all (hq0.trans d2.symm)]
    exact ⟨d2, d3⟩
  · obtain ⟨s1, s2⟩ := inplaceRightShift_spec hslt (divisionLoop v.digits
      (x.length - y.length + 1) qhatv.digits u.digits []).2
    refine ⟨_, if_pos hw, ?_, ?_⟩
    · show (inplaceRightShift shift _).length = x.digits.length + 1
      rw [s1, d5, hu1]
    · rw [s2, d4, Nat.mul_div_cancel _ hpow]

/-- **Division by a digit.** -/
theorem absoluteDivWithDigitDivisor_returns (x : JSBigInt P) {divisor : P.Digit} (quotient : Bool)
    (hd : divisor ≠ 0) :
    Returns (x.length ≤ maxLength P) (absoluteDivWithDigitDivisor x divisor quotient)
      fun r => (quotient = true → ∃ q, r.1 = some q ∧ q.length = x.length ∧
          value q.digits = value x.digits / divisor.toNat) ∧
        r.2.toNat = value x.digits % divisor.toNat := by
  obtain ⟨h1, h2, h3⟩ := divLoop_spec hd x.digits
  unfold absoluteDivWithDigitDivisor
  by_cases hone : divisor = 1
  · rw [if_pos hone, hone, toNat_one, Nat.div_one, mod_one]
    exact .pure ⟨fun hw => ⟨x, if_pos hw, rfl, rfl⟩, toNat_zero⟩
  split_ifs with hw
  · refine (createWithLength_returns _).bind fun c hc => .pure ⟨fun _ => ⟨_, rfl, ?_⟩, h3⟩
    rw [setDigits_all (hc.1.trans h1.symm)]
    exact ⟨h1, h2⟩
  · exact .pure ⟨fun h => absurd h hw, h3⟩

/-! ## The operators -/

theorem toInt_tdiv {x r : JSBigInt P} (hs : r.sign = (x.sign != y.sign))
    (hv : value r.digits = value x.digits / value y.digits) : r.toInt = x.toInt.tdiv y.toInt := by
  unfold toInt
  rw [hs, hv]
  cases x.sign <;> cases y.sign <;> simp [Int.tdiv_neg]

theorem toInt_tmod {x r : JSBigInt P} (hs : r.sign = x.sign)
    (hv : value r.digits = value x.digits % value y.digits) : r.toInt = x.toInt.tmod y.toInt := by
  unfold toInt
  rw [hs, hv]
  cases x.sign <;> cases y.sign <;>
    simp [Int.tmod_eq_emod_of_nonneg]

theorem digits_ne_nil {x : JSBigInt P} (h : 0 < x.length) : x.digits ≠ [] :=
  length_pos_iff.mp h

/-- Past the test for zero, a length other than 1 is at least 2. -/
theorem two_le_length (hz : ¬ y.isZero = true) (hone : ¬ y.length = 1) : 2 ≤ y.length := by
  have : y.length ≠ 0 := fun h0 => hz (by unfold isZero; rw [h0]; rfl)
  omega

theorem tdiv_eq_zero_of_lt {x : JSBigInt P} (h : value x.digits < value y.digits) :
    x.toInt.tdiv y.toInt = 0 := by
  refine Int.natAbs_eq_zero.mp ?_
  rw [Int.natAbs_tdiv, natAbs_toInt, natAbs_toInt]
  exact div_eq_of_lt h

theorem tmod_eq_self_of_lt {x : JSBigInt P} (h : value x.digits < value y.digits) :
    x.toInt.tmod y.toInt = x.toInt := by
  have := Int.tmod_add_mul_tdiv x.toInt y.toInt
  rw [tdiv_eq_zero_of_lt h] at this
  simpa using this

/-- The paths of `divideImpl` and `remainderImpl` past the comparison. -/
theorem length_le_of_not_lessThan {x : JSBigInt P} (hx : x.Normalized) (hy : y.Normalized)
    (h : ¬ absoluteCompare x y = .LessThan) : y.length ≤ x.length := by
  by_contra hlt
  exact h ((absoluteCompare_eq_lessThan_iff hx hy).mpr
    (value_lt_of_length_lt hy (Nat.lt_of_not_le hlt)))

/-- Signing and trimming a quotient or remainder with digits. -/
theorem rightTrim_setSign_returns {q : JSBigInt P} (b : Bool) (h : 0 < q.length) :
    Returns (q.length ≤ maxLength P) (rightTrim (q.setSign b)) (Denotes (q.setSign b).toInt) :=
  rightTrim_returns (x := q.setSign b) fun h0 => absurd h0 (digits_ne_nil h)

section
variable {x y : JSBigInt P} (hx : x.Normalized) (hy : y.Normalized) (hz : ¬ y.isZero = true)
include hx hy hz

omit hx in
theorem digit_zero_ne_zero (hone : y.length = 1) : y.digit 0 ≠ 0 := by
  have := top_ne_zero hy (fun h0 => hz (isZero_iff.mpr h0))
  rwa [hone] at this

theorem divideImpl_returns :
    Returns (x.length < maxLength P) (divideImpl x y) (Denotes (x.toInt.tdiv y.toInt)) := by
  unfold divideImpl
  dsimp only
  split_ifs with hlt hone hd1 hsgn
  · rw [tdiv_eq_zero_of_lt ((absoluteCompare_eq_lessThan_iff hx hy).mp hlt)]
    exact createZero_returns _
  · refine .pure ⟨hx, toInt_tdiv hsgn.symm ?_⟩
    rw [value_of_length_one hone, hd1, toNat_one, Nat.div_one]
  · have hval : value y.digits = 1 := by rw [value_of_length_one hone, hd1, toNat_one]
    have hys : y.sign = true := by
      revert hsgn
      cases x.sign <;> cases y.sign <;> simp
    have hyi : y.toInt = -1 := by
      rw [toInt, hval, hys]
      rfl
    rw [hyi, Int.tdiv_neg, Int.tdiv_one]
    exact (unaryMinusImpl_returns hx).room_of le_of_lt
  · have hlen := length_le_of_not_lessThan hx hy hlt
    refine ((absoluteDivWithDigitDivisor_returns x true
      (digit_zero_ne_zero hy hz hone)).room_of le_of_lt).bind ?_
    rintro ⟨q, d⟩ ⟨hq, -⟩
    obtain ⟨q0, rfl, hq2, hq3⟩ := hq rfl
    refine (rightTrim_setSign_returns _ (by omega)).mono (fun h => by omega) fun r hr =>
      ⟨hr.1, hr.2.trans (toInt_tdiv rfl ?_)⟩
    rwa [value_of_length_one hone]
  · have hlen := length_le_of_not_lessThan hx hy hlt
    have h2 := two_le_length hz hone
    refine (absoluteDivWithBigIntDivisor_returns true false hy h2 hlen).bind ?_
    rintro ⟨q, s⟩ ⟨hq, -⟩
    obtain ⟨q0, rfl, hq2, hq3⟩ := hq rfl
    exact (rightTrim_setSign_returns _ (by omega)).mono (fun h => by omega) fun r hr =>
      ⟨hr.1, hr.2.trans (toInt_tdiv rfl hq3)⟩

omit hx hy hz in
theorem tmod_eq_zero (h : value x.digits % value y.digits = 0) : x.toInt.tmod y.toInt = 0 := by
  refine Int.natAbs_eq_zero.mp ?_
  rw [Int.natAbs_tmod, natAbs_toInt, natAbs_toInt, h]

/-- What `remainderImpl` returns is the remainder of the truncated quotient. -/
theorem remainderImpl_returns :
    Returns (x.length < maxLength P) (remainderImpl x y) (Denotes (x.toInt.tmod y.toInt)) := by
  unfold remainderImpl
  dsimp only
  split_ifs with hlt hone hd1
  · exact .pure ⟨hx, (tmod_eq_self_of_lt ((absoluteCompare_eq_lessThan_iff hx hy).mp hlt)).symm⟩
  · rw [tmod_eq_zero (by rw [value_of_length_one hone, hd1, toNat_one, mod_one])]
    exact createZero_returns _
  · refine ((absoluteDivWithDigitDivisor_returns x false
      (digit_zero_ne_zero hy hz hone)).room_of le_of_lt).bind ?_
    rintro s ⟨-, hrem⟩
    rw [← value_of_length_one hone] at hrem
    split_ifs with h0
    · rw [h0] at hrem
      rw [tmod_eq_zero hrem.symm]
      exact createZero_returns _
    · refine (fill_returns (n := 1) rfl (by simp)).mono (fun h => by omega) fun r hr =>
        ⟨hr.1, hr.2.trans (toInt_tmod rfl ?_)⟩
      rw [value_singleton, hrem]
  · have hlen := length_le_of_not_lessThan hx hy hlt
    have h2 := two_le_length hz hone
    refine (absoluteDivWithBigIntDivisor_returns false true hy h2 hlen).bind ?_
    rintro ⟨q, s⟩ ⟨-, hs⟩
    obtain ⟨r0, rfl, hr2, hr3⟩ := hs rfl
    exact (rightTrim_setSign_returns _ (by omega)).mono (fun h => by omega) fun r hr =>
      ⟨hr.1, hr.2.trans (toInt_tmod rfl hr3)⟩
end

/-- The remainder of a truncated division, by its defining properties. -/
theorem tmod_spec {x r : JSBigInt P} (hx : x.Normalized) (hr : r.Normalized) (hy : y.toInt ≠ 0)
    (h : r.toInt = x.toInt.tmod y.toInt) :
    x.toInt = x.toInt.tdiv y.toInt * y.toInt + r.toInt ∧ |r.toInt| < |y.toInt| ∧
      (r.toInt = 0 ∨ r.sign = x.sign) := by
  have hdm := Int.tmod_add_mul_tdiv x.toInt y.toInt
  refine ⟨by rw [h]; linarith [mul_comm (x.toInt.tdiv y.toInt) y.toInt], ?_, ?_⟩
  · rw [h, Int.abs_eq_natAbs, Int.abs_eq_natAbs, Int.natAbs_tmod]
    exact_mod_cast mod_lt _ (Int.natAbs_pos.mpr hy)
  · by_cases h0 : r.toInt = 0
    · exact Or.inl h0
    · refine Or.inr ?_
      have e1 := hr.toInt_neg_iff
      have e2 := hx.toInt_neg_iff
      rw [Bool.eq_iff_iff, ← e1, ← e2]
      rcases lt_or_ge x.toInt 0 with hneg | hpos
      · have h1 : x.toInt.tmod y.toInt ≤ 0 := by
          have := Int.tmod_nonneg y.toInt (show 0 ≤ -x.toInt by omega)
          rw [Int.neg_tmod] at this
          omega
        omega
      · have := Int.tmod_nonneg y.toInt hpos
        omega

/-- **Division and remainder are exact.** For normalized `x` and nonzero `y`: what `divide` returns
is the truncated quotient, what `remainder` returns is the remainder that belongs to it, with the
sign of `x`, and both are normalized. Both return if no allocation fails and `x` is shorter than
`maxLength`. -/
theorem divide_remainder_exact (x y : JSBigInt P) (hx : x.Normalized) (hy : y.Normalized)
    (hz : y.toInt ≠ 0) : (∀ vm q vm', divide x y vm = .ok (q, vm') →
      q.Normalized ∧ q.toInt = x.toInt.tdiv y.toInt) ∧
    (∀ vm r vm', remainder x y vm = .ok (r, vm') →
      r.Normalized ∧ x.toInt = x.toInt.tdiv y.toInt * y.toInt + r.toInt ∧
        |r.toInt| < |y.toInt| ∧ (r.toInt = 0 ∨ r.sign = x.sign)) ∧
    (∀ vm, VM.Unlimited vm → x.length < maxLength P →
      (∃ q vm', divide x y vm = .ok (q, vm')) ∧ ∃ r vm', remainder x y vm = .ok (r, vm')) := by
  have hz' : ¬ y.isZero = true := fun h =>
    hz (hy.toInt_eq_zero_iff.mpr (isZero_iff.mp h))
  have hdiv := divideImpl_returns hx hy hz'
  have hrem := remainderImpl_returns hx hy hz'
  refine ⟨fun vm q vm' h => hdiv.ok h, fun vm r vm' h => ?_, fun vm hvm hl => ?_⟩
  · obtain ⟨h1, h2⟩ := hrem.ok h
    exact ⟨h1, tmod_spec hx h1 hz h2⟩
  · obtain ⟨q, vm1, hq, -⟩ := hdiv.unlimited hl hvm
    obtain ⟨r, vm2, hr, -⟩ := hrem.unlimited hl hvm
    exact ⟨⟨q, vm1, hq⟩, ⟨r, vm2, hr⟩⟩

/-- `-(7 * 2^64 + 1)` divided by `2 * 2^64 + 3` on a 64-bit platform. -/
theorem divide_remainder_exact_two_digits :
    (∃ q vm', divide (P := Platform.arm64) ⟨true, [1, 7]⟩ ⟨false, [3, 2]⟩ VM.zeroed =
      .ok (q, vm') ∧ q.toInt = -3) ∧
    ∃ r vm', remainder (P := Platform.arm64) ⟨true, [1, 7]⟩ ⟨false, [3, 2]⟩ VM.zeroed =
      .ok (r, vm') ∧ r.sign = true := by
  obtain ⟨h1, h2, h3⟩ := divide_remainder_exact (P := Platform.arm64) ⟨true, [1, 7]⟩
    ⟨false, [3, 2]⟩ (by decide) (by decide) (by decide)
  obtain ⟨⟨q, vm1, hq⟩, ⟨r, vm2, hr⟩⟩ := h3 VM.zeroed VM.zeroed_unlimited (by decide)
  have hrem := h2 _ r vm2 hr
  refine ⟨⟨q, vm1, hq, (h1 _ q vm1 hq).2.trans (by decide)⟩, ⟨r, vm2, hr, ?_⟩⟩
  rcases hrem.2.2.2 with h0 | hs
  · have := hrem.2.1
    rw [h0] at this
    exact absurd this (by decide)
  · exact hs

end JscAndroid.BigInt.Divide
