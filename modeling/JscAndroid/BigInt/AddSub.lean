import JscAndroid.BigInt.Bitwise
import JscAndroid.BigInt.ParseInt

/-!
# Addition and subtraction

`addImpl` and `subImpl` reduce signed operands to `absoluteAdd` and `absoluteSub` on magnitudes.
Both run two loops, one over the digits of the shorter operand and one that only hands the carry on,
and trim what they wrote. The loops are settled by one equation each (`addDigits_spec`,
`subDigits_spec`).
-/

namespace JscAndroid.BigInt.AddSub

open Arith.Limbs DigitArith Heap DigitLoops Magnitude Bitwise ParseInt

variable {P : Platform}
variable {x : JSBigInt P}

/-! ## The source -/

/-- The two loops of `absoluteAdd`: the digits stored and the last carry. -/
def addDigits (xs ys : List P.Digit) : List P.Digit × P.Digit :=
  let low := inplaceAddLoop xs ys 0
  let high := addCarryLoop (xs.drop ys.length) low.2
  (low.1 ++ high.1, high.2)

/-- The two loops of `absoluteSub`: the digits stored and the last borrow. -/
def subDigits (xs ys : List P.Digit) : List P.Digit × P.Digit :=
  let low := inplaceSubLoop xs ys 0
  let high := subBorrowLoop (xs.drop ys.length) low.2
  (low.1 ++ high.1, high.2)

/-- `absoluteAdd` once `x` is not the shorter operand. -/
def absoluteAddOrdered (x y : JSBigInt P) (resultSign : Bool) : Op P (JSBigInt P) := do
  if x.isZero then
    return x
  else if y.isZero then
    if resultSign = x.sign then return x
    else unaryMinusImpl x
  else
    let result ← createWithLength (x.length + 1)
    let r := addDigits x.digits y.digits
    rightTrim ((result.setDigits 0 (r.1 ++ [r.2])).setSign resultSign)

def absoluteAdd (x y : JSBigInt P) (resultSign : Bool) : Op P (JSBigInt P) :=
  if x.length < y.length then absoluteAddOrdered y x resultSign
  else absoluteAddOrdered x y resultSign

def absoluteSub (x y : JSBigInt P) (resultSign : Bool) : Op P (JSBigInt P) := do
  let comparisonResult := absoluteCompare x y
  if x.isZero then
    return x
  else if y.isZero then
    if resultSign = x.sign then return x
    else unaryMinusImpl x
  else if comparisonResult = .Equal then
    createZero
  else
    let result ← createWithLength x.length
    rightTrim ((result.setDigits 0 (subDigits x.digits y.digits).1).setSign resultSign)

def addImpl (x y : JSBigInt P) : Op P (JSBigInt P) :=
  let xSign := x.sign
  if xSign = y.sign then absoluteAdd x y xSign
  else
    let comparisonResult := absoluteCompare x y
    if comparisonResult = .GreaterThan ∨ comparisonResult = .Equal then absoluteSub x y xSign
    else absoluteSub y x (!xSign)

def subImpl (x y : JSBigInt P) : Op P (JSBigInt P) :=
  let xSign := x.sign
  if xSign ≠ y.sign then absoluteAdd x y xSign
  else
    let comparisonResult := absoluteCompare x y
    if comparisonResult = .GreaterThan ∨ comparisonResult = .Equal then absoluteSub x y xSign
    else absoluteSub y x (!xSign)

def incImpl (x : JSBigInt P) : Op P (JSBigInt P) := do
  if !x.sign then absoluteAddOne x .Unsigned
  else
    let result ← absoluteSubOne x x.length
    return if result.isZero then result else result.setSign true

def decImpl (x : JSBigInt P) : Op P (JSBigInt P) :=
  if x.isZero then createFrom (-1)
  else if !x.sign then absoluteSubOne x x.length
  else absoluteAddOne x .Signed

def add (x y : JSBigInt P) : Op P (JSBigInt P) := addImpl x y

def sub (x y : JSBigInt P) : Op P (JSBigInt P) := subImpl x y

def inc (x : JSBigInt P) : Op P (JSBigInt P) := incImpl x

def dec (x : JSBigInt P) : Op P (JSBigInt P) := decImpl x

def unaryMinus (x : JSBigInt P) : Op P (JSBigInt P) := unaryMinusImpl x

/-! ## The loops -/

theorem addDigits_spec {xs ys : List P.Digit} (hl : ys.length ≤ xs.length) :
    (addDigits xs ys).1.length = xs.length ∧
      value ((addDigits xs ys).1 ++ [(addDigits xs ys).2]) = value xs + value ys := by
  obtain ⟨l1, -, l3⟩ := inplaceAddLoop_spec xs ys 0 hl (by rw [toNat_zero]; omega)
  obtain ⟨c1, c2⟩ := addCarryLoop_spec (xs.drop ys.length) (inplaceAddLoop xs ys 0).2
  rw [List.length_drop] at c1 c2
  rw [toNat_zero] at l3
  unfold addDigits
  have hlen : ((inplaceAddLoop xs ys 0).1 ++
      (addCarryLoop (xs.drop ys.length) (inplaceAddLoop xs ys 0).2).1).length = xs.length := by
    rw [List.length_append]
    omega
  refine ⟨hlen, ?_⟩
  rw [List.append_assoc, value_append, value_append, value_singleton, l1, c1, c2, mul_add,
    value_take_add_drop xs hl]
  omega

theorem subDigits_sum {xs ys : List P.Digit} (hl : ys.length ≤ xs.length) :
    (subDigits xs ys).1.length = xs.length ∧ value (subDigits xs ys).1 + value ys =
        value xs + (2 ^ P.digitBits) ^ xs.length * (subDigits xs ys).2.toNat := by
  obtain ⟨l1, -, l3⟩ := inplaceSubLoop_spec xs ys 0 hl (by rw [toNat_zero]; omega)
  obtain ⟨c1, c2⟩ := subBorrowLoop_spec (xs.drop ys.length) (inplaceSubLoop xs ys 0).2
  rw [List.length_drop] at c1
  rw [toNat_zero] at l3
  unfold subDigits
  dsimp only
  refine ⟨by rw [List.length_append]; omega, ?_⟩
  have hpow : (2 ^ P.digitBits) ^ xs.length =
      (2 ^ P.digitBits) ^ ys.length * (2 ^ P.digitBits) ^ (xs.drop ys.length).length := by
    rw [← pow_add, List.length_drop, Nat.add_sub_cancel' hl]
  have h1 := congrArg ((2 ^ P.digitBits) ^ ys.length * ·) c2
  simp only [mul_add, ← mul_assoc, ← hpow] at h1
  rw [value_append, l1, value_take_add_drop xs hl]
  omega

theorem subDigits_spec {xs ys : List P.Digit} (hl : ys.length ≤ xs.length)
    (hv : value ys ≤ value xs) : (subDigits xs ys).1.length = xs.length ∧
      value (subDigits xs ys).1 + value ys = value xs := by
  obtain ⟨hlen, hsum⟩ := subDigits_sum hl
  refine ⟨hlen, ?_⟩
  -- a borrow at the end would make the digits stored too large
  have hlt := value_lt (subDigits xs ys).1
  rw [hlen] at hlt
  have h0 : (subDigits xs ys).2.toNat = 0 :=
    eq_zero_of_mul_lt (b := (2 ^ P.digitBits) ^ xs.length) (by omega)
  rw [hsum, h0, mul_zero, add_zero]

/-! ## Magnitudes -/

/-- The integer with this sign and magnitude. -/
def signed (sign : Bool) (n : ℤ) : ℤ := if sign then -n else n

theorem toInt_eq_signed (x : JSBigInt P) : x.toInt = signed x.sign (value x.digits) := rfl

theorem signed_not (b : Bool) (n : ℤ) : signed (!b) n = -signed b n := by
  cases b <;> simp [signed]

/-- The way out when there is nothing to add or subtract: `x` under the sign asked for. -/
theorem resign_returns (hx : x.Normalized) (b : Bool) : Returns (x.length ≤ maxLength P)
      (if b = x.sign then pure x else unaryMinusImpl x : Op P (JSBigInt P))
      (Denotes (signed b (value x.digits))) := by
  split_ifs with hb
  · exact .pure ⟨hx, by rw [hb]; rfl⟩
  · have hb' : b = !x.sign := by
      revert hb
      cases b <;> cases x.sign <;> simp
    rw [hb', signed_not]
    exact unaryMinusImpl_returns hx

theorem value_of_isZero (h : x.isZero = true) : value x.digits = 0 := by
  rw [JSBigInt.isZero_iff.mp h]
  rfl

section
variable {x y : JSBigInt P} (hx : x.Normalized) (hy : y.Normalized)

theorem absoluteAddOrdered_returns (hx : x.Normalized) (b : Bool) (hl : y.length ≤ x.length) :
    Returns (x.length < maxLength P) (absoluteAddOrdered x y b)
      (Denotes (signed b (value x.digits + value y.digits : ℕ))) := by
  refine .ite (fun hxz => .pure ⟨hx, ?_⟩) fun _ => .ite (fun hyz => ?_) fun _ => ?_
  · have hyz : y.isZero = true := by
      simp only [JSBigInt.isZero, beq_iff_eq] at hxz ⊢
      omega
    rw [toInt_eq_signed, value_of_isZero hxz, value_of_isZero hyz]
    cases b <;> simp [signed]
  · rw [value_of_isZero hyz]
    exact (resign_returns hx b).room_of le_of_lt
  · obtain ⟨d1, d2⟩ := addDigits_spec hl
    rw [← d2]
    exact (fill_returns (by rw [List.length_append, d1]; rfl) (by simp)).room_of
      Nat.succ_le_of_lt

/-- **`absoluteAdd` adds magnitudes.** -/
theorem absoluteAdd_returns (hx : x.Normalized) (hy : y.Normalized) (b : Bool) :
    Returns (x.length < maxLength P ∧ y.length < maxLength P) (absoluteAdd x y b)
      (Denotes (signed b (value x.digits + value y.digits : ℕ))) := by
  unfold absoluteAdd
  split_ifs with hl
  · rw [add_comm]
    exact (absoluteAddOrdered_returns hy b hl.le).room_of And.right
  · exact (absoluteAddOrdered_returns hx b (by omega)).room_of And.left

theorem length_le_of_value_le (hy : y.Normalized) (hv : value y.digits ≤ value x.digits) :
    y.length ≤ x.length := by
  by_contra hl
  have := value_lt_of_length_lt hy (Nat.lt_of_not_le hl)
  omega

include hx hy

/-- **`absoluteSub` subtracts magnitudes**, the smaller from the larger. -/
theorem absoluteSub_returns (b : Bool) (hv : value y.digits ≤ value x.digits) :
    Returns (x.length ≤ maxLength P) (absoluteSub x y b)
      (Denotes (signed b (value x.digits - value y.digits : ℕ))) := by
  refine .ite (fun hxz => .pure ⟨hx, ?_⟩) fun hxz => .ite (fun hyz => ?_) fun _ =>
    .ite (fun heq => ?_) fun _ => ?_
  · rw [toInt_eq_signed, value_of_isZero hxz]
    cases b <;> simp [signed]
  · rw [value_of_isZero hyz]
    exact resign_returns hx b
  · have hval : value x.digits - value y.digits = 0 := by
      rw [absoluteCompare_eq hx hy, ComparisonResult.ofMagnitudes] at heq
      split_ifs at heq
      omega
    rw [hval, show signed b (0 : ℕ) = 0 by cases b <;> rfl]
    exact createZero_returns _
  · obtain ⟨d1, d2⟩ := subDigits_spec (length_le_of_value_le hy hv) hv
    rw [show value x.digits - value y.digits = value (subDigits x.digits y.digits).1 by omega]
    refine fill_returns d1.symm fun h0 => absurd (JSBigInt.isZero_iff.mpr ?_) hxz
    rw [← List.length_eq_zero_iff, ← d1, h0]
    rfl

/-! ## The operators -/

theorem greaterThan_or_equal_iff :
    (absoluteCompare x y = .GreaterThan ∨ absoluteCompare x y = .Equal) ↔
      value y.digits ≤ value x.digits := by
  rw [absoluteCompare_eq hx hy]
  unfold ComparisonResult.ofMagnitudes
  split_ifs <;> simp <;> omega

/-- Subtracting the smaller magnitude from the larger one, and flipping the sign if that swapped
them, is the difference of the magnitudes under the sign of `x`. -/
theorem orderedSub_returns (b : Bool) : Returns (x.length < maxLength P ∧ y.length < maxLength P)
      (if absoluteCompare x y = .GreaterThan ∨ absoluteCompare x y = .Equal then
        absoluteSub x y b else absoluteSub y x (!b))
      (Denotes (signed b ((value x.digits : ℤ) - value y.digits))) := by
  have hcompare := greaterThan_or_equal_iff hx hy
  refine .ite (fun hc => ?_) fun hc => ?_ <;> rw [hcompare] at hc
  · rw [← Int.ofNat_sub hc]
    exact (absoluteSub_returns hx hy b hc).room_of fun h => h.1.le
  · rw [show signed b ((value x.digits : ℤ) - value y.digits) =
        signed (!b) (value y.digits - value x.digits : ℕ) by
        rw [Int.ofNat_sub (by omega)]
        cases b <;> simp [signed]]
    exact (absoluteSub_returns hy hx (!b) (by omega)).room_of fun h => h.2.le

theorem addImpl_returns : Returns (x.length < maxLength P ∧ y.length < maxLength P) (addImpl x y)
      (Denotes (x.toInt + y.toInt)) := by
  refine .ite (fun hs => ?_) fun hs => ?_
  · refine (absoluteAdd_returns hx hy _).imp fun r hr => ⟨hr.1, hr.2.trans ?_⟩
    rw [toInt_eq_signed x, toInt_eq_signed y, ← hs]
    cases x.sign <;> simp [signed]
    omega
  · refine (orderedSub_returns hx hy _).imp fun r hr => ⟨hr.1, hr.2.trans ?_⟩
    rw [toInt_eq_signed x, toInt_eq_signed y]
    revert hs
    cases x.sign <;> cases y.sign <;> simp [signed] <;> omega

theorem subImpl_returns : Returns (x.length < maxLength P ∧ y.length < maxLength P) (subImpl x y)
      (Denotes (x.toInt - y.toInt)) := by
  refine .ite (fun hs => ?_) fun hs => ?_
  · refine (absoluteAdd_returns hx hy _).imp fun r hr => ⟨hr.1, hr.2.trans ?_⟩
    rw [toInt_eq_signed x, toInt_eq_signed y]
    revert hs
    cases x.sign <;> cases y.sign <;> simp [signed]
    omega
  · refine (orderedSub_returns hx hy _).imp fun r hr => ⟨hr.1, hr.2.trans ?_⟩
    rw [toInt_eq_signed x, toInt_eq_signed y, ← not_not.mp hs]
    cases x.sign <;> simp [signed]
    omega
end

theorem incImpl_returns (hx : x.Normalized) :
    Returns (x.length < maxLength P) (incImpl x) (Denotes (x.toInt + 1)) := by
  unfold incImpl
  cases hs : x.sign
  · rw [toInt_of_pos hs]
    exact absoluteAddOne_returns x .Unsigned
  · refine ((absoluteSubOne_returns (value_pos_of_neg hx hs) le_rfl).room_of le_of_lt).bind ?_
    rintro s ⟨n1, n2⟩
    have hval := value_of_toInt n2
    have hint := toInt_of_neg hx hs
    refine .pure ?_
    split_ifs with hz
    · refine ⟨n1, ?_⟩
      have := value_of_isZero hz
      omega
    · refine ⟨⟨n1.top, fun h0 => absurd (JSBigInt.isZero_iff.mpr h0) hz⟩, ?_⟩
      rw [toInt_eq_signed, JSBigInt.setSign_digits, hval, hint]
      simp [signed]

theorem decImpl_returns (hx : x.Normalized) :
    Returns (x.length < maxLength P) (decImpl x) (Denotes (x.toInt - 1)) := by
  refine .ite (fun hz => ?_) fun hz => ?_
  · rw [hx.toInt_eq_zero_iff.mpr (JSBigInt.isZero_iff.mp hz)]
    exact createFrom_returns _ (by decide)
  have hpos := hx.value_pos fun h0 => hz (JSBigInt.isZero_iff.mpr h0)
  cases hs : x.sign
  · rw [toInt_of_pos hs, show (value x.digits : ℤ) - 1 = (value x.digits - 1 : ℕ) by omega]
    exact (absoluteSubOne_returns hpos le_rfl).room_of le_of_lt
  · rw [toInt_of_neg hx hs,
      show -(((value x.digits - 1 : ℕ) : ℤ) + 1) - 1 = -((value x.digits : ℤ) + 1) by omega]
    exact absoluteAddOne_returns x .Signed

/-- **Addition and subtraction are exact.** Whatever they return is the normalized sum or
difference, the canonical zero in particular, and for operands below the maximal length they do
return unless an allocation fails. -/
theorem sums_exact (x y : JSBigInt P) (hx : x.Normalized) (hy : y.Normalized) :
    (Exact (add x y) (x.toInt + y.toInt) ∧ Exact (sub x y) (x.toInt - y.toInt) ∧
      Exact (inc x) (x.toInt + 1) ∧ Exact (dec x) (x.toInt - 1) ∧ Exact (unaryMinus x) (-x.toInt)) ∧
    (x.length < maxLength P → y.length < maxLength P →
      Total (add x y) ∧ Total (sub x y) ∧ Total (inc x) ∧ Total (dec x) ∧
        Total (unaryMinus x)) := by
  have hadd := addImpl_returns hx hy
  have hsub := subImpl_returns hx hy
  have hneg := unaryMinusImpl_returns hx
  refine ⟨⟨hadd.exact, hsub.exact, (incImpl_returns hx).exact, (decImpl_returns hx).exact,
    hneg.exact⟩, fun hxl hyl => ?_⟩
  exact ⟨hadd.total ⟨hxl, hyl⟩, hsub.total ⟨hxl, hyl⟩, (incImpl_returns hx).total hxl,
    (decImpl_returns hx).total hxl, hneg.total hxl.le⟩

/-- `(2^64 - 1) - (-2^64)` and `-1 + 1` on a 64-bit platform. -/
theorem sums_exact_two_digits :
    (∃ r vm', sub (P := Platform.arm64) ⟨false, [-1]⟩ ⟨true, [0, 1]⟩ VM.zeroed = .ok (r, vm') ∧
      r.toInt = 2 ^ 65 - 1) ∧
    ∃ r vm', inc (P := Platform.arm64) ⟨true, [1]⟩ VM.zeroed = .ok (r, vm') ∧
      r.length = 0 ∧ r.sign = false := by
  obtain ⟨⟨-, h1, -⟩, ht⟩ := sums_exact (P := Platform.arm64) ⟨false, [-1]⟩ ⟨true, [0, 1]⟩
    (by decide) (by decide)
  obtain ⟨⟨-, -, h2, -⟩, hu⟩ := sums_exact (P := Platform.arm64) ⟨true, [1]⟩ ⟨true, [1]⟩
    (by decide) (by decide)
  obtain ⟨r, vm', hr, -⟩ := (ht (by decide) (by decide)).2.1 _ VM.zeroed_unlimited
  obtain ⟨s, vm2, hs, -⟩ := (hu (by decide) (by decide)).2.2.1 _ VM.zeroed_unlimited
  exact ⟨⟨r, vm', hr, (h1 _ _ _ hr).2.1.trans (by decide)⟩,
    s, vm2, hs, (h2 _ _ _ hs).2.2 (by decide)⟩

end JscAndroid.BigInt.AddSub
