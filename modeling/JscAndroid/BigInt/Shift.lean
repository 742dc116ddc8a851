import JscAndroid.BigInt.AddSub

/-!
# Shifts

A shift moves whole digits first and the rest of the amount within digits. To the left, a result
that is too big is refused before anything is allocated. To the right, the bits that fall out of a
negative number decide whether one has to be added to the magnitude.

`shifts_exact` compares both directions with `⌊x * 2 ^ n⌋` and says when the shift to the left
throws.
-/

namespace JscAndroid.BigInt.Shift

open Arith.Limbs Arith.Bits DigitArith Heap DigitLoops Magnitude Bitwise ParseInt AddSub JSBigInt

variable {P : Platform}
variable {x : JSBigInt P}

/-! ## The source -/

def toShiftAmount (x : JSBigInt P) : Option P.Digit :=
  if x.length > 1 then none
  else
    let value := x.digit 0
    if value.toNat > maxLengthBits then none else some value

def leftShiftByAbsolute (x y : JSBigInt P) : Op P (JSBigInt P) := do
  match toShiftAmount y with
  | none => throw (.outOfMemoryError (some tooBigMessage))
  | some shift =>
    let digitShift := shift.toNat / P.digitBits
    let bitsShift := shift.toNat % P.digitBits
    let length := x.length
    let grow := bitsShift != 0 && x.digit (length - 1) >>> (P.digitBits - bitsShift) != 0
    let resultLength := length + digitShift + grow.toNat
    if resultLength > maxLength P then
      throw (.outOfMemoryError (some tooBigMessage))
    else
      let result ← createWithLength resultLength
      let zeros := List.replicate digitShift 0
      let shifted := leftShiftLoop bitsShift x.digits 0
      let written :=
        if bitsShift = 0 then zeros ++ x.digits
        else zeros ++ (if grow then shifted.1 ++ [shifted.2] else shifted.1)
      rightTrim ((result.setDigits 0 written).setSign x.sign)

def rightShiftByMaximum (sign : Bool) : Op P (JSBigInt P) :=
  if sign then createFrom (-1) else createZero

/-- Whether a bit that is set falls out. -/
def losesBits (x : JSBigInt P) (digitalShift bitsShift : ℕ) : Bool :=
  let mask := ((1 : P.Digit) <<< bitsShift) - 1
  x.digit digitalShift &&& mask != 0 || (x.digits.take digitalShift).any (· != 0)

def rightShiftByAbsolute (x y : JSBigInt P) : Op P (JSBigInt P) := do
  let length := x.length
  let sign := x.sign
  match toShiftAmount y with
  | none => rightShiftByMaximum sign
  | some shift =>
    let digitalShift := shift.toNat / P.digitBits
    let bitsShift := shift.toNat % P.digitBits
    let resultLength := length - digitalShift
    if resultLength ≤ 0 then
      rightShiftByMaximum sign
    else
      let mustRoundDown := sign && losesBits x digitalShift bitsShift
      let msd := x.digit (length - 1)
      let roundingCanOverflow := ~~~msd == 0
      let resultLength :=
        if mustRoundDown ∧ bitsShift = 0 ∧ roundingCanOverflow then resultLength + 1
        else resultLength
      let result ← createWithLength resultLength
      let result :=
        if bitsShift = 0 then
          (result.setDigits (resultLength - 1) [0]).setDigits 0 (x.digits.drop digitalShift)
        else
          result.setDigits 0 (rightShiftLoop bitsShift (x.digits.drop (digitalShift + 1))
            (x.digit digitalShift >>> bitsShift))
      if sign then
        let result := result.setSign true
        if mustRoundDown then
          let result ← rightTrim result
          absoluteAddOne result .Signed
        else rightTrim result
      else rightTrim result

def leftShiftImpl (x y : JSBigInt P) : Op P (JSBigInt P) :=
  if x.isZero ∨ y.isZero then return x
  else if y.sign then rightShiftByAbsolute x y
  else leftShiftByAbsolute x y

def signedRightShiftImpl (x y : JSBigInt P) : Op P (JSBigInt P) :=
  if x.isZero ∨ y.isZero then return x
  else if y.sign then leftShiftByAbsolute x y
  else rightShiftByAbsolute x y

def leftShift (x y : JSBigInt P) : Op P (JSBigInt P) := leftShiftImpl x y

def signedRightShift (x y : JSBigInt P) : Op P (JSBigInt P) := signedRightShiftImpl x y

/-! ## Shift amounts -/

theorem maxLengthBits_lt (P : Platform) : maxLengthBits < 2 ^ P.digitBits := by
  have := P.base_ge
  unfold maxLengthBits
  omega

/-- **A shift amount** is the magnitude of `y`, unless that is above `maxLengthBits`. -/
theorem toShiftAmount_cases {y : JSBigInt P} (hy : y.Normalized) :
    (toShiftAmount y = none ∧ maxLengthBits < value y.digits) ∨
      ∃ s, toShiftAmount y = some s ∧ s.toNat = value y.digits ∧
        value y.digits ≤ maxLengthBits := by
  unfold toShiftAmount
  by_cases hl : y.length > 1
  · rw [if_pos hl]
    refine .inl ⟨rfl, ?_⟩
    unfold length at hl
    have h1 := hy.pow_le_value (List.length_pos_iff.mp (by omega))
    have h2 : (2 ^ P.digitBits) ^ 1 ≤ (2 ^ P.digitBits) ^ (y.digits.length - 1) :=
      Nat.pow_le_pow_right (by positivity) (by omega)
    have h3 := maxLengthBits_lt P
    rw [pow_one] at h2
    omega
  · have hval : value y.digits = (y.digit 0).toNat := by
      rcases lt_or_ge y.length 1 with h0 | h0
      · have : y.digits = [] := List.eq_nil_of_length_eq_zero (by unfold length at h0; omega)
        rw [digit, this]
        simp
      · exact value_of_length_one (by omega)
    rw [hval]
    dsimp only
    split_ifs with hv
    · exact .inl ⟨rfl, hv⟩
    · exact .inr ⟨_, rfl, rfl, by omega⟩

theorem two_pow_shift (P : Platform) (s : ℕ) :
    2 ^ s = (2 ^ P.digitBits) ^ (s / P.digitBits) * 2 ^ (s % P.digitBits) := by
  rw [← pow_mul, ← pow_add, Nat.div_add_mod]

theorem bitsShift_lt (P : Platform) (s : ℕ) : s % P.digitBits < P.digitBits :=
  Nat.mod_lt _ (P.digitBits_pos)

/-! ## To the left -/

theorem digit_top (h : x.digits ≠ []) : x.digit (x.length - 1) = x.digits.getLast h := by
  have hl := List.length_pos_iff.mpr h
  rw [digit, length, List.getD_eq_getElem _ _ (by omega), ← List.getLast_eq_getElem h]

/-- Whether the bits moved within the top digit need one digit more. -/
def grows (x : JSBigInt P) (bitsShift : ℕ) : Bool :=
  bitsShift != 0 && x.digit (x.length - 1) >>> (P.digitBits - bitsShift) != 0

theorem top_shift_eq_zero_iff (h : x.digits ≠ []) (b : ℕ) :
    x.digit (x.length - 1) >>> (P.digitBits - b) = 0 ↔
      (x.digits.getLast h).toNat < 2 ^ (P.digitBits - b) := by
  rw [digit_top h, BitVec.toNat_eq, BitVec.toNat_ushiftRight, Nat.shiftRight_eq_div_pow,
    toNat_zero, Nat.div_eq_zero_iff]
  have : 0 < 2 ^ (P.digitBits - b) := by positivity
  omega

/-- **The length of a shifted magnitude** is predicted exactly. -/
theorem grows_spec (hx : x.Normalized) (hne : x.digits ≠ []) {b : ℕ} (hb : b < P.digitBits) :
    (2 ^ P.digitBits) ^ (x.length - 1 + (grows x b).toNat) ≤ value x.digits * 2 ^ b ∧
      value x.digits * 2 ^ b < (2 ^ P.digitBits) ^ (x.length + (grows x b).toNat) := by
  have hpos := List.length_pos_iff.mpr hne
  have hlow := getLast_mul_le_value x.digits hne
  have hhigh := value_lt_getLast x.digits hne
  have hnorm := hx.pow_le_value hne
  have hlt := value_lt x.digits
  unfold length
  have hsucc : (2 ^ P.digitBits) ^ x.digits.length =
      2 ^ (P.digitBits - b) * (2 ^ P.digitBits) ^ (x.digits.length - 1) * 2 ^ b := by
    rw [mul_right_comm, ← pow_add, Nat.sub_add_cancel hb.le, ← pow_succ',
      Nat.sub_add_cancel hpos]
  have hone : 1 ≤ 2 ^ b := Nat.one_le_two_pow
  cases hg : grows x b
  · refine ⟨?_, ?_⟩
    · calc (2 ^ P.digitBits) ^ (x.digits.length - 1 + false.toNat)
          ≤ value x.digits * 1 := by simpa using hnorm
        _ ≤ value x.digits * 2 ^ b := Nat.mul_le_mul_left _ hone
    · by_cases h0 : b = 0
      · simpa [h0] using hlt
      have htop : (x.digits.getLast hne).toNat < 2 ^ (P.digitBits - b) := by
        rw [← top_shift_eq_zero_iff hne]
        simpa [grows, h0] using hg
      rw [Bool.toNat_false, add_zero, hsucc]
      refine mul_lt_mul_of_pos_right (lt_of_lt_of_le hhigh ?_) (by positivity)
      exact Nat.mul_le_mul_right _ htop
  · have hg' : b ≠ 0 ∧ x.digit (x.length - 1) >>> (P.digitBits - b) ≠ 0 := by
      simpa [grows] using hg
    have htop : 2 ^ (P.digitBits - b) ≤ (x.digits.getLast hne).toNat := by
      have := mt (top_shift_eq_zero_iff hne b).mpr hg'.2
      omega
    refine ⟨?_, ?_⟩
    · rw [Bool.toNat_true, Nat.sub_add_cancel hpos, hsucc]
      exact Nat.mul_le_mul_right _ ((Nat.mul_le_mul_right _ htop).trans hlow)
    · exact Nat.mul_lt_mul_of_lt_of_lt hlt (Nat.pow_lt_pow_right (by omega) hb)

/-- The digits that `leftShiftByAbsolute` stores. -/
def leftShifted (x : JSBigInt P) (digitShift bitsShift : ℕ) : List P.Digit :=
  let shifted := leftShiftLoop bitsShift x.digits 0
  if bitsShift = 0 then List.replicate digitShift 0 ++ x.digits
  else List.replicate digitShift 0 ++
    (if grows x bitsShift then shifted.1 ++ [shifted.2] else shifted.1)

theorem leftShiftByAbsolute_eq (x y : JSBigInt P) : leftShiftByAbsolute x y =
    (match toShiftAmount y with
    | none => throw (.outOfMemoryError (some tooBigMessage))
    | some shift =>
      let digitShift := shift.toNat / P.digitBits
      let bitsShift := shift.toNat % P.digitBits
      let resultLength := x.length + digitShift + (grows x bitsShift).toNat
      if resultLength > maxLength P then throw (.outOfMemoryError (some tooBigMessage))
      else do
        let result ← createWithLength resultLength
        rightTrim ((result.setDigits 0 (leftShifted x digitShift bitsShift)).setSign x.sign)) :=
  rfl

theorem leftShifted_spec (hx : x.Normalized) (hne : x.digits ≠ []) {ds b : ℕ}
    (hb : b < P.digitBits) : (leftShifted x ds b).length = x.length + ds + (grows x b).toNat ∧
      value (leftShifted x ds b) = value x.digits * ((2 ^ P.digitBits) ^ ds * 2 ^ b) := by
  obtain ⟨l1, -, l3⟩ := leftShiftLoop_spec hb.le x.digits 0 (by rw [toNat_zero]; positivity)
  rw [toNat_zero, add_zero] at l3
  unfold leftShifted length
  by_cases h0 : b = 0
  · have hg : grows x b = false := by simp [grows, h0]
    rw [if_pos h0, hg, h0]
    refine ⟨by simp [add_comm], ?_⟩
    rw [value_append, value_replicate_zero, List.length_replicate]
    ring
  · rw [if_neg h0]
    have hval : value (if grows x b then (leftShiftLoop b x.digits 0).1 ++
          [(leftShiftLoop b x.digits 0).2] else (leftShiftLoop b x.digits 0).1) =
        value x.digits * 2 ^ b := by
      cases hg : grows x b
      · have hfit := (grows_spec hx hne hb).2
        rw [hg] at hfit
        exact eq_of_add_mul l3 hfit
      · rw [if_pos rfl, value_append, value_singleton, l1, l3]
    have hlen : (if grows x b then (leftShiftLoop b x.digits 0).1 ++
          [(leftShiftLoop b x.digits 0).2] else (leftShiftLoop b x.digits 0).1).length =
        x.digits.length + (grows x b).toNat := by
      cases grows x b
      · exact l1
      · rw [if_pos rfl, List.length_append, l1]
        rfl
    refine ⟨?_, ?_⟩
    · rw [List.length_append, List.length_replicate]
      omega
    · rw [value_append, value_replicate_zero, List.length_replicate, hval]
      ring

section
variable {x y : JSBigInt P} (hx : x.Normalized) (hne : x.digits ≠ []) (hy : y.Normalized)
include hx hne

/-- The result is refused for its length exactly if it needs more digits than there may be. -/
theorem resultLength_gt_iff (s : ℕ) :
    x.length + s / P.digitBits + (grows x (s % P.digitBits)).toNat > maxLength P ↔
      (2 ^ P.digitBits) ^ maxLength P ≤ value x.digits * 2 ^ s := by
  have hB := P.one_lt_base
  obtain ⟨h1, h2⟩ := grows_spec hx hne (bitsShift_lt P s)
  have hpos : 0 < x.length := List.length_pos_iff.mpr hne
  set g := (grows x (s % P.digitBits)).toNat
  have hval : value x.digits * 2 ^ s =
      value x.digits * 2 ^ (s % P.digitBits) * (2 ^ P.digitBits) ^ (s / P.digitBits) := by
    rw [two_pow_shift P s]
    ring
  generalize s / P.digitBits = q at hval ⊢
  have low : (2 ^ P.digitBits) ^ (x.length + q + g - 1) ≤ value x.digits * 2 ^ s := by
    rw [hval, show x.length + q + g - 1 = x.length - 1 + g + q by omega, pow_add]
    exact Nat.mul_le_mul_right _ h1
  have high : value x.digits * 2 ^ s < (2 ^ P.digitBits) ^ (x.length + q + g) := by
    rw [hval, show x.length + q + g = x.length + g + q by omega, pow_add]
    exact mul_lt_mul_of_pos_right h2 (by positivity)
  constructor
  · intro h
    exact (Nat.pow_le_pow_right (by omega) (by omega)).trans low
  · intro h
    exact (Nat.pow_lt_pow_iff_right hB).mp (lt_of_le_of_lt h high)

include hy

theorem leftShiftByAbsolute_returns : Returns (¬(maxLengthBits < value y.digits ∨
        (2 ^ P.digitBits) ^ maxLength P ≤ value x.digits * 2 ^ value y.digits))
      (leftShiftByAbsolute x y) (Denotes (x.toInt * 2 ^ value y.digits)) := by
  rw [leftShiftByAbsolute_eq]
  rcases toShiftAmount_cases hy with ⟨hs, hbig⟩ | ⟨s, hs, hval, -⟩
  · rw [hs]
    exact .throw (not_not.mpr (.inl hbig))
  rw [hs]
  dsimp only
  rw [hval, ← resultLength_gt_iff hx hne]
  obtain ⟨w1, w2⟩ := leftShifted_spec hx hne (bitsShift_lt P (value y.digits))
  split_ifs with hbig
  · exact .throw (not_not.mpr (.inr hbig))
  · refine (fill_returns w1.symm fun h0 => absurd (congrArg List.length h0) ?_).mono
      (fun _ => Nat.le_of_not_lt hbig) fun r hr => ⟨hr.1, hr.2.trans ?_⟩
    · have hpos : 0 < x.length := List.length_pos_iff.mpr hne
      rw [w1]
      exact (Nat.add_pos_left (Nat.add_pos_left hpos _) _).ne'
    · rw [toInt_eq_signed, toInt_eq_signed, w2, ← two_pow_shift]
      cases x.sign <;> simp [signed]

/-- **When the shift to the left is refused.** -/
theorem leftShiftByAbsolute_tooBig_iff (vm : VM P) :
    leftShiftByAbsolute x y vm = .error (.outOfMemoryError (some tooBigMessage)) ↔
      maxLengthBits < value y.digits ∨
        (2 ^ P.digitBits) ^ maxLength P ≤ value x.digits * 2 ^ value y.digits := by
  constructor
  · intro h
    by_contra hroom
    cases (leftShiftByAbsolute_returns hx hne hy).quiet hroom h
  · intro hbig
    rw [leftShiftByAbsolute_eq]
    rcases toShiftAmount_cases hy with ⟨hs, -⟩ | ⟨s, hs, hval, hsmall⟩
    · rw [hs]
      rfl
    rw [hs]
    dsimp only
    rw [hval, if_pos ((resultLength_gt_iff hx hne _).mpr (hbig.resolve_left (by omega)))]
    rfl
end

/-! ## To the right -/

/-- Shifting a negative number to the right: one more on the magnitude if a bit falls out. -/
theorem neg_ediv_two_pow (v s : ℕ) : -(v : ℤ) / 2 ^ s = if v % 2 ^ s = 0 then -((v / 2 ^ s : ℕ) : ℤ)
      else -((v / 2 ^ s : ℕ) + 1 : ℤ) := by
  have hdvd : (2 : ℤ) ^ s ∣ v ↔ v % 2 ^ s = 0 := by
    rw [← Nat.dvd_iff_mod_eq_zero]
    exact_mod_cast Int.natCast_dvd_natCast
  rw [Int.neg_ediv, Int.sign_eq_one_of_pos (by positivity)]
  simp only [hdvd]
  split_ifs
  · simp
  · push_cast
    ring

theorem any_ne_zero_eq_false_iff (ds : List P.Digit) : ds.any (· != 0) = false ↔ value ds = 0 := by
  induction ds with
  | nil => simp
  | cons d ds ih =>
    have hd : (d != 0) = false ↔ d.toNat = 0 := by
      rw [bne_eq_false_iff_eq, BitVec.toNat_eq, toNat_zero]
    have hB : 2 ^ P.digitBits ≠ 0 := by positivity
    rw [List.any_cons, Bool.or_eq_false_iff, hd, ih, value_cons, Nat.add_eq_zero_iff,
      mul_eq_zero, or_iff_right hB]

theorem losesBits_iff (x : JSBigInt P) (s : ℕ) :
    losesBits x (s / P.digitBits) (s % P.digitBits) = true ↔ value x.digits % 2 ^ s ≠ 0 := by
  have hb := bitsShift_lt P s
  have hdigit : x.digit (s / P.digitBits) &&& ((1 : P.Digit) <<< (s % P.digitBits) - 1) = 0 ↔
      (x.digit (s / P.digitBits)).toNat % 2 ^ (s % P.digitBits) = 0 := by
    rw [BitVec.toNat_eq, toNat_and_mask _ hb, toNat_zero]
  have hB : (2 ^ P.digitBits) ^ (s / P.digitBits) ≠ 0 := by positivity
  rw [two_pow_shift P s, value_mod _ _ hb.le, Ne, Nat.add_eq_zero_iff, mul_eq_zero,
    or_iff_right hB, ← any_ne_zero_eq_false_iff]
  rw [losesBits, Bool.or_eq_true, bne_iff_ne, Ne, hdigit, and_comm, not_and_or, Bool.not_eq_false]
  rfl

theorem rightShiftByMaximum_returns (room : Prop) (sign : Bool) :
    Returns room (rightShiftByMaximum sign : Op P (JSBigInt P))
      (Denotes (if sign then -1 else 0)) := by
  cases sign
  · exact createZero_returns _
  · exact createFrom_returns (z := -1) _ (by decide)

/-- A magnitude below the power: all that is left is the sign. -/
theorem toInt_ediv_of_lt (hx : x.Normalized) {s : ℕ} (h : value x.digits < 2 ^ s) :
    x.toInt / 2 ^ s = if x.sign then -1 else 0 := by
  unfold toInt
  by_cases hs : x.sign = true
  · have hpos := value_pos_of_neg hx hs
    rw [if_pos hs, if_pos hs, neg_ediv_two_pow, Nat.mod_eq_of_lt h, if_neg (by omega),
      Nat.div_eq_of_lt h]
    rfl
  · rw [if_neg hs, if_neg hs]
    exact_mod_cast Nat.div_eq_of_lt h

/-- The digits that `rightShiftByAbsolute` stores. -/
def rightShifted (x c : JSBigInt P) (digitalShift bitsShift resultLength : ℕ) : JSBigInt P :=
  if bitsShift = 0 then
    (c.setDigits (resultLength - 1) [0]).setDigits 0 (x.digits.drop digitalShift)
  else
    c.setDigits 0 (rightShiftLoop bitsShift (x.digits.drop (digitalShift + 1))
      (x.digit digitalShift >>> bitsShift))

/-- **The digits left over**, with room for one more if nothing is moved within them. -/
theorem rightShifted_spec {c : JSBigInt P} {q b n : ℕ} (hb : b < P.digitBits) (hq : q < x.length)
    (hc : c.digits.length = n) (hn : n = x.length - q ∨ b = 0 ∧ n = x.length - q + 1) :
    (rightShifted x c q b n).digits ≠ [] ∧ value (rightShifted x c q b n).digits =
        value x.digits / ((2 ^ P.digitBits) ^ q * 2 ^ b) := by
  unfold length at hq hn
  have hdrop : (x.digits.drop q).length = x.digits.length - q := List.length_drop
  rw [← Nat.div_div_eq_div_mul, ← value_drop _ hq.le]
  unfold rightShifted
  by_cases h0 : b = 0
  · rw [if_pos h0, h0, pow_zero, Nat.div_one, setDigits_digits,
      setDigits_digits]
    rcases hn with hn | ⟨-, hn⟩
    · rw [overwrite_all (by rw [length_overwrite (by simp; omega), hdrop, hc, hn])]
      exact ⟨List.length_pos_iff.mp (by omega), rfl⟩
    · have hzero : (overwrite c.digits (n - 1) [0]).drop (x.digits.drop q).length = [0] := by
        rw [hdrop, show x.digits.length - q = n - 1 by omega,
          drop_overwrite (by omega), List.drop_of_length_le (by simp; omega)]
        rfl
      unfold overwrite at hzero ⊢
      rw [zero_add, hzero]
      refine ⟨by simp, ?_⟩
      rw [value_append]
      simp
  · obtain hn | ⟨hn, -⟩ := hn
    · have hd : x.digits.drop q = x.digit q :: x.digits.drop (q + 1) := by
        rw [digit, List.getD_eq_getElem _ _ hq, ← List.drop_eq_getElem_cons hq]
      have hshift := inplaceRightShift_spec hb (x.digits.drop q)
      unfold inplaceRightShift at hshift
      rw [if_neg h0, hd] at hshift
      rw [if_neg h0, setDigits_digits, overwrite_all (by
        rw [hshift.1, ← hd, hdrop, hc, hn])]
      refine ⟨List.length_pos_iff.mp (by rw [hshift.1]; simp), ?_⟩
      rw [hshift.2, ← hd]
    · exact absurd hn h0

theorem rightShiftByAbsolute_returns {y : JSBigInt P} (hx : x.Normalized) (hy : y.Normalized)
    (hl : x.length ≤ maxLength P) :
    Returns False (rightShiftByAbsolute x y) (Denotes (x.toInt / 2 ^ value y.digits)) := by
  unfold rightShiftByAbsolute
  have hlt := value_lt x.digits
  rcases toShiftAmount_cases hy with ⟨hs, hbig⟩ | ⟨s, hs, hval, -⟩
  · rw [hs, toInt_ediv_of_lt hx (lt_of_lt_of_le hlt ?_)]
    · exact rightShiftByMaximum_returns _ _
    · rw [← pow_mul]
      refine Nat.pow_le_pow_right (by omega) (le_trans ?_ hbig.le)
      rw [mul_comm]
      exact (Nat.mul_le_mul_right _ hl).trans (Nat.div_mul_le_self _ _)
  rw [hs]
  dsimp only
  rw [hval]
  set n := value y.digits with hn
  have hb := bitsShift_lt P n
  by_cases hmax : x.length - n / P.digitBits ≤ 0
  · rw [if_pos hmax, toInt_ediv_of_lt hx (lt_of_lt_of_le hlt ?_)]
    · exact rightShiftByMaximum_returns _ _
    · rw [← pow_mul]
      refine Nat.pow_le_pow_right (by omega) (le_trans ?_ (Nat.mul_div_le n P.digitBits))
      exact Nat.mul_le_mul_left _ (Nat.le_of_sub_eq_zero (Nat.le_zero.mp hmax))
  rw [if_neg hmax]
  have hq : n / P.digitBits < x.length := by
    omega
  have hlose := losesBits_iff x n
  generalize hroom : (if (x.sign && losesBits x (n / P.digitBits) (n % P.digitBits)) = true ∧
      n % P.digitBits = 0 ∧ (~~~x.digit (x.length - 1) == 0) = true then
      x.length - n / P.digitBits + 1 else x.length - n / P.digitBits) = room
  have hroom' : room = x.length - n / P.digitBits ∨
      n % P.digitBits = 0 ∧ room = x.length - n / P.digitBits + 1 := by
    rw [← hroom]
    split_ifs with h0
    · exact .inr ⟨h0.2.1, rfl⟩
    · exact .inl rfl
  refine ((createWithLength_returns room).room_of False.elim).bind fun c hc => ?_
  obtain ⟨w1, w2⟩ := rightShifted_spec hb hq hc.1 hroom'
  rw [← two_pow_shift] at w2
  have hcs : (rightShifted x c (n / P.digitBits) (n % P.digitBits) room).sign = false := by
    unfold rightShifted
    split_ifs <;> exact hc.2
  set z := rightShifted x c (n / P.digitBits) (n % P.digitBits) room
  have htrim : Returns False (rightTrim (z.setSign true))
      (Denotes (-(value x.digits / 2 ^ n : ℕ))) := by
    rw [← w2]
    exact (rightTrim_returns (x := z.setSign true) (absurd · w1)).room_of False.elim
  unfold toInt
  by_cases hsign : x.sign = true
  · rw [if_pos hsign, hsign, Bool.true_and, if_pos rfl, neg_ediv_two_pow]
    by_cases hround : losesBits x (n / P.digitBits) (n % P.digitBits) = true
    · rw [if_pos hround, if_neg (hlose.mp hround)]
      refine htrim.bind fun t ht => ?_
      have htv : value t.digits = value x.digits / 2 ^ n := by
        rw [← natAbs_toInt, ht.2, Int.natAbs_neg, Int.natAbs_natCast]
      rw [← htv]
      exact (absoluteAddOne_returns t .Signed).room_of False.elim
    · rwa [if_neg hround, if_pos (not_not.mp (mt hlose.mpr hround))]
  · rw [if_neg hsign, if_neg hsign]
    refine (rightTrim_returns fun _ => hcs).mono False.elim fun r hr => ⟨hr.1, hr.2.trans ?_⟩
    rw [toInt_eq_signed, hcs, w2]
    exact_mod_cast rfl

/-! ## Both directions -/

theorem floor_mul_zpow_natCast (x : ℤ) (n : ℕ) : ⌊(x : ℚ) * (2 : ℚ) ^ (n : ℤ)⌋ = x * 2 ^ n := by
  exact_mod_cast Int.floor_intCast (x * 2 ^ n)

theorem floor_mul_zpow_neg_natCast (x : ℤ) (n : ℕ) :
    ⌊(x : ℚ) * (2 : ℚ) ^ (-(n : ℤ))⌋ = x / 2 ^ n := by
  rw [zpow_neg]
  have h := Rat.floor_intCast_div_natCast x (2 ^ n)
  push_cast at h
  exact h

section
variable {x n : JSBigInt P} (hx : x.Normalized) (hn : n.Normalized)
include hx hn

theorem floor_of_isZero (h : x.isZero ∨ n.isZero) (b : Bool) :
    ⌊(x.toInt : ℚ) * (2 : ℚ) ^ (if b then -n.toInt else n.toInt)⌋ = x.toInt := by
  rcases h with h | h
  · rw [hx.toInt_eq_zero_iff.mpr (isZero_iff.mp h)]
    simp
  · rw [hn.toInt_eq_zero_iff.mpr (isZero_iff.mp h)]
    simp

theorem not_isZero (hx0 : x.toInt ≠ 0) (hn0 : n.toInt ≠ 0) :
    ¬(x.isZero = true ∨ n.isZero = true) := by
  rw [isZero_iff, isZero_iff, ← hx.toInt_eq_zero_iff, ← hn.toInt_eq_zero_iff]
  rintro (h | h)
  · exact hx0 h
  · exact hn0 h

theorem leftShift_returns (hl : x.length ≤ maxLength P) :
    Returns False (leftShift x n) (Denotes ⌊(x.toInt : ℚ) * (2 : ℚ) ^ n.toInt⌋) := by
  refine .ite (fun hz => .pure ⟨hx, (floor_of_isZero hx hn hz false).symm⟩) fun hz => ?_
  have hne : x.digits ≠ [] := fun h0 => hz (.inl (isZero_iff.mpr h0))
  rw [toInt_eq_signed n]
  cases n.sign
  · exact (floor_mul_zpow_natCast _ _) ▸ (leftShiftByAbsolute_returns hx hne hn).room_of False.elim
  · exact (floor_mul_zpow_neg_natCast _ _) ▸ rightShiftByAbsolute_returns hx hn hl

theorem signedRightShift_returns (hl : x.length ≤ maxLength P) :
    Returns False (signedRightShift x n) (Denotes ⌊(x.toInt : ℚ) * (2 : ℚ) ^ (-n.toInt)⌋) := by
  refine .ite (fun hz => .pure ⟨hx, (floor_of_isZero hx hn hz true).symm⟩) fun hz => ?_
  have hne : x.digits ≠ [] := fun h0 => hz (.inl (isZero_iff.mpr h0))
  rw [toInt_eq_signed n, ← signed_not]
  cases n.sign
  · exact (floor_mul_zpow_neg_natCast _ _) ▸ rightShiftByAbsolute_returns hx hn hl
  · exact (floor_mul_zpow_natCast _ _) ▸ (leftShiftByAbsolute_returns hx hne hn).room_of False.elim
end

/-- How many digits an integer needs. -/
def digitCount (P : Platform) (z : ℤ) : ℕ := (Nat.digits (2 ^ P.digitBits) z.natAbs).length

/-- `op` throws for the size of its result exactly under this condition, and otherwise returns
unless an allocation fails. -/
def RefusedIff (op : Op P (JSBigInt P)) (condition : Prop) : Prop :=
  ∀ vm, (op vm = .error (.outOfMemoryError (some tooBigMessage)) ↔ condition) ∧
    (VM.Unlimited vm → ¬condition → ∃ r vm', op vm = .ok (r, vm'))

theorem leftShiftByAbsolute_refusedIff {n : JSBigInt P} (hx : x.Normalized) (hne : x.digits ≠ [])
    (hn : n.Normalized) : RefusedIff (leftShiftByAbsolute x n) (maxLengthBits < value n.digits ∨
      maxLength P < digitCount P (x.toInt * 2 ^ value n.digits)) := by
  have hB := P.one_lt_base
  have hcount : maxLength P < digitCount P (x.toInt * 2 ^ value n.digits) ↔
      (2 ^ P.digitBits) ^ maxLength P ≤ value x.digits * 2 ^ value n.digits := by
    rw [digitCount, ← not_le, Nat.digits_length_le_iff hB, not_lt, Int.natAbs_mul, natAbs_toInt]
    rfl
  rw [hcount]
  refine fun vm => ⟨leftShiftByAbsolute_tooBig_iff hx hne hn vm, fun hvm hfit => ?_⟩
  obtain ⟨r, vm', hr, -⟩ := (leftShiftByAbsolute_returns hx hne hn).unlimited hfit hvm
  exact ⟨r, vm', hr⟩

/-- **Shifts are exact.** They return `⌊x * 2 ^ n⌋` and `⌊x * 2 ^ -n⌋`. A shift of a nonzero number
to the left is refused exactly if the amount is above `maxLengthBits` or the result needs more than
`maxLength` digits; zero is never refused. No cell is longer than `maxLength`, which
`createWithLength` sees to. -/
theorem shifts_exact (x n : JSBigInt P) (hx : x.Normalized) (hn : n.Normalized)
    (hl : x.length ≤ maxLength P) : Exact (leftShift x n) ⌊(x.toInt : ℚ) * (2 : ℚ) ^ n.toInt⌋ ∧
    Exact (signedRightShift x n) ⌊(x.toInt : ℚ) * (2 : ℚ) ^ (-n.toInt)⌋ ∧
    (x.toInt ≠ 0 → 0 < n.toInt → RefusedIff (leftShift x n) (maxLengthBits < n.toInt.natAbs ∨
      maxLength P < digitCount P (x.toInt * 2 ^ n.toInt.natAbs))) ∧
    (x.toInt ≠ 0 → n.toInt < 0 → RefusedIff (signedRightShift x n) (maxLengthBits < n.toInt.natAbs ∨
        maxLength P < digitCount P (x.toInt * 2 ^ n.toInt.natAbs))) ∧
    (x.toInt = 0 → ∀ vm, leftShift x n vm = .ok (x, vm) ∧
      signedRightShift x n vm = .ok (x, vm)) := by
  rw [natAbs_toInt]
  refine ⟨(leftShift_returns hx hn hl).exact, (signedRightShift_returns hx hn hl).exact,
    fun hx0 hpos => ?_, fun hx0 hneg => ?_,
    fun hx0 vm => ?_⟩
  · have hne : x.digits ≠ [] := mt hx.toInt_eq_zero_iff.mpr hx0
    rw [leftShift, leftShiftImpl, if_neg (not_isZero hx hn hx0 hpos.ne'),
      if_neg (mt hn.toInt_neg_iff.mpr (by omega))]
    exact leftShiftByAbsolute_refusedIff hx hne hn
  · have hne : x.digits ≠ [] := mt hx.toInt_eq_zero_iff.mpr hx0
    rw [signedRightShift, signedRightShiftImpl, if_neg (not_isZero hx hn hx0 hneg.ne),
      if_pos (hn.toInt_neg_iff.mp hneg)]
    exact leftShiftByAbsolute_refusedIff hx hne hn
  · have hz : x.isZero = true ∨ n.isZero = true :=
      .inl (isZero_iff.mpr (hx.toInt_eq_zero_iff.mp hx0))
    rw [leftShift, leftShiftImpl, signedRightShift, signedRightShiftImpl, if_pos hz, if_pos hz]
    exact ⟨rfl, rfl⟩

/-- `-5 >> 1 = -3` on a 64-bit platform, and `1 << maxLengthBits` is refused there. -/
theorem shifts_exact_examples :
    (∃ r vm', signedRightShift (P := Platform.arm64) ⟨true, [5]⟩ ⟨false, [1]⟩ VM.zeroed =
      .ok (r, vm') ∧ r.toInt = ⌊((-5 : ℤ) : ℚ) * (2 : ℚ) ^ (-1 : ℤ)⌋) ∧
    leftShift (P := Platform.arm64) ⟨false, [1]⟩ ⟨false, [1048577]⟩ VM.zeroed =
      .error (.outOfMemoryError (some tooBigMessage)) := by
  refine ⟨⟨⟨true, [3]⟩, VM.zeroed, by rfl, ?_⟩, ?_⟩
  · exact ((shifts_exact ⟨true, [5]⟩ ⟨false, [1]⟩ (by decide) (by decide)
      (by decide)).2.1 VM.zeroed ⟨true, [3]⟩ VM.zeroed (by rfl)).2.1
  · exact (((shifts_exact ⟨false, [1]⟩ ⟨false, [1048577]⟩ (by decide)
      (by decide) (by decide)).2.2.1 (by decide) (by decide) VM.zeroed).1).mpr (.inl (by decide))

/-- Zero is shifted by more than `maxLengthBits` without an exception. -/
theorem leftShift_zero_beyond_maxLengthBits :
    ((⟨false, [1048577]⟩ : JSBigInt Platform.arm64).toInt > maxLengthBits) ∧
      leftShift (P := Platform.arm64) ⟨false, []⟩ ⟨false, [1048577]⟩ VM.zeroed =
        .ok (⟨false, []⟩, VM.zeroed) :=
  ⟨by decide, by rfl⟩

end JscAndroid.BigInt.Shift
