import JscAndroid.Arith.Bits
import JscAndroid.BigInt.DigitLoops

/-!
# Bitwise operators

The operators are defined on the infinite two's complement, the code works on signs and magnitudes:
`-x` is `~(x-1)`, so that each combination of signs becomes a digit-wise operation on magnitudes
between a subtraction of one and an addition of one. The magnitude operations are settled first; the
operators then follow bit by bit.
-/

namespace JscAndroid.BigInt.Bitwise

open Arith.Limbs Arith.Bits DigitArith Heap DigitLoops List Bool

variable {P : Platform}
variable {op : P.Digit → P.Digit → P.Digit} {x : JSBigInt P} {n : ℕ}

/-! ## The source -/

inductive ExtraDigitsHandling
  | Copy
  | Skip
  deriving DecidableEq, Repr

variable {extraDigits : ExtraDigitsHandling}

inductive SignOption
  | Signed
  | Unsigned
  deriving DecidableEq, Repr

/-- `op` on the pairs of digits; what the longer operand has left is copied or skipped. -/
def absoluteBitwiseOp (x y : JSBigInt P) (extraDigits : ExtraDigitsHandling)
    (op : P.Digit → P.Digit → P.Digit) : Op P (JSBigInt P) := do
  let numPairs := if x.length < y.length then x.length else y.length
  let maxLength := if x.length < y.length then y.length else x.length
  let resultLength := if extraDigits = .Copy then maxLength else numPairs
  let result ← createWithLength resultLength
  let pairs := List.zipWith op x.digits y.digits
  let extra :=
    if extraDigits = .Copy then
      if x.length > y.length then x.digits.drop numPairs else y.digits.drop numPairs
    else []
  let written := pairs ++ extra
  rightTrim (result.setDigits 0 (written ++ List.replicate (resultLength - written.length) 0))

def absoluteAnd (x y : JSBigInt P) : Op P (JSBigInt P) :=
  absoluteBitwiseOp x y .Skip fun a b => a &&& b

def absoluteOr (x y : JSBigInt P) : Op P (JSBigInt P) :=
  absoluteBitwiseOp x y .Copy fun a b => a ||| b

def absoluteXor (x y : JSBigInt P) : Op P (JSBigInt P) :=
  absoluteBitwiseOp x y .Copy fun a b => a ^^^ b

/-- `x & ~y`. -/
def absoluteAndNot (x y : JSBigInt P) : Op P (JSBigInt P) := do
  let result ← createWithLength x.length
  rightTrim (result.setDigits 0
    (List.zipWith (fun a b => a &&& ~~~b) x.digits y.digits ++
      x.digits.drop (min x.length y.length)))

/-- The carry loop of `absoluteAddOne`. -/
def addCarryLoop : List P.Digit → P.Digit → List P.Digit × P.Digit
  | [], carry => ([], carry)
  | d :: ds, carry =>
    let (sum, newCarry) := digitAdd d carry 0
    let rest := addCarryLoop ds newCarry
    (sum :: rest.1, rest.2)

/-- The borrow loop of `absoluteSubOne`. -/
def subBorrowLoop : List P.Digit → P.Digit → List P.Digit × P.Digit
  | [], borrow => ([], borrow)
  | d :: ds, borrow =>
    let (difference, newBorrow) := digitSub d borrow 0
    let rest := subBorrowLoop ds newBorrow
    (difference :: rest.1, rest.2)

def absoluteAddOne (x : JSBigInt P) (signOption : SignOption) : Op P (JSBigInt P) := do
  let inputLength := x.length
  let willOverflow := x.digits.all (· == BitVec.allOnes P.digitBits)
  let resultLength := inputLength + willOverflow.toNat
  let result ← createWithLength resultLength
  let r := addCarryLoop x.digits 1
  let result := result.setDigits 0 (if resultLength > inputLength then r.1 ++ [r.2] else r.1)
  rightTrim (result.setSign (signOption = .Signed))

def absoluteSubOne (x : JSBigInt P) (resultLength : ℕ) : Op P (JSBigInt P) := do
  let result ← createWithLength resultLength
  let r := subBorrowLoop x.digits 1
  rightTrim (result.setDigits 0 (r.1 ++ List.replicate (resultLength - x.length) r.2))

def bitwiseAndImpl (x y : JSBigInt P) : Op P (JSBigInt P) := do
  -- `x & (-y) == x & ~(y-1)`
  let computeResult (x y : JSBigInt P) : Op P (JSBigInt P) := do
    let y1 ← absoluteSubOne y y.length
    absoluteAndNot x y1
  if !x.sign && !y.sign then
    absoluteAnd x y
  else if x.sign && y.sign then
    -- `(-x) & (-y) == -(((x-1) | (y-1)) + 1)`
    let resultLength := max x.length y.length + 1
    let result ← absoluteSubOne x resultLength
    let y1 ← absoluteSubOne y y.length
    let result ← absoluteOr result y1
    absoluteAddOne result .Signed
  else if x.sign then computeResult y x
  else computeResult x y

def bitwiseOrImpl (x y : JSBigInt P) : Op P (JSBigInt P) := do
  let resultLength := max x.length y.length
  -- `x | (-y) == -(((y-1) &~ x) + 1)`
  let computeResult (x y : JSBigInt P) : Op P (JSBigInt P) := do
    let result ← absoluteSubOne y resultLength
    let result ← absoluteAndNot result x
    absoluteAddOne result .Signed
  if !x.sign && !y.sign then
    absoluteOr x y
  else if x.sign && y.sign then
    -- `(-x) | (-y) == -(((x-1) & (y-1)) + 1)`
    let result ← absoluteSubOne x resultLength
    let y1 ← absoluteSubOne y y.length
    let result ← absoluteAnd result y1
    absoluteAddOne result .Signed
  else if x.sign then computeResult y x
  else computeResult x y

def bitwiseXorImpl (x y : JSBigInt P) : Op P (JSBigInt P) := do
  -- `x ^ (-y) == -((x ^ (y-1)) + 1)`
  let computeResult (x y : JSBigInt P) : Op P (JSBigInt P) := do
    let result ← absoluteSubOne y (max x.length y.length + 1)
    let result ← absoluteXor result x
    absoluteAddOne result .Signed
  if !x.sign && !y.sign then
    absoluteXor x y
  else if x.sign && y.sign then
    -- `(-x) ^ (-y) == (x-1) ^ (y-1)`
    let result ← absoluteSubOne x (max x.length y.length)
    let y1 ← absoluteSubOne y y.length
    absoluteXor result y1
  else if x.sign then computeResult y x
  else computeResult x y

def bitwiseNotImpl (x : JSBigInt P) : Op P (JSBigInt P) :=
  if x.sign then absoluteSubOne x x.length
  else absoluteAddOne x .Signed

def bitwiseAnd (x y : JSBigInt P) : Op P (JSBigInt P) := bitwiseAndImpl x y

def bitwiseOr (x y : JSBigInt P) : Op P (JSBigInt P) := bitwiseOrImpl x y

def bitwiseXor (x y : JSBigInt P) : Op P (JSBigInt P) := bitwiseXorImpl x y

def bitwiseNot (x : JSBigInt P) : Op P (JSBigInt P) := bitwiseNotImpl x

/-! ## Digit-wise operations -/

/-- What `op` must do with the digits that have no partner, taken as zero. -/
def Compatible (extraDigits : ExtraDigitsHandling) (op : P.Digit → P.Digit → P.Digit) : Prop :=
  match extraDigits with
  | .Copy => ∀ a, op a 0 = a ∧ op 0 a = a
  | .Skip => ∀ a, op a 0 = 0 ∧ op 0 a = 0

theorem getD_zipWith {xs ys : List P.Digit} {j : ℕ} (hx : j < xs.length) (hy : j < ys.length) :
    (List.zipWith op xs ys).getD j 0 = op (xs.getD j 0) (ys.getD j 0) := by
  rw [getD_eq_getElem _ _ hx, getD_eq_getElem _ _ hy,
    getD_eq_getElem _ _ (by simp [hx, hy]), getElem_zipWith]

/-- The pairs of digits, and behind them what is left of `zs`. -/
theorem getD_zipWith_drop (xs ys zs : List P.Digit) (j : ℕ) :
    (List.zipWith op xs ys ++ zs.drop (min xs.length ys.length)).getD j 0 =
      if j < min xs.length ys.length then op (xs.getD j 0) (ys.getD j 0) else zs.getD j 0 := by
  have hlen : (zipWith op xs ys).length = min xs.length ys.length := length_zipWith
  split_ifs with hj
  · rw [getD_append _ _ _ _ (by omega), getD_zipWith (by omega) (by omega)]
  · rw [getD_append_right _ _ _ _ (by omega), hlen, getD_eq_getElem?_getD, getElem?_drop,
      ← getD_eq_getElem?_getD, Nat.add_sub_cancel' (not_lt.mp hj)]

/-- **Digit-wise operations.** -/
theorem absoluteBitwiseOp_ok {y r : JSBigInt P} {vm vm' : VM P} (hop : Compatible extraDigits op)
    (h : absoluteBitwiseOp x y extraDigits op vm = .ok (r, vm')) :
    r.Normalized ∧ ∃ rs : List P.Digit, r.toInt = value rs ∧
      ∀ j, rs.getD j 0 = op (x.digits.getD j 0) (y.digits.getD j 0) := by
  unfold absoluteBitwiseOp JSBigInt.length at h
  have hmin : (if x.digits.length < y.digits.length then x.digits.length else y.digits.length) =
      min x.digits.length y.digits.length := by
    split_ifs <;> omega
  rw [hmin, ← apply_ite (drop _)] at h
  have hlen : (zipWith op x.digits y.digits).length =
      min x.digits.length y.digits.length := length_zipWith
  cases extraDigits with
  | Copy =>
    simp only [↓reduceIte] at h
    have hwl : (zipWith op x.digits y.digits ++ drop (min x.digits.length y.digits.length)
        (if x.digits.length > y.digits.length then x.digits else y.digits)).length =
        if x.digits.length < y.digits.length then y.digits.length else x.digits.length := by
      split_ifs <;> simp <;> omega
    rw [hwl, Nat.sub_self, replicate_zero, append_nil] at h
    obtain ⟨h1, h2⟩ := (fillUnsigned_returns hwl.symm).ok h
    refine ⟨h1, _, h2, fun j => ?_⟩
    rw [getD_zipWith_drop]
    split_ifs with hj hlt
    · rfl
    · rw [getD_eq_default y.digits _ (by omega), (hop _).1]
    · rw [getD_eq_default x.digits _ (by omega), (hop _).2]
  | Skip =>
    simp only [reduceCtorEq, ↓reduceIte, append_nil] at h
    rw [hlen, Nat.sub_self, replicate_zero, append_nil] at h
    obtain ⟨h1, h2⟩ := (fillUnsigned_returns hlen.symm).ok h
    refine ⟨h1, _, h2, fun j => ?_⟩
    by_cases hj : j < x.digits.length ∧ j < y.digits.length
    · exact getD_zipWith hj.1 hj.2
    · rw [getD_eq_default _ _ (by omega)]
      rcases lt_or_ge j x.digits.length with hx | hx
      · rw [getD_eq_default y.digits _ (by omega), (hop _).1]
      · rw [getD_eq_default x.digits _ hx, (hop _).2]

theorem compatible_and : Compatible (P := P) .Skip fun a b => a &&& b := fun a => by simp

theorem compatible_or : Compatible (P := P) .Copy fun a b => a ||| b := fun a => by simp

theorem compatible_xor : Compatible (P := P) .Copy fun a b => a ^^^ b := fun a => by simp

/-- A natural number by its bits. -/
structure Magnitude (r : JSBigInt P) (b : ℕ → Bool) : Prop where
  normalized : r.Normalized
  toInt : r.toInt = (value r.digits : ℕ)
  bits : ∀ i, (value r.digits).testBit i = b i

theorem value_of_toInt {r : JSBigInt P} (h : r.toInt = (n : ℕ)) : value r.digits = n := by
  rw [← JSBigInt.natAbs_toInt, h, Int.natAbs_natCast]

theorem Magnitude.of_toInt {r : JSBigInt P} (hr : r.Normalized) (h : r.toInt = (n : ℕ)) :
    Magnitude r n.testBit :=
  ⟨hr, by rw [value_of_toInt h, h], fun i => by rw [value_of_toInt h]⟩

section
variable {x y r : JSBigInt P} {vm vm' : VM P}

theorem absoluteBitwiseOp_bits (hop : Compatible extraDigits op) (f : Bool → Bool → Bool)
    (hf : ∀ a b i, i < P.digitBits → (op a b).getLsbD i = f (a.getLsbD i) (b.getLsbD i))
    (h : absoluteBitwiseOp x y extraDigits op vm = .ok (r, vm')) :
    Magnitude r fun i => f ((value x.digits).testBit i) ((value y.digits).testBit i) := by
  obtain ⟨h1, rs, h2, h3⟩ := absoluteBitwiseOp_ok hop h
  have hr := Magnitude.of_toInt h1 h2
  exact ⟨hr.normalized, hr.toInt, fun i => by
    rw [hr.bits, testBit_value_of_getD (P.digitBits_pos) _ f hf h3]⟩

theorem absoluteAnd_ok (h : absoluteAnd x y vm = .ok (r, vm')) :
    Magnitude r fun i => (value x.digits).testBit i && (value y.digits).testBit i :=
  absoluteBitwiseOp_bits compatible_and and (by simp) h

theorem absoluteOr_ok (h : absoluteOr x y vm = .ok (r, vm')) :
    Magnitude r fun i => (value x.digits).testBit i || (value y.digits).testBit i :=
  absoluteBitwiseOp_bits compatible_or or (by simp) h

theorem absoluteXor_ok (h : absoluteXor x y vm = .ok (r, vm')) :
    Magnitude r fun i => (value x.digits).testBit i ^^ (value y.digits).testBit i :=
  absoluteBitwiseOp_bits compatible_xor xor (by simp) h

theorem absoluteAndNot_ok (h : absoluteAndNot x y vm = .ok (r, vm')) :
    Magnitude r fun i => (value x.digits).testBit i && !(value y.digits).testBit i := by
  unfold absoluteAndNot JSBigInt.length at h
  obtain ⟨h1, h2⟩ := (fillUnsigned_returns (by simp)).ok h
  have hr := Magnitude.of_toInt h1 h2
  refine ⟨hr.normalized, hr.toInt, fun i => ?_⟩
  rw [hr.bits, testBit_value_of_getD (P.digitBits_pos) (fun a b => a &&& ~~~b)
    (fun a b => a && !b) (fun a b i hi => by simp [hi]) fun j => ?_]
  rw [getD_zipWith_drop]
  split_ifs with hj
  · rfl
  · rcases lt_or_ge j x.digits.length with hx | hx
    · rw [getD_eq_default y.digits _ (by omega)]
      simp
    · rw [getD_eq_default x.digits _ hx]
      simp
end

/-! ## Adding and subtracting one -/

theorem addCarryLoop_spec : ∀ (ds : List P.Digit) (carry : P.Digit),
    (addCarryLoop ds carry).1.length = ds.length ∧ value (addCarryLoop ds carry).1 +
          (2 ^ P.digitBits) ^ ds.length * (addCarryLoop ds carry).2.toNat = value ds + carry.toNat
  | [], carry => by simp [addCarryLoop]
  | d :: ds, carry => by
    have hB := P.base_ge
    have h0 := digitAdd_spec d carry 0 (by rw [toNat_zero]; omega)
    rw [toNat_zero, Nat.mul_zero, Nat.add_zero] at h0
    obtain ⟨h1, h2⟩ := addCarryLoop_spec ds (digitAdd d carry 0).2
    simp only [addCarryLoop]
    refine ⟨by rw [length_cons, h1, length_cons], ?_⟩
    rw [value_cons, value_cons, length_cons, pow_succ', Nat.mul_assoc, Nat.add_assoc,
      ← Nat.mul_add, h2, Nat.mul_add]
    omega

theorem subBorrowLoop_spec : ∀ (ds : List P.Digit) (borrow : P.Digit),
    (subBorrowLoop ds borrow).1.length = ds.length ∧
      value (subBorrowLoop ds borrow).1 + borrow.toNat =
        value ds + (2 ^ P.digitBits) ^ ds.length * (subBorrowLoop ds borrow).2.toNat
  | [], borrow => by simp [subBorrowLoop]
  | d :: ds, borrow => by
    have hB := P.base_ge
    have h0 := digitSub_spec d borrow 0 (by rw [toNat_zero]; omega)
    rw [toNat_zero, Nat.mul_zero, Nat.add_zero] at h0
    obtain ⟨h1, h2⟩ := subBorrowLoop_spec ds (digitSub d borrow 0).2
    simp only [subBorrowLoop]
    refine ⟨by rw [length_cons, h1, length_cons], ?_⟩
    have h3 : 2 ^ P.digitBits * value (subBorrowLoop ds (digitSub d borrow 0).2).1 +
        2 ^ P.digitBits * (digitSub d borrow 0).2.toNat =
        2 ^ P.digitBits * value ds + 2 ^ P.digitBits * ((2 ^ P.digitBits) ^ ds.length *
          (subBorrowLoop ds (digitSub d borrow 0).2).2.toNat) := by
      rw [← mul_add, h2, mul_add]
    rw [value_cons, value_cons, length_cons, pow_succ', mul_assoc]
    omega

/-- Unless all digits are at the maximum, one more still fits. -/
theorem value_add_one_lt : ∀ {ds : List P.Digit}, ds.all (· == BitVec.allOnes P.digitBits) = false →
      value ds + 1 < (2 ^ P.digitBits) ^ ds.length
  | [], h => by simp at h
  | d :: ds, h => by
    have hds := value_lt ds
    rw [value_cons, length_cons, pow_succ']
    rw [all_cons, and_eq_false_iff] at h
    rcases h with h | h
    · have hne : d.toNat ≠ 2 ^ P.digitBits - 1 := fun h0 => by
        have : d = BitVec.allOnes P.digitBits :=
          BitVec.eq_of_toNat_eq (by rw [h0, BitVec.toNat_allOnes])
        simp [this] at h
      have h2 := Nat.mul_le_mul_left (2 ^ P.digitBits) (show value ds + 1 ≤ _ from hds)
      rw [Nat.mul_add] at h2
      omega
    · have h2 := Nat.mul_le_mul_left (2 ^ P.digitBits)
        (show value ds + 2 ≤ _ from value_add_one_lt h)
      rw [Nat.mul_add] at h2
      omega

/-- **Adding one** to the magnitude, under the sign asked for. -/
theorem absoluteAddOne_returns (x : JSBigInt P) (signOption : SignOption) :
    Returns (x.length < maxLength P) (absoluteAddOne x signOption)
      (Denotes (if signOption = .Signed then -((value x.digits : ℤ) + 1)
        else (value x.digits : ℤ) + 1)) := by
  unfold absoluteAddOne JSBigInt.length
  dsimp only
  obtain ⟨h1, h2⟩ := addCarryLoop_spec x.digits 1
  rw [toNat_one] at h2
  -- what is written is one digit longer exactly if the carry needs it
  obtain ⟨ds, hds, hlen, hval⟩ : ∃ ds : List P.Digit,
      (if x.digits.length + (x.digits.all (· == BitVec.allOnes P.digitBits)).toNat >
          x.digits.length then (addCarryLoop x.digits 1).1 ++ [(addCarryLoop x.digits 1).2]
        else (addCarryLoop x.digits 1).1) = ds ∧
      ds.length = x.digits.length + (x.digits.all (· == BitVec.allOnes P.digitBits)).toNat ∧
      value ds = value x.digits + 1 := by
    refine ⟨_, rfl, ?_⟩
    cases hall : x.digits.all (· == BitVec.allOnes P.digitBits)
    · rw [if_neg (by simp)]
      exact ⟨h1, eq_of_add_mul h2 (value_add_one_lt hall)⟩
    · rw [if_pos (by simp)]
      refine ⟨by simp only [length_append, h1]; rfl, ?_⟩
      rw [value_append, value_singleton, h1, h2]
  have hne : ds ≠ [] := fun h0 => by
    rw [h0] at hval
    simp at hval
  have hall := toNat_le (x.digits.all (· == BitVec.allOnes P.digitBits))
  rw [hds]
  refine (fill_returns hlen.symm fun h0 => absurd h0 hne).mono (fun h => by omega) fun r hr => ?_
  refine ⟨hr.1, hr.2.trans ?_⟩
  rw [JSBigInt.toInt, hval]
  cases signOption <;> simp

/-- **Subtracting one.** -/
theorem absoluteSubOne_returns (hx : 0 < value x.digits) (hn : x.length ≤ n) :
    Returns (n ≤ maxLength P) (absoluteSubOne x n) (Denotes (value x.digits - 1 : ℕ)) := by
  obtain ⟨h1, h2⟩ := subBorrowLoop_spec x.digits 1
  rw [toNat_one] at h2
  have hlt := value_lt (subBorrowLoop x.digits 1).1
  rw [h1] at hlt
  have hb : (subBorrowLoop x.digits 1).2.toNat = 0 :=
    eq_zero_of_mul_lt (b := (2 ^ P.digitBits) ^ x.digits.length) (by omega)
  rw [hb] at h2
  have hlen : x.length = x.digits.length := rfl
  have hval : value ((subBorrowLoop x.digits 1).1 ++
      replicate (n - x.length) (subBorrowLoop x.digits 1).2) = value x.digits - 1 := by
    rw [value_append, eq_zero_of_toNat hb, value_replicate_zero]
    omega
  rw [← hval]
  exact fillUnsigned_returns (by rw [length_append, length_replicate]; omega)

/-! ## The operators -/

theorem toInt_of_pos (hs : x.sign = false) : x.toInt = (value x.digits : ℕ) := by
  rw [JSBigInt.toInt, hs]
  rfl

theorem value_pos_of_neg (hx : x.Normalized) (hs : x.sign = true) : 0 < value x.digits := by
  refine hx.value_pos fun h0 => ?_
  rw [hx.zero h0] at hs
  cases hs

theorem toInt_of_neg (hx : x.Normalized) (hs : x.sign = true) :
    x.toInt = -(((value x.digits - 1 : ℕ) : ℤ) + 1) := by
  have := value_pos_of_neg hx hs
  rw [JSBigInt.toInt, hs, if_pos rfl]
  omega

section
variable {x y r : JSBigInt P} {vm vm' : VM P}

theorem bits_of_pos (hs : x.sign = false) (i : ℕ) :
    (value x.digits).testBit i = x.toInt.testBit i := by
  rw [toInt_of_pos hs, testBit_natCast]

theorem absoluteSubOne_bits (hx : x.Normalized) (hs : x.sign = true) (hn : x.length ≤ n)
    (h : absoluteSubOne x n vm = .ok (r, vm')) : Magnitude r fun i => !x.toInt.testBit i := by
  obtain ⟨h1, h2⟩ := (absoluteSubOne_returns (value_pos_of_neg hx hs) hn).ok h
  have hr := Magnitude.of_toInt h1 h2
  exact ⟨h1, hr.toInt, fun i => by rw [hr.bits, toInt_of_neg hx hs, testBit_neg_succ, Bool.not_not]⟩

theorem absoluteAddOne_bits {b : ℕ → Bool} (h : absoluteAddOne x .Signed vm = .ok (r, vm'))
    (hb : ∀ i, (!(value x.digits).testBit i) = b i) : r.Normalized ∧ HasBits r.toInt b := by
  obtain ⟨h1, h2⟩ := (absoluteAddOne_returns x .Signed).ok h
  rw [if_pos rfl] at h2
  exact ⟨h1, fun i => by rw [h2, testBit_neg_succ, hb]⟩

theorem Magnitude.hasBits {b b' : ℕ → Bool} (h : Magnitude r b) (hb : ∀ i, b i = b' i) :
    r.Normalized ∧ HasBits r.toInt b' :=
  ⟨h.normalized, fun i => by rw [h.toInt, testBit_natCast, h.bits, hb]⟩

variable (hx : x.Normalized) (hy : y.Normalized)
include hx hy

theorem bitwiseAndImpl_ok (h : bitwiseAndImpl x y vm = .ok (r, vm')) :
    r.Normalized ∧ HasBits r.toInt fun i => x.toInt.testBit i && y.toInt.testBit i := by
  unfold bitwiseAndImpl at h
  cases hxs : x.sign <;> cases hys : y.sign <;>
    simp only [hxs, hys] at h
  · refine (absoluteAnd_ok h).hasBits fun i => ?_
    rw [bits_of_pos hxs, bits_of_pos hys]
  · obtain ⟨y1, vm1, hy1, h⟩ := bind_ok.mp h
    refine (absoluteAndNot_ok h).hasBits fun i => ?_
    rw [bits_of_pos hxs, (absoluteSubOne_bits hy hys le_rfl hy1).bits, Bool.not_not]
  · obtain ⟨x1, vm1, hx1, h⟩ := bind_ok.mp h
    refine (absoluteAndNot_ok h).hasBits fun i => ?_
    rw [bits_of_pos hys, (absoluteSubOne_bits hx hxs le_rfl hx1).bits, Bool.not_not,
      Bool.and_comm]
  · obtain ⟨x1, vm1, hx1, h⟩ := bind_ok.mp h
    obtain ⟨y1, vm2, hy1, h⟩ := bind_ok.mp h
    obtain ⟨s, vm3, hs, h⟩ := bind_ok.mp h
    refine absoluteAddOne_bits h fun i => ?_
    rw [(absoluteOr_ok hs).bits,
      (absoluteSubOne_bits hx hxs (by omega) hx1).bits,
      (absoluteSubOne_bits hy hys le_rfl hy1).bits, Bool.not_or, Bool.not_not, Bool.not_not]

theorem bitwiseOrImpl_ok (h : bitwiseOrImpl x y vm = .ok (r, vm')) :
    r.Normalized ∧ HasBits r.toInt fun i => x.toInt.testBit i || y.toInt.testBit i := by
  unfold bitwiseOrImpl at h
  cases hxs : x.sign <;> cases hys : y.sign <;>
    simp only [hxs, hys] at h
  · refine (absoluteOr_ok h).hasBits fun i => ?_
    rw [bits_of_pos hxs, bits_of_pos hys]
  · obtain ⟨y1, vm1, hy1, h⟩ := bind_ok.mp h
    obtain ⟨s, vm2, hs, h⟩ := bind_ok.mp h
    refine absoluteAddOne_bits h fun i => ?_
    rw [(absoluteAndNot_ok hs).bits, bits_of_pos hxs,
      (absoluteSubOne_bits hy hys (by omega) hy1).bits, Bool.not_and, Bool.not_not, Bool.not_not,
      Bool.or_comm]
  · obtain ⟨x1, vm1, hx1, h⟩ := bind_ok.mp h
    obtain ⟨s, vm2, hs, h⟩ := bind_ok.mp h
    refine absoluteAddOne_bits h fun i => ?_
    rw [(absoluteAndNot_ok hs).bits, bits_of_pos hys,
      (absoluteSubOne_bits hx hxs (by omega) hx1).bits, Bool.not_and, Bool.not_not, Bool.not_not]
  · obtain ⟨x1, vm1, hx1, h⟩ := bind_ok.mp h
    obtain ⟨y1, vm2, hy1, h⟩ := bind_ok.mp h
    obtain ⟨s, vm3, hs, h⟩ := bind_ok.mp h
    refine absoluteAddOne_bits h fun i => ?_
    rw [(absoluteAnd_ok hs).bits,
      (absoluteSubOne_bits hx hxs (by omega) hx1).bits,
      (absoluteSubOne_bits hy hys le_rfl hy1).bits, Bool.not_and, Bool.not_not, Bool.not_not]

theorem bitwiseXorImpl_ok (h : bitwiseXorImpl x y vm = .ok (r, vm')) :
    r.Normalized ∧ HasBits r.toInt fun i => x.toInt.testBit i ^^ y.toInt.testBit i := by
  unfold bitwiseXorImpl at h
  cases hxs : x.sign <;> cases hys : y.sign <;>
    simp only [hxs, hys] at h
  · refine (absoluteXor_ok h).hasBits fun i => ?_
    rw [bits_of_pos hxs, bits_of_pos hys]
  · obtain ⟨y1, vm1, hy1, h⟩ := bind_ok.mp h
    obtain ⟨s, vm2, hs, h⟩ := bind_ok.mp h
    refine absoluteAddOne_bits h fun i => ?_
    rw [(absoluteXor_ok hs).bits, bits_of_pos hxs,
      (absoluteSubOne_bits hy hys (by omega) hy1).bits, Bool.not_xor, Bool.not_not, Bool.xor_comm]
  · obtain ⟨x1, vm1, hx1, h⟩ := bind_ok.mp h
    obtain ⟨s, vm2, hs, h⟩ := bind_ok.mp h
    refine absoluteAddOne_bits h fun i => ?_
    rw [(absoluteXor_ok hs).bits, bits_of_pos hys,
      (absoluteSubOne_bits hx hxs (by omega) hx1).bits, Bool.not_xor, Bool.not_not]
  · obtain ⟨x1, vm1, hx1, h⟩ := bind_ok.mp h
    obtain ⟨y1, vm2, hy1, h⟩ := bind_ok.mp h
    refine (absoluteXor_ok h).hasBits fun i => ?_
    rw [(absoluteSubOne_bits hx hxs (by omega) hx1).bits,
      (absoluteSubOne_bits hy hys le_rfl hy1).bits, not_xor_not]

omit hy in
theorem bitwiseNotImpl_ok (h : bitwiseNotImpl x vm = .ok (r, vm')) :
    r.Normalized ∧ HasBits r.toInt fun i => !x.toInt.testBit i := by
  unfold bitwiseNotImpl at h
  split_ifs at h with hs
  · exact (absoluteSubOne_bits hx hs le_rfl h).hasBits fun _ => rfl
  · refine absoluteAddOne_bits h fun i => ?_
    rw [bits_of_pos (eq_false_iff.mpr hs)]
end

/-- **The bitwise operators implement infinite two's complement.** Whatever they return is
normalized and is the one integer that has the prescribed bits. -/
theorem bitwise_twos_complement (x y : JSBigInt P) (hx : x.Normalized) (hy : y.Normalized)
    (vm : VM P) (r : JSBigInt P) (vm' : VM P) :
    (bitwiseAnd x y vm = .ok (r, vm') → r.Normalized ∧ ∀ z : ℤ,
      HasBits z (fun i => x.toInt.testBit i && y.toInt.testBit i) ↔ z = r.toInt) ∧
    (bitwiseOr x y vm = .ok (r, vm') → r.Normalized ∧ ∀ z : ℤ,
      HasBits z (fun i => x.toInt.testBit i || y.toInt.testBit i) ↔ z = r.toInt) ∧
    (bitwiseXor x y vm = .ok (r, vm') → r.Normalized ∧ ∀ z : ℤ,
      HasBits z (fun i => x.toInt.testBit i ^^ y.toInt.testBit i) ↔ z = r.toInt) ∧
    (bitwiseNot x vm = .ok (r, vm') → r.Normalized ∧ ∀ z : ℤ,
      HasBits z (fun i => !x.toInt.testBit i) ↔ z = r.toInt) := by
  have huniq : ∀ {b : ℕ → Bool}, HasBits r.toInt b → ∀ z : ℤ, HasBits z b ↔ z = r.toInt :=
    fun hb z => ⟨fun hz => hz.unique hb, fun hz => hz ▸ hb⟩
  refine ⟨fun h => ?_, fun h => ?_, fun h => ?_, fun h => ?_⟩
  · exact ⟨(bitwiseAndImpl_ok hx hy h).1, huniq (bitwiseAndImpl_ok hx hy h).2⟩
  · exact ⟨(bitwiseOrImpl_ok hx hy h).1, huniq (bitwiseOrImpl_ok hx hy h).2⟩
  · exact ⟨(bitwiseXorImpl_ok hx hy h).1, huniq (bitwiseXorImpl_ok hx hy h).2⟩
  · exact ⟨(bitwiseNotImpl_ok hx h).1, huniq (bitwiseNotImpl_ok hx h).2⟩

/-- `(-2^64) & (2^64 + 5) = 2^64` and its companions on a 64-bit platform. -/
theorem bitwise_twos_complement_two_digits :
    (∃ r vm', bitwiseAnd (P := Platform.arm64) ⟨true, [0, 1]⟩ ⟨false, [5, 1]⟩ VM.zeroed =
      .ok (r, vm') ∧ r.Normalized ∧ r.toInt = 2 ^ 64) ∧
    (∃ r vm', bitwiseOr (P := Platform.arm64) ⟨true, [0, 1]⟩ ⟨false, [5, 1]⟩ VM.zeroed =
      .ok (r, vm') ∧ r.Normalized ∧ r.toInt = -2 ^ 64 + 5) := by
  refine ⟨⟨⟨false, [0, 1]⟩, VM.zeroed, by rfl, ?_, by decide⟩,
    ⟨⟨true, [-5]⟩, VM.zeroed, by rfl, ?_, by decide⟩⟩
  · exact ((bitwise_twos_complement ⟨true, [0, 1]⟩ ⟨false, [5, 1]⟩
      (by decide) (by decide) VM.zeroed ⟨false, [0, 1]⟩ VM.zeroed).1 (by rfl)).1
  · exact ((bitwise_twos_complement ⟨true, [0, 1]⟩ ⟨false, [5, 1]⟩
      (by decide) (by decide) VM.zeroed ⟨true, [-5]⟩ VM.zeroed).2.1 (by rfl)).1

end JscAndroid.BigInt.Bitwise
