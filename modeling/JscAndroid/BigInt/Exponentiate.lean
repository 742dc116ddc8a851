import JscAndroid.Arith.Bits
import JscAndroid.BigInt.Multiply
import JscAndroid.BigInt.ParseInt

/-!
# Exponentiation

`exponentiateImpl` answers trivial exponents and the bases `0`, `1`, `-1`, `2` and `-2` at once,
gives up on results that must be too big, and squares and multiplies for the rest. The invariant of
the loop is that what has been accumulated, times the running square to the power `2 * n`, stays the
power asked for.
-/

namespace JscAndroid.BigInt.Exponentiate

open Arith.Limbs Arith.Bits DigitArith Heap DigitLoops Magnitude Multiply ParseInt JSBigInt Nat

variable {P : Platform}
variable {base : JSBigInt P}

/-! ## The source -/

def negativeExponentMessage : String := "Negative exponent is not allowed"

/-- The loop of `exponentiateImpl`. `n` is halved in each round, so that it bounds the `fuel`;
`result` is null until the first bit that is set. -/
def exponentiateLoop :
    ℕ → ℕ → Option (JSBigInt P) → JSBigInt P → Op P (Option (JSBigInt P))
  | 0, _, result, _ => return result
  | fuel + 1, n, result, runningSquare =>
    if n = 0 then return result
    else do
      let runningSquare ← multiplyImpl runningSquare runningSquare
      if n &&& 1 ≠ 0 then
        match result with
        | none => exponentiateLoop fuel (n >>> 1) (some runningSquare) runningSquare
        | some result =>
          let result ← multiplyImpl result runningSquare
          exponentiateLoop fuel (n >>> 1) (some result) runningSquare
      else exponentiateLoop fuel (n >>> 1) result runningSquare

/-- Square and multiply: what is left when no fast path applies. -/
def squareAndMultiply (base : JSBigInt P) (n : ℕ) : Op P (Option (JSBigInt P)) :=
  let result := if n &&& 1 ≠ 0 then some base else none
  exponentiateLoop n (n >>> 1) result base

/-- The fast path for the bases `2` and `-2`: only bit `n` is set. -/
def powerOfTwo (base : JSBigInt P) (n : ℕ) : Op P (JSBigInt P) := do
  let neededDigits := 1 + n / P.digitBits
  let result ← createWithLength neededDigits
  let result := result.setDigits 0 (List.replicate neededDigits 0)
  let msd := (1 : P.Digit) <<< (n % P.digitBits)
  let result := result.setDigits (neededDigits - 1) [msd]
  return if base.sign then result.setSign (n &&& 1 ≠ 0) else result

def exponentiateImpl (base exponent : JSBigInt P) : Op P (Option (JSBigInt P)) := do
  if exponent.sign then
    throw (.rangeError negativeExponentMessage)
  else if exponent.isZero then
    let result ← createFrom 1
    return some result
  else if base.isZero then
    return some base
  else if base.length = 1 ∧ base.digit 0 = 1 then
    if base.sign ∧ exponent.digit 0 &&& 1 = 0 then
      let result ← unaryMinusImpl base
      return some result
    else return some base
  else if exponent.length > 1 then
    throw (.outOfMemoryError (some tooBigMessage))
  else
    let expValue := exponent.digit 0
    if expValue = 1 then
      return some base
    else if expValue.toNat ≥ maxLengthBits then
      throw (.outOfMemoryError (some tooBigMessage))
    else
      let n := expValue.toNat
      if base.length = 1 ∧ base.digit 0 = 2 then
        let result ← powerOfTwo base n
        return some result
      else squareAndMultiply base n

def exponentiate (base exponent : JSBigInt P) : Op P (Option (JSBigInt P)) :=
  exponentiateImpl base exponent

/-! ## The loop -/

/-- What the loop has accumulated so far. -/
def accumulated (result : Option (JSBigInt P)) : ℤ := result.elim 1 toInt

theorem pow_halve (s : ℤ) (n : ℕ) : s ^ (2 * n) = (s * s) ^ (n % 2) * (s * s) ^ (2 * (n / 2)) := by
  rw [← pow_add, ← pow_two, ← pow_mul]
  congr 1
  omega

theorem and_one_ne_zero_iff (n : ℕ) : n &&& 1 ≠ 0 ↔ n % 2 = 1 := by
  rw [and_one_is_mod]
  omega

/-- **The invariant of square and multiply.** -/
theorem exponentiateLoop_returns : ∀ (fuel n : ℕ) (result : Option (JSBigInt P))
    (runningSquare : JSBigInt P), n ≤ fuel → runningSquare.Normalized →
    (∀ r, result = some r → r.Normalized) →
    Returns False (exponentiateLoop fuel n result runningSquare) fun v =>
      (v = none → result = none ∧ n = 0) ∧ (∀ r, v = some r → r.Normalized) ∧
        accumulated v = accumulated result * runningSquare.toInt ^ (2 * n)
  | 0, n, result, runningSquare, hf, _, hr => by
    obtain rfl : n = 0 := by omega
    exact .pure ⟨fun h0 => ⟨h0, rfl⟩, hr, by simp⟩
  | fuel + 1, n, result, runningSquare, hf, hs, hr => by
    rw [exponentiateLoop]
    by_cases hn : n = 0
    · rw [if_pos hn]
      exact .pure ⟨fun h0 => ⟨h0, hn⟩, hr, by simp [hn]⟩
    rw [if_neg hn]
    refine ((multiplyImpl_returns hs hs).room_of False.elim).bind ?_
    rintro square ⟨q1, q2⟩
    have hshift : n >>> 1 = n / 2 := shiftRight_one n
    rw [pow_halve, ← q2]
    by_cases hodd : n &&& 1 ≠ 0
    · rw [if_pos hodd, (and_one_ne_zero_iff n).mp hodd, pow_one]
      cases result with
      | none =>
        refine (exponentiateLoop_returns fuel (n >>> 1) (some square) square (by omega) q1
          (fun r hr => by cases hr; exact q1)).imp ?_
        rintro v ⟨e1, e2, e3⟩
        refine ⟨fun h0 => absurd (e1 h0).1 (by simp), e2, ?_⟩
        rw [e3, hshift]
        simp [accumulated]
      | some result =>
        refine ((multiplyImpl_returns (hr _ rfl) q1).room_of False.elim).bind ?_
        rintro product ⟨p1, p2⟩
        refine (exponentiateLoop_returns fuel (n >>> 1) (some product) square (by omega) q1
          (fun r hr => by cases hr; exact p1)).imp ?_
        rintro v ⟨e1, e2, e3⟩
        refine ⟨fun h0 => absurd (e1 h0).1 (by simp), e2, ?_⟩
        rw [e3, hshift]
        simp only [accumulated, Option.elim_some]
        rw [p2, mul_assoc]
    · rw [if_neg hodd]
      have heven : n % 2 = 0 := by
        have := mt (and_one_ne_zero_iff n).mpr hodd
        omega
      refine (exponentiateLoop_returns fuel (n >>> 1) result square (by omega) q1 hr).imp ?_
      rintro v ⟨e1, e2, e3⟩
      refine ⟨fun h0 => ?_, e2, ?_⟩
      · have := (e1 h0).2
        omega
      · rw [e3, hshift, heven, pow_zero, one_mul]

/-- `v` is the power asked for. -/
def IsPower (base : JSBigInt P) (n : ℕ) (v : Option (JSBigInt P)) : Prop :=
  ∃ r, v = some r ∧ r.Normalized ∧ r.toInt = base.toInt ^ n

/-- **Square and multiply** returns the power, whatever the base. -/
theorem squareAndMultiply_returns {n : ℕ} (hb : base.Normalized) (hn : n ≠ 0) :
    Returns False (squareAndMultiply base n) (IsPower base n) := by
  have hshift : n >>> 1 = n / 2 := shiftRight_one n
  refine (exponentiateLoop_returns n (n >>> 1) _ base (by omega) hb
    (fun r hr => by split_ifs at hr; cases hr; exact hb)).imp ?_
  rintro v ⟨e1, e2, e3⟩
  have hacc : accumulated v = base.toInt ^ n := by
    have hfirst : accumulated (if n &&& 1 ≠ 0 then some base else none) =
        base.toInt ^ (n % 2) := by
      split_ifs with hodd
      · rw [(and_one_ne_zero_iff n).mp hodd, pow_one]
        rfl
      · have := mt (and_one_ne_zero_iff n).mpr hodd
        rw [show n % 2 = 0 by omega, pow_zero]
        rfl
    rw [e3, hfirst, ← pow_add]
    congr 1
    omega
  cases v with
  | none =>
    obtain ⟨h0, h1⟩ := e1 rfl
    split_ifs at h0 with hodd
    have := mt (and_one_ne_zero_iff n).mpr hodd
    omega
  | some r => exact ⟨r, rfl, e2 r rfl, hacc⟩

/-! ## The fast paths -/

theorem zeros_then_digit {c : JSBigInt P} {k : ℕ} (d : P.Digit) (hl : c.digits.length = 1 + k) :
    ((c.setDigits 0 (List.replicate (1 + k) 0)).setDigits (1 + k - 1) [d]).digits =
      List.replicate k 0 ++ [d] := by
  have h0 : overwrite c.digits 0 (List.replicate (1 + k) 0) = List.replicate (1 + k) 0 :=
    overwrite_all (by simpa using hl)
  rw [setDigits_digits, setDigits_digits, h0, Nat.add_sub_cancel_left]
  rw [overwrite, List.take_replicate, min_eq_left (by omega),
    List.drop_of_length_le (by simp; omega), List.append_nil]

theorem neg_two_pow (n : ℕ) :
    (-2 : ℤ) ^ n = if n &&& 1 ≠ 0 then -((2 ^ n : ℕ) : ℤ) else ((2 ^ n : ℕ) : ℤ) := by
  have hparity := and_one_ne_zero_iff n
  split_ifs with h
  · exact Odd.neg_pow (odd_iff.mpr (hparity.mp h)) 2
  · exact Even.neg_pow (even_iff.mpr (by have := mt hparity.mpr h; omega)) 2

theorem powerOfTwo_returns (n : ℕ) (h1 : base.length = 1) (h2 : base.digit 0 = 2) :
    Returns False (powerOfTwo base n) (Denotes (base.toInt ^ n)) := by
  have hB := P.base_ge
  have hmod : n % P.digitBits < P.digitBits := mod_lt _ (by have := P.digitBits_ge; omega)
  refine ((createWithLength_returns _).room_of False.elim).bind ?_
  rintro c ⟨hlen, hsign⟩
  refine .pure ?_
  have hdigits := zeros_then_digit ((1 : P.Digit) <<< (n % P.digitBits)) hlen
  set s := (c.setDigits 0 (List.replicate (1 + n / P.digitBits) 0)).setDigits
    (1 + n / P.digitBits - 1) [(1 : P.Digit) <<< (n % P.digitBits)] with hs
  have hssign : s.sign = false := hsign
  have hval : value s.digits = 2 ^ n := by
    rw [hdigits, value_append, value_replicate_zero, value_singleton, toNat_one_shiftLeft hmod,
      List.length_replicate, zero_add, ← pow_mul, ← pow_add, div_add_mod]
  have hnorm : ∀ b, (s.setSign b).Normalized := fun b => by
    refine ⟨fun hne => ?_, fun h0 => ?_⟩
    · simp only [setSign_digits, hdigits, List.getLast_append_singleton]
      intro h0
      have := congrArg BitVec.toNat h0
      rw [toNat_one_shiftLeft hmod] at this
      exact absurd this (by positivity)
    · rw [setSign_digits, hdigits] at h0
      simp at h0
  have htwo : (2 : P.Digit).toNat = 2 := by
    simp only [BitVec.ofNat_eq_ofNat]
    exact mod_eq_of_lt (by omega)
  have hbase : base.toInt = if base.sign then -2 else 2 := by
    rw [toInt, value_of_length_one h1, h2, htwo]
    rfl
  rw [hbase]
  split_ifs with hb
  · refine ⟨hnorm _, ?_⟩
    rw [toInt, setSign_sign, setSign_digits, hval, neg_two_pow]
    simp only [decide_eq_true_eq]
  · have hself : s = s.setSign false := by
      rw [← hssign]
      rfl
    refine ⟨hself ▸ hnorm false, ?_⟩
    rw [toInt, hssign, hval]
    simp

theorem value_eq_of_length_le_one {x : JSBigInt P} (h : x.length ≤ 1) :
    value x.digits = (x.digit 0).toNat := by
  rcases lt_or_ge x.length 1 with h0 | h0
  · have : x.digits = [] := List.eq_nil_of_length_eq_zero (by unfold length at h0; omega)
    rw [digit, this]
    simp
  · exact value_of_length_one (by omega)

theorem digit_zero_and_one (x : JSBigInt P) : x.digit 0 &&& 1 = 0 ↔ value x.digits % 2 = 0 := by
  have h2 : 2 ∣ 2 ^ P.digitBits := dvd_pow_self 2 (by have := P.digitBits_ge; omega)
  have hmod : value x.digits % 2 = (x.digit 0).toNat % 2 := by
    unfold digit
    cases x.digits with
    | nil => simp
    | cons d ds =>
      obtain ⟨k, hk⟩ := h2
      rw [value_cons, hk, mul_assoc, add_mul_mod_self_left]
      rfl
  rw [hmod, ← and_one_is_mod, ← toNat_one, ← BitVec.toNat_and, BitVec.toNat_eq,
    toNat_zero]

theorem toInt_of_digit_one (h : base.length = 1 ∧ base.digit 0 = 1) :
    base.toInt = if base.sign then -1 else 1 := by
  rw [toInt, value_of_length_one h.1, h.2, toNat_one]
  rfl

theorem one_pow_cases (b : Bool) (n : ℕ) :
    (if b then (-1 : ℤ) else 1) ^ n = if b ∧ n % 2 = 0 then 1 else if b then -1 else 1 := by
  cases b
  · simp
  · rcases mod_two_eq_zero_or_one n with h | h
    · simp [h, Even.neg_one_pow (even_iff.mpr h)]
    · simp [h, Odd.neg_one_pow (odd_iff.mpr h)]

/-- **Exponentiation returns the power**, if the exponent is not negative. -/
theorem exponentiateImpl_returns {exponent : JSBigInt P} (hb : base.Normalized)
    (he : exponent.Normalized) (hs : exponent.sign ≠ true) :
    Returns False (exponentiateImpl base exponent) (IsPower base (value exponent.digits)) := by
  rw [exponentiateImpl, if_neg hs]
  refine .ite (fun hez => ?_) fun hez => ?_
  · refine (createFrom_returns _ (by decide)).bind fun r hr => .pure ⟨r, rfl, hr.1, ?_⟩
    rw [hr.2, isZero_iff.mp hez, value_nil, pow_zero]
  have hepos := he.value_pos fun h0 => hez (isZero_iff.mpr h0)
  refine .ite (fun hbz => ?_) fun _ => .ite (fun hone => ?_) fun _ =>
    .ite (fun _ => .throw id) fun hlong => ?_
  · have h0 := hb.toInt_eq_zero_iff.mpr (isZero_iff.mp hbz)
    exact .pure ⟨base, rfl, hb, by rw [h0, zero_pow (by omega)]⟩
  · have hint := toInt_of_digit_one hone
    have hparity := digit_zero_and_one exponent
    unfold IsPower
    rw [hint, one_pow_cases]
    by_cases hsign : base.sign ∧ exponent.digit 0 &&& 1 = 0
    · rw [if_pos hsign, if_pos ⟨hsign.1, hparity.mp hsign.2⟩]
      refine ((unaryMinusImpl_returns hb).room_of False.elim).bind fun r hr =>
        .pure ⟨r, rfl, hr.1, ?_⟩
      rw [hr.2, hint, if_pos hsign.1, neg_neg]
    · rw [if_neg hsign, if_neg fun h0 => hsign ⟨h0.1, hparity.mpr h0.2⟩]
      exact .pure ⟨base, rfl, hb, hint⟩
  have hval := value_eq_of_length_le_one (x := exponent) (by omega)
  rw [hval] at hepos ⊢
  refine .ite (fun hexp => .pure ⟨base, rfl, hb, by rw [hexp, toNat_one, pow_one]⟩) fun _ =>
    .ite (fun _ => .throw id) fun hbig => .ite (fun htwo => ?_) fun _ => ?_
  · exact (powerOfTwo_returns _ htwo.1 htwo.2).bind fun r hr => .pure ⟨r, rfl, hr⟩
  · exact squareAndMultiply_returns hb (by omega)

/-- **Exponentiation is exact.** A range error is thrown just for negative exponents; every value
returned is the normalized power; and square and multiply agrees with it on every base, those with a
fast path included. -/
theorem exponentiate_exact (base exponent : JSBigInt P) (hb : base.Normalized)
    (he : exponent.Normalized) (vm : VM P) :
    ((∃ message, exponentiate base exponent vm = .error (.rangeError message)) ↔
      exponent.toInt < 0) ∧ ∀ v vm', exponentiate base exponent vm = .ok (v, vm') →
      ∃ r, v = some r ∧ r.Normalized ∧ r.toInt = base.toInt ^ exponent.toInt.toNat ∧
        ∀ vm1 w vm2, exponent.toInt ≠ 0 →
          squareAndMultiply base exponent.toInt.toNat vm1 = .ok (w, vm2) → w = v := by
  refine ⟨?_, fun v vm' h => ?_⟩
  · rw [he.toInt_neg_iff]
    constructor
    · rintro ⟨message, h⟩
      by_contra hs
      obtain ⟨m, hm⟩ := (exponentiateImpl_returns hb he hs).memory vm _ h
      cases hm
    · intro hs
      refine ⟨negativeExponentMessage, ?_⟩
      rw [exponentiate, exponentiateImpl, if_pos hs]
      rfl
  · have hs : exponent.sign ≠ true := by
      intro hs
      rw [exponentiate, exponentiateImpl, if_pos hs] at h
      cases h
    obtain ⟨r, hv, h1, h2⟩ := (exponentiateImpl_returns hb he hs).ok h
    have hnat : exponent.toInt.toNat = value exponent.digits := by
      rw [toInt, if_neg hs]
      exact Int.toNat_natCast _
    refine ⟨r, hv, h1, by rw [h2, hnat], fun vm1 w vm2 hne hw => ?_⟩
    have hne' : exponent.toInt.toNat ≠ 0 := by
      have := mt he.toInt_neg_iff.mp hs
      omega
    obtain ⟨r', hw', k1, k2⟩ := (squareAndMultiply_returns hb hne').ok hw
    rw [hw', hv, k1.ext h1 (by rw [k2, h2, hnat])]

/-- `(-2) ** 65` by the fast path and `(-3) ** 5` by the loop, on a 64-bit platform. -/
theorem exponentiate_exact_examples :
    (∃ r vm', exponentiate (P := Platform.arm64) ⟨true, [2]⟩ ⟨false, [65]⟩ VM.zeroed =
      .ok (some r, vm') ∧ r.toInt = -2 ^ 65) ∧
    ∃ r vm', exponentiate (P := Platform.arm64) ⟨true, [3]⟩ ⟨false, [5]⟩ VM.zeroed =
      .ok (some r, vm') ∧ r.toInt = -243 := by
  refine ⟨⟨⟨true, [0, 2]⟩, VM.zeroed, by rfl, ?_⟩, ⟨⟨true, [243]⟩, VM.zeroed, by rfl, ?_⟩⟩
  · obtain ⟨-, h⟩ := exponentiate_exact (P := Platform.arm64) ⟨true, [2]⟩ ⟨false, [65]⟩
      (by decide) (by decide) VM.zeroed
    obtain ⟨r, hr, -, h2, -⟩ := h (some ⟨true, [0, 2]⟩) VM.zeroed (by rfl)
    cases hr
    exact h2.trans (by decide)
  · obtain ⟨-, h⟩ := exponentiate_exact (P := Platform.arm64) ⟨true, [3]⟩ ⟨false, [5]⟩
      (by decide) (by decide) VM.zeroed
    obtain ⟨r, hr, -, h2, -⟩ := h (some ⟨true, [243]⟩) VM.zeroed (by rfl)
    cases hr
    exact h2.trans (by decide)

end JscAndroid.BigInt.Exponentiate
