import JscAndroid.BigInt.ToString

/-!
# Parsing, and the round trip through text

`parseInt` reads digits in chunks that fit a machine word. A short text becomes a BigInt at once;
for a longer one `allocateFor` sizes a buffer from the number of characters. It over-approximates:
the buffer is never too small (`allocateFor_returns`), but it can be longer than `maxLength`
although the value itself is not.

The main result is `text_round_trip`: `parseInt` reads back what `toString` prints, and gives up
exactly when the estimate of `allocateFor` is beyond `maxLength`, as it is for the BigInt of
`parseInt_power_of_ten_fails`.
-/

namespace JscAndroid.BigInt.ParseInt

open Arith.Limbs Arith.Numerals DigitArith Heap DigitLoops BigInt.ToString JSBigInt Platform List
open Nat

variable {radix : ℕ}

/-! ## The source -/

inductive ErrorParseMode
  | ThrowExceptions
  | IgnoreExceptions
  deriving DecidableEq, Repr

inductive ParseIntMode
  | DisallowEmptyString
  | AllowEmptyString
  deriving DecidableEq, Repr

inductive ParseIntSign
  | Unsigned
  | Signed
  deriving DecidableEq, Repr

/-- `u_charType(ch) == U_SPACE_SEPARATOR`. -/
def isSpaceSeparator (ch : UChar) : Bool :=
  ch == 0x20 || ch == 0xA0 || ch == 0x1680 || (0x2000 ≤ ch && ch ≤ 0x200A) || ch == 0x202F ||
    ch == 0x205F || ch == 0x3000

def isWhiteSpace (ch : UChar) : Bool :=
  if ch < 256 then ch == ' '.toNat || ch == '\t'.toNat || ch == 0xB || ch == 0xC || ch == 0xA0
  else isSpaceSeparator ch || ch == 0xFEFF

def isLineTerminator (ch : UChar) : Bool :=
  ch == '\r'.toNat || ch == '\n'.toNat || ch == 0x2028 || ch == 0x2029

def isStrWhiteSpace (ch : UChar) : Bool := isWhiteSpace ch || isLineTerminator ch

/-- How many characters are sure to denote an `int32_t`. -/
def lengthLimitForBigInt32 (radix : ℕ) : ℕ :=
  match radix with
  | 2 => 30
  | 8 => 10
  | 10 => 9
  | 16 => 7
  | _ => 1

/-- The value of a character, if it is a digit to this radix. -/
def parseDigit (radix : ℕ) (ch : UChar) : Option ℕ :=
  let limit0 := '0'.toNat + if radix < 10 then radix else 10
  let limita := 'a'.toNat + radix - 10
  let limitA := 'A'.toNat + radix - 10
  if '0'.toNat ≤ ch ∧ ch < limit0 then some (ch - '0'.toNat)
  else if 'a'.toNat ≤ ch ∧ ch < limita then some (ch - 'a'.toNat + 10)
  else if 'A'.toNat ≤ ch ∧ ch < limitA then some (ch - 'A'.toNat + 10)
  else none

/-- The inner loop: at most the given number of characters, as `digit` and `multiplier`. -/
def parseChunk (radix : ℕ) : ℕ → List UChar → ℕ → ℕ → Option (ℕ × ℕ × List UChar)
  | 0, data, digit, multiplier => some (digit, multiplier, data)
  | _ + 1, [], digit, multiplier => some (digit, multiplier, [])
  | limit + 1, ch :: data, digit, multiplier =>
    match parseDigit radix ch with
    | some d => parseChunk radix limit data (digit * radix + d) (multiplier * radix)
    | none => none

variable {P : Platform}

/-- The length that `allocateFor` computes, rounding up twice. -/
def allocateForLength (P : Platform) (radix charcount : ℕ) : ℕ :=
  let bitsPerChar := maxBitsPerCharTable.getD radix 0
  let roundup := bitsPerCharTableMultiplier - 1
  let bitsMin := (bitsPerChar * charcount + roundup) >>> bitsPerCharTableShift
  (bitsMin + P.digitBits - 1) / P.digitBits

def allocateFor (radix charcount : ℕ) : Op P (JSBigInt P) := do
  let bitsPerChar := maxBitsPerCharTable.getD radix 0
  let roundup := bitsPerCharTableMultiplier - 1
  let bitsMin := (bitsPerChar * charcount + roundup) >>> bitsPerCharTableShift
  -- the first two tests keep `size_t` and `unsigned` from overflowing
  if charcount ≤ (2 ^ P.digitBits - 1 - roundup) / bitsPerChar ∧ bitsMin ≤ 2 ^ 31 - 1 ∧
      allocateForLength P radix charcount ≤ maxLength P then
    createWithLength (allocateForLength P radix charcount)
  else
    throw (.outOfMemoryError (some tooBigMessage))

/-- `createFrom` for an `int32_t`. -/
def createFrom (value : ℤ) : Op P (JSBigInt P) := do
  if value = 0 then
    createZero
  else
    let bigInt ← createWithLength 1
    return if value < 0 then
        (bigInt.setDigits 0 [BitVec.ofInt P.digitBits (-1 * value)]).setSign true
      else bigInt.setDigits 0 [BitVec.ofInt P.digitBits value]

def inplaceMultiplyAdd (x : JSBigInt P) (factor summand : P.Digit) : JSBigInt P :=
  { x with digits := internalMultiplyAdd x.digits factor summand x.length x.digits }

def parseErrorMessage : String := "Failed to parse String to BigInt"

/-- A syntax error, or the empty `JSValue`. -/
def parseError (errorParseMode : ErrorParseMode) : Op P (Option (JSBigInt P)) :=
  match errorParseMode with
  | .ThrowExceptions => throw (.syntaxError parseErrorMessage)
  | .IgnoreExceptions => return none

/-- The outer loop. Each round reads a character at least, so that `fuel` is the number of
characters; `heapResult` is there from the second round on. -/
def parseIntLoop (radix : ℕ) (errorParseMode : ErrorParseMode) (sign : ParseIntSign)
    (initialLength : ℕ) :
    ℕ → List UChar → Option (JSBigInt P) → Op P (Option (JSBigInt P))
  | 0, _, none => return none
  | 0, _, some heapResult => do
    let result ← rightTrim (heapResult.setSign (sign = .Signed))
    return some result
  | fuel + 1, data, heapResult =>
    if data = [] then parseIntLoop radix errorParseMode sign initialLength fuel data heapResult
    else
      match parseChunk radix (lengthLimitForBigInt32 radix) data 0 1 with
      | none => parseError errorParseMode
      | some (digit, multiplier, rest) =>
        let factor := BitVec.ofNat P.digitBits multiplier
        let summand := BitVec.ofNat P.digitBits digit
        match heapResult with
        | some heapResult =>
          parseIntLoop radix errorParseMode sign initialLength fuel rest
            (some (inplaceMultiplyAdd heapResult factor summand))
        | none =>
          let maybeResult : ℤ := if sign = .Signed then -digit else digit
          if rest = [] ∧ -2 ^ 31 ≤ maybeResult ∧ maybeResult < 2 ^ 31 then do
            let result ← createFrom maybeResult
            return some result
          else do
            let heapResult ← allocateFor radix initialLength
            let heapResult := heapResult.setDigits 0 (List.replicate heapResult.length 0)
            parseIntLoop radix errorParseMode sign initialLength fuel rest
              (some (inplaceMultiplyAdd heapResult factor summand))

/-- `parseInt` from `startIndex` on. -/
def parseIntFrom (data : List UChar) (startIndex radix : ℕ) (errorParseMode : ErrorParseMode)
    (sign : ParseIntSign) (parseMode : ParseIntMode) : Op P (Option (JSBigInt P)) := do
  if parseMode ≠ .AllowEmptyString ∧ startIndex = data.length then
    parseError errorParseMode
  else
    let data := (data.drop startIndex).dropWhile (· == '0'.toNat)
    let data := data.rdropWhile isStrWhiteSpace
    if data = [] then
      let result ← createZero
      return some result
    else
      parseIntLoop radix errorParseMode sign data.length data.length data none

/-- `parseInt` for a text and a radix. -/
def parseInt (data : List UChar) (radix : ℕ) (errorParseMode : ErrorParseMode)
    (sign : ParseIntSign) : Op P (Option (JSBigInt P)) :=
  parseIntFrom data 0 radix errorParseMode sign .DisallowEmptyString

/-! ## Sizes -/

theorem lengthLimit_spec : ∀ radix < 37, 2 ≤ radix →
    1 ≤ lengthLimitForBigInt32 radix ∧ lengthLimitForBigInt32 radix ≤ 30 ∧
      radix ^ lengthLimitForBigInt32 radix < 2 ^ 31 := by
  decide

theorem maxLength_mul_le (P : Platform) : maxLength P * P.digitBits ≤ 2 ^ 20 :=
  div_mul_le_self _ _

theorem bits_le_allocateForLength (P : Platform) (radix charcount : ℕ) :
    (maxBitsPerCharTable.getD radix 0 * charcount + 31) / 32 ≤
      P.digitBits * allocateForLength P radix charcount := by
  have h32 := P.digitBits_ge
  unfold allocateForLength
  dsimp only
  rw [shiftRight_eq_div_pow]
  set b := (maxBitsPerCharTable.getD radix 0 * charcount + 31) / 32
  have := div_add_mod (b + P.digitBits - 1) P.digitBits
  have := mod_lt (b + P.digitBits - 1) (show 0 < P.digitBits by omega)
  change b ≤ P.digitBits * ((b + P.digitBits - 1) / P.digitBits)
  omega

/-- The number of digits that `allocateFor` asks for has room for every numeral of `charcount`
characters. -/
theorem pow_le_of_allocateForLength {charcount : ℕ} (h2 : 2 ≤ radix) (h36 : radix ≤ 36) :
    radix ^ charcount ≤ (2 ^ P.digitBits) ^ allocateForLength P radix charcount := by
  obtain ⟨-, -, ht, -, -⟩ := maxBitsPerCharTable_spec radix (by omega) h2
  have hbits := bits_le_allocateForLength P radix charcount
  rw [← pow_mul]
  exact pow_le_two_pow ht (by omega)

/-- The tests against overflow are implied by the test against `maxLength`. -/
theorem allocateFor_eq {charcount : ℕ} (h2 : 2 ≤ radix) (h36 : radix ≤ 36) :
    allocateFor (P := P) radix charcount =
      if allocateForLength P radix charcount ≤ maxLength P then
        createWithLength (allocateForLength P radix charcount)
      else throw (.outOfMemoryError (some tooBigMessage)) := by
  obtain ⟨ht1, -, -, -, -⟩ := maxBitsPerCharTable_spec radix (by omega) h2
  unfold allocateFor
  by_cases hl : allocateForLength P radix charcount ≤ maxLength P
  · have hB := P.base_ge
    have hmax := (mul_le_mul_right P.digitBits hl).trans (maxLength_mul_le P)
    rw [mul_comm] at hmax
    have hbits := (bits_le_allocateForLength P radix charcount).trans hmax
    have hsize : charcount ≤ (2 ^ P.digitBits - 1 - (bitsPerCharTableMultiplier - 1)) /
        maxBitsPerCharTable.getD radix 0 := by
      rw [le_div_iff_mul_le (by omega), mul_comm,
        show bitsPerCharTableMultiplier - 1 = 31 from rfl]
      omega
    have hint : (maxBitsPerCharTable.getD radix 0 * charcount +
      (bitsPerCharTableMultiplier - 1)) >>>
        bitsPerCharTableShift ≤ 2 ^ 31 - 1 := by
      rw [shiftRight_eq_div_pow]
      show (maxBitsPerCharTable.getD radix 0 * charcount + 31) / 32 ≤ _
      omega
    rw [if_pos ⟨hsize, hint, hl⟩, if_pos hl]
  · rw [if_neg (fun h => hl h.2.2), if_neg hl]

/-- **`allocateFor` never allocates too little.** -/
theorem allocateFor_returns (charcount : ℕ) (h2 : 2 ≤ radix) (h36 : radix ≤ 36) :
    Returns (allocateForLength P radix charcount ≤ maxLength P) (allocateFor radix charcount)
      fun c : JSBigInt P => c.length = allocateForLength P radix charcount ∧
        radix ^ charcount ≤ (2 ^ P.digitBits) ^ c.length := by
  rw [allocateFor_eq h2 h36]
  split_ifs with hl
  · refine (createWithLength_returns _).imp fun c hc => ?_
    have hlen : c.length = _ := hc.1
    exact ⟨hlen, hlen ▸ pow_le_of_allocateForLength h2 h36⟩
  · exact .throw hl

/-! ## Reading digits -/

theorem parseDigit_radixDigit : ∀ radix < 37, ∀ d < radix,
    parseDigit radix (radixDigit d) = some d := by
  decide

theorem isStrWhiteSpace_radixDigit : ∀ d < 36, isStrWhiteSpace (radixDigit d) = false := by
  decide

theorem parseChunk_eq (h36 : radix ≤ 36) :
    ∀ (limit : ℕ) (ds : List ℕ) (digit multiplier : ℕ), (∀ d ∈ ds, d < radix) →
      parseChunk radix limit (ds.map radixDigit) digit multiplier =
        some (readOnto radix digit (ds.take limit), multiplier * radix ^ (ds.take limit).length,
          (ds.drop limit).map radixDigit)
  | 0, ds, digit, multiplier, _ => by simp [parseChunk]
  | limit + 1, [], digit, multiplier, _ => by simp [parseChunk]
  | limit + 1, d :: ds, digit, multiplier, h => by
    rw [map_cons, parseChunk, parseDigit_radixDigit radix (by omega) d
      (h d (mem_cons_self ..))]
    dsimp only
    rw [parseChunk_eq h36 limit ds _ _ fun e he => h e (mem_cons_of_mem _ he)]
    simp only [take_succ_cons, drop_succ_cons, readOnto_cons, length_cons, pow_succ',
      Nat.mul_assoc]

/-- **Multiplying and adding in place** is exact if the result fits. -/
theorem inplaceMultiplyAdd_spec (x : JSBigInt P) (factor summand : P.Digit)
    (hfit : value x.digits * factor.toNat + summand.toNat < (2 ^ P.digitBits) ^ x.digits.length) :
    (inplaceMultiplyAdd x factor summand).digits.length = x.digits.length ∧
      value (inplaceMultiplyAdd x factor summand).digits =
        value x.digits * factor.toNat + summand.toNat := by
  obtain ⟨h1, -, h3⟩ := multiplyAddLoop_spec factor x.digits summand 0 (by
    rw [toNat_zero]; simpa using summand.isLt)
  have hd : (inplaceMultiplyAdd x factor summand).digits =
      (multiplyAddLoop factor x.digits summand 0).1 := by
    rw [inplaceMultiplyAdd, internalMultiplyAdd, JSBigInt.length, if_neg (by omega), take_length,
      overwrite_all h1.symm]
  rw [hd]
  exact ⟨h1, eq_of_add_mul h3 hfit⟩

/-! ## The loop -/

theorem ofNat_toNat_of_lt {n : ℕ} (h : n < 2 ^ 31) : (BitVec.ofNat P.digitBits n).toNat = n := by
  have := P.base_ge
  rw [BitVec.toNat_ofNat, mod_eq_of_lt (by omega)]

theorem chunk_bounds (h2 : 2 ≤ radix) (h36 : radix ≤ 36) {ds : List ℕ} (hds : ∀ d ∈ ds, d < radix) :
    readOnto radix 0 (ds.take (lengthLimitForBigInt32 radix)) <
        radix ^ (ds.take (lengthLimitForBigInt32 radix)).length ∧
      radix ^ (ds.take (lengthLimitForBigInt32 radix)).length < 2 ^ 31 := by
  obtain ⟨-, -, hl⟩ := lengthLimit_spec radix (by omega) h2
  refine ⟨readOnto_lt fun d hd => hds d (mem_of_mem_take hd), lt_of_le_of_lt ?_ hl⟩
  exact Nat.pow_le_pow_right (by omega) (length_take_le _ _)

theorem inplaceMultiplyAdd_chunk (h2 : 2 ≤ radix) {cs rest : List ℕ} {h : JSBigInt P}
    (hc1 : readOnto radix 0 cs < radix ^ cs.length) (hc2 : radix ^ cs.length < 2 ^ 31)
    (hfit : (value h.digits + 1) * radix ^ (cs ++ rest).length ≤
      (2 ^ P.digitBits) ^ h.digits.length) :
    let h' := inplaceMultiplyAdd h (BitVec.ofNat P.digitBits (1 * radix ^ cs.length))
      (BitVec.ofNat P.digitBits (readOnto radix 0 cs))
    h'.digits.length = h.digits.length ∧ value h'.digits = readOnto radix (value h.digits) cs ∧
      (value h'.digits + 1) * radix ^ rest.length ≤ (2 ^ P.digitBits) ^ h.digits.length := by
  rw [length_append, pow_add, ← mul_assoc] at hfit
  have hrest : 1 ≤ radix ^ rest.length := one_le_pow _ _ (by omega)
  have hsum : value h.digits * radix ^ cs.length + readOnto radix 0 cs + 1 ≤
      (value h.digits + 1) * radix ^ cs.length := by
    rw [add_mul]
    omega
  have hspec := inplaceMultiplyAdd_spec h (BitVec.ofNat P.digitBits (1 * radix ^ cs.length))
    (BitVec.ofNat P.digitBits (readOnto radix 0 cs))
  rw [one_mul, ofNat_toNat_of_lt hc2, ofNat_toNat_of_lt (hc1.trans hc2)] at hspec
  obtain ⟨i1, i2⟩ := hspec (by
    calc value h.digits * radix ^ cs.length + readOnto radix 0 cs
        < (value h.digits + 1) * radix ^ cs.length := hsum
      _ = (value h.digits + 1) * radix ^ cs.length * 1 := (mul_one _).symm
      _ ≤ (value h.digits + 1) * radix ^ cs.length * radix ^ rest.length :=
          mul_le_mul_left _ hrest
      _ ≤ _ := hfit)
  rw [one_mul]
  refine ⟨i1, ?_, ?_⟩
  · rw [i2, ← readOnto_eq]
  · rw [i2]
    exact (mul_le_mul_right _ hsum).trans hfit

/-- **The loop, once the buffer is there.** -/
theorem parseIntLoop_some (h2 : 2 ≤ radix) (h36 : radix ≤ 36) (errorParseMode : ErrorParseMode)
    (sign : ParseIntSign) (initialLength : ℕ) :
    ∀ (fuel : ℕ) (ds : List ℕ) (h : JSBigInt P), ds.length ≤ fuel → (∀ d ∈ ds, d < radix) →
      (value h.digits + 1) * radix ^ ds.length ≤ (2 ^ P.digitBits) ^ h.digits.length →
      ∃ h' : JSBigInt P, h'.digits.length = h.digits.length ∧
        value h'.digits = readOnto radix (value h.digits) ds ∧
        parseIntLoop radix errorParseMode sign initialLength fuel (ds.map radixDigit) (some h) =
          (do let result ← rightTrim (h'.setSign (sign = .Signed))
              return some result)
  | 0, ds, h, hf, _, _ => by
    have h0 : ds = [] := eq_nil_of_length_eq_zero (by omega)
    exact ⟨h, rfl, by rw [h0, readOnto_nil], by rw [h0]; rfl⟩
  | fuel + 1, ds, h, hf, hds, hfit => by
    rw [parseIntLoop]
    by_cases h0 : ds = []
    · rw [if_pos (by rw [h0]; rfl)]
      exact parseIntLoop_some h2 h36 errorParseMode sign initialLength fuel ds h (by simp [h0])
        hds hfit
    · rw [if_neg (by simpa using h0), parseChunk_eq h36 _ ds 0 1 hds]
      rw [← take_append_drop (lengthLimitForBigInt32 radix) ds] at hfit
      obtain ⟨hc1, hc2⟩ := chunk_bounds h2 h36 hds
      obtain ⟨i1, i2, i3⟩ := inplaceMultiplyAdd_chunk h2 hc1 hc2 hfit
      obtain ⟨hl, -, -⟩ := lengthLimit_spec radix (by omega) h2
      obtain ⟨h', e1, e2, e3⟩ := parseIntLoop_some h2 h36 errorParseMode sign initialLength fuel
        (ds.drop (lengthLimitForBigInt32 radix)) _ (by rw [length_drop]; omega)
        (fun d hd => hds d (mem_of_mem_drop hd)) (by rw [i1]; exact i3)
      refine ⟨h', e1.trans i1, ?_, e3⟩
      rw [e2, i2, ← readOnto_append, take_append_drop]

/-! ## The parser on a numeral -/

theorem denotes_singleton {n : ℕ} (hn : n < 2 ^ 31) (hn0 : n ≠ 0) (b : Bool) :
    Denotes (if b then -(n : ℤ) else n) (⟨b, [BitVec.ofNat P.digitBits n]⟩ : JSBigInt P) := by
  have hv := ofNat_toNat_of_lt (P := P) hn
  refine ⟨⟨fun _ hz0 => hn0 ?_, nofun⟩, ?_⟩
  · rw [← hv, ← getLast_singleton (a := BitVec.ofNat P.digitBits n) (by simp), hz0,
      toNat_zero]
  · rw [toInt, value_singleton, hv]

theorem one_le_maxLength (P : Platform) : 1 ≤ maxLength P := by
  unfold maxLength maxLengthBits
  rcases P.digitBits_eq with h | h <;> rw [h] <;> norm_num

theorem createFrom_returns (room : Prop) {z : ℤ} (hz : z.natAbs < 2 ^ 31) :
    Returns room (createFrom z : Op P (JSBigInt P)) (Denotes z) := by
  unfold createFrom
  by_cases h0 : z = 0
  · rw [h0]
    exact createZero_returns _
  rw [if_neg h0]
  refine ((createWithLength_returns 1).room_of fun _ => one_le_maxLength P).bind ?_
  rintro c ⟨hl, hs⟩
  have hset (d : P.Digit) : c.setDigits 0 [d] = ⟨false, [d]⟩ := hs ▸ setDigits_all hl
  rw [hset, hset]
  refine .pure ?_
  split_ifs with hneg
  · have h := denotes_singleton (P := P) hz (by omega) true
    rwa [if_pos rfl, ← BitVec.ofInt_natCast, show ((z.natAbs : ℕ) : ℤ) = -1 * z by omega,
      show -(-1 * z) = z by omega] at h
  · have h := denotes_singleton (P := P) hz (by omega) false
    rwa [if_neg nofun, ← BitVec.ofInt_natCast, show ((z.natAbs : ℕ) : ℤ) = z by omega] at h

/-- The sign to parse the magnitude of `x` with. -/
def matchingSign (x : JSBigInt P) : ParseIntSign := if x.sign then .Signed else .Unsigned

theorem toInt_eq_of_matchingSign (x : JSBigInt P) :
    (if matchingSign x = .Signed then -(value x.digits : ℤ) else value x.digits) = x.toInt := by
  unfold matchingSign toInt
  cases x.sign <;> rfl

section
variable {x : JSBigInt P} (hx : x.Normalized) (hne : x.digits ≠ []) {radix : ℕ}
  (h2 : 2 ≤ radix) (h36 : radix ≤ 36) (errorParseMode : ErrorParseMode)
include hx hne h2 h36

omit hx hne h2 h36 in
/-- The digits of the magnitude, most significant first: what the parser reads. -/
theorem magnitude_eq : canonicalNumeral radix |x.toInt| =
    (digits radix (value x.digits)).reverse.map radixDigit := by
  rw [canonicalNumeral, if_neg (not_lt.mpr (abs_nonneg _)), Int.natAbs_abs, natAbs_toInt,
    map_reverse, nil_append]

omit hx hne in
/-- A text within the limit is that of a small integer. -/
theorem natAbs_lt_of_short
    (hs : (digits radix (value x.digits)).length ≤ lengthLimitForBigInt32 radix) :
    x.toInt.natAbs < 2 ^ 31 := by
  obtain ⟨-, -, hl⟩ := lengthLimit_spec radix (by omega) h2
  rw [natAbs_toInt]
  calc value x.digits < radix ^ (digits radix (value x.digits)).length :=
        lt_base_pow_length_digits (by omega)
    _ ≤ radix ^ lengthLimitForBigInt32 radix := Nat.pow_le_pow_right (by omega) hs
    _ < 2 ^ 31 := hl

theorem parseInt_eq_loop : parseInt (P := P) (canonicalNumeral radix |x.toInt|) radix
      errorParseMode (matchingSign x) =
    parseIntLoop radix errorParseMode (matchingSign x)
      (digits radix (value x.digits)).length (digits radix (value x.digits)).length
      ((digits radix (value x.digits)).reverse.map radixDigit) none := by
  have hpos := hx.value_pos hne
  have hnum := isNumeral_digits (show 1 < radix by omega) (value x.digits)
  rw [magnitude_eq]
  set L := digits radix (value x.digits)
  have hL : L ≠ [] := digits_ne_nil_iff_ne_zero.mpr (by omega)
  have hmap : (L.reverse.map radixDigit) ≠ [] := by simpa using hL
  have hdrop : (L.reverse.map radixDigit).dropWhile (· == '0'.toNat) =
      L.reverse.map radixDigit := by
    refine dropWhile_eq_self_iff.mpr fun hl => ?_
    rw [getElem_map, getElem_zero_eq_head, head_reverse, beq_iff_eq]
    intro h0
    have hlt := hnum.lt _ (getLast_mem hL)
    exact hnum.top hL ((radixDigit_eq_zero_iff _ (by omega)).mp h0)
  have hrdrop : (L.reverse.map radixDigit).rdropWhile isStrWhiteSpace =
      L.reverse.map radixDigit := by
    refine rdropWhile_eq_self_iff.mpr fun hl => ?_
    obtain ⟨d, hd, hd'⟩ := mem_map.mp (getLast_mem hl)
    have hlt := hnum.lt d (mem_reverse.mp hd)
    rw [← hd', isStrWhiteSpace_radixDigit d (by omega)]
    simp
  unfold parseInt parseIntFrom
  have hlen : ¬ (ParseIntMode.DisallowEmptyString ≠ .AllowEmptyString ∧
      0 = (L.reverse.map radixDigit).length) := by
    rintro ⟨-, h0⟩
    exact hmap (eq_nil_of_length_eq_zero h0.symm)
  rw [if_neg hlen]
  dsimp only
  rw [drop_zero, hdrop, hrdrop, if_neg hmap, length_map, length_reverse]

/-- A longer text is read into a buffer. -/
theorem parseInt_eq : parseInt (P := P) (canonicalNumeral radix |x.toInt|) radix errorParseMode
      (matchingSign x) =
    if (digits radix (value x.digits)).length ≤ lengthLimitForBigInt32 radix then (do
      let result ← createFrom x.toInt
      return some result)
    else (do
      let c ← allocateFor radix (digits radix (value x.digits)).length
      parseIntLoop radix errorParseMode (matchingSign x) (digits radix (value x.digits)).length
        (digits radix (value x.digits)).length
        ((digits radix (value x.digits)).reverse.map radixDigit)
        (some (c.setDigits 0 (List.replicate c.length 0)))) := by
  have hpos := hx.value_pos hne
  have hnum := isNumeral_digits (show 1 < radix by omega) (value x.digits)
  have hsmall := natAbs_lt_of_short (x := x) h2 h36
  rw [parseInt_eq_loop hx hne h2 h36]
  set L := digits radix (value x.digits)
  have hL : L ≠ [] := digits_ne_nil_iff_ne_zero.mpr (by omega)
  have hlt : ∀ d ∈ L.reverse, d < radix := fun d hd => hnum.lt d (mem_reverse.mp hd)
  obtain ⟨n, hn⟩ : ∃ n, L.length = n + 1 :=
    ⟨L.length - 1, by have := length_pos_iff.mpr hL; omega⟩
  rw [hn] at hsmall ⊢
  simp only [parseIntLoop, map_eq_nil_iff, reverse_eq_nil_iff, hL, ↓reduceIte,
    parseChunk_eq h36 _ _ 0 1 hlt, drop_eq_nil_iff, length_reverse, hn]
  by_cases hshort : n + 1 ≤ lengthLimitForBigInt32 radix
  · have hval : readOnto radix 0 (L.reverse.take (lengthLimitForBigInt32 radix)) =
        value x.digits := by
      rw [take_of_length_le (by rwa [length_reverse, hn]), readOnto_reverse, hnum.eq]
    rw [hval, toInt_eq_of_matchingSign, if_pos ⟨hshort, by omega, by omega⟩, if_pos hshort]
  · rw [if_neg (fun h => hshort h.1), if_neg hshort]

omit hx hne in
/-- The buffer has room for all digits. -/
theorem parseIntLoop_buffer {c : JSBigInt P}
    (hroom : radix ^ (digits radix (value x.digits)).length ≤ (2 ^ P.digitBits) ^ c.length) :
    ∃ h' : JSBigInt P, h'.digits.length = c.digits.length ∧ value h'.digits = value x.digits ∧
      parseIntLoop radix errorParseMode (matchingSign x) (digits radix (value x.digits)).length
          (digits radix (value x.digits)).length
          ((digits radix (value x.digits)).reverse.map radixDigit)
          (some (c.setDigits 0 (List.replicate c.length 0))) =
        (do let result ← rightTrim (h'.setSign (matchingSign x = .Signed))
            return some result) := by
  have hnum := isNumeral_digits (show 1 < radix by omega) (value x.digits)
  set L := digits radix (value x.digits)
  set z := c.setDigits 0 (replicate c.length 0) with hz
  have hzd : z.digits = replicate c.length 0 := by
    exact overwrite_all (by rw [length_replicate]; rfl)
  have hzl : z.digits.length = c.digits.length := by rw [hzd, length_replicate]; rfl
  have hzv : value z.digits = 0 := by rw [hzd, value_replicate_zero]
  obtain ⟨h', e1, e2, e3⟩ := parseIntLoop_some h2 h36 errorParseMode (matchingSign x) L.length
    L.length L.reverse z (length_reverse ..).le (fun e he => hnum.lt e (mem_reverse.mp he))
    (by rwa [hzv, hzl, length_reverse, zero_add, one_mul])
  refine ⟨h', e1.trans hzl, ?_, e3⟩
  rw [e2, hzv, readOnto_reverse, hnum.eq]

theorem parseInt_returns :
    Returns (allocateForLength P radix (digits radix (value x.digits)).length ≤ maxLength P)
      (parseInt (canonicalNumeral radix |x.toInt|) radix errorParseMode (matchingSign x))
      fun r => r = some x := by
  rw [parseInt_eq hx hne h2 h36]
  split_ifs with hshort
  · refine (createFrom_returns _ (natAbs_lt_of_short h2 h36 hshort)).bind ?_
    rintro z ⟨n1, n2⟩
    exact .pure (congrArg some (n1.ext hx n2))
  · refine (allocateFor_returns _ h2 h36).bind ?_
    rintro c ⟨hlen, hroom⟩
    obtain ⟨h', e1, e2, e3⟩ := parseIntLoop_buffer h2 h36 errorParseMode hroom
    rw [e3]
    have hne' : h'.digits ≠ [] := fun hnil => by
      have := hx.value_pos hne
      rw [hnil, value_nil] at e2
      omega
    refine ((rightTrim_returns (x := h'.setSign (matchingSign x = .Signed)) (absurd · hne')).room_of
      fun h => ?_).bind ?_
    · rw [← hlen] at h
      exact e1.trans_le h
    rintro z ⟨n1, n2⟩
    refine .pure (congrArg some (n1.ext hx (n2.trans ?_)))
    rw [← toInt_eq_of_matchingSign x]
    rw [toInt, setSign_digits, e2, setSign_sign]
    simp only [decide_eq_true_eq]

omit hx hne in
/-- A text within the limit for small integers never needs much of a buffer. -/
theorem allocateForLength_le_of_short (hs : (digits radix (value x.digits)).length ≤
    lengthLimitForBigInt32 radix) :
    allocateForLength P radix (digits radix (value x.digits)).length ≤ maxLength P := by
  obtain ⟨-, ht2, -, -, -⟩ := maxBitsPerCharTable_spec radix (by omega) h2
  obtain ⟨-, hl, -⟩ := lengthLimit_spec radix (by omega) h2
  set n := (digits radix (value x.digits)).length
  have hmul : maxBitsPerCharTable.getD radix 0 * n ≤ 166 * 30 :=
    Nat.mul_le_mul ht2 (by omega)
  unfold allocateForLength maxLength maxLengthBits
  dsimp only
  rw [shiftRight_eq_div_pow, show bitsPerCharTableMultiplier - 1 = 31 from rfl,
    show 2 ^ bitsPerCharTableShift = 32 from rfl]
  rcases P.digitBits_eq with h | h <;> rw [h] <;> omega

/-- **When the parser gives up.** If no allocation fails, it returns `x` or, exactly when the
estimate of `allocateFor` is beyond `maxLength`, throws. -/
theorem parseInt_unlimited {vm : VM P} (hvm : VM.Unlimited vm) :
    (allocateForLength P radix (digits radix (value x.digits)).length ≤ maxLength P →
      ∃ vm', parseInt (canonicalNumeral radix |x.toInt|) radix errorParseMode (matchingSign x) vm =
        .ok (some x, vm')) ∧
    (maxLength P < allocateForLength P radix (digits radix (value x.digits)).length →
      parseInt (P := P) (canonicalNumeral radix |x.toInt|) radix errorParseMode
        (matchingSign x) vm = .error (.outOfMemoryError (some tooBigMessage))) := by
  have hret := parseInt_returns hx hne h2 h36 errorParseMode
  constructor
  · intro hfit
    obtain ⟨r, vm', hr, -⟩ := hret.unlimited hfit hvm
    exact ⟨vm', hret.ok hr ▸ hr⟩
  · intro hbig
    have hlong : ¬ (digits radix (value x.digits)).length ≤ lengthLimitForBigInt32 radix :=
      fun h => (allocateForLength_le_of_short h2 h36 h).not_gt hbig
    rw [parseInt_eq hx hne h2 h36, if_neg hlong, allocateFor_eq h2 h36, if_neg (by omega)]
    rfl
end

/-! ## The round trip -/

/-- **The round trip through text.** Whatever `toString` returns is the canonical numeral and is
within the estimate of `calculateMaximumCharactersRequired`; `allocateFor` never allocates too
little; what `parseInt` returns for the digits of the magnitude is `x`; and if no allocation fails
it does return `x`, unless the estimate of `allocateFor` for that many characters is beyond
`maxLength`, in which case it throws. -/
theorem text_round_trip (x : JSBigInt P) (hx : x.Normalized) (h0 : x.toInt ≠ 0) (radix : ℕ)
    (h2 : 2 ≤ radix) (h36 : radix ≤ 36) (errorParseMode : ErrorParseMode) (vm : VM P)
    (s : List UChar) (vm' : VM P) (h : toString x radix vm = .ok (s, vm')) :
    s = canonicalNumeral radix x.toInt ∧ s.length ≤
      calculateMaximumCharactersRequired x.length radix (x.digit (x.length - 1)) x.sign ∧
    (∀ charcount vm1 c vm2, allocateFor (P := P) radix charcount vm1 = .ok (c, vm2) →
      ∀ n < radix ^ charcount, n < (2 ^ P.digitBits) ^ c.length) ∧
    (∀ vm1 r vm2, parseInt (canonicalNumeral radix |x.toInt|) radix errorParseMode
      (matchingSign x) vm1 = .ok (r, vm2) → r = some x) ∧
    (∀ vm1, VM.Unlimited vm1 →
      (allocateForLength P radix (canonicalNumeral radix |x.toInt|).length ≤ maxLength P →
        ∃ vm2, parseInt (canonicalNumeral radix |x.toInt|) radix errorParseMode (matchingSign x)
          vm1 = .ok (some x, vm2)) ∧
      (maxLength P < allocateForLength P radix (canonicalNumeral radix |x.toInt|).length →
        parseInt (P := P) (canonicalNumeral radix |x.toInt|) radix errorParseMode
          (matchingSign x) vm1 = .error (.outOfMemoryError (some tooBigMessage)))) := by
  have hne : x.digits ≠ [] := fun hnil => h0 (hx.toInt_eq_zero_iff.mpr hnil)
  have hs := toString_ok hx hne h2 h36 h
  have hlen : (canonicalNumeral radix |x.toInt|).length =
      (digits radix (value x.digits)).length := by
    rw [magnitude_eq, length_map, length_reverse]
  refine ⟨hs, ?_, ?_, ?_, ?_⟩
  · rw [hs, length_canonicalNumeral hx]
    exact length_digits_le hx hne h2 h36
  · intro charcount vm1 c vm2 hc n hn
    exact lt_of_lt_of_le hn ((allocateFor_returns charcount h2 h36).ok hc).2
  · intro vm1 r vm2 hr
    exact (parseInt_returns hx hne h2 h36 errorParseMode).ok hr
  · intro vm1 hvm1
    rw [hlen]
    exact parseInt_unlimited hx hne h2 h36 errorParseMode hvm1

/-- `-255` in hexadecimal, on a 64-bit platform. -/
theorem text_round_trip_hexadecimal :
    ∃ s vm', toString (P := arm64) ⟨true, [255]⟩ 16 VM.zeroed = .ok (s, vm') ∧
      s = "-ff".toList.map Char.toNat ∧
      ∃ vm2, parseInt (P := arm64) (canonicalNumeral 16 |(-255 : ℤ)|) 16
        .ThrowExceptions .Signed VM.zeroed = .ok (some ⟨true, [255]⟩, vm2) := by
  obtain ⟨s, vm', hs⟩ := toString_unlimited (P := arm64) (x := ⟨true, [255]⟩)
    (by decide) (show 2 ≤ 16 by decide) (by decide) VM.zeroed_unlimited
  obtain ⟨h1, -, -, -, h5⟩ := text_round_trip ⟨true, [255]⟩ (by decide)
    (by decide) 16 (by decide) (by decide) .ThrowExceptions VM.zeroed s vm' hs
  refine ⟨s, vm', hs, h1.trans (by decide), (h5 VM.zeroed VM.zeroed_unlimited).1 (by decide)⟩

/-! ## A BigInt that cannot be read back -/

theorem length_digits_pow (k : ℕ) : (digits 10 (10 ^ k)).length = k + 1 := by
  refine le_antisymm ?_ ?_
  · exact (digits_length_le_iff (by norm_num) _).mpr
      (Nat.pow_lt_pow_right (by norm_num) (lt_succ_self k))
  · exact (lt_digits_length_iff (by norm_num) _).mpr le_rfl

theorem pow_ten_lt {k m n : ℕ} (hm : m ≠ 0) (hk : k ≤ 31 * m) (hn : 103 * m ≤ 64 * n) :
    10 ^ k < (2 ^ 64) ^ n := by
  calc 10 ^ k ≤ 10 ^ (31 * m) := Nat.pow_le_pow_right (by norm_num) hk
    _ = (10 ^ 31) ^ m := pow_mul 10 31 m
    _ < (2 ^ 103) ^ m := Nat.pow_lt_pow_left (by norm_num) hm
    _ = 2 ^ (103 * m) := (pow_mul 2 103 m).symm
    _ ≤ 2 ^ (64 * n) := Nat.pow_le_pow_right (by norm_num) hn
    _ = (2 ^ 64) ^ n := pow_mul 2 64 n

/-- **Not every printed BigInt can be read back.** `10 ^ 313595` is a BigInt of at most `maxLength`
digits and is printed, but the parser rejects its numeral as too big. -/
theorem parseInt_power_of_ten_fails : ∃ x : JSBigInt arm64, x.Normalized ∧ x.toInt = 10 ^ 313595 ∧
      x.length ≤ maxLength arm64 ∧
      (∃ vm', toString x 10 VM.zeroed = .ok (canonicalNumeral 10 x.toInt, vm')) ∧
      parseInt (canonicalNumeral 10 |x.toInt|) 10 .ThrowExceptions (matchingSign x)
        (VM.zeroed : VM arm64) = .error (.outOfMemoryError (some tooBigMessage)) := by
  obtain ⟨k, hk⟩ : ∃ k, k = 313595 := ⟨_, rfl⟩
  rw [← hk]
  have hx := normalized_ofNat (P := arm64) (10 ^ k)
  have hval := value_ofNat (P := arm64) (10 ^ k)
  have hne : (ofNat arm64 (10 ^ k)).digits ≠ [] := fun h0 => by
    rw [h0, value_nil] at hval
    have : 0 < 10 ^ k := by positivity
    omega
  have hlen : (ofNat arm64 (10 ^ k)).length ≤ maxLength arm64 :=
    length_ofNat_le (pow_ten_lt (m := 10116) (by omega) (by omega) (by decide))
  obtain ⟨s, vm', hs⟩ := toString_unlimited hlen (show 2 ≤ 10 by norm_num) (by norm_num)
    VM.zeroed_unlimited
  refine ⟨ofNat arm64 (10 ^ k), hx, ?_, hlen, ⟨vm', ?_⟩, ?_⟩
  · rw [toInt_ofNat]
    rfl
  · rw [hs, toString_ok hx hne (by norm_num) (by norm_num) hs]
  · refine (parseInt_unlimited hx hne (by norm_num) (by norm_num) .ThrowExceptions
      VM.zeroed_unlimited).2 ?_
    rw [hval, length_digits_pow, hk]
    decide

end JscAndroid.BigInt.ParseInt
