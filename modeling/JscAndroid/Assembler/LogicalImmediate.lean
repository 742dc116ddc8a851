import Mathlib

/-!
# ARM64 logical immediates

`ARM64LogicalImmediate` encodes a constant of a logical instruction as the fields `immN:immr:imms`.
`findBitRange` flips all bits below the highest set one, twice at most, to recognise one run of ones
in an element; `create32` and `create64` retry with half the width while both halves agree.

The meaning of the fields is the architecture's `DecodeBitMasks`: `imms + 1` ones in an element,
rotated right by `immr` and replicated. Values are the unsigned integers of the source.
-/

namespace JscAndroid.Assembler.LogicalImmediate

open Nat

/-! ## The encoder -/

/-- Bits `hsb..0` set. -/
def mask (hsb : ℕ) : ℕ := 0xffffffffffffffff >>> (63 - hsb)

/-- One halving of the search, over the pair `(value, result)`. -/
def partialHSB (N : ℕ) (p : ℕ × ℕ) : ℕ × ℕ :=
  if p.1 &&& 0xffffffffffffffff <<< N % 2 ^ 64 ≠ 0 then (p.1 >>> N, p.2 + N) else p

def highestSetBit (value : ℕ) : ℕ :=
  (partialHSB 1 <| partialHSB 2 <| partialHSB 4 <| partialHSB 8 <| partialHSB 16 <|
    partialHSB 32 (value, 0)).2

structure BitRange where
  hsb : ℕ
  lsb : ℕ
  inverted : Bool

def findBitRange (width value : ℕ) : Option BitRange :=
  let inverted : Bool := value &&& 1 <<< (width - 1) ≠ 0
  let value := if inverted then value ^^^ mask (width - 1) else value
  let hsb := highestSetBit value
  let value := value ^^^ mask hsb
  if value = 0 then some ⟨hsb, 0, inverted⟩
  else
    let lsb := highestSetBit value
    -- `lsb` is the highest bit of a third range
    if value ^^^ mask lsb = 0 then some ⟨hsb, lsb + 1, inverted⟩ else none

def encodeLogicalImmediate (width : ℕ) (range : BitRange) : ℕ :=
  let immN := if width = 64 then 1 else 0
  -- `63 & ~(width + width - 1)`
  let imms := if width = 64 then 0 else 63 ^^^ (63 &&& (width + width - 1))
  let cleared := range.hsb - range.lsb + 1
  let immr := if range.inverted then width - 1 - range.hsb
    else (width - range.lsb) &&& (width - 1)
  immN <<< 12 ||| immr <<< 6 |||
    (imms ||| if range.inverted then width - cleared - 1 else range.hsb - range.lsb)

/-- One width of the search; `narrower` goes on with the low half where both halves agree. -/
def tryWidth (half value : ℕ) (narrower : ℕ → Option ℕ) : Option ℕ :=
  match findBitRange (half + half) value with
  | some range => some (encodeLogicalImmediate (half + half) range)
  | none =>
    if value &&& (2 ^ half - 1) ≠ value >>> half then none else narrower (value &&& (2 ^ half - 1))

/-- `none` is `InvalidLogicalImmediate`. -/
def create32 (value : ℕ) : Option ℕ :=
  if value = 0 ∨ value = 0xffffffff then none
  else tryWidth 16 value fun value => tryWidth 8 value fun value => tryWidth 4 value fun value =>
    tryWidth 2 value fun value => tryWidth 1 value fun _ => none

def create64 (value : ℕ) : Option ℕ :=
  if value = 0 ∨ value = 0xffffffffffffffff then none else tryWidth 32 value create32

/-! ## The architecture's decoder -/

/-- Rotation to the right within `esize` bits. -/
def ror (esize x r : ℕ) : ℕ := (x >>> r ||| x <<< (esize - r)) % 2 ^ esize

/-- `n` copies of an element of `esize` bits. -/
def replicate (esize elem : ℕ) : ℕ → ℕ
  | 0 => 0
  | n + 1 => elem + 2 ^ esize * replicate esize elem n

/-- The element size and the element that the fields stand for; reserved fields have none. -/
def decodeElement (immN immr imms : ℕ) : Option (ℕ × ℕ) :=
  let len := log2 (immN <<< 6 ||| 63 ^^^ imms)
  let levels := 2 ^ len - 1
  if len < 1 ∨ imms &&& levels = levels then none
  else some (2 ^ len, ror (2 ^ len) (2 ^ ((imms &&& levels) + 1) - 1) (immr &&& levels))

/-- **`DecodeBitMasks`** for a register of `M` bits. -/
def decodeBitMasks (M immN immr imms : ℕ) : Option ℕ :=
  match decodeElement immN immr imms with
  | some (esize, elem) => if M < esize then none else some (replicate esize elem (M / esize))
  | none => none

/-! ## The highest set bit -/

theorem mask_eq : ∀ hsb < 64, mask hsb = 2 ^ (hsb + 1) - 1 := by
  decide

theorem xor_mask {hsb value : ℕ} (h64 : hsb < 64) (hv : value < 2 ^ (hsb + 1)) :
    value ^^^ mask hsb = 2 ^ (hsb + 1) - 1 - value := by
  rw [mask_eq _ h64, Nat.sub_sub, add_comm 1]
  refine eq_of_testBit_eq fun i => ?_
  rw [testBit_two_pow_sub_succ hv]
  by_cases hi : i < hsb + 1
  · simp [hi]
  · simp [testBit_lt_two_pow (hv.trans_le (Nat.pow_le_pow_right two_pos (not_lt.mp hi)))]

theorem and_high_ne_zero {N value : ℕ} (hv : value < 2 ^ 64) :
    value &&& 0xffffffffffffffff <<< N % 2 ^ 64 ≠ 0 ↔ 2 ^ N ≤ value := by
  have hand : value &&& 0xffffffffffffffff <<< N % 2 ^ 64 = value / 2 ^ N * 2 ^ N := by
    rw [← shiftLeft_eq, ← shiftRight_eq_div_pow]
    refine eq_of_testBit_eq fun i => ?_
    rw [testBit_and, testBit_mod_two_pow, testBit_shiftLeft, testBit_shiftLeft, testBit_shiftRight,
      show 0xffffffffffffffff = 2 ^ 64 - 1 from rfl, testBit_two_pow_sub_one]
    by_cases hN : N ≤ i
    · rw [Nat.add_sub_cancel' hN]
      by_cases hi : i < 64
      · simp [hi, hN, show i - N < 64 by omega]
      · simp [testBit_lt_two_pow (hv.trans_le (Nat.pow_le_pow_right two_pos (not_lt.mp hi)))]
    · simp [hN]
  rw [hand]
  simp

/-- What is left of `value` after some halvings: its bits from `p.2` on, fewer than `bits`. -/
def Reduced (value bits : ℕ) (p : ℕ × ℕ) : Prop :=
  value >>> p.2 = p.1 ∧ 0 < p.1 ∧ p.1 < 2 ^ bits

theorem Reduced.partialHSB {value N : ℕ} {p : ℕ × ℕ} (hN : N ≤ 32)
    (h : Reduced value (N + N) p) : Reduced value N (partialHSB N p) := by
  obtain ⟨hp, h0, hlt⟩ := h
  have h64 : p.1 < 2 ^ 64 := hlt.trans_le (Nat.pow_le_pow_right two_pos (by omega))
  unfold LogicalImmediate.partialHSB
  split_ifs with hhigh
  · rw [and_high_ne_zero h64] at hhigh
    refine ⟨?_, ?_, ?_⟩
    · rw [shiftRight_add, hp]
    · rw [shiftRight_eq_div_pow]
      exact div_pos hhigh (Nat.two_pow_pos N)
    · rwa [shiftRight_eq_div_pow, div_lt_iff_lt_mul (Nat.two_pow_pos N), ← pow_add]
  · rw [and_high_ne_zero h64, not_le] at hhigh
    exact ⟨hp, h0, hhigh⟩

theorem highestSetBit_spec {value : ℕ} (h0 : 0 < value) (hv : value < 2 ^ 64) :
    2 ^ highestSetBit value ≤ value ∧ value < 2 ^ (highestSetBit value + 1) := by
  have h : Reduced value 64 (value, 0) := ⟨rfl, h0, hv⟩
  have h16 := ((h.partialHSB (N := 32) (by decide)).partialHSB (N := 16) (by decide))
  have h4 := (h16.partialHSB (N := 8) (by decide)).partialHSB (N := 4) (by decide)
  obtain ⟨heq, hpos, hlt⟩ := (h4.partialHSB (N := 2) (by decide)).partialHSB (N := 1) (by decide)
  have hone : value / 2 ^ highestSetBit value = 1 := by
    unfold highestSetBit
    omega
  have hd := Nat.two_pow_pos (highestSetBit value)
  rw [Nat.div_eq_iff hd] at hone
  omega

/-! ## One run of ones -/

/-- The ones `hsb..lsb` of an element, or its zeros. -/
def pattern (width : ℕ) (range : BitRange) : ℕ :=
  let ones := 2 ^ (range.hsb + 1) - 2 ^ range.lsb
  if range.inverted then 2 ^ width - 1 - ones else ones

theorem two_pow_lt_of_le_of_lt {a b v : ℕ} (ha : 2 ^ a ≤ v) (hb : v < 2 ^ b) : a < b :=
  (Nat.pow_lt_pow_iff_right one_lt_two).mp (ha.trans_lt hb)

/-- **What `findBitRange` finds**: the value is one run of ones, or of zeros, inside its width. -/
theorem findBitRange_run {width value : ℕ} {range : BitRange} (hw : width < 64)
    (h0 : 0 < value) (hlt : value < 2 ^ (width + 1) - 1)
    (h : findBitRange (width + 1) value = some range) :
    range.lsb ≤ range.hsb ∧ range.hsb < width ∧ value = pattern (width + 1) range := by
  -- after the first flip the top bit is clear
  have hflip : ∀ inverted : Bool, (inverted = true ↔ 2 ^ width ≤ value) → ∃ v,
      (if inverted then value ^^^ mask width else value) = v ∧ 0 < v ∧ v < 2 ^ width ∧
        value = if inverted then 2 ^ (width + 1) - 1 - v else v := by
    intro inverted hinv
    cases inverted with
    | true =>
      have := hinv.mp rfl
      refine ⟨_, if_pos rfl, ?_⟩
      rw [xor_mask hw (by omega), if_pos rfl]
      omega
    | false =>
      refine ⟨value, by simp, h0, ?_, by simp⟩
      simpa using hinv
  have htop : decide (value &&& 1 <<< width ≠ 0) = true ↔ 2 ^ width ≤ value := by
    have hbit : value / 2 ^ width < 2 := by
      rw [div_lt_iff_lt_mul (Nat.two_pow_pos width)]
      omega
    have hpos : value / 2 ^ width ≠ 0 ↔ 2 ^ width ≤ value := by
      simp
    rw [shiftLeft_eq, one_mul, and_two_pow, testBit_eq_decide_div_mod_eq, ← hpos]
    interval_cases value / 2 ^ width <;> simp
  obtain ⟨v, hv, hv0, hvlt, hvalue⟩ := hflip _ htop
  have h64 : v < 2 ^ 64 := hvlt.trans (Nat.pow_lt_pow_right one_lt_two hw)
  obtain ⟨hge, hlt₁⟩ := highestSetBit_spec hv0 h64
  have hhsb := two_pow_lt_of_le_of_lt hge hvlt
  simp only [findBitRange, add_tsub_cancel_right, hv, xor_mask (hhsb.trans hw) hlt₁] at h
  have hrun : ∀ lsb, v = 2 ^ (highestSetBit v + 1) - 2 ^ lsb →
      value = pattern (width + 1) ⟨highestSetBit v, lsb, decide (value &&& 1 <<< width ≠ 0)⟩ :=
    fun lsb hones => hvalue.trans (by simp only [pattern, ← hones])
  split_ifs at h with hz hz₂
  · cases h
    exact ⟨zero_le _, hhsb, hrun 0 (by omega)⟩
  · cases h
    obtain ⟨hge₂, hlt₂⟩ := highestSetBit_spec (pos_of_ne_zero hz) (by omega)
    have hlsb := two_pow_lt_of_le_of_lt hge₂ (b := highestSetBit v) (by omega)
    rw [xor_mask (by omega) hlt₂] at hz₂
    exact ⟨hlsb, hhsb, hrun _ (by omega)⟩

/-! ## Every element, checked

The runs of all widths are few: the fields of each are decoded, and each is put to the encoder. -/

def widths : List ℕ := [2, 4, 8, 16, 32, 64]

theorem decode_encodeLogicalImmediate : ∀ width ∈ widths, ∀ hsb < width - 1, ∀ lsb < hsb + 1,
    ∀ inverted, let e := encodeLogicalImmediate width ⟨hsb, lsb, inverted⟩
    e < 2 ^ 13 ∧ decodeElement (e >>> 12) (e >>> 6 % 64) (e % 64) =
      some (width, pattern width ⟨hsb, lsb, inverted⟩) := by
  decide +kernel

theorem create_ror : ∀ esize ∈ widths, ∀ s < esize - 1, ∀ r < esize,
    let elem := ror esize (2 ^ (s + 1) - 1) r
    (create64 (replicate esize elem (64 / esize))).isSome ∧
      (esize ≤ 32 → (create32 (replicate esize elem (32 / esize))).isSome) := by
  decide +kernel

theorem decodeElement_ror {immN immr imms esize elem : ℕ} (hN : immN < 2) (hs : imms < 64)
    (h : decodeElement immN immr imms = some (esize, elem)) :
    esize ∈ widths ∧ ∃ s < esize - 1, ∃ r < esize, elem = ror esize (2 ^ (s + 1) - 1) r := by
  unfold decodeElement at h
  set len := log2 (immN <<< 6 ||| 63 ^^^ imms) with hlen
  have hlt : len < 7 := by
    rw [hlen]
    rcases Nat.eq_zero_or_pos (immN <<< 6 ||| 63 ^^^ imms) with h0 | h0
    · rw [h0]
      decide
    · refine (log2_lt h0.ne').mpr (or_lt_two_pow ?_ ?_)
      · omega
      · exact xor_lt_two_pow (by decide) (by omega)
  dsimp only at h
  split_ifs at h with hc
  rw [not_or] at hc
  cases h
  refine ⟨?_, imms &&& (2 ^ len - 1), ?_, immr &&& (2 ^ len - 1), ?_, rfl⟩
  · have h1 := hc.1
    interval_cases len <;> decide
  · exact lt_of_le_of_ne and_le_right hc.2
  · have := Nat.two_pow_pos len
    exact lt_of_le_of_lt and_le_right (by omega)

/-! ## Every width -/

theorem replicate_pair (half elem n : ℕ) : replicate half elem (n + n) =
    replicate (half + half) (elem + 2 ^ half * elem) n := by
  induction n with
  | zero => rfl
  | succ n ih =>
    rw [show n + 1 + (n + 1) = n + n + 1 + 1 by omega, replicate, replicate, ih, replicate]
    ring

/-- The fields found for the low `width` bits `v` of a register of `M` bits decode to `v`,
repeated. -/
def Sound (M width v : ℕ) (result : Option ℕ) : Prop :=
  ∀ e ∈ result, e < 2 ^ 13 ∧ decodeBitMasks M (e >>> 12) (e >>> 6 % 64) (e % 64) =
    some (replicate width v (M / width))

/-- **One width**: a run of this width is encoded, and equal halves are left to the narrower
widths. -/
theorem sound_tryWidth {M half v n : ℕ} {narrower : ℕ → Option ℕ} (hw : half + half ∈ widths)
    (hM : M = (half + half) * (n + 1)) (h0 : 0 < v) (hlt : v < 2 ^ (half + half) - 1)
    (hn : ∀ low, 0 < low → low < 2 ^ half - 1 → Sound M half low (narrower low)) :
    Sound M (half + half) v (tryWidth half v narrower) := by
  obtain ⟨hhalf, h64⟩ := (by decide : ∀ w ∈ widths, 1 < w ∧ w ≤ 64) _ hw
  unfold tryWidth
  split
  case h_1 range hrange =>
    obtain ⟨k, hk⟩ : ∃ k, half + half = k + 1 := ⟨half + half - 1, by omega⟩
    rw [hk] at hlt hrange
    obtain ⟨hlsb, hhsb, hv⟩ := findBitRange_run (by omega) h0 hlt hrange
    rw [← hk] at hv
    obtain ⟨he, hdec⟩ := decode_encodeLogicalImmediate _ hw range.hsb (by omega) range.lsb
      (by omega) range.inverted
    rintro e ⟨⟩
    refine ⟨he, ?_⟩
    simp only [decodeBitMasks, hdec, hv]
    refine if_neg (not_lt.mpr ?_)
    rw [hM]
    exact Nat.le_mul_of_pos_right _ (by omega)
  case h_2 =>
    rw [and_two_pow_sub_one_eq_mod, shiftRight_eq_div_pow]
    split_ifs with heq
    · rintro e ⟨⟩
    · rw [not_not] at heq
      have hv := mod_add_div v (2 ^ half)
      rw [← heq] at hv
      set low := v % 2 ^ half
      have hpos : 0 < low := by
        rcases Nat.eq_zero_or_pos low with hz | hz
        · rw [hz] at hv
          omega
        · exact hz
      have hlast : low < 2 ^ half - 1 := by
        by_contra hge
        have hfull : 2 ^ half = low + 1 := by omega
        have hsq := Nat.mul_add_one (low + 1) low
        rw [hfull] at hv
        rw [pow_add, hfull] at hlt
        omega
      intro e he
      obtain ⟨h13, hdec⟩ := hn low hpos hlast e he
      refine ⟨h13, ?_⟩
      rw [hdec, ← hv, hM, Nat.mul_div_cancel_left _ (by omega), ← replicate_pair, ← two_mul,
        mul_comm 2, mul_assoc, Nat.mul_div_cancel_left _ (by omega), two_mul]

theorem sound_create32 {M n v : ℕ} (hM : M = 32 * (n + 1)) (hv : v < 2 ^ 32) :
    Sound M 32 v (create32 v) := by
  unfold create32
  split_ifs with hends
  · rintro e ⟨⟩
  refine sound_tryWidth (by decide) hM (by omega) (by omega) fun v h0 hlt => ?_
  refine sound_tryWidth (n := 2 * n + 1) (by decide) (by omega) h0 hlt fun v h0 hlt => ?_
  refine sound_tryWidth (n := 4 * n + 3) (by decide) (by omega) h0 hlt fun v h0 hlt => ?_
  refine sound_tryWidth (n := 8 * n + 7) (by decide) (by omega) h0 hlt fun v h0 hlt => ?_
  refine sound_tryWidth (n := 16 * n + 15) (by decide) (by omega) h0 hlt fun v h0 hlt => ?_
  omega

theorem sound_create64 {v : ℕ} (hv : v < 2 ^ 64) : Sound 64 64 v (create64 v) := by
  unfold create64
  split_ifs with hends
  · rintro e ⟨⟩
  exact sound_tryWidth (n := 0) (by decide) rfl (by omega) (by omega) fun v _ hlt =>
    sound_create32 (n := 1) rfl (by omega)

/-- The encoder is **exact** at `v`: it has a result if and only if some fields decode to `v`, and
the fields of the result do. -/
def Encodes (M v : ℕ) (result : Option ℕ) : Prop :=
  (result.isSome ↔
    ∃ immN < 2, ∃ immr < 64, ∃ imms < 64, decodeBitMasks M immN immr imms = some v) ∧
  ∀ e ∈ result, e < 2 ^ 13 ∧ decodeBitMasks M (e >>> 12) (e >>> 6 % 64) (e % 64) = some v

theorem encodes_of_sound {M v : ℕ} {create : ℕ → Option ℕ} (hM : 0 < M)
    (hcomplete : ∀ esize ∈ widths, esize ≤ M → ∀ s < esize - 1, ∀ r < esize,
      (create (replicate esize (ror esize (2 ^ (s + 1) - 1) r) (M / esize))).isSome)
    (h : Sound M M v (create v)) : Encodes M v (create v) := by
  rw [Sound, Nat.div_self hM] at h
  refine ⟨⟨fun hsome => ?_, ?_⟩, h⟩
  · obtain ⟨e, he⟩ := Option.isSome_iff_exists.mp hsome
    obtain ⟨h13, hdec⟩ := h e he
    refine ⟨_, ?_, _, mod_lt _ (by decide), _, mod_lt _ (by decide), hdec⟩
    omega
  · rintro ⟨immN, hN, immr, -, imms, hs, hdec⟩
    unfold decodeBitMasks at hdec
    split at hdec
    case h_1 esize elem hel =>
      obtain ⟨he, s, hs, r, hr, rfl⟩ := decodeElement_ror hN hs hel
      split_ifs at hdec with hle
      cases hdec
      exact hcomplete esize he (not_lt.mp hle) s hs r hr
    case h_2 => cases hdec

/-- **Logical immediates are encoded exactly**, for every 64-bit value and, through `create32`,
every 32-bit one. -/
theorem create_exact : (∀ v : BitVec 64, Encodes 64 v.toNat (create64 v.toNat)) ∧
    ∀ v : BitVec 32, Encodes 32 v.toNat (create32 v.toNat) := by
  constructor
  · intro v
    exact encodes_of_sound (by decide) (fun e he _ s hs r hr => (create_ror e he s hs r hr).1)
      (sound_create64 v.isLt)
  · intro v
    exact encodes_of_sound (by decide) (fun e he hle s hs r hr => (create_ror e he s hs r hr).2 hle)
      (sound_create32 (n := 0) rfl v.isLt)

end JscAndroid.Assembler.LogicalImmediate
