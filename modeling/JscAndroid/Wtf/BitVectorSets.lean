import JscAndroid.Arith.Limbs
import JscAndroid.Arith.WordSets
import JscAndroid.Wtf.BitVectors

/-!
# Bit vectors as sets

What each function of `BitVector` does to the set of naturals that the vector holds, and that the
queries are about this set.
-/

namespace JscAndroid.Wtf.BitVectorSets

open Arith BitVectors List Option Nat Bool
open Limbs (overwrite overwrite_all overwrite_append overwrite_nil overwrite_set length_overwrite)

variable {v : BitVector} {i count bit : ℕ} {a : List Word} {block : OutOfLineBits}

/-- The words of a vector without the tag of an inline word. -/
def cleansed : BitVector → List Word
  | .inlineBits bitsOrPointer _ => [cleanseInlineBits bitsOrPointer]
  | .outOfLine block => block.bits

/-- Is `i` an element? -/
def has (v : BitVector) (i : ℕ) : Bool := WordSets.bit (cleansed v) i

/-- **The set** a vector holds. -/
def elementsOf (v : BitVector) : Finset ℕ := WordSets.elements (cleansed v)

theorem mem_elementsOf : i ∈ elementsOf v ↔ has v i = true :=
  WordSets.mem_elements

/-! ## Words -/

theorem getLsbD_inlineTag (i : ℕ) : inlineTag.getLsbD i = decide (i = 63) := by
  rw [inlineTag, show maxInlineBits = 63 by rfl, BitVec.getLsbD_shiftLeft, BitVec.getLsbD_one,
    Bool.eq_iff_iff]
  simp only [and_eq_true, decide_eq_true_eq,
    not_eq_true', decide_eq_false_iff_not]
  omega

theorem getLsbD_cleanseInlineBits (word : Word) (i : ℕ) :
    (cleanseInlineBits word).getLsbD i = (decide (i < 63) && word.getLsbD i) := by
  rw [cleanseInlineBits, BitVec.getLsbD_and, BitVec.getLsbD_not, getLsbD_inlineTag]
  rcases lt_trichotomy i 63 with h | h | h
  · have : i < 64 := by omega
    have : i ≠ 63 := by omega
    simp [*]
  · simp [h]
  · have : 64 ≤ i := by omega
    simp [BitVec.getLsbD_of_ge _ _ this]

theorem getLsbD_bitMask (bit i : ℕ) : (bitMask bit).getLsbD i = decide (i = bit % 64) := by
  have hmod : bit &&& 63 = bit % 64 := and_two_pow_sub_one_eq_mod bit 6
  rw [bitMask, BitVec.getLsbD_shiftLeft, BitVec.getLsbD_one, Bool.eq_iff_iff]
  simp only [bitsInPointer, and_eq_true, decide_eq_true_eq, not_eq_true', decide_eq_false_iff_not,
    hmod]
  omega

theorem and_bitMask_ne_zero (word : Word) (bit : ℕ) :
    ((word &&& bitMask bit) != 0) = word.getLsbD (bit % 64) := by
  have hlt : bit % 64 < 64 := mod_lt _ (by decide)
  rw [Bool.eq_iff_iff, bne_iff_ne, Ne, BitVec.eq_of_getLsbD_eq_iff]
  constructor
  · intro h
    by_contra hbit
    refine h fun i hi => ?_
    rw [BitVec.getLsbD_and, getLsbD_bitMask]
    by_cases hi' : i = bit % 64
    · subst hi'
      simp [eq_false_iff.mpr hbit]
    · simp [hi']
  · intro h hzero
    have := hzero (bit % 64) hlt
    rw [BitVec.getLsbD_and, getLsbD_bitMask, h] at this
    simp at this

/-! ## The elements of a vector -/

theorem has_inlineBits (word : Word) (h : word.msb = true) (i : ℕ) :
    has (.inlineBits word h) i = (decide (i < 63) && word.getLsbD i) := by
  rw [has, cleansed, WordSets.bit_cons (by decide), getLsbD_cleanseInlineBits]
  split_ifs with hi
  · rfl
  · have : ¬ i < 63 := by omega
    simp [this, WordSets.bit]

theorem has_outOfLine (block : OutOfLineBits) (i : ℕ) :
    has (.outOfLine block) i = WordSets.bit block.bits i := rfl

theorem size_inlineBits (word : Word) (h : word.msb = true) :
    (BitVector.inlineBits word h).size = 63 := rfl

theorem size_outOfLine (block : OutOfLineBits) :
    (BitVector.outOfLine block).size = 64 * block.bits.length := rfl

theorem has_of_size_le (h : v.size ≤ i) : has v i = false := by
  cases v with
  | inlineBits word htag =>
    have : ¬ i < 63 := not_lt.mpr h
    simp [has_inlineBits, this]
  | outOfLine block => exact WordSets.bit_of_le h

theorem lt_size_of_has (h : has v i = true) : i < v.size := by
  by_contra hle
  rw [has_of_size_le (not_lt.mp hle)] at h
  cases h

theorem has_ofInlineBits (word : Word) (htag : word.msb = true) :
    ∃ v, ofInlineBits word = some v ∧ v.size = 63 ∧
      ∀ i, has v i = (decide (i < 63) && word.getLsbD i) :=
  ⟨.inlineBits word htag, by unfold ofInlineBits; rw [dif_pos htag], rfl, has_inlineBits word htag⟩

theorem msb_or_inlineTag (word : Word) : (word ||| inlineTag).msb = true := by
  simp [show inlineTag.msb = true by decide]

/-! ## Loops over words -/

theorem writeWord_of_lt {bits : List Word} {index : ℕ} (h : index < bits.length) (word : Word) :
    writeWord bits index word = some (bits.set index word) := if_pos h

section
variable (op : Word → Word → Word)

theorem combineWords_spec {b : List Word} (ha : count ≤ a.length) (hb : count ≤ b.length) :
    ∃ c, combineWords op b count a = some c ∧ c.length = a.length ∧
      ∀ k, c.getD k 0 = if k < count then op (a.getD k 0) (b.getD k 0) else a.getD k 0 := by
  induction count generalizing a with
  | zero => exact ⟨a, rfl, rfl, fun k => (if_neg (not_lt_zero k)).symm⟩
  | succ i ih =>
    have hai : i < a.length := by omega
    have hbi : i < b.length := by omega
    obtain ⟨c, hc, hlength, hget⟩ := ih (a := a.set i (op a[i] b[i])) (by simp; omega) (by omega)
    refine ⟨c, ?_, by simpa using hlength, fun k => ?_⟩
    · simp only [combineWords, getElem?_eq_getElem hai, getElem?_eq_getElem hbi,
        writeWord_of_lt hai]
      exact hc
    · rw [hget]
      rcases lt_trichotomy k i with h | rfl | h
      · simp [h, h.ne', lt_succ_of_lt h]
      · simp [hai, hbi]
      · have : ¬ k < i := by omega
        simp [*, h.ne]

/-- The first round reads behind the end of a list that is too short. -/
theorem combineWords_none {b : List Word} (ha : count ≤ a.length) (hb : b.length < count) :
    combineWords op b count a = none := by
  obtain ⟨i, rfl⟩ : ∃ i, count = i + 1 := ⟨count - 1, by omega⟩
  rw [combineWords, getElem?_eq_getElem (by omega : i < a.length),
    getElem?_eq_none (by omega : b.length ≤ i)]
  rfl

theorem zeroWords_spec (fuel : ℕ) {numWords : ℕ} (hlength : a.length = numWords)
    (hsmall : numWords < 2 ^ 32) (hfuel : numWords ≤ i + fuel) :
    ∃ c, zeroWords numWords fuel i a = some c ∧ c.length = a.length ∧
      ∀ k, c.getD k 0 = if k < i then a.getD k 0 else 0 := by
  induction fuel generalizing i a with
  | zero =>
    refine ⟨a, ?_, rfl, fun k => ?_⟩
    · rw [zeroWords, if_neg (by omega)]
    · split_ifs with hk
      · rfl
      · exact getD_eq_default _ _ (by omega)
  | succ fuel ih =>
    unfold zeroWords
    by_cases hi : i < numWords
    · have hnext : toUnsigned (i + 1) = i + 1 := mod_eq_of_lt (by omega)
      obtain ⟨c, hc, hc', hget⟩ := ih (i := i + 1) (a := a.set i 0)
        (by simpa using hlength) (by omega)
      refine ⟨c, ?_, by simpa using hc', fun k => ?_⟩
      · rwa [if_pos hi, hnext, writeWord_of_lt (by omega)]
      · rw [hget]
        rcases lt_trichotomy k i with h | rfl | h
        · simp [h, h.ne', lt_succ_of_lt h]
        · simp [hlength, hi]
        · have : ¬ k < i := by omega
          simp [*]
    · refine ⟨a, if_neg hi, rfl, fun k => ?_⟩
      split_ifs with hk
      · rfl
      · exact getD_eq_default _ _ (by omega)
end

/-! ## Resizing -/

/-- The least number of bits in whole words that is not below `n`. -/
def roundUp (n : ℕ) : ℕ := 64 * ((n + 63) / 64)

theorem le_roundUp (n : ℕ) : n ≤ roundUp n := by
  unfold roundUp
  omega

theorem numWords_eq (h : block.numBits < 2 ^ 63) : block.numWords = block.bits.length := by
  unfold OutOfLineBits.numBits bitsInPointer at h
  unfold OutOfLineBits.numWords OutOfLineBits.numBits bitsInPointer toSize
  omega

theorem clearWords_eq {start : ℕ} (h : start + count ≤ a.length) :
    clearWords a start count = some (overwrite a start (List.replicate count 0)) := by
  rw [clearWords, if_pos h, overwrite, length_replicate]

theorem copyWords_eq {start : ℕ} {source : List Word} (h : start + source.length ≤ a.length) :
    copyWords a start source source.length = some (overwrite a start source) := by
  rw [copyWords, if_pos ⟨le_rfl, h⟩, take_length, overwrite]

theorem copyWords_all {source : List Word} (h : a.length = source.length) :
    copyWords a 0 source source.length = some source := by
  rw [copyWords_eq (by omega), overwrite_all h]

theorem length_create (fresh : ℕ → Word) {numBits : ℕ} (h : numBits < 2 ^ 62) :
    (create fresh numBits).bits.length = (numBits + 63) / 64 := by
  simp only [create, toSize, bitsInPointer, length_map, length_range]
  omega

/-- The words are put behind some zeros, and the rest is cleared. -/
theorem fill_blocks (words : List Word) {put : List Word → Option (List Word)} {shiftInWords : ℕ}
    (hlength : a.length = count) (hroom : shiftInWords + words.length ≤ count)
    (hput : ∀ b : List Word, b.length = count → put b = some (overwrite b shiftInWords words)) :
    (do
      let bits ← clearWords a 0 shiftInWords
      let bits ← put bits
      releaseAssert (shiftInWords + words.length ≤ count)
      let bits ← clearWords bits (shiftInWords + words.length) (count - words.length - shiftInWords)
      return BitVector.outOfLine ⟨bits⟩) = some (.outOfLine ⟨List.replicate shiftInWords 0 ++
        (words ++ List.replicate (count - words.length - shiftInWords) 0)⟩) := by
  obtain ⟨zeros, hzeros⟩ : ∃ zeros, zeros = replicate shiftInWords (0 : Word) := ⟨_, rfl⟩
  have hshift : shiftInWords = 0 + zeros.length := by simp [hzeros]
  have hfirst : (overwrite a 0 zeros).length = a.length := length_overwrite (by omega)
  have hsecond : overwrite (overwrite a 0 zeros) shiftInWords words =
      overwrite a 0 (zeros ++ words) := by
    rw [hshift, overwrite_append (by omega)]
  have hlast : shiftInWords + words.length = 0 + (zeros ++ words).length := by
    rw [length_append]
    omega
  have hlength' : (overwrite a 0 (zeros ++ words)).length = a.length := length_overwrite (by omega)
  rw [clearWords_eq (by omega), ← hzeros]
  simp only [bind_eq_bind, bind_some, hput _ (hfirst.trans hlength), hsecond, hroom]
  rw [clearWords_eq (by omega), hlast, overwrite_append (by omega), append_assoc,
    overwrite_all (by simp; omega)]
  rfl

/-- **Resizing** puts zeros before the words and behind them. -/
theorem resizeOutOfLine_eq (fresh : ℕ → Word) {numBits shiftInWords : ℕ} (hsmall : numBits < 2 ^ 62)
    (hroom : shiftInWords + (cleansed v).length ≤ (numBits + 63) / 64)
    (hgrow : v.size < numBits ∨ shiftInWords = 0 ∧ v.size = numBits) :
    v.resizeOutOfLine fresh numBits shiftInWords =
      some (.outOfLine ⟨List.replicate shiftInWords 0 ++ (cleansed v ++
        List.replicate ((numBits + 63) / 64 - (cleansed v).length - shiftInWords) 0)⟩) := by
  have hlength := length_create fresh hsmall
  have hnumWords : (create fresh numBits).numWords = (numBits + 63) / 64 := by
    rw [numWords_eq, hlength]
    unfold OutOfLineBits.numBits bitsInPointer
    omega
  simp only [BitVector.resizeOutOfLine, hnumWords]
  cases v with
  | inlineBits word htag =>
    refine fill_blocks [cleanseInlineBits word] hlength hroom fun b hb => ?_
    have hlt : shiftInWords < b.length := hb ▸ hroom
    rw [writeWord_of_lt hlt, ← overwrite_set hlt, overwrite_nil]
  | outOfLine block =>
    have hold : block.numWords = block.bits.length := numWords_eq (by
      change (BitVector.outOfLine block).size < 2 ^ 63
      omega)
    rcases hgrow with hgrow | ⟨rfl, hsame⟩
    · have hgrow' : block.numBits < numBits := hgrow
      simp only [hgrow', hold]
      exact fill_blocks block.bits hlength hroom fun b hb => copyWords_eq (hroom.trans_eq hb.symm)
    · have hwords : (numBits + 63) / 64 = block.bits.length := by
        change 64 * block.bits.length = numBits at hsame
        omega
      have hgrow' : ¬ block.numBits < numBits := hsame.not_lt
      rw [hwords] at hlength ⊢
      simp only [hgrow', copyWords_all hlength, cleansed]
      simp

theorem has_append_zeros (front back : ℕ) (v : BitVector) (i : ℕ) :
    has (.outOfLine ⟨List.replicate front 0 ++ (cleansed v ++ List.replicate back 0)⟩) i =
      (decide (64 * front ≤ i) && has v (i - 64 * front)) := by
  rw [has_outOfLine, WordSets.bit_zeros_append (by decide), WordSets.bit_append_zeros, mul_comm]
  rfl

theorem length_cleansed (v : BitVector) : (cleansed v).length = (v.size + 63) / 64 := by
  cases v with
  | inlineBits word htag =>
    rw [size_inlineBits]
    rfl
  | outOfLine block =>
    rw [size_outOfLine]
    change block.bits.length = _
    omega

theorem ensureSize_spec (fresh : ℕ → Word) (v : BitVector) (numBits : ℕ) (h : numBits < 2 ^ 62) :
    ∃ v', v.ensureSize fresh numBits = some v' ∧
      v'.size = (if numBits ≤ v.size then v.size else roundUp numBits) ∧
      ∀ i, has v' i = has v i := by
  unfold BitVector.ensureSize
  have hlength := length_cleansed v
  split_ifs with hle
  · exact ⟨v, rfl, rfl, fun i => rfl⟩
  · refine ⟨_, resizeOutOfLine_eq fresh h (by omega) (.inl (by omega)), ?_, fun i => ?_⟩
    · rw [size_outOfLine, roundUp]
      simp
      omega
    · rw [has_append_zeros]
      simp

/-- `shiftRightByMultipleOf64` adds its amount to every element. -/
theorem shiftRightByMultipleOf64_spec (fresh : ℕ → Word) {amount : ℕ} (hmul : amount % 64 = 0)
    (hsmall : v.size + amount < 2 ^ 62) : ∃ v', v.shiftRightByMultipleOf64 fresh amount = some v' ∧
      v'.size = roundUp (v.size + amount) ∧
      ∀ i, has v' i = (decide (amount ≤ i) && has v (i - amount)) := by
  have hlength := length_cleansed v
  have hsize : toSize (v.size + amount) = v.size + amount := mod_eq_of_lt (by omega)
  have hamount : 64 * (amount / 64) = amount := by omega
  rw [BitVector.shiftRightByMultipleOf64, releaseAssert, if_pos (decide_eq_true hmul), hsize]
  refine ⟨_, resizeOutOfLine_eq fresh hsmall (by omega) (by omega), ?_, fun i => ?_⟩
  · rw [size_outOfLine, roundUp]
    simp
    omega
  · rw [has_append_zeros, hamount]

theorem assign_spec (fresh : ℕ → Word) {other : BitVector} (h : other.size < 2 ^ 62) :
    ∃ v', assign fresh other = some v' ∧ v'.size = other.size ∧ ∀ i, has v' i = has other i := by
  cases other with
  | inlineBits word htag =>
    obtain ⟨v', hv', hsize, hhas⟩ := has_ofInlineBits word htag
    exact ⟨v', hv', hsize, fun i => by rw [hhas, has_inlineBits]⟩
  | outOfLine block =>
    have hsmall : block.numBits < 2 ^ 62 := h
    have hlength : (create fresh block.numBits).bits.length = block.bits.length := by
      rw [length_create fresh hsmall]
      unfold OutOfLineBits.numBits bitsInPointer
      omega
    have hbytes : (block.numBits + 7) / 8 / 8 = block.bits.length := by
      unfold OutOfLineBits.numBits bitsInPointer
      omega
    refine ⟨.outOfLine block, ?_, rfl, fun i => rfl⟩
    simp only [assign, hbytes, copyWords_all hlength]
    rfl

/-! ## Single bits -/

/-- The word with a bit can be read, and written if no other bit of it changes. -/
theorem write_spec (h : bit < v.size) :
    ∃ word, v.bits[bit / bitsInPointer]? = some word ∧ word.getLsbD (bit % 64) = has v bit ∧
      ∀ (word' : Word) (value : Bool),
        (∀ j < 64, word'.getLsbD j = if j = bit % 64 then value else word.getLsbD j) →
        ∃ v', v.write (bit / bitsInPointer) word' = some v' ∧ v'.size = v.size ∧
          ∀ i, has v' i = if i = bit then value else has v i := by
  unfold bitsInPointer
  cases v with
  | inlineBits word htag =>
    rw [size_inlineBits] at h
    have hdiv : bit / 64 = 0 := by omega
    have hmod : bit % 64 = bit := by omega
    refine ⟨word, by rw [hdiv]; rfl, ?_, fun word' value hword' => ?_⟩
    · rw [has_inlineBits, hmod]
      simp [h]
    · have htag' : word'.msb = true := by
        rw [BitVec.msb_eq_getLsbD_last] at htag ⊢
        rwa [hword' _ (by decide), if_neg (by omega)]
      obtain ⟨v', hv', hsize, hhas⟩ := has_ofInlineBits word' htag'
      refine ⟨v', by rw [hdiv]; exact hv', hsize, fun i => ?_⟩
      rw [hhas, has_inlineBits]
      rcases lt_or_ge i 63 with hi | hi
      · rw [hword' i (by omega), hmod]
        split_ifs <;> simp [hi]
      · have hi' : ¬ i < 63 := by omega
        rw [if_neg (by omega)]
        simp [hi']
  | outOfLine block =>
    rw [size_outOfLine] at h
    have hlt : bit / 64 < block.bits.length := by omega
    refine ⟨block.bits[bit / 64], getElem?_eq_getElem hlt, ?_, fun word' value hword' => ?_⟩
    · rw [has_outOfLine, WordSets.bit, getD_eq_getElem _ _ hlt]
    · refine ⟨.outOfLine ⟨block.bits.set (bit / 64) word'⟩, ?_, ?_, fun i => ?_⟩
      · change (writeWord block.bits (bit / 64) word').map _ = _
        rw [writeWord_of_lt hlt]
        rfl
      · rw [size_outOfLine, size_outOfLine, length_set]
      · rw [has_outOfLine, has_outOfLine, WordSets.bit_set hlt]
        have himod : i % 64 < 64 := mod_lt _ (by decide)
        split_ifs with hdiv hi hi
        · rw [hword' _ himod, if_pos (by rw [hi])]
        · rw [hword' _ himod, if_neg (by omega), WordSets.bit, hdiv, getD_eq_getElem _ _ hlt]
        · exact absurd (by rw [hi]) hdiv
        · rfl

theorem quickGet_eq (h : bit < v.size) : v.quickGet bit = some (has v bit) := by
  obtain ⟨word, hword, hbit, -⟩ := write_spec h
  rw [BitVector.quickGet, hword]
  simp only [bind_eq_bind, bind_some, and_bitMask_ne_zero, hbit]
  rfl

theorem get_eq (v : BitVector) (bit : ℕ) : v.get bit = some (has v bit) := by
  unfold BitVector.get
  split_ifs with h
  · rw [has_of_size_le h]
  · exact quickGet_eq (not_le.mp h)

theorem quickSet_spec (h : bit < v.size) :
    ∃ v', v.quickSet bit = some (has v bit, v') ∧ v'.size = v.size ∧
      ∀ i, has v' i = if i = bit then true else has v i := by
  obtain ⟨word, hword, hbit, hwrite⟩ := write_spec h
  obtain ⟨v', hv', hsize, hhas⟩ := hwrite (word ||| bitMask bit) true fun j hj => by
    rw [BitVec.getLsbD_or, getLsbD_bitMask]
    split_ifs with hj' <;> simp [hj']
  refine ⟨v', ?_, hsize, hhas⟩
  rw [BitVector.quickSet, hword]
  simp only [bind_eq_bind, bind_some, hv', and_bitMask_ne_zero, hbit]
  rfl

theorem quickClear_spec (h : bit < v.size) :
    ∃ v', v.quickClear bit = some (has v bit, v') ∧ v'.size = v.size ∧
      ∀ i, has v' i = if i = bit then false else has v i := by
  obtain ⟨word, hword, hbit, hwrite⟩ := write_spec h
  obtain ⟨v', hv', hsize, hhas⟩ := hwrite (word &&& ~~~bitMask bit) false fun j hj => by
    rw [BitVec.getLsbD_and, BitVec.getLsbD_not, getLsbD_bitMask]
    split_ifs with hj' <;> simp [hj', hj]
  refine ⟨v', ?_, hsize, hhas⟩
  rw [BitVector.quickClear, hword]
  simp only [bind_eq_bind, bind_some, hv', and_bitMask_ne_zero, hbit]
  rfl

theorem set_spec (fresh : ℕ → Word) (v : BitVector) (h : bit < 2 ^ 61) :
    ∃ v', v.set fresh bit = some (has v bit, v') ∧
      v'.size = (if bit + 1 ≤ v.size then v.size else roundUp (bit + 1)) ∧
      ∀ i, has v' i = if i = bit then true else has v i := by
  have hsize : toSize (bit + 1) = bit + 1 := mod_eq_of_lt (by omega)
  obtain ⟨v₁, hv₁, hsize₁, hhas₁⟩ := ensureSize_spec fresh v (bit + 1) (by omega)
  have hlt : bit < v₁.size := by
    have := le_roundUp (bit + 1)
    rw [hsize₁]
    split_ifs <;> omega
  obtain ⟨v', hv', hsize', hhas'⟩ := quickSet_spec hlt
  refine ⟨v', ?_, hsize'.trans hsize₁, fun i => by rw [hhas', hhas₁]⟩
  rw [BitVector.set, hsize, hv₁]
  simp only [bind_eq_bind, bind_some, hv', hhas₁]

theorem clear_spec (v : BitVector) (bit : ℕ) :
    ∃ v', v.clear bit = some (has v bit, v') ∧ v'.size = v.size ∧
      ∀ i, has v' i = if i = bit then false else has v i := by
  unfold BitVector.clear
  split_ifs with h
  · refine ⟨v, by rw [has_of_size_le h], rfl, fun i => ?_⟩
    split_ifs with hi
    · rw [hi, has_of_size_le h]
    · rfl
  · exact quickClear_spec (not_le.mp h)

/-! ## Two vectors -/

theorem has_inline_of_le {word : Word} {h : word.msb = true} (hi : 63 ≤ i) :
    has (.inlineBits word h) i = false := has_of_size_le hi

theorem pos_block (h : 0 < (BitVector.outOfLine block).size) : 0 < block.bits.length := by
  rw [size_outOfLine] at h
  omega

theorem toUnsigned_numWords (h : (BitVector.outOfLine block).size < 2 ^ 32) :
    toUnsigned block.numWords = block.bits.length ∧ block.numWords = block.bits.length := by
  rw [size_outOfLine] at h
  have hwords : block.numWords = block.bits.length := numWords_eq (by
    change 64 * block.bits.length < 2 ^ 63
    omega)
  exact ⟨by rw [hwords]; exact mod_eq_of_lt (by omega), hwords⟩

/-- The operation on words that does `f` to their bits. -/
def Bitwise (op : Word → Word → Word) (f : Bool → Bool → Bool) : Prop :=
  ∀ x y : Word, ∀ j < 64, (op x y).getLsbD j = f (x.getLsbD j) (y.getLsbD j)

theorem bitwise_or : Bitwise (· ||| ·) (· || ·) := fun _ _ _ _ => BitVec.getLsbD_or

theorem bitwise_and : Bitwise (· &&& ·) (· && ·) := fun _ _ _ _ => BitVec.getLsbD_and

theorem bitwise_and_not : Bitwise (fun x y => x &&& ~~~y) (fun p q => p && !q) := by
  intro x y j hj
  simp [hj]

section
variable {op : Word → Word → Word} {f : Bool → Bool → Bool} (hop : Bitwise op f)
include hop

/-- The words of two blocks combined bit by bit, as far as the loop goes. -/
theorem has_of_getD {b c : List Word}
    (hc : ∀ k, c.getD k 0 = if k < count then op (a.getD k 0) (b.getD k 0) else a.getD k
      0) (i : ℕ) :
    WordSets.bit c i =
      if i < 64 * count then f (WordSets.bit a i) (WordSets.bit b i) else WordSets.bit a i := by
  have himod : i % 64 < 64 := mod_lt _ (by decide)
  rw [WordSets.bit, hc]
  simp only [div_lt_iff_lt_mul (show 0 < 64 by decide), mul_comm count]
  split_ifs
  · exact hop _ _ _ himod
  · rfl

theorem firstWord_spec (hblock : 0 < block.bits.length) (b : Word) (hb : b.msb = true) :
    ∃ v', (do
        let word ← block.bits[0]?
        let bits ← writeWord block.bits 0 (op word (cleanseInlineBits b))
        return BitVector.outOfLine ⟨bits⟩) = some v' ∧ v'.size = (BitVector.outOfLine block).size ∧
      ∀ i, has v' i = if i < 64 then f (has (.outOfLine block) i) (has (.inlineBits b hb) i)
        else has (.outOfLine block) i := by
  simp only [getElem?_eq_getElem hblock, writeWord_of_lt hblock]
  refine ⟨_, rfl, ?_, fun i => ?_⟩
  · rw [size_outOfLine, size_outOfLine, length_set]
  rw [has_outOfLine, WordSets.bit_set hblock]
  have hiff : i / 64 = 0 ↔ i < 64 := by omega
  simp only [hiff]
  split_ifs with h
  · have hmod : i % 64 = i := by omega
    rw [hop _ _ _ (mod_lt _ (by decide)), has_outOfLine, has_inlineBits, WordSets.bit, hiff.mpr h,
      hmod, getLsbD_cleanseInlineBits, getD_eq_getElem _ _ hblock]
  · rfl

theorem inline_firstWord_spec (hf : ∀ q, f false q = false) (hblock : 0 < block.bits.length)
    (a : Word) (ha : a.msb = true) :
    ∃ v', (do
        let word ← block.bits[0]?
        ofInlineBits (op a word ||| inlineTag)) = some v' ∧ v'.size = 63 ∧
      ∀ i, has v' i = f (has (.inlineBits a ha) i) (has (.outOfLine block) i) := by
  rw [getElem?_eq_getElem hblock]
  obtain ⟨v', hv', hsize, hhas⟩ := has_ofInlineBits _ (msb_or_inlineTag (op a block.bits[0]))
  refine ⟨v', hv', hsize, fun i => ?_⟩
  rw [hhas]
  by_cases hi : i < 63
  · have hdiv : i / 64 = 0 := by omega
    have hmod : i % 64 = i := by omega
    have hne : i ≠ 63 := by omega
    rw [BitVec.getLsbD_or, getLsbD_inlineTag, hop _ _ _ (by omega), has_inlineBits, has_outOfLine,
      WordSets.bit, hdiv, hmod, getD_eq_getElem _ _ hblock]
    simp [hi, hne]
  · rw [has_inline_of_le (not_lt.mp hi), hf]
    simp [hi]

theorem combine_blocks {a b : OutOfLineBits} (ha : (BitVector.outOfLine a).size < 2 ^ 32)
    (hb : (BitVector.outOfLine b).size < 2 ^ 32) :
    ∃ c, combineWords op b.bits (toUnsigned (min a.numWords b.numWords)) a.bits = some c ∧
      c.length = a.bits.length ∧ ∀ i, WordSets.bit c i =
        if i < 64 * min a.bits.length b.bits.length then
          f (WordSets.bit a.bits i) (WordSets.bit b.bits i)
        else WordSets.bit a.bits i := by
  obtain ⟨c, hc, hlength, hget⟩ := combineWords_spec op
    (min_le_left a.bits.length b.bits.length) (min_le_right a.bits.length b.bits.length)
  rw [(toUnsigned_numWords ha).2, (toUnsigned_numWords hb).2]
  rw [size_outOfLine] at ha
  refine ⟨c, ?_, hlength, has_of_getD hop hget⟩
  rw [show toUnsigned _ = _ from mod_eq_of_lt (by omega), hc]
end

section
variable (fresh : ℕ → Word) {v other : BitVector}

theorem merge_outOfLine {b : OutOfLineBits} {a : OutOfLineBits}
    (h : v.ensureSize fresh (BitVector.outOfLine b).size = some (.outOfLine a)) :
    v.merge fresh (.outOfLine b) = do
      let bits ← combineWords (· ||| ·) b.bits (toUnsigned a.numWords) a.bits
      return .outOfLine ⟨bits⟩ := by
  cases v <;> simp only [BitVector.merge, h, bind_eq_bind, bind_some]

section
variable (hv : 0 < v.size) (hsmall : v.size < 2 ^ 32) (hsmall' : other.size < 2 ^ 32)
include hv hsmall hsmall'

/-- `merge` gives the union, unless it reads behind the words of a shorter vector. -/
theorem merge_spec
    (hle : 64 ≤ v.size → 64 ≤ other.size → v.size ≤ other.size) (hother : 0 < other.size) :
    ∃ v', v.merge fresh other = some v' ∧ v'.size = max v.size other.size ∧
      ∀ i, has v' i = (has v i || has other i) := by
  cases other with
  | inlineBits b hb =>
    cases v with
    | inlineBits a ha =>
      obtain ⟨v', hv', hsize, hhas⟩ := has_ofInlineBits (a ||| b) (by
        rw [BitVec.msb_or, ha]
        rfl)
      refine ⟨v', hv', hsize, fun i => ?_⟩
      rw [hhas, has_inlineBits, has_inlineBits, BitVec.getLsbD_or, Bool.and_or_distrib_left]
    | outOfLine a =>
      obtain ⟨v', hv', hsize, hhas⟩ := firstWord_spec bitwise_or (pos_block hv) b hb
      refine ⟨v', hv', ?_, fun i => ?_⟩
      · have := pos_block hv
        rw [hsize, size_outOfLine, size_inlineBits]
        omega
      · rw [hhas]
        split_ifs with hi
        · rfl
        · rw [has_inline_of_le (by omega), Bool.or_false]
  | outOfLine b =>
    have hb := pos_block hother
    obtain ⟨v₁, hv₁, hsize₁, hhas₁⟩ := ensureSize_spec fresh v
      (BitVector.outOfLine b).size (by omega)
    have hround : roundUp (BitVector.outOfLine b).size = (BitVector.outOfLine b).size := by
      rw [size_outOfLine, roundUp]
      omega
    have hvle : v.size ≤ (BitVector.outOfLine b).size := by
      rw [size_outOfLine] at hle ⊢
      cases v with
      | inlineBits a ha =>
        omega
      | outOfLine a =>
        omega
    have hsize : v₁.size = (BitVector.outOfLine b).size := by
      rw [hsize₁]
      split_ifs <;> omega
    cases v₁ with
    | inlineBits a ha =>
      rw [size_inlineBits, size_outOfLine] at hsize
      omega
    | outOfLine a =>
      have hlength : a.bits.length = b.bits.length := by
        rw [size_outOfLine, size_outOfLine] at hsize
        omega
      obtain ⟨c, hc, hclength, hget⟩ := combineWords_spec (· ||| ·)
        le_rfl hlength.le
      have hcount := (toUnsigned_numWords (hsize.trans_lt hsmall')).1
      refine ⟨.outOfLine ⟨c⟩, ?_, ?_, fun i => ?_⟩
      · rw [merge_outOfLine fresh hv₁, hcount, hc]
        rfl
      · rw [max_eq_right hvle, ← hsize, size_outOfLine, size_outOfLine, hclength]
      · rw [has_outOfLine, has_of_getD bitwise_or hget, ← hhas₁,
          has_outOfLine, has_outOfLine]
        split_ifs with hi
        · rfl
        · rw [WordSets.bit_of_le (not_lt.mp hi), WordSets.bit_of_le (hlength ▸ not_lt.mp hi)]
          rfl

omit hv hsmall hsmall' in
/-- A longer block is merged with the memory behind a shorter one. -/
theorem merge_none (hv : 64 ≤ v.size) (hsmall : v.size < 2 ^ 32) (hother : 64 ≤ other.size)
    (hlt : other.size < v.size) : v.merge fresh other = none := by
  cases other with
  | inlineBits b hb =>
    rw [size_inlineBits] at hother
    omega
  | outOfLine b =>
    cases v with
    | inlineBits a ha =>
      rw [size_inlineBits] at hv
      omega
    | outOfLine a =>
      have hsame : (BitVector.outOfLine a).ensureSize fresh (BitVector.outOfLine b).size =
          some (.outOfLine a) := if_pos hlt.le
      rw [size_outOfLine, size_outOfLine] at hlt
      rw [merge_outOfLine fresh hsame, (toUnsigned_numWords hsmall).1,
        combineWords_none _ le_rfl (by omega)]
      rfl

theorem exclude_spec
    (hother : 0 < other.size) : ∃ v', v.exclude other = some v' ∧ v'.size = v.size ∧
      ∀ i, has v' i = (has v i && !has other i) := by
  cases v with
  | inlineBits a ha =>
    cases other with
    | inlineBits b hb =>
      obtain ⟨v', hv', hsize, hhas⟩ := has_ofInlineBits _ (msb_or_inlineTag (a &&& ~~~b))
      refine ⟨v', hv', hsize, fun i => ?_⟩
      rw [hhas, has_inlineBits, has_inlineBits, BitVec.getLsbD_or, getLsbD_inlineTag]
      by_cases hi : i < 63
      · have hne : i ≠ 63 := by omega
        rw [bitwise_and_not _ _ _ (by omega)]
        simp [hi, hne]
      · simp [hi]
    | outOfLine b =>
      exact inline_firstWord_spec bitwise_and_not (fun _ => rfl) (pos_block hother) a ha
  | outOfLine a =>
    cases other with
    | inlineBits b hb =>
      obtain ⟨v', hv', hsize, hhas⟩ := firstWord_spec bitwise_and_not (pos_block hv) b hb
      refine ⟨v', hv', hsize, fun i => ?_⟩
      rw [hhas]
      split_ifs with hi
      · rfl
      · rw [has_inline_of_le (by omega)]
        simp
    | outOfLine b =>
      obtain ⟨c, hc, hclength, hbits⟩ := combine_blocks bitwise_and_not hsmall hsmall'
      refine ⟨.outOfLine ⟨c⟩, ?_, ?_, fun i => ?_⟩
      · simp only [BitVector.exclude, hc]
        rfl
      · rw [size_outOfLine, size_outOfLine, hclength]
      · rw [has_outOfLine, hbits, has_outOfLine, has_outOfLine]
        split_ifs with hi
        · rfl
        · rcases lt_or_ge i (64 * a.bits.length) with ha | ha
          · have hb : WordSets.bit b.bits i = false := WordSets.bit_of_le (by omega)
            rw [hb, Bool.not_false, Bool.and_true]
          · rw [WordSets.bit_of_le ha]
            rfl

/-- `filter` gives the intersection, but leaves the elements from 64 on if the other vector is
inline. -/
theorem filter_spec (hother : 0 < other.size) : ∃ v', v.filter other = some v' ∧ v'.size = v.size ∧
      ∀ i, has v' i = (has v i && (has other i || decide (other.size = 63 ∧ 64 ≤ i))) := by
  cases other with
  | inlineBits b hb =>
    cases v with
    | inlineBits a ha =>
      obtain ⟨v', hv', hsize, hhas⟩ := has_ofInlineBits (a &&& b) (by
        rw [BitVec.msb_and, ha, hb]
        rfl)
      refine ⟨v', hv', hsize, fun i => ?_⟩
      rw [hhas, has_inlineBits, has_inlineBits]
      by_cases hi : i < 63
      · have : ¬ 64 ≤ i := by omega
        simp [hi, this]
      · simp [hi]
    | outOfLine a =>
      obtain ⟨v', hv', hsize, hhas⟩ := firstWord_spec bitwise_and (pos_block hv) b hb
      refine ⟨v', hv', hsize, fun i => ?_⟩
      rw [hhas, size_inlineBits]
      split_ifs with hi
      · have : ¬ 64 ≤ i := by omega
        simp [this]
      · have : 64 ≤ i := by omega
        simp [this]
  | outOfLine b =>
    have hnot (i : ℕ) : decide ((BitVector.outOfLine b).size = 63 ∧ 64 ≤ i) = false := by
      rw [size_outOfLine, decide_eq_false_iff_not]
      omega
    cases v with
    | inlineBits a ha =>
      obtain ⟨v', hv', hsize, hhas⟩ :=
        inline_firstWord_spec bitwise_and (fun _ => rfl) (pos_block hother) a ha
      exact ⟨v', hv', hsize, fun i => by rw [hhas, hnot, Bool.or_false]⟩
    | outOfLine a =>
      obtain ⟨c, hc, hclength, hbits⟩ := combine_blocks bitwise_and hsmall hsmall'
      have hwords := (toUnsigned_numWords hsmall).2
      rw [size_outOfLine] at hsmall
      obtain ⟨d, hd, hdlength, hget'⟩ := zeroWords_spec a.bits.length hclength
        (by omega) (by omega)
      refine ⟨.outOfLine ⟨d⟩, ?_, ?_, fun i => ?_⟩
      · simp only [BitVector.filter, hc, (toUnsigned_numWords hsmall').1, bind_eq_bind, bind_some]
        rw [hwords, hd]
        rfl
      · rw [size_outOfLine, size_outOfLine, hdlength, hclength]
      · rw [hnot, Bool.or_false, has_outOfLine, has_outOfLine, has_outOfLine]
        have hbit : WordSets.bit d i =
            if i < 64 * b.bits.length then WordSets.bit c i else false := by
          rw [WordSets.bit, hget']
          simp only [div_lt_iff_lt_mul (show 0 < 64 by decide), mul_comm b.bits.length]
          split_ifs
          · rfl
          · exact BitVec.getLsbD_zero
        rw [hbit, hbits]
        split_ifs with hb ha
        · rfl
        · rw [WordSets.bit_of_le (by omega : 64 * a.bits.length ≤ i), Bool.false_and]
        · rw [WordSets.bit_of_le (not_lt.mp hb), Bool.and_false]
end

end

end JscAndroid.Wtf.BitVectorSets
