import JscAndroid.Wtf.BitVectorSets

/-!
# The queries of a bit vector

Counting, searching, iteration, equality and hashing, each a function of the set the vector holds;
a search that finds nothing gives the size.
-/

namespace JscAndroid.Wtf.BitVectorQueries

open Arith BitVectors BitVectorSets WordSets List

variable {bits : List Word} {count : ℕ} {block : OutOfLineBits} {v : BitVector}

/-! ## Counting -/

theorem foldWords_eq {β : Type} (op : Word → β → β) (h : count ≤ bits.length) (result : β) :
    foldWords op bits count result = some ((bits.take count).foldr op result) := by
  induction count generalizing result with
  | zero => rfl
  | succ i ih =>
    have hi : i < bits.length := by omega
    simp only [foldWords, getElem?_eq_getElem hi, Option.bind_eq_bind, Option.bind_some]
    rw [ih (by omega), take_succ_eq_append_getElem hi, foldr_append]
    rfl

theorem foldWords_all {β : Type} (op : Word → β → β) (h : (BitVector.outOfLine block).size < 2 ^ 32)
    (result : β) : foldWords op block.bits (toUnsigned block.numWords) result =
      some (block.bits.foldr op result) := by
  rw [(toUnsigned_numWords h).1, foldWords_eq op le_rfl, take_length]

theorem sum_cpop_le (bits : List Word) :
    (bits.map fun x => x.cpop.toNat).sum ≤ 64 * bits.length := by
  induction bits with
  | nil => exact le_rfl
  | cons x bits ih =>
    have := BitVec.toNat_cpop_le x
    rw [map_cons, sum_cons, length_cons]
    omega

theorem foldr_bitCount (h : 64 * bits.length < 2 ^ 64) :
    bits.foldr (fun word result => toSize (result + BitCount.bitCount word)) 0 =
      (bits.map fun x => x.cpop.toNat).sum := by
  induction bits with
  | nil => rfl
  | cons x bits ih =>
    have hle := sum_cpop_le (x :: bits)
    rw [map_cons, sum_cons] at hle
    rw [length_cons] at h hle
    rw [foldr_cons, ih (by omega), map_cons, sum_cons, BitCount.bitCount_eq, toSize,
      Nat.mod_eq_of_lt (by omega), add_comm]

/-- **`bitCount`** is the number of elements. -/
theorem bitCount_spec (hsmall : v.size < 2 ^ 32) : v.bitCount = some (elementsOf v).card := by
  rw [elementsOf, card_elements (by decide)]
  cases v with
  | inlineBits word htag =>
    simp only [BitVector.bitCount, cleansed, BitCount.bitCount_eq, map_cons, map_nil,
      sum_cons, sum_nil, add_zero]
  | outOfLine block =>
    simp only [BitVector.bitCount, cleansed, foldWords_all _ hsmall]
    rw [size_outOfLine] at hsmall
    rw [foldr_bitCount (by omega)]

/-- One round of a loop that stops at the first difference. -/
theorem round_spec {c p q : Prop} [Decidable c] {rest : Option Bool}
    (hrest : ∃ b, rest = some b ∧ (b = true ↔ q)) (hiff : p ↔ q ∧ ¬ c) :
    ∃ b, (if c then some false else rest) = some b ∧ (b = true ↔ p) := by
  obtain ⟨b, hb, hq⟩ := hrest
  by_cases hc : c
  · exact ⟨false, if_pos hc, by simp [hiff, hc]⟩
  · exact ⟨b, by rw [if_neg hc, hb], by rw [hq, hiff, and_iff_left hc]⟩

theorem isEmptySlow_spec (h : count ≤ bits.length) :
    ∃ b, isEmptySlow bits count = some b ∧ (b = true ↔ ∀ x ∈ bits.take count, x = 0) := by
  induction count with
  | zero => exact ⟨true, rfl, by simp⟩
  | succ i ih =>
    have hi : i < bits.length := by omega
    simp only [isEmptySlow, getElem?_eq_getElem hi]
    refine round_spec (ih (by omega)) ?_
    rw [take_succ_eq_append_getElem hi, forall_mem_append]
    simp

/-- **`isEmpty`** says whether there is no element. -/
theorem isEmpty_spec (hsmall : v.size < 2 ^ 32) : v.isEmpty = some (decide (elementsOf v = ∅)) := by
  suffices h : ∃ b, v.isEmpty = some b ∧ (b = true ↔ elementsOf v = ∅) by
    obtain ⟨b, hb, hiff⟩ := h
    rw [hb, Option.some_inj, Bool.eq_iff_iff, hiff, decide_eq_true_iff]
  rw [elementsOf, elements_eq_empty_iff (by decide)]
  cases v with
  | inlineBits word htag =>
    refine ⟨_, rfl, ?_⟩
    rw [cleansed, forall_mem_singleton, beq_iff_eq]
  | outOfLine block =>
    obtain ⟨b, hb, hiff⟩ := isEmptySlow_spec (le_refl block.bits.length)
    rw [take_length] at hiff
    refine ⟨b, ?_, hiff⟩
    change isEmptySlow block.bits (toUnsigned block.numWords) = some b
    rwa [(toUnsigned_numWords hsmall).1]

/-! ## Searching -/

/-- `r` is the first number from `start` on with `p`, or the bound if there is none below it. -/
structure FirstFrom (p : ℕ → Prop) (start bound r : ℕ) : Prop where
  le : r ≤ bound
  before : ∀ i, start ≤ i → i < r → ¬ p i
  here : r < bound → start ≤ r ∧ p r

theorem FirstFrom.eq_or {p : ℕ → Prop} {start bound r : ℕ} (h : FirstFrom p start bound r) :
    r = bound ∨ p r :=
  (Nat.lt_or_ge r bound).elim (fun hr => .inr (h.here hr).2) fun hr => .inl (le_antisymm h.le hr)

theorem FirstFrom.congr {p q : ℕ → Prop} {start bound r : ℕ} (h : FirstFrom p start bound r)
    (hpq : ∀ i < bound, p i ↔ q i) : FirstFrom q start bound r := by
  refine ⟨h.le, fun i hi hr hq => ?_, fun hr => ?_⟩
  · exact h.before i hi hr ((hpq i (by have := h.le; omega)).mpr hq)
  · exact ⟨(h.here hr).1, (hpq r hr).mp (h.here hr).2⟩

theorem ctz_spec (word : Word) : ctz word ≤ 64 ∧ (∀ i < ctz word, word.getLsbD i = false) ∧
    (ctz word < 64 → word.getLsbD (ctz word) = true) := by
  unfold ctz
  cases h : (range 64).find? fun i => word.getLsbD i with
  | none =>
    rw [find?_range_eq_none] at h
    exact ⟨le_rfl, fun i hi => by simpa using h i hi, fun h => absurd h (lt_irrefl _)⟩
  | some i =>
    rw [find?_range_eq_some] at h
    obtain ⟨hi, hmem, hbefore⟩ := h
    refine ⟨(mem_range.mp hmem).le, fun j hj => ?_, fun _ => hi⟩
    simpa using hbefore j hj

theorem getLsbD_mask (value : Bool) {j : ℕ} (hj : j < 64) :
    ((BitVec.ofBool value).setWidth 64 - 1 : Word).getLsbD j = !value := by
  have hones : ((BitVec.ofBool false).setWidth 64 - 1 : Word) = BitVec.allOnes 64 := by decide
  cases value with
  | true =>
    exact BitVec.getLsbD_zero
  | false =>
    rw [hones, BitVec.getLsbD_allOnes]
    simp [hj]

/-- **`findBitInWord`** finds the first such bit. -/
theorem findBitInWord_spec (word : Word) (start : ℕ) {bound : ℕ} (hbound : bound ≤ 64)
    (value : Bool) : FirstFrom (fun i => word.getLsbD i = value) start bound
      (findBitInWord word start bound value).2 ∧ ((findBitInWord word start bound value).1 = true ↔
      (findBitInWord word start bound value).2 < bound) := by
  unfold findBitInWord
  dsimp only
  set shifted := word >>> (start % 64) ^^^ ((BitVec.ofBool value).setWidth 64 - 1) with hshifted
  obtain ⟨hle, hbefore, hhere⟩ := ctz_spec shifted
  have hbit {j : ℕ} (hstart : start < 64) (hj : start + j < 64) :
      shifted.getLsbD j = true ↔ word.getLsbD (start + j) = value := by
    rw [BitVec.getLsbD_xor, BitVec.getLsbD_ushiftRight, getLsbD_mask value (by omega),
      Nat.mod_eq_of_lt hstart]
    cases word.getLsbD (start + j) <;> cases value <;> simp
  have hnone {i : ℕ} (hi : start ≤ i) (hi64 : i < 64) (hlt : i < start + ctz shifted) :
      ¬ word.getLsbD i = value := by
    intro hvalue
    obtain ⟨j, rfl⟩ := Nat.exists_eq_add_of_le hi
    have := (hbit (by omega) hi64).mpr hvalue
    rw [hbefore j (by omega)] at this
    cases this
  split_ifs with h
  · refine ⟨⟨h.le, fun i hi hlt => hnone hi (by omega) hlt, fun _ => ⟨by omega, ?_⟩⟩, by simp [h]⟩
    exact (hbit (by omega) (by omega)).mp (hhere (by omega))
  · refine ⟨⟨le_rfl, fun i hi hlt => hnone hi (by omega) (by omega), fun h => ?_⟩, by simp⟩
    exact absurd h (lt_irrefl _)

theorem getLsbD_skipValue (value : Bool) {j : ℕ} (hj : j < 64) :
    ¬ (skipValue value).getLsbD j = value := by
  cases value with
  | true =>
    rw [show skipValue true = 0#64 by rfl, BitVec.getLsbD_zero]
    exact Bool.false_ne_true
  | false =>
    rw [show skipValue false = BitVec.allOnes 64 by rfl, BitVec.getLsbD_allOnes]
    simp [hj]

theorem findBitInWords_spec (fuel : ℕ) {value : Bool} {wordIndex startIndexInWord : ℕ}
    (hfuel : block.bits.length ≤ wordIndex + fuel) (hstart : startIndexInWord < 64) :
    ∃ found, findBitInWords block.bits value block.bits.length fuel wordIndex startIndexInWord =
        some found ∧
      FirstFrom (fun i => has (.outOfLine block) i = value) (64 * wordIndex + startIndexInWord)
        (64 * block.bits.length) (found.getD (64 * block.bits.length)) := by
  induction fuel generalizing wordIndex startIndexInWord with
  | zero =>
    refine ⟨none, if_neg (by omega), le_rfl, fun i hi hlt => ?_, fun h => absurd h (lt_irrefl _)⟩
    simp only [Option.getD_none] at hlt
    omega
  | succ fuel ih =>
    unfold findBitInWords
    by_cases hlt : wordIndex < block.bits.length
    swap
    · refine ⟨none, if_neg hlt, le_rfl, fun i hi hlt => ?_, fun h => absurd h (lt_irrefl _)⟩
      simp only [Option.getD_none] at hlt
      omega
    rw [if_pos hlt]
    obtain ⟨hfirst, hfound⟩ := findBitInWord_spec block.bits[wordIndex] startIndexInWord
      le_rfl value
    have hbit {j : ℕ} (hj : j < 64) :
        has (.outOfLine block) (64 * wordIndex + j) = block.bits[wordIndex].getLsbD j := by
      have hdiv : (64 * wordIndex + j) / 64 = wordIndex := by omega
      have hmod : (64 * wordIndex + j) % 64 = j := by omega
      rw [has_outOfLine, bit, hdiv, hmod, getD_eq_getElem _ _ hlt]
    simp only [getElem?_eq_getElem hlt, Option.bind_eq_bind, Option.bind_some]
    by_cases hcond : (block.bits[wordIndex] != skipValue value &&
        (findBitInWord block.bits[wordIndex] startIndexInWord bitsInPointer value).1) = true
    · rw [if_pos hcond]
      have hr := hfound.mp (Bool.and_eq_true_iff.mp hcond).2
      obtain ⟨hle, hvalue⟩ := hfirst.here hr
      refine ⟨_, rfl, ?_⟩
      change FirstFrom _ _ _ (wordIndex * 64 +
        (findBitInWord block.bits[wordIndex] startIndexInWord 64 value).2)
      refine ⟨by omega, fun i hi hlt => ?_, fun _ => ⟨by omega, ?_⟩⟩
      · obtain ⟨j, rfl⟩ := Nat.exists_eq_add_of_le (by omega : 64 * wordIndex ≤ i)
        rw [hbit (by omega)]
        exact hfirst.before j (by omega) (by omega)
      · rwa [mul_comm, hbit hr]
    · rw [if_neg hcond]
      -- no such bit in the rest of this word
      have hnone : ∀ j, startIndexInWord ≤ j → j < 64 →
          ¬ block.bits[wordIndex].getLsbD j = value := by
        intro j hj hj64
        rcases Bool.eq_false_or_eq_true (block.bits[wordIndex] != skipValue value) with hne | heq
        · have hend : (findBitInWord block.bits[wordIndex] startIndexInWord 64 value).2 = 64 := by
            have := hfirst.le
            rw [hne] at hcond
            have := mt hfound.mpr hcond
            omega
          exact hfirst.before j hj (by omega)
        · rw [bne_eq_false_iff_eq] at heq
          rw [heq]
          exact getLsbD_skipValue value hj64
      obtain ⟨found, hrun, hrest⟩ := @ih (wordIndex + 1) 0
        (by omega) (by decide)
      refine ⟨found, hrun, hrest.le, fun i hi hlt => ?_, fun h => ?_⟩
      · rcases lt_or_ge i (64 * (wordIndex + 1)) with hi' | hi'
        · obtain ⟨j, rfl⟩ := Nat.exists_eq_add_of_le (by omega : 64 * wordIndex ≤ i)
          rw [hbit (by omega)]
          exact hnone j (by omega) (by omega)
        · exact hrest.before i (by omega) hlt
      · obtain ⟨hle, hvalue⟩ := hrest.here h
        exact ⟨by omega, hvalue⟩

/-- **`findBit`** finds the first bit with this value from `start` on. -/
theorem findBit_spec (hsmall : v.size < 2 ^ 32) (start : ℕ) (value : Bool) :
    ∃ r, v.findBit start value = some r ∧ FirstFrom (fun i => has v i = value) start v.size r := by
  cases v with
  | inlineBits word htag =>
    have hbound : maxInlineBits ≤ 64 := by decide
    refine ⟨_, rfl, (findBitInWord_spec word start hbound value).1.congr fun i hi => ?_⟩
    have hi' : i < 63 := hi
    rw [has_inlineBits]
    simp [hi']
  | outOfLine block =>
    obtain ⟨found, hrun, hfirst⟩ := @findBitInWords_spec block block.bits.length value
      (start / 64) (start - start / 64 * 64) (by omega) (by omega)
    refine ⟨found.getD (64 * block.bits.length), ?_, ?_⟩
    · simp only [BitVector.findBit, (toUnsigned_numWords hsmall).2, bitsInPointer, hrun]
      rfl
    · have hstart : 64 * (start / 64) + (start - start / 64 * 64) = start := by omega
      rwa [hstart] at hfirst

/-! ## Iteration -/

theorem iterateFrom_spec (fuel : ℕ) {index : ℕ} (hsmall : v.size < 2 ^ 32)
    (hindex : index = v.size ∨ has v index = true) (hfuel : v.size ≤ index + fuel) :
    ∃ l, v.iterateFrom fuel index = some l ∧ l.Pairwise (· < ·) ∧
      ∀ i, i ∈ l ↔ index ≤ i ∧ has v i = true := by
  have hend (hsize : index = v.size) (i : ℕ) :
      i ∈ ([] : List ℕ) ↔ index ≤ i ∧ has v i = true := by
    simp only [not_mem_nil, false_iff, not_and]
    intro hi
    rw [has_of_size_le (hsize ▸ hi)]
    exact Bool.false_ne_true
  induction fuel generalizing index with
  | zero =>
    have hsize : index = v.size := by
      rcases hindex with h | h
      · exact h
      · have := lt_size_of_has h
        omega
    exact ⟨[], if_pos hsize, .nil, hend hsize⟩
  | succ fuel ih =>
    unfold BitVector.iterateFrom
    by_cases hsize : index = v.size
    · exact ⟨[], if_pos hsize, .nil, hend hsize⟩
    have hhas := hindex.resolve_left hsize
    have hlt := lt_size_of_has hhas
    obtain ⟨r, hr, hfirst⟩ := findBit_spec hsmall (index + 1) true
    have hrindex := hfirst.eq_or
    have hlower : index < r := by
      rcases lt_or_ge r v.size with h | h
      · exact (hfirst.here h).1
      · omega
    obtain ⟨l, hl, hsorted, hmem⟩ := ih hrindex (by omega) fun hsize' i => by
      simp only [not_mem_nil, false_iff, not_and]
      intro hi
      rw [has_of_size_le (hsize' ▸ hi)]
      exact Bool.false_ne_true
    refine ⟨index :: l, ?_, ?_, fun i => ?_⟩
    · rw [if_neg hsize, hr]
      simp only [Option.bind_eq_bind, Option.bind_some, hl]
      rfl
    · refine pairwise_cons.mpr ⟨fun i hi => ?_, hsorted⟩
      have := ((hmem i).mp hi).1
      omega
    · rw [mem_cons, hmem]
      constructor
      · rintro (rfl | ⟨hi, hi'⟩)
        · exact ⟨le_rfl, hhas⟩
        · exact ⟨by omega, hi'⟩
      · rintro ⟨hi, hi'⟩
        rcases eq_or_lt_of_le hi with rfl | hi
        · exact .inl rfl
        · refine .inr ⟨?_, hi'⟩
          by_contra hlt'
          exact hfirst.before i hi (not_le.mp hlt') hi'

/-- **A loop over a vector** sees its elements in increasing order. -/
theorem iterate_spec (hsmall : v.size < 2 ^ 32) :
    v.iterate = some ((elementsOf v).sort (· ≤ ·)) := by
  obtain ⟨r, hr, hfirst⟩ := findBit_spec hsmall 0 true
  have hrindex := hfirst.eq_or
  obtain ⟨l, hl, hsorted, hmem⟩ := iterateFrom_spec v.size hsmall hrindex (by omega)
  have helements : l.toFinset = elementsOf v := by
    ext i
    rw [mem_toFinset, hmem, mem_elementsOf, and_iff_right_iff_imp]
    intro hi
    by_contra hlt
    exact hfirst.before i (Nat.zero_le i) (not_le.mp hlt) hi
  rw [BitVector.iterate, hr]
  simp only [Option.bind_eq_bind, Option.bind_some, hl]
  rw [← helements, (toFinset_sort (· ≤ ·) (hsorted.imp ne_of_lt)).mpr (hsorted.imp le_of_lt)]

/-! ## Equality and hash -/

theorem elementsOf_eq_iff {other : BitVector} :
    elementsOf v = elementsOf other ↔ ∀ i, has v i = has other i :=
  elements_eq_iff

theorem equalsSlowCaseSimple_spec (v other : BitVector) (count : ℕ) :
    ∃ b, v.equalsSlowCaseSimple other count = some b ∧
      (b = true ↔ ∀ i < count, has v i = has other i) := by
  induction count with
  | zero => exact ⟨true, rfl, by simp⟩
  | succ i ih =>
    simp only [BitVector.equalsSlowCaseSimple, get_eq]
    refine round_spec ih ?_
    rw [Nat.forall_lt_succ_right]
    simp

theorem equalWords_spec {a b : List Word} (ha : count ≤ a.length) (hb : count ≤ b.length) :
    ∃ c, equalWords a b count = some c ∧ (c = true ↔ a.take count = b.take count) := by
  induction count with
  | zero => exact ⟨true, rfl, by simp⟩
  | succ i ih =>
    have hai : i < a.length := by omega
    have hbi : i < b.length := by omega
    simp only [equalWords, getElem?_eq_getElem hai, getElem?_eq_getElem hbi]
    have hsplit : a.take (i + 1) = b.take (i + 1) ↔ a.take i = b.take i ∧ a[i] = b[i] := by
      rw [take_succ_eq_append_getElem hai, take_succ_eq_append_getElem hbi]
      constructor
      · intro h
        obtain ⟨hfront, hlast⟩ := append_inj h (by simp; omega)
        exact ⟨hfront, (cons.inj hlast).1⟩
      · rintro ⟨hfront, hlast⟩
        rw [hfront, hlast]
    refine round_spec (ih (by omega) (by omega)) ?_
    rw [hsplit]
    simp

theorem zeroFrom_spec (count : ℕ) {i : ℕ} (h : i + count = bits.length) :
    ∃ c, zeroFrom bits count i = some c ∧ (c = true ↔ bits.drop i = List.replicate count 0) := by
  induction count generalizing i with
  | zero => exact ⟨true, rfl, by simp; omega⟩
  | succ count ih =>
    have hi : i < bits.length := by omega
    simp only [zeroFrom, getElem?_eq_getElem hi]
    rw [drop_eq_getElem_cons hi, replicate_succ]
    refine round_spec (ih (by omega)) ?_
    rw [cons.injEq, and_comm, bne_iff_ne, not_not]

/-- The comparison that the two loops of `equalsSlowCaseFast` make, for the shorter list first. -/
theorem elements_eq_iff_of_length_le {a b : List Word} (hle : a.length ≤ b.length) :
    elements a = elements b ↔ b.drop a.length = List.replicate (b.length - a.length) 0 ∧
        a.take a.length = b.take a.length := by
  rw [take_length]
  constructor
  · intro h
    have hb := eq_append_zeros (by decide) h hle
    constructor
    · conv_lhs => rw [hb]
      rw [drop_left]
    · conv_rhs => rw [hb]
      rw [take_left]
  · rintro ⟨hdrop, htake⟩
    rw [← take_append_drop a.length b, hdrop, ← htake, elements_append_zeros]

theorem zeroFrom_then_equalWords {n : ℕ} {longer x y : List Word} (hn : n ≤ longer.length)
    (hx : n ≤ x.length) (hy : n ≤ y.length) :
    ∃ c, (do
        if ← zeroFrom longer (longer.length - n) n then equalWords x y n
        else return false : Option Bool) = some c ∧
      (c = true ↔
        longer.drop n = List.replicate (longer.length - n) 0 ∧ x.take n = y.take n) := by
  have hlength : n + (longer.length - n) = longer.length := by omega
  obtain ⟨c, hc, hciff⟩ := zeroFrom_spec _ hlength
  obtain ⟨d, hd, hdiff⟩ := equalWords_spec hx hy
  simp only [hc]
  cases c with
  | true => exact ⟨d, hd, by rw [hdiff, ← hciff, and_iff_right rfl]⟩
  | false => exact ⟨false, rfl, by rw [← hciff]; simp⟩

theorem equalBlocks_spec {a b : OutOfLineBits} (ha : (BitVector.outOfLine a).size < 2 ^ 32)
    (hb : (BitVector.outOfLine b).size < 2 ^ 32) : ∃ c, equalBlocks a b = some c ∧
      (c = true ↔ elements a.bits = elements b.bits) := by
  rw [equalBlocks, (toUnsigned_numWords ha).2, (toUnsigned_numWords hb).2]
  by_cases hlt : a.bits.length < b.bits.length
  · simp only [hlt]
    rw [elements_eq_iff_of_length_le hlt.le]
    exact zeroFrom_then_equalWords hlt.le le_rfl hlt.le
  · have hle := not_lt.mp hlt
    simp only [hlt]
    rw [@eq_comm _ (elements a.bits), elements_eq_iff_of_length_le hle,
      @eq_comm _ (b.bits.take _)]
    exact zeroFrom_then_equalWords hle hle le_rfl

/-- **`operator==`** compares the sets. -/
theorem equals_spec {other : BitVector} (hsmall : v.size < 2 ^ 32) (hsmall' : other.size < 2 ^ 32) :
    v.equals other = some (decide (elementsOf v = elementsOf other)) := by
  suffices h : ∃ b, v.equals other = some b ∧ (b = true ↔ elementsOf v = elementsOf other) by
    obtain ⟨b, hb, hiff⟩ := h
    rw [hb, Option.some_inj, Bool.eq_iff_iff, hiff, decide_eq_true_iff]
  have hsimple : ∃ b, v.equalsSlowCaseSimple other (toUnsigned (max v.size other.size)) = some b ∧
      (b = true ↔ elementsOf v = elementsOf other) := by
    obtain ⟨b, hb, hiff⟩ := equalsSlowCaseSimple_spec v other (max v.size other.size)
    refine ⟨b, ?_, hiff.trans ?_⟩
    · rwa [toUnsigned, Nat.mod_eq_of_lt (max_lt hsmall hsmall')]
    · rw [elementsOf_eq_iff]
      refine ⟨fun h i => ?_, fun h i _ => h i⟩
      rcases lt_or_ge i (max v.size other.size) with hi | hi
      · exact h i hi
      · rw [has_of_size_le ((le_max_left _ _).trans hi),
          has_of_size_le ((le_max_right _ _).trans hi)]
  cases v with
  | inlineBits a ha =>
    cases other with
    | inlineBits b hb =>
      refine ⟨_, rfl, ?_⟩
      rw [beq_iff_eq, elementsOf_eq_iff]
      constructor
      · intro h i
        rw [has_inlineBits, has_inlineBits, h]
      · intro h
        refine BitVec.eq_of_getLsbD_eq fun i hi => ?_
        rcases lt_or_ge i 63 with hi' | hi'
        · have := h i
          rw [has_inlineBits, has_inlineBits] at this
          simpa [hi'] using this
        · obtain rfl : i = 63 := by omega
          exact ha.trans hb.symm
    | outOfLine b => exact hsimple
  | outOfLine a =>
    cases other with
    | inlineBits b hb => exact hsimple
    | outOfLine b => exact equalBlocks_spec hsmall hsmall'

/-- **`hash`** is a function of the set. -/
theorem hash_spec (hsmall : v.size < 2 ^ 32) : v.hash = some (intHash (xorAll (cleansed v))) := by
  cases v with
  | inlineBits word htag =>
    rw [cleansed, xorAll, foldr_cons, foldr_nil]
    have : cleanseInlineBits word ^^^ 0 = cleanseInlineBits word := BitVec.xor_zero
    rw [this]
    rfl
  | outOfLine block =>
    change (foldWords _ block.bits (toUnsigned block.numWords) 0).bind _ = _
    rw [foldWords_all _ hsmall]
    have hcomm : (fun word result : Word => result ^^^ word) = (· ^^^ ·) :=
      funext fun x => funext fun y => xor_comm y x
    rw [hcomm]
    rfl

theorem hash_eq_of_elements_eq {other : BitVector} (hsmall : v.size < 2 ^ 32)
    (hsmall' : other.size < 2 ^ 32) (h : elementsOf v = elementsOf other) :
    v.hash = other.hash := by
  rw [hash_spec hsmall, hash_spec hsmall', xorAll_eq_of_elements_eq (by decide) h]

end JscAndroid.Wtf.BitVectorQueries
