import Mathlib

/-!
# Sets of naturals in lists of words

A list of words of `w` bits holds a set of naturals: bit `j` of word `k` says whether `k * w + j` is
in it. Words that are zero at the end of the list hold nothing, so a set has many lists; two lists
of one set differ by such words only.
-/

namespace JscAndroid.Arith.WordSets

open List Nat

variable {w : ℕ}
variable {words : List (BitVec w)}

/-- The bit `i` of a list of words, the first word lowest. -/
def bit (words : List (BitVec w)) (i : ℕ) : Bool := (words.getD (i / w) 0).getLsbD (i % w)

/-- **The set** a list of words holds. -/
def elements (words : List (BitVec w)) : Finset ℕ :=
  {i ∈ Finset.range (w * words.length) | bit words i = true}

/-- The words, one after another, combined by exclusive or. -/
def xorAll (words : List (BitVec w)) : BitVec w := words.foldr (· ^^^ ·) 0

theorem bit_of_le {i : ℕ} (h : w * words.length ≤ i) : bit words i = false := by
  unfold bit
  rcases Nat.eq_zero_or_pos w with rfl | hw
  · exact BitVec.getLsbD_of_ge _ _ (zero_le _)
  · have : words.length ≤ i / w := by
      rwa [le_div_iff_mul_le hw, mul_comm]
    rw [getD_eq_default _ _ this]
    exact BitVec.getLsbD_zero

@[simp]
theorem mem_elements {i : ℕ} : i ∈ elements words ↔ bit words i = true := by
  rw [elements, Finset.mem_filter, Finset.mem_range, and_iff_right_iff_imp]
  intro h
  by_contra hle
  rw [bit_of_le (not_lt.mp hle)] at h
  cases h

theorem elements_eq_iff {a b : List (BitVec w)} :
    elements a = elements b ↔ ∀ i, bit a i = bit b i := by
  constructor
  · intro h i
    rw [Bool.eq_iff_iff, ← mem_elements, ← mem_elements, h]
  · intro h
    ext i
    rw [mem_elements, mem_elements, h]

/-! ## Words at either end -/

theorem bit_append_zeros (words : List (BitVec w)) (n i : ℕ) :
    bit (words ++ List.replicate n 0) i = bit words i := by
  unfold bit
  rcases lt_or_ge (i / w) words.length with h | h
  · rw [getD_append _ _ _ _ h]
  · rw [getD_append_right _ _ _ _ h, getD_eq_default _ _ h,
      getD_eq_getElem?_getD, getElem?_getD_replicate_default_eq]

theorem elements_append_zeros (words : List (BitVec w)) (n : ℕ) :
    elements (words ++ List.replicate n 0) = elements words :=
  elements_eq_iff.mpr (bit_append_zeros words n)

theorem elements_zeros (n : ℕ) : elements (List.replicate n (0 : BitVec w)) = ∅ := by
  have h := elements_append_zeros ([] : List (BitVec w)) n
  rw [nil_append] at h
  rw [h]
  rfl

theorem bit_zeros_append (hw : 0 < w) (words : List (BitVec w)) (n i : ℕ) :
    bit (List.replicate n 0 ++ words) i = (decide (n * w ≤ i) && bit words (i - n * w)) := by
  unfold bit
  rcases lt_or_ge (i / w) n with h | h
  · have hlt : ¬ n * w ≤ i := by
      rw [← le_div_iff_mul_le hw]
      omega
    rw [getD_append _ _ _ _ (by simpa using h)]
    simp [hlt]
  · have hle : n * w ≤ i := (le_div_iff_mul_le hw).mp h
    obtain ⟨j, rfl⟩ := Nat.exists_eq_add_of_le hle
    rw [getD_append_right _ _ _ _ (by simpa using h)]
    have hdiv : (n * w + j) / w = n + j / w := by
      rw [add_comm, add_mul_div_right _ _ hw, add_comm]
    have hmod : (n * w + j) % w = j % w := by
      rw [add_comm, add_mul_mod_self_right]
    simp [hdiv]

theorem bit_cons (hw : 0 < w) (x : BitVec w) (words : List (BitVec w)) (i : ℕ) :
    bit (x :: words) i = if i < w then x.getLsbD i else bit words (i - w) := by
  unfold bit
  split_ifs with h
  · rw [div_eq_of_lt h, mod_eq_of_lt h]
    rfl
  · obtain ⟨j, rfl⟩ := Nat.exists_eq_add_of_le (not_lt.mp h)
    rw [add_div_left _ hw, add_mod_left, Nat.add_sub_cancel_left]
    rfl

/-- **Two lists of one set** differ by zeros at the end. -/
theorem eq_append_zeros (hw : 0 < w) {a b : List (BitVec w)} (h : elements a = elements b)
    (hle : a.length ≤ b.length) : b = a ++ List.replicate (b.length - a.length) 0 := by
  rw [elements_eq_iff] at h
  have hword (k : ℕ) : b.getD k 0 = a.getD k 0 := by
    ext j hj
    have hbit := h (k * w + j)
    unfold bit at hbit
    have hdiv : (k * w + j) / w = k := by
      rw [add_comm, add_mul_div_right _ _ hw, div_eq_of_lt hj, zero_add]
    have hmod : (k * w + j) % w = j := by
      rw [add_comm, add_mul_mod_self_right, mod_eq_of_lt hj]
    rw [hdiv, hmod] at hbit
    rw [← BitVec.getLsbD_eq_getElem, ← BitVec.getLsbD_eq_getElem, hbit]
  refine ext_getElem (by simp; omega) fun k hk hk' => ?_
  have := hword k
  rw [getD_eq_getElem _ _ hk] at this
  rw [this]
  rcases lt_or_ge k a.length with hka | hka
  · rw [getD_eq_getElem _ _ hka, getElem_append_left hka]
  · rw [getD_eq_default _ _ hka, getElem_append_right hka, getElem_replicate]

theorem xorAll_append_zeros (words : List (BitVec w)) (n : ℕ) :
    xorAll (words ++ List.replicate n 0) = xorAll words := by
  have hzeros : (replicate n (0 : BitVec w)).foldr (· ^^^ ·) 0 = 0 := by
    induction n with
    | zero => rfl
    | succ n ih =>
      rw [replicate_succ, foldr_cons, ih]
      exact BitVec.xor_zero
  unfold xorAll
  rw [foldr_append, hzeros]

theorem xorAll_eq_of_elements_eq (hw : 0 < w) {a b : List (BitVec w)}
    (h : elements a = elements b) : xorAll a = xorAll b := by
  rcases le_total a.length b.length with hle | hle
  · rw [eq_append_zeros hw h hle, xorAll_append_zeros]
  · rw [eq_append_zeros hw h.symm hle, xorAll_append_zeros]

/-! ## One word changed, two lists combined -/

theorem bit_set {k : ℕ} (hk : k < words.length) (x : BitVec w) (i : ℕ) :
    bit (words.set k x) i = if i / w = k then x.getLsbD (i % w) else bit words i := by
  simp only [bit, getD_eq_getElem?_getD, getElem?_set]
  split_ifs with h h' h'
  · rfl
  · exact absurd h.symm h'
  · exact absurd h'.symm h
  · rfl

/-! ## The number of elements -/

theorem card_bits (x : BitVec w) (n : ℕ) :
    ({j ∈ Finset.range n | x.getLsbD j = true} : Finset ℕ).card = x.cpopNatRec n 0 := by
  induction n with
  | zero => rfl
  | succ n ih =>
    rw [Finset.range_add_one, Finset.filter_insert, BitVec.cpopNatRec_succ, BitVec.cpopNatRec_eq,
      ← ih]
    cases x.getLsbD n <;> simp

theorem elements_cons (hw : 0 < w) (x : BitVec w) (words : List (BitVec w)) :
    elements (x :: words) = ({j ∈ Finset.range w | x.getLsbD j = true} : Finset ℕ) ∪
      (elements words).image (· + w) := by
  ext i
  rw [mem_elements, bit_cons hw, Finset.mem_union, Finset.mem_filter, Finset.mem_range,
    Finset.mem_image]
  constructor
  · intro h
    split_ifs at h with hi
    · exact .inl ⟨hi, h⟩
    · exact .inr ⟨i - w, mem_elements.mpr h, by omega⟩
  · rintro (⟨hi, h⟩ | ⟨j, hj, rfl⟩)
    · rwa [if_pos hi]
    · rw [if_neg (by omega), Nat.add_sub_cancel]
      exact mem_elements.mp hj

/-- **The ones of the words** are as many as the elements. -/
theorem card_elements (hw : 0 < w) (words : List (BitVec w)) :
    (elements words).card = (words.map fun x => x.cpop.toNat).sum := by
  induction words with
  | nil => rfl
  | cons x words ih =>
    rw [elements_cons hw, Finset.card_union_of_disjoint, card_bits, Finset.card_image_of_injective,
      ih, map_cons, sum_cons, BitVec.toNat_cpop]
    · exact add_left_injective w
    · rw [Finset.disjoint_left]
      intro i hi himage
      obtain ⟨j, -, rfl⟩ := Finset.mem_image.mp himage
      have := mem_range.mp (Finset.mem_of_mem_filter _ hi)
      omega

theorem elements_eq_empty_iff (hw : 0 < w) (words : List (BitVec w)) :
    elements words = ∅ ↔ ∀ x ∈ words, x = 0 := by
  constructor
  · intro h
    have hempty : elements ([] : List (BitVec w)) = elements words := by rw [h]; rfl
    have := eq_append_zeros hw hempty (zero_le _)
    intro x hx
    rw [this] at hx
    exact eq_of_mem_replicate hx
  · intro h
    rw [eq_replicate_of_mem h]
    exact elements_zeros _

end JscAndroid.Arith.WordSets
