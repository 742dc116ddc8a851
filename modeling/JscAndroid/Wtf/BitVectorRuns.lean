import JscAndroid.Walks.Runs
import JscAndroid.Wtf.BitVectorQueries

/-!
# Runs of bit vector operations

Any number of bit vectors and any sequence of operations on them, against sets of naturals that each
have a size. Two operations are not what they are for: `merge` of a longer block with a shorter one
reads behind the words of the shorter one, and `filter` of a block with an inline vector leaves all
words but the first as they are.
-/

namespace JscAndroid.Wtf.BitVectorRuns

open Walks BitVectors BitVectorSets BitVectorQueries Option Function Finset

variable {vs : ℕ → BitVector}

/-- An operation on the vectors with these numbers. -/
inductive Call where
  | set (x bit : ℕ)
  | clear (x bit : ℕ)
  | ensureSize (x numBits : ℕ)
  | assign (x other : ℕ)
  | merge (x other : ℕ)
  | filter (x other : ℕ)
  | exclude (x other : ℕ)
  | shiftRightByMultipleOf64 (x shiftInBits : ℕ)

variable {c : Call × (ℕ → Word)}

/-- The vector that the operation changes. -/
def Call.target : Call → ℕ
  | .set x _ | .clear x _ | .ensureSize x _ | .assign x _ | .merge x _ | .filter x _
  | .exclude x _ | .shiftRightByMultipleOf64 x _ => x

/-! ## The code -/

/-- The result of an operation, if it has one, and the vector after it. -/
def Call.apply (fresh : ℕ → Word) (vs : ℕ → BitVector) : Call → Option (Option Bool × BitVector)
  | .set x bit => ((vs x).set fresh bit).map fun r => (some r.1, r.2)
  | .clear x bit => ((vs x).clear bit).map fun r => (some r.1, r.2)
  | .ensureSize x numBits => ((vs x).ensureSize fresh numBits).map (none, ·)
  | .assign _ other => (BitVectors.assign fresh (vs other)).map (none, ·)
  | .merge x other => ((vs x).merge fresh (vs other)).map (none, ·)
  | .filter x other => ((vs x).filter (vs other)).map (none, ·)
  | .exclude x other => ((vs x).exclude (vs other)).map (none, ·)
  | .shiftRightByMultipleOf64 x shiftInBits =>
    ((vs x).shiftRightByMultipleOf64 fresh shiftInBits).map (none, ·)

/-- One operation, with the contents of the memory it allocates. -/
def step (c : Call × (ℕ → Word)) (vs : ℕ → BitVector) : Option (Option Bool × (ℕ → BitVector)) :=
  (c.1.apply c.2 vs).map fun r => (r.1, update vs c.1.target r.2)

/-! ## What it is for -/

/-- A set of naturals below a size. -/
structure SizedSet where
  elements : Finset ℕ
  size : ℕ

variable {sets : ℕ → SizedSet}

/-- The size after room was made for `numBits` bits. -/
def grown (size numBits : ℕ) : ℕ := if numBits ≤ size then size else roundUp numBits

/-- The result of an operation on sets, and the set after it. -/
def Call.spec (sets : ℕ → SizedSet) : Call → Option Bool × SizedSet
  | .set x bit => (some (decide (bit ∈ (sets x).elements)),
      ⟨insert bit (sets x).elements, grown (sets x).size (bit + 1)⟩)
  | .clear x bit => (some (decide (bit ∈ (sets x).elements)),
      ⟨(sets x).elements.erase bit, (sets x).size⟩)
  | .ensureSize x numBits => (none, ⟨(sets x).elements, grown (sets x).size numBits⟩)
  | .assign _ other => (none, sets other)
  | .merge x other => (none, ⟨(sets x).elements ∪ (sets other).elements,
      max (sets x).size (sets other).size⟩)
  | .filter x other => (none, ⟨(sets x).elements ∩ (sets other).elements, (sets x).size⟩)
  | .exclude x other => (none, ⟨(sets x).elements \ (sets other).elements, (sets x).size⟩)
  | .shiftRightByMultipleOf64 x shiftInBits =>
    (none, ⟨(sets x).elements.image (· + shiftInBits), roundUp ((sets x).size + shiftInBits)⟩)

def next (c : Call × (ℕ → Word)) (sets : ℕ → SizedSet) : Option Bool × (ℕ → SizedSet) :=
  ((c.1.spec sets).1, update sets c.1.target (c.1.spec sets).2)

/-- The bits fit into 32-bit counters, and shifts are by multiples of 64. -/
def Allowed (c : Call × (ℕ → Word)) (sets : ℕ → SizedSet) : Prop :=
  (c.1.spec sets).2.size < 2 ^ 32 ∧
    match c.1 with
    | .shiftRightByMultipleOf64 _ shiftInBits => shiftInBits % 64 = 0
    | _ => True

/-- The operations that do what they are for. -/
def Sound (c : Call × (ℕ → Word)) (sets : ℕ → SizedSet) : Prop :=
  match c.1 with
  | .merge x other => 64 ≤ (sets x).size → 64 ≤ (sets other).size →
      (sets x).size ≤ (sets other).size
  | .filter x other => (sets other).size = 63 → ∀ i ∈ (sets x).elements, i < 64
  | _ => True

/-- **Vectors act as sets**: every query is about the set. -/
structure ActsAs (vs : ℕ → BitVector) (sets : ℕ → SizedSet) : Prop where
  size : ∀ x, (vs x).size = (sets x).size
  get : ∀ x i, (vs x).get i = some (decide (i ∈ (sets x).elements))
  bitCount : ∀ x, (vs x).bitCount = some (sets x).elements.card
  isEmpty : ∀ x, (vs x).isEmpty = some (decide ((sets x).elements = ∅))
  findBit : ∀ x start value, ∃ r, (vs x).findBit start value = some r ∧
    FirstFrom (fun i => decide (i ∈ (sets x).elements) = value) start (sets x).size r
  iterate : ∀ x, (vs x).iterate = some ((sets x).elements.sort (· ≤ ·))
  equals : ∀ x y, (vs x).equals (vs y) = some (decide ((sets x).elements = (sets y).elements))
  hash : ∀ x, ∃ h, (vs x).hash = some h ∧
    ∀ y, (sets y).elements = (sets x).elements → (vs y).hash = some h

/-! ## One operation -/

/-- The vectors hold the sets, and nothing is too long for a 32-bit counter. -/
structure Holds (vs : ℕ → BitVector) (sets : ℕ → SizedSet) : Prop where
  size : ∀ x, (vs x).size = (sets x).size
  elements : ∀ x, elementsOf (vs x) = (sets x).elements
  pos : ∀ x, 0 < (sets x).size
  small : ∀ x, (sets x).size < 2 ^ 32

theorem Holds.has (h : Holds vs sets) (x i : ℕ) :
    has (vs x) i = decide (i ∈ (sets x).elements) := by
  rw [← h.elements, Bool.eq_iff_iff, decide_eq_true_iff, mem_elementsOf]

theorem Holds.actsAs (h : Holds vs sets) : ActsAs vs sets := by
  have hsmall (x : ℕ) : (vs x).size < 2 ^ 32 := (h.size x).trans_lt (h.small x)
  refine ⟨h.size, fun x i => ?_, fun x => ?_, fun x => ?_, fun x start value => ?_, fun x => ?_,
    fun x y => ?_, fun x => ?_⟩
  · rw [get_eq, h.has]
  · rw [bitCount_spec (hsmall x), h.elements]
  · simp only [isEmpty_spec (hsmall x), h.elements]
  · obtain ⟨r, hr, hfirst⟩ := findBit_spec (hsmall x) start value
    refine ⟨r, hr, ?_⟩
    simpa only [h.has, h.size] using hfirst
  · rw [iterate_spec (hsmall x), h.elements]
  · simp only [equals_spec (hsmall x) (hsmall y), h.elements]
  · refine ⟨_, hash_spec (hsmall x), fun y hy => ?_⟩
    rw [hash_eq_of_elements_eq (hsmall y) (hsmall x) (by rw [h.elements, h.elements, hy]),
      hash_spec (hsmall x)]

theorem Holds.of_actsAs (h : ActsAs vs sets) (hpos : ∀ x, 0 < (sets x).size)
    (hsmall : ∀ x, (sets x).size < 2 ^ 32) : Holds vs sets := by
  refine ⟨h.size, fun x => ?_, hpos, hsmall⟩
  ext i
  have := h.get x i
  rw [get_eq, some_inj] at this
  rw [mem_elementsOf, this, decide_eq_true_iff]

theorem Holds.update (h : Holds vs sets) {x : ℕ} {v : BitVector} {set : SizedSet}
    (hsize : v.size = set.size) (hhas : ∀ i, BitVectorSets.has v i = decide (i ∈ set.elements))
    (hpos : 0 < set.size) (hsmall : set.size < 2 ^ 32) :
    Holds (update vs x v) (update sets x set) := by
  have helements : elementsOf v = set.elements := by
    ext i
    rw [mem_elementsOf, hhas, decide_eq_true_iff]
  have hcases {P : BitVector → SizedSet → Prop} (hx : P v set) (hy : ∀ y, P (vs y) (sets y))
      (y : ℕ) : P (Function.update vs x v y) (Function.update sets x set y) := by
    by_cases hyx : y = x
    · subst hyx
      simpa using hx
    · simpa [hyx] using hy y
  exact ⟨hcases (P := fun v s => v.size = s.size) hsize h.size,
    hcases (P := fun v s => elementsOf v = s.elements) helements h.elements,
    hcases (P := fun _ s => 0 < s.size) hpos h.pos,
    hcases (P := fun _ s => s.size < 2 ^ 32) hsmall h.small⟩

theorem le_grown (size numBits : ℕ) : size ≤ grown size numBits ∧ numBits ≤ grown size numBits := by
  unfold grown
  have := le_roundUp numBits
  split_ifs <;> omega

theorem spec_size_pos (hpos : ∀ x, 0 < (sets x).size) (c : Call) : 0 < (c.spec sets).2.size := by
  cases c with
  | set x bit => exact (hpos x).trans_le (le_grown _ _).1
  | ensureSize x numBits => exact (hpos x).trans_le (le_grown _ _).1
  | assign x other => exact hpos other
  | merge x other => exact (hpos x).trans_le (le_max_left _ _)
  | clear x bit => exact hpos x
  | filter x other => exact hpos x
  | exclude x other => exact hpos x
  | shiftRightByMultipleOf64 x shiftInBits =>
    have := le_roundUp ((sets x).size + shiftInBits)
    have := hpos x
    change 0 < roundUp _
    omega

/-- The vector after an operation that does what it is for. -/
def Right (fresh : ℕ → Word) (vs : ℕ → BitVector) (sets : ℕ → SizedSet) (c : Call) : Prop :=
  ∃ v, c.apply fresh vs = some ((c.spec sets).1, v) ∧ v.size = (c.spec sets).2.size ∧
    ∀ i, has v i = decide (i ∈ (c.spec sets).2.elements)

section
variable {fresh : ℕ → Word} {vs : ℕ → BitVector} {sets : ℕ → SizedSet} (h : Holds vs sets)
include h

theorem Holds.size_lt (x : ℕ) : 0 < (vs x).size ∧ (vs x).size < 2 ^ 32 := by
  rw [h.size]
  exact ⟨h.pos x, h.small x⟩

theorem set_right {x bit : ℕ} (hsmall : grown (sets x).size (bit + 1) < 2 ^ 32) :
    Right fresh vs sets (.set x bit) := by
  have := (le_grown (sets x).size (bit + 1)).2
  obtain ⟨v, hv, hsize, hhas⟩ := set_spec fresh (vs x) (by omega : bit < 2 ^ 61)
  refine ⟨v, ?_, ?_, fun i => ?_⟩
  · simp only [Call.apply, Call.spec, hv, map_some, h.has]
  · rw [hsize, h.size]
    rfl
  · rw [hhas, h.has]
    simp only [Call.spec]
    split_ifs with hi <;> simp [hi]

theorem clear_right (x bit : ℕ) : Right fresh vs sets (.clear x bit) := by
  obtain ⟨v, hv, hsize, hhas⟩ := clear_spec (vs x) bit
  refine ⟨v, ?_, ?_, fun i => ?_⟩
  · simp only [Call.apply, Call.spec, hv, map_some, h.has]
  · rw [hsize, h.size]
    rfl
  · rw [hhas, h.has]
    simp only [Call.spec]
    split_ifs with hi <;> simp [hi]

theorem ensureSize_right {x numBits : ℕ} (hsmall : grown (sets x).size numBits < 2 ^ 32) :
    Right fresh vs sets (.ensureSize x numBits) := by
  have := (le_grown (sets x).size numBits).2
  obtain ⟨v, hv, hsize, hhas⟩ := ensureSize_spec fresh (vs x) numBits (by omega)
  refine ⟨v, ?_, ?_, fun i => ?_⟩
  · simp only [Call.apply, Call.spec, hv, map_some]
  · rw [hsize, h.size]
    rfl
  · rw [hhas, h.has]
    rfl

theorem assign_right (x other : ℕ) : Right fresh vs sets (.assign x other) := by
  have hlt : (vs other).size < 2 ^ 62 := (h.size_lt other).2.trans (by decide)
  obtain ⟨v, hv, hsize, hhas⟩ := assign_spec fresh hlt
  refine ⟨v, ?_, ?_, fun i => ?_⟩
  · simp only [Call.apply, Call.spec, hv, map_some]
  · rw [hsize, h.size]
    rfl
  · rw [hhas, h.has]
    rfl

theorem merge_right {x other : ℕ} (hsound : 64 ≤ (sets x).size → 64 ≤ (sets other).size →
    (sets x).size ≤ (sets other).size) : Right fresh vs sets (.merge x other) := by
  rw [← h.size, ← h.size] at hsound
  obtain ⟨v, hv, hsize, hhas⟩ := merge_spec fresh (h.size_lt x).1 (h.size_lt x).2
    (h.size_lt other).2 hsound (h.size_lt other).1
  refine ⟨v, ?_, ?_, fun i => ?_⟩
  · simp only [Call.apply, Call.spec, hv, map_some]
  · rw [hsize, h.size, h.size]
    rfl
  · rw [hhas, h.has, h.has]
    simp [Call.spec]

theorem filter_right {x other : ℕ}
    (hsound : (sets other).size = 63 → ∀ i ∈ (sets x).elements, i < 64) :
    Right fresh vs sets (.filter x other) := by
  obtain ⟨v, hv, hsize, hhas⟩ := filter_spec (h.size_lt x).1 (h.size_lt x).2
    (h.size_lt other).2 (h.size_lt other).1
  refine ⟨v, ?_, ?_, fun i => ?_⟩
  · simp only [Call.apply, Call.spec, hv, map_some]
  · rw [hsize, h.size]
    rfl
  · rw [hhas, h.has, h.has, h.size]
    simp only [Call.spec]
    by_cases hx : i ∈ (sets x).elements
    · have hnot : ¬ ((sets other).size = 63 ∧ 64 ≤ i) := by
        rintro ⟨hinline, hi⟩
        have := hsound hinline i hx
        omega
      simp [hnot]
    · simp [hx]

theorem exclude_right (x other : ℕ) : Right fresh vs sets (.exclude x other) := by
  obtain ⟨v, hv, hsize, hhas⟩ := exclude_spec (h.size_lt x).1 (h.size_lt x).2
    (h.size_lt other).2 (h.size_lt other).1
  refine ⟨v, ?_, ?_, fun i => ?_⟩
  · simp only [Call.apply, Call.spec, hv, map_some]
  · rw [hsize, h.size]
    rfl
  · rw [hhas, h.has, h.has]
    simp [Call.spec]

theorem shiftRightByMultipleOf64_right {x shiftInBits : ℕ} (hmul : shiftInBits % 64 = 0)
    (hsmall : roundUp ((sets x).size + shiftInBits) < 2 ^ 32) :
    Right fresh vs sets (.shiftRightByMultipleOf64 x shiftInBits) := by
  have := le_roundUp ((sets x).size + shiftInBits)
  obtain ⟨v, hv, hsize, hhas⟩ := shiftRightByMultipleOf64_spec fresh (v := vs x) hmul (by
    rw [h.size]
    omega)
  refine ⟨v, ?_, ?_, fun i => ?_⟩
  · simp only [Call.apply, Call.spec, hv, map_some]
  · rw [hsize, h.size]
    rfl
  · rw [hhas, h.has, Bool.eq_iff_iff]
    simp only [Call.spec, mem_image, Bool.and_eq_true, decide_eq_true_eq]
    constructor
    · rintro ⟨hle, hmem⟩
      exact ⟨_, hmem, Nat.sub_add_cancel hle⟩
    · rintro ⟨j, hj, rfl⟩
      exact ⟨Nat.le_add_left _ _, by rwa [Nat.add_sub_cancel]⟩

/-- **One operation** goes right exactly if it is sound. -/
theorem right_iff_sound (hallowed : Allowed c sets) : Right c.2 vs sets c.1 ↔ Sound c sets := by
  obtain ⟨c, fresh⟩ := c
  obtain ⟨hsmall, hshift⟩ := hallowed
  cases c with
  | set x bit => exact iff_of_true (set_right h hsmall) trivial
  | clear x bit => exact iff_of_true (clear_right h x bit) trivial
  | ensureSize x numBits => exact iff_of_true (ensureSize_right h hsmall) trivial
  | assign x other => exact iff_of_true (assign_right h x other) trivial
  | exclude x other => exact iff_of_true (exclude_right h x other) trivial
  | shiftRightByMultipleOf64 x shiftInBits =>
    exact iff_of_true (shiftRightByMultipleOf64_right h hshift hsmall) trivial
  | merge x other =>
    refine ⟨?_, merge_right h⟩
    rintro ⟨v, hv, -⟩ hx hother
    by_contra hlt
    rw [← h.size] at hx hother hlt
    rw [← h.size] at hlt
    simp only [Call.apply, merge_none fresh hx (h.size_lt x).2 hother (not_le.mp hlt)] at hv
    cases hv
  | filter x other =>
    refine ⟨?_, filter_right h⟩
    rintro ⟨v, hv, -, hhas⟩ hinline i hi
    by_contra hle
    obtain ⟨v', hv', -, hhas'⟩ := filter_spec (h.size_lt x).1 (h.size_lt x).2
      (h.size_lt other).2 (h.size_lt other).1
    simp only [Call.apply, hv'] at hv
    obtain ⟨-, rfl⟩ := Prod.mk.inj (some.inj hv)
    -- the element stays, although the inline vector cannot have it
    have hout : i ∉ (sets other).elements := by
      intro hmem
      have := lt_size_of_has ((h.has other i).trans (decide_eq_true hmem))
      rw [h.size] at this
      omega
    have := (hhas' i).symm.trans (hhas i)
    rw [h.has, h.size] at this
    simp [Call.spec, hi, hout] at this
    omega

theorem step_iff_right (hallowed : Allowed c sets) :
    (∃ vs', step c vs = some ((next c sets).1, vs') ∧ Holds vs' (next c sets).2) ↔
      Right c.2 vs sets c.1 := by
  unfold step next
  constructor
  · rintro ⟨vs', hvs', hholds⟩
    obtain ⟨⟨answer, v⟩, hv, heq⟩ := map_eq_some_iff.mp hvs'
    obtain ⟨rfl, rfl⟩ := Prod.mk.inj heq
    refine ⟨v, hv, ?_, fun i => ?_⟩
    · simpa using hholds.size c.1.target
    · simpa using hholds.has c.1.target i
  · rintro ⟨v, hv, hsize, hhas⟩
    exact ⟨_, by rw [hv]; rfl, h.update hsize hhas (spec_size_pos h.pos c.1) hallowed.1⟩
end

/-! ## Every sequence of operations -/

theorem holds_default : Holds (fun _ => .default) (fun _ => ⟨∅, 63⟩) := by
  refine ⟨fun _ => rfl, fun _ => ?_, fun _ => by decide, fun _ => by decide⟩
  ext i
  rw [mem_elementsOf]
  rw [BitVector.default, has_inlineBits]
  rw [makeInlineBits, BitVec.getLsbD_or, getLsbD_inlineTag]
  simp
  omega

theorem sizes_of_allowed (c : Call × (ℕ → Word)) (sets : ℕ → SizedSet)
    (h : ∀ x, 0 < (sets x).size ∧ (sets x).size < 2 ^ 32) (hallowed : Allowed c sets) (x : ℕ) :
    0 < ((next c sets).2 x).size ∧ ((next c sets).2 x).size < 2 ^ 32 := by
  by_cases hx : x = c.1.target
  · subst hx
    simpa [next] using ⟨spec_size_pos (fun x => (h x).1) c.1, hallowed.1⟩
  · simpa [next, hx] using h x

/-- **Bit vectors are sets** along a sequence of operations on vectors of less than `2 ^ 32` bits
exactly if no block is merged with a shorter one, and no block with elements from 64 on is filtered
by an inline vector. -/
theorem tracks_sets_iff (calls : List (Call × (ℕ → Word)))
    (hallowed : Runs.Always next Allowed calls fun _ => ⟨∅, 63⟩) :
    Runs.Tracks step next ActsAs calls (fun _ => .default) (fun _ => ⟨∅, 63⟩) ↔
      Runs.Always next Sound calls fun _ => ⟨∅, 63⟩ := by
  have hstep (c : Call × (ℕ → Word)) (vs : ℕ → BitVector) (sets : ℕ → SizedSet)
      (h : Holds vs sets) (hc : Allowed c sets) :
      (∃ vs', step c vs = some ((next c sets).1, vs') ∧ Holds vs' (next c sets).2) ↔
        Sound c sets := (step_iff_right h hc).trans (right_iff_sound h hc)
  rw [← Runs.tracks_iff_always hstep holds_default hallowed]
  constructor
  · intro h
    refine h.imp fun front hfront vs hacts => ?_
    have hsizes : ∀ x, 0 < ((Runs.after next front fun _ => ⟨∅, 63⟩).2 x).size ∧
        ((Runs.after next front fun _ => ⟨∅, 63⟩).2 x).size < 2 ^ 32 :=
      Runs.after_invariant
        sizes_of_allowed (fun _ => ⟨Nat.zero_lt_succ 62, by norm_num⟩) hallowed hfront
    exact .of_actsAs hacts (fun x => (hsizes x).1) fun x => (hsizes x).2
  · intro h
    exact h.imp fun _ _ _ => Holds.actsAs

/-- Two blocks of one size are merged, and the second is filtered by an inline vector. -/
theorem tracks_sets_example :
    Runs.Tracks step next ActsAs [(.set 0 70, fun _ => 5), (.set 1 3, fun _ => 5),
        (.ensureSize 1 100, fun _ => 5), (.merge 0 1, fun _ => 5), (.filter 1 2, fun _ => 5)]
      (fun _ => .default) (fun _ => ⟨∅, 63⟩) := by
  refine (tracks_sets_iff _ ?_).mpr ?_
  · exact ⟨⟨by decide, trivial⟩, ⟨by decide, trivial⟩, ⟨by decide, trivial⟩, ⟨by decide, trivial⟩,
      ⟨by decide, trivial⟩, trivial⟩
  · exact ⟨trivial, trivial, trivial, fun _ _ => by decide, fun _ => by decide, trivial⟩

/-- A block of three words merged with one of two reads a third word of it; and filtering `{100}` by
the empty inline vector leaves `100`. -/
theorem merge_reads_outside_and_filter_keeps :
    (Runs.run step [(.set 0 128, fun _ => 0), (.set 1 64, fun _ => 0), (.merge 0 1, fun _ => 0)]
      fun _ => .default).isNone = true ∧
    ((Runs.run step [(.set 0 100, fun _ => 0), (.filter 0 1, fun _ => 0)]
      fun _ => .default).map fun r => (r.2 0).get 100) = some (some true) := by
  decide +kernel

end JscAndroid.Wtf.BitVectorRuns
