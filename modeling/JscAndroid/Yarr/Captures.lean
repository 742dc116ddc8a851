import JscAndroid.Yarr.Searches

/-!
# Captures

A group is undefined exactly if its first slot holds `offsetNoMatch`, whatever its second slot
holds. `AgreeOff X` compares the position and the captures of all groups outside `X`.
-/

namespace JscAndroid.Yarr.Captures

open ByteCode InputStream Interpreter Searches Function

variable {n : ℕ}

/-- The capture of a group: the range it matched, if it is defined. -/
def capture (s : Snapshot) (n : ℕ) : Option (ℕ × ℕ) :=
  if s.output (n * 2) = offsetNoMatch then none else some (s.output (n * 2), s.output (n * 2 + 1))

/-- The same position, and the same captures outside `X`. -/
structure AgreeOff (X : Set ℕ) (s t : Snapshot) : Prop where
  pos : s.pos = t.pos
  captures : ∀ n, n ∉ X → capture s n = capture t n

namespace AgreeOff

variable {X Y : Set ℕ} {s t u : Snapshot}

theorem refl (X : Set ℕ) (s : Snapshot) : AgreeOff X s s := ⟨rfl, fun _ _ => rfl⟩

theorem symm (h : AgreeOff X s t) : AgreeOff X t s :=
  ⟨h.pos.symm, fun n hn => (h.captures n hn).symm⟩

theorem trans (h1 : AgreeOff X s t) (h2 : AgreeOff X t u) : AgreeOff X s u :=
  ⟨h1.pos.trans h2.pos, fun n hn => (h1.captures n hn).trans (h2.captures n hn)⟩

theorem mono (h : AgreeOff X s t) (hXY : X ⊆ Y) : AgreeOff Y s t :=
  ⟨h.pos, fun n hn => h.captures n fun hX => hn (hXY hX)⟩

end AgreeOff

theorem AgreeOff.moveTo {X : Set ℕ} {s t : Snapshot} (h : AgreeOff X s t) (p : ℕ) :
    AgreeOff X (moveTo s p) (moveTo t p) := ⟨rfl, h.captures⟩

/-! ## Groups -/

section
variable (info : ParenthesesInfo) (count : ℕ)

/-- The groups whose captures an iteration resets and restores. -/
def groupIds : Set ℕ := {n | info.subpatternId ≤ n ∧ n < info.subpatternId + count}

/-- The group itself, if it captures. -/
def ownId : Set ℕ := {n | info.capture = true ∧ n = info.subpatternId}

instance (n : ℕ) : Decidable (n ∈ groupIds info count) := by
  unfold groupIds; rw [Set.mem_ofPred_eq]; infer_instance

@[simp] theorem cleared_pos (s : Snapshot) : (cleared info count s).pos = s.pos := rfl

theorem recorded_pos (last : Option (ℕ × ℕ)) (s : Snapshot) :
    (recorded info last s).pos = s.pos := by
  unfold recorded
  split
  · rfl
  · split_ifs <;> rfl

theorem inRange_even : inRange info.subpatternId count (n * 2) ↔ n ∈ groupIds info count := by
  rw [inRange, groupIds, Set.mem_ofPred_eq]
  omega

theorem inRange_odd : inRange info.subpatternId count (n * 2 + 1) ↔ n ∈ groupIds info count := by
  rw [inRange, groupIds, Set.mem_ofPred_eq]
  omega

theorem capture_cleared (s : Snapshot) (n : ℕ) :
    capture (cleared info count s) n = if n ∈ groupIds info count then none else capture s n := by
  simp only [capture, cleared, withOutput, clearOutput, inRange_even, inRange_odd]
  split_ifs <;> simp_all

theorem capture_undone (s t : Snapshot) (n : ℕ) : capture (undone info count s t) n =
      if n ∈ groupIds info count then capture s n else capture t n := by
  simp only [capture, undone, withOutput, restoreOutput, saveOutput, inRange_even, inRange_odd]
  by_cases h : n ∈ groupIds info count
  · have hle : info.subpatternId ≤ n := h.1
    rw [if_pos h, if_pos h, if_pos h,
      show info.subpatternId * 2 + (n * 2 - info.subpatternId * 2) = n * 2 by omega,
      show info.subpatternId * 2 + (n * 2 + 1 - info.subpatternId * 2) = n * 2 + 1 by omega]
  · rw [if_neg h, if_neg h, if_neg h]

/-- The capture that is recorded, whatever the state is. -/
theorem capture_recorded_own (hn : n ∈ ownId info) (begin end_ : ℕ) (s : Snapshot) :
    capture (recorded info (some (begin, end_)) s) n =
      if u32Sub begin info.inputPosition = offsetNoMatch then none
      else some (u32Sub begin info.inputPosition, u32Sub end_ info.inputPosition) := by
  obtain ⟨hc, rfl⟩ := hn
  simp [capture, recorded, withOutput, setOutput, hc]

theorem capture_recorded_other (hn : n ∉ ownId info) (last : Option (ℕ × ℕ)) (s : Snapshot) :
    capture (recorded info last s) n = capture s n := by
  unfold recorded
  split
  · rfl
  · split_ifs with hc
    · have hne : n ≠ info.subpatternId := fun h => hn ⟨hc, h⟩
      unfold capture withOutput setOutput
      have h1 : n * 2 ≠ info.subpatternId * 2 := by omega
      have h2 : n * 2 ≠ info.subpatternId * 2 + 1 := by omega
      have h3 : n * 2 + 1 ≠ info.subpatternId * 2 := by omega
      have h4 : n * 2 + 1 ≠ info.subpatternId * 2 + 1 := by omega
      simp [update_of_ne h1, update_of_ne h2, update_of_ne h3,
        update_of_ne h4]
    · rfl

variable {info count} {X : Set ℕ} {s t : Snapshot}

/-- States that agree except for the group itself agree after the captures of the group are
reset. -/
theorem AgreeOff.cleared (hown : ownId info ⊆ groupIds info count)
    (h : AgreeOff (X ∪ ownId info) s t) :
    AgreeOff X (cleared info count s) (cleared info count t) := by
  refine ⟨h.pos, fun n hn => ?_⟩
  rw [capture_cleared, capture_cleared]
  split_ifs with hg
  · rfl
  · exact h.captures n fun hX => hX.elim hn fun ho => hg (hown ho)

theorem AgreeOff.recorded (h : AgreeOff (X ∪ ownId info) s t) (begin end_ : ℕ) :
    AgreeOff X (recorded info (some (begin, end_)) s) (recorded info (some (begin, end_)) t) := by
  refine ⟨by rw [recorded_pos, recorded_pos, h.pos], fun n hn => ?_⟩
  by_cases ho : n ∈ ownId info
  · rw [capture_recorded_own info ho, capture_recorded_own info ho]
  · rw [capture_recorded_other info ho, capture_recorded_other info ho]
    exact h.captures n fun hX => hX.elim hn ho

/-! ## States in which a group is entered -/

/-- The captures in `Y` are ranges of an input of this length. -/
def Ranges (len : ℕ) (Y : Set ℕ) (s : Snapshot) : Prop :=
  ∀ n ∈ Y, ∀ r ∈ capture s n, r.1 ≤ r.2 ∧ r.2 ≤ len

/-- A group is entered only within the input and behind the characters after it that are checked
already, whose number is its input position. -/
structure Entered (inputPosition len : ℕ) (Y : Set ℕ) (s : Snapshot) : Prop where
  checked : inputPosition ≤ s.pos
  within : s.pos ≤ len
  ranges : Ranges len Y s

theorem Entered.cleared {inputPosition len : ℕ} {Y : Set ℕ} (h : Entered inputPosition len Y s) :
    Entered inputPosition len Y (Searches.cleared info count s) := by
  refine ⟨h.checked, h.within, fun n hn r hr => ?_⟩
  rw [capture_cleared] at hr
  split_ifs at hr
  · cases hr
  · exact h.ranges n hn r hr

/-- After an iteration that ended in `t` the group is entered again, with its capture recorded. -/
theorem Entered.recorded {len : ℕ} {Y : Set ℕ} (hlen : len ≤ UINT_MAX)
    (h : Entered info.inputPosition len Y s)
    (hpos : t.pos = s.pos ∨ s.pos < t.pos ∧ t.pos ≤ len) (hranges : Ranges len Y t) :
    Entered info.inputPosition len Y (Searches.recorded info (some (s.pos, t.pos)) t) := by
  obtain ⟨hchecked, hwithin, -⟩ := h
  have hmax : UINT_MAX = 2 ^ 32 - 1 := rfl
  refine ⟨by rw [recorded_pos]; omega, by rw [recorded_pos]; omega, fun n hn r hr => ?_⟩
  by_cases ho : n ∈ ownId info
  · rw [capture_recorded_own info ho, u32Sub_of_le hchecked (by omega),
      u32Sub_of_le (by omega) (by omega)] at hr
    split_ifs at hr
    · cases hr
    · cases hr
      exact ⟨by dsimp only; omega, by dsimp only; omega⟩
  · rw [capture_recorded_other info ho] at hr
    exact hranges n hn r hr

theorem agreeOff_recorded (last : Option (ℕ × ℕ)) (s : Snapshot) :
    AgreeOff (X ∪ ownId info) s (Searches.recorded info last s) := by
  refine ⟨(recorded_pos info last s).symm, fun n hn => ?_⟩
  exact (capture_recorded_other info (fun ho => hn (Or.inr ho)) last s).symm
end

end JscAndroid.Yarr.Captures
