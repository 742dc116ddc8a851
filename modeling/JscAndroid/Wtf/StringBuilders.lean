import Mathlib

/-!
# `StringBuilder`

The appending of characters to a `StringBuilder` that records overflows, on a 64-bit target. An
allocation fails if it is longer than `StringImpl` allows, and for no other reason. `m_string` is
null until the end, and the characters in the buffer are a list. An operation gives no value if it
runs into a `RELEASE_ASSERT`.
-/

namespace JscAndroid.Wtf.StringBuilders

/-- `StringImpl`: 8-bit or 16-bit characters. -/
inductive StringImpl where
  | eightBit (characters8 : List ℕ) (latin1 : ∀ c ∈ characters8, c < 256)
  | sixteenBit (characters16 : List ℕ) (units : ∀ c ∈ characters16, c < 65536)

def StringImpl.characters : StringImpl → List ℕ
  | .eightBit characters8 _ => characters8
  | .sixteenBit characters16 _ => characters16

def StringImpl.is8Bit : StringImpl → Bool
  | .eightBit _ _ => true
  | .sixteenBit _ _ => false

def StringImpl.length (string : StringImpl) : ℕ := string.characters.length

/-- `String::MaxLength`. -/
def maxLength : ℕ := 2 ^ 31 - 1

/-- `StringImpl::maxInternalLength`, where `sizeof(StringImpl)` is 24. -/
def maxInternalLength (is8Bit : Bool) : ℕ :=
  min maxLength ((2 ^ 32 - 1 - 24) / if is8Bit then 1 else 2)

/-- The buffer of a builder: its type of characters and its length. -/
structure Buffer where
  is8Bit : Bool
  length : ℕ

structure StringBuilder where
  m_buffer : Option Buffer := none
  m_length : ℕ := 0
  characters : List ℕ := []

/-- `saturatedSum<uint32_t>`. -/
def saturatedSum (a b : ℕ) : ℕ := min (a + b) (2 ^ 32 - 1)

def isLatin1 (c : ℕ) : Bool := c < 256

def expandedCapacity (capacity requiredCapacity : ℕ) : ℕ :=
  max requiredCapacity (max 16 (min (capacity * 2 % 2 ^ 32) maxLength))

namespace StringBuilder

def hasOverflowed (b : StringBuilder) : Bool := b.m_length > maxLength

def didOverflow (b : StringBuilder) : StringBuilder := { b with m_length := 2 ^ 32 - 1 }

def is8Bit (b : StringBuilder) : Bool :=
  match b.m_buffer with
  | some buffer => buffer.is8Bit
  | none => true

/-- `length`, with its `RELEASE_ASSERT`. -/
def length (b : StringBuilder) : Option ℕ := if b.hasOverflowed then none else some b.m_length

def capacity (b : StringBuilder) : Option ℕ :=
  match b.m_buffer with
  | some buffer => some buffer.length
  | none => b.length

def allocateBuffer (is8Bit : Bool) (requiredCapacity : ℕ) (b : StringBuilder) : StringBuilder :=
  if requiredCapacity > maxInternalLength is8Bit then b.didOverflow
  else { b with m_buffer := some ⟨is8Bit, requiredCapacity⟩ }

/-- A buffer that cannot be reallocated is gone. -/
def reallocateBuffer (requiredCapacity : ℕ) (b : StringBuilder) : StringBuilder :=
  match b.m_buffer with
  | some buffer =>
    if requiredCapacity > maxInternalLength buffer.is8Bit then
      { b with m_buffer := none }.didOverflow
    else { b with m_buffer := some ⟨buffer.is8Bit, requiredCapacity⟩ }
  | none => allocateBuffer b.is8Bit requiredCapacity b

def reserveCapacity (newCapacity : ℕ) (b : StringBuilder) : StringBuilder :=
  if b.hasOverflowed then b
  else
    match b.m_buffer with
    | some buffer => if newCapacity > buffer.length then b.reallocateBuffer newCapacity else b
    | none => if newCapacity > b.m_length then allocateBuffer b.is8Bit newCapacity b else b

/-- The characters that the caller writes to the memory that is made available. -/
def write (b : StringBuilder) (requiredLength : ℕ) (characters : List ℕ) : StringBuilder :=
  { b with m_length := requiredLength, characters := b.characters ++ characters }

def extendBufferForAppendingSlowCase (requiredLength : ℕ) (characters : List ℕ)
    (b : StringBuilder) : Option StringBuilder :=
  if requiredLength = 0 then some b
  else do
    let b := b.reallocateBuffer (expandedCapacity (← b.capacity) requiredLength)
    if b.hasOverflowed then return b else return b.write requiredLength characters

def extendBufferForAppending (requiredLength : ℕ) (characters : List ℕ) (b : StringBuilder) :
    Option StringBuilder :=
  match b.m_buffer with
  | some buffer =>
    if requiredLength ≤ buffer.length then some (b.write requiredLength characters)
    else b.extendBufferForAppendingSlowCase requiredLength characters
  | none => b.extendBufferForAppendingSlowCase requiredLength characters

def extendBufferForAppendingWithUpconvert (requiredLength : ℕ) (characters : List ℕ)
    (b : StringBuilder) : Option StringBuilder :=
  if b.is8Bit then do
    let b := allocateBuffer false (expandedCapacity (← b.capacity) requiredLength) b
    if b.hasOverflowed then return b else return b.write requiredLength characters
  else b.extendBufferForAppending requiredLength characters

/-- There is room for one more character in the buffer. -/
def hasRoom (b : StringBuilder) : Bool :=
  match b.m_buffer with
  | some buffer => b.m_length < buffer.length
  | none => false

/-- `appendCharacters` for one `LChar`. -/
def appendCharacterSlow8 (character : ℕ) (b : StringBuilder) : Option StringBuilder :=
  if b.hasOverflowed then some b
  else b.extendBufferForAppending (saturatedSum b.m_length 1) [character]

/-- `append` for an `LChar`. -/
def appendLChar (character : ℕ) (b : StringBuilder) : Option StringBuilder :=
  if b.hasRoom then some (b.write (b.m_length + 1) [character])
  else b.appendCharacterSlow8 character

/-- `appendCharacters` for one `UChar`. -/
def appendCharacterSlow16 (character : ℕ) (b : StringBuilder) : Option StringBuilder :=
  if b.hasOverflowed then some b
  else if isLatin1 character && b.is8Bit then b.appendLChar character
  else b.extendBufferForAppendingWithUpconvert (saturatedSum b.m_length 1) [character]

/-- `append` for a `UChar`. -/
def appendUChar (character : ℕ) (b : StringBuilder) : Option StringBuilder :=
  if b.hasRoom && (!b.is8Bit || isLatin1 character) then
    some (b.write (b.m_length + 1) [character])
  else b.appendCharacterSlow16 character

/-- `append` for an argument that has 8-bit characters and no overload of its own: it goes through
`appendFromAdapters`, which does not ask whether the builder has overflowed. -/
def appendFromAdapters (characters : List ℕ) (b : StringBuilder) : Option StringBuilder :=
  let requiredLength := saturatedSum b.m_length characters.length
  if b.is8Bit then b.extendBufferForAppending requiredLength characters
  else b.extendBufferForAppendingWithUpconvert requiredLength characters

end StringBuilder

open StringBuilder List

/-! ## A builder of 8-bit characters -/

/-- A builder that has taken these 8-bit characters. -/
structure Filled (b : StringBuilder) (text : List ℕ) : Prop where
  length_eq : b.m_length = text.length
  characters_eq : b.characters = text
  length_le : text.length ≤ maxLength
  room : ∀ buffer ∈ b.m_buffer, buffer.is8Bit = true ∧ text.length ≤ buffer.length ∧
    buffer.length ≤ maxLength
  empty : b.m_buffer = none → text = []

/-- A builder that has overflowed and lost its buffer. -/
def Lost (b : StringBuilder) : Prop := b.m_buffer = none ∧ b.m_length = 2 ^ 32 - 1

/-- The builder after this text, which may be too long for it. -/
def Written (b : StringBuilder) (text : List ℕ) : Prop :=
  if text.length ≤ maxLength then Filled b text else Lost b

theorem maxInternalLength_true : maxInternalLength true = maxLength := by decide

theorem expandedCapacity_le (capacity : ℕ) {required : ℕ} (h : required ≤ maxLength) :
    required ≤ expandedCapacity capacity required ∧
      expandedCapacity capacity required ≤ maxLength := by
  unfold expandedCapacity
  have : 16 ≤ maxLength := by decide
  omega

theorem lt_expandedCapacity (capacity : ℕ) {required : ℕ} (h : maxLength < required) :
    maxLength < expandedCapacity capacity required := by
  unfold expandedCapacity
  omega

section
variable {b : StringBuilder} {characters : List ℕ} {required capacity : ℕ}

theorem reallocateBuffer_eq (n : ℕ) (b : StringBuilder) : b.reallocateBuffer n =
    if n > maxInternalLength b.is8Bit then ⟨none, 2 ^ 32 - 1, b.characters⟩
    else { b with m_buffer := some ⟨b.is8Bit, n⟩ } := by
  obtain ⟨_ | buffer, length, characters⟩ := b <;> rfl

theorem extend_of_hasRoom (h : b.hasRoom = true) :
    b.extendBufferForAppending (b.m_length + 1) characters =
      some (b.write (b.m_length + 1) characters) := by
  unfold hasRoom at h
  unfold extendBufferForAppending
  cases hb : b.m_buffer with
  | none => simp [hb] at h
  | some buffer =>
    rw [hb] at h
    exact if_pos (Nat.succ_le_of_lt (of_decide_eq_true h))

section
variable (hover : b.hasOverflowed = false) (hcapacity : b.capacity = some capacity)
include hover hcapacity

theorem slowCase_eq (hpos : required ≠ 0) :
    b.extendBufferForAppendingSlowCase required characters = some
      (if expandedCapacity capacity required ≤ maxInternalLength b.is8Bit then
        ⟨some ⟨b.is8Bit, expandedCapacity capacity required⟩, required, b.characters ++ characters⟩
      else ⟨none, 2 ^ 32 - 1, b.characters⟩) := by
  have hnot : ¬ b.hasOverflowed = true := Bool.eq_false_iff.mp hover
  rw [extendBufferForAppendingSlowCase, if_neg hpos, hcapacity]
  simp only [Option.bind_eq_bind, Option.bind_some, reallocateBuffer_eq]
  by_cases hfit : expandedCapacity capacity required ≤ maxInternalLength b.is8Bit
  · rw [if_neg (not_lt.mpr hfit), if_pos hfit]
    exact if_neg hnot
  · rw [if_pos (not_le.mp hfit), if_neg hfit]
    rfl

theorem upconvert_eq (h8 : b.is8Bit = true) :
    b.extendBufferForAppendingWithUpconvert required characters = some
      (if expandedCapacity capacity required ≤ maxInternalLength false then
        ⟨some ⟨false, expandedCapacity capacity required⟩, required, b.characters ++ characters⟩
      else b.didOverflow) := by
  have hnot : ¬ b.hasOverflowed = true := Bool.eq_false_iff.mp hover
  rw [extendBufferForAppendingWithUpconvert, if_pos h8, hcapacity]
  simp only [Option.bind_eq_bind, Option.bind_some]
  by_cases hfit : expandedCapacity capacity required ≤ maxInternalLength false
  · rw [if_pos hfit, show allocateBuffer false _ b = _ from if_neg (not_lt.mpr hfit)]
    exact if_neg hnot
  · rw [if_neg hfit, show allocateBuffer false _ b = _ from if_pos (not_le.mp hfit)]
    rfl
end

theorem saturatedSum_eq {m n : ℕ} (hm : m ≤ maxLength) (hn : n ≤ maxLength) :
    saturatedSum m n = m + n := by
  have : maxLength = 2 ^ 31 - 1 := rfl
  unfold saturatedSum
  omega

theorem appendLChar_eq_extend (hlength : b.m_length ≤ maxLength) (c : ℕ) :
    b.appendLChar c = b.extendBufferForAppending (b.m_length + 1) [c] := by
  have hover : b.hasOverflowed = false := decide_eq_false (by omega)
  rw [StringBuilder.appendLChar, appendCharacterSlow8, hover, saturatedSum_eq hlength (by decide)]
  cases hroom : b.hasRoom with
  | true => rw [extend_of_hasRoom hroom, if_pos rfl]
  | false => rfl
end

section
variable {b : StringBuilder} {text characters : List ℕ}

section
variable (h : Filled b text)
include h

theorem Filled.not_hasOverflowed : b.hasOverflowed = false := by
  have := h.length_le
  have := h.length_eq
  simp only [hasOverflowed, decide_eq_false_iff_not]
  omega

theorem Filled.is8Bit : b.is8Bit = true := by
  unfold StringBuilder.is8Bit
  cases hb : b.m_buffer with
  | none => rfl
  | some buffer => exact (h.room buffer hb).1

theorem Filled.capacity : ∃ capacity, b.capacity = some capacity := by
  unfold StringBuilder.capacity
  cases hb : b.m_buffer with
  | none => exact ⟨b.m_length, by rw [StringBuilder.length, h.not_hasOverflowed]; rfl⟩
  | some buffer => exact ⟨_, rfl⟩

/-- The slow case takes the characters if they fit in a string. -/
theorem Filled.slowCase (hpos : (text ++ characters).length ≠ 0) :
    ∃ b', b.extendBufferForAppendingSlowCase (text ++ characters).length characters = some b' ∧
      Written b' (text ++ characters) := by
  obtain ⟨capacity, hcapacity⟩ := h.capacity
  refine ⟨_, slowCase_eq h.not_hasOverflowed hcapacity hpos, ?_⟩
  rw [h.is8Bit, maxInternalLength_true, h.characters_eq, Written]
  by_cases hle : (text ++ characters).length ≤ maxLength
  · obtain ⟨hge, hle'⟩ := expandedCapacity_le capacity hle
    rw [if_pos hle, if_pos hle']
    refine ⟨rfl, rfl, hle, fun buffer hbuffer => ?_, fun hnone => by cases hnone⟩
    cases hbuffer
    exact ⟨rfl, hge, hle'⟩
  · rw [if_neg hle, if_neg (lt_expandedCapacity capacity (not_le.mp hle)).not_ge]
    exact ⟨rfl, rfl⟩

theorem Filled.extend (hpos : (text ++ characters).length ≠ 0) :
    ∃ b', b.extendBufferForAppending (text ++ characters).length characters = some b' ∧
      Written b' (text ++ characters) := by
  unfold extendBufferForAppending
  cases hb : b.m_buffer with
  | none => exact h.slowCase hpos
  | some buffer =>
    dsimp only
    obtain ⟨h8, -, hmax⟩ := h.room buffer hb
    by_cases hle : (text ++ characters).length ≤ buffer.length
    swap
    · rw [if_neg hle]
      exact h.slowCase hpos
    rw [if_pos hle]
    refine ⟨_, rfl, ?_⟩
    rw [Written, if_pos (hle.trans hmax)]
    refine ⟨rfl, congrArg (· ++ characters) h.characters_eq, hle.trans hmax,
      fun buffer' hbuffer => ?_, fun hnone => ?_⟩
    · obtain rfl : buffer = buffer' := Option.some.inj (hb.symm.trans hbuffer)
      exact ⟨h8, hle, hmax⟩
    · cases hb.symm.trans hnone

theorem Filled.appendLChar (c : ℕ) :
    ∃ b', b.appendLChar c = some b' ∧ Written b' (text ++ [c]) := by
  rw [appendLChar_eq_extend (h.length_eq.trans_le h.length_le), h.length_eq,
    show text.length + 1 = (text ++ [c]).length by simp]
  exact h.extend (by simp)

theorem Filled.appendFromAdapters (hpos : 0 < characters.length)
    (hle : characters.length ≤ maxLength) :
    ∃ b', b.appendFromAdapters characters = some b' ∧ Written b' (text ++ characters) := by
  rw [StringBuilder.appendFromAdapters, h.is8Bit, h.length_eq, saturatedSum_eq h.length_le hle,
    ← length_append]
  exact h.extend (by rw [length_append]; omega)
end

theorem Lost.hasOverflowed (h : Lost b) : b.hasOverflowed = true := by
  rw [StringBuilder.hasOverflowed, h.2]
  decide

/-- A builder that has lost its buffer takes no more characters. -/
theorem Lost.appendLChar (h : Lost b) (c : ℕ) : b.appendLChar c = some b := by
  rw [StringBuilder.appendLChar, hasRoom, appendCharacterSlow8, h.1, h.hasOverflowed]
  rfl

theorem Written.appendLChar (h : Written b text) (c : ℕ) :
    ∃ b', b.appendLChar c = some b' ∧ Written b' (text ++ [c]) := by
  unfold Written at h
  split_ifs at h with hle
  · exact h.appendLChar c
  · refine ⟨b, h.appendLChar c, ?_⟩
    rwa [Written, if_neg (by simp; omega)]

/-- **What goes through the adapters ends the process** if the builder has lost its buffer: the
capacity asks for the length. -/
theorem Lost.appendFromAdapters (h : Lost b) (characters : List ℕ) :
    b.appendFromAdapters characters = none := by
  have hpos : saturatedSum b.m_length characters.length ≠ 0 := by
    rw [h.2]
    unfold saturatedSum
    omega
  have h8 : b.is8Bit = true := by
    rw [StringBuilder.is8Bit, h.1]
  have hcapacity : b.capacity = none := by
    rw [StringBuilder.capacity, StringBuilder.length, h.1, h.hasOverflowed]
    rfl
  rw [StringBuilder.appendFromAdapters, extendBufferForAppending, extendBufferForAppendingSlowCase,
    h8, if_pos rfl, h.1]
  rw [if_neg hpos, hcapacity]
  rfl

theorem filled_reserveCapacity {n : ℕ} (hn : n ≤ maxLength) : Filled (reserveCapacity n {}) [] := by
  rw [reserveCapacity, allocateBuffer, show hasOverflowed {} = false from rfl,
    show StringBuilder.is8Bit {} = true from rfl, maxInternalLength_true]
  simp only [Bool.false_eq_true, if_false]
  split_ifs with hpos hmax
  · omega
  · refine ⟨rfl, rfl, by decide, fun buffer hbuffer => ?_, fun _ => rfl⟩
    cases hbuffer
    exact ⟨rfl, Nat.zero_le _, hn⟩
  · exact ⟨rfl, rfl, by decide, fun buffer hbuffer => absurd hbuffer (by simp), fun _ => rfl⟩
end

/-! ## A builder that takes code units one by one -/

/-- The capacity of an 8-bit buffer after this many characters. -/
def NarrowCapacity (capacity n : ℕ) : Prop :=
  n ≤ capacity ∧ ((∃ k, 4 ≤ k ∧ k ≤ 30 ∧ capacity = 2 ^ k ∧ (k = 4 ∨ capacity < 2 * n)) ∨
    capacity = maxLength ∧ 2 ^ 30 < n)

/-- The characters that a 16-bit string does not need. -/
def narrowFront (text : List ℕ) : List ℕ := text.takeWhile isLatin1

/-- A text that a builder can take one by one: it is of 8-bit characters, or the first other
character comes early enough and the text is not too long, for the capacity is doubled then. -/
def Fits (text : List ℕ) : Prop :=
  (∀ c ∈ text, c < 256) ∨ text.length ≤ 2 ^ 30 ∧ (narrowFront text).length ≤ 2 ^ 29

instance (text : List ℕ) : Decidable (Fits text) := inferInstanceAs (Decidable (_ ∨ _))

/-- What a builder is after these code units. -/
inductive Holds : StringBuilder → List ℕ → Prop
  | empty : Holds {} []
  | narrow {capacity : ℕ} {text : List ℕ} (latin1 : ∀ c ∈ text, c < 256)
      (grown : NarrowCapacity capacity text.length) :
      Holds ⟨some ⟨true, capacity⟩, text.length, text⟩ text
  | wide {k : ℕ} {text : List ℕ} (other : ¬ ∀ c ∈ text, c < 256)
      (front : (narrowFront text).length ≤ 2 ^ 29) (four_le : 4 ≤ k) (le : k ≤ 30)
      (room : text.length ≤ 2 ^ k) :
      Holds ⟨some ⟨false, 2 ^ k⟩, text.length, text⟩ text
  | overflowed {b : StringBuilder} {text : List ℕ} (length_eq : b.m_length = 2 ^ 32 - 1)
      (full : b.hasRoom = false) (long : ¬ Fits text) : Holds b text

section
variable {b : StringBuilder} {text : List ℕ} {c capacity : ℕ}

theorem narrowFront_append_of_other (h : ¬ ∀ c ∈ text, c < 256) (c : ℕ) :
    narrowFront (text ++ [c]) = narrowFront text := by
  unfold narrowFront
  rw [takeWhile_append, if_neg]
  intro hlength
  have hfront := takeWhile_prefix (l := text) isLatin1
  have heq := hfront.eq_of_length hlength
  refine h fun c hc => ?_
  rw [takeWhile_eq_self_iff] at heq
  exact of_decide_eq_true (heq c hc)

theorem narrowFront_append_other (h : ∀ c ∈ text, c < 256) (hc : 256 ≤ c) :
    narrowFront (text ++ [c]) = text := by
  have heq : text.takeWhile isLatin1 = text :=
    takeWhile_eq_self_iff.mpr fun c hc => decide_eq_true (h c hc)
  have hnot : isLatin1 c = false := decide_eq_false (by omega)
  rw [narrowFront, takeWhile_append, if_pos (by rw [heq]), takeWhile_cons, hnot]
  simp

theorem fits_of_append (h : Fits (text ++ [c])) : Fits text := by
  by_cases hall : ∀ x ∈ text, x < 256
  · exact .inl hall
  rcases h with h | ⟨hlength, hfront⟩
  · exact absurd (fun x hx => h x (mem_append_left _ hx)) hall
  · rw [narrowFront_append_of_other hall] at hfront
    exact .inr ⟨by simp at hlength; omega, hfront⟩

theorem appendLChar_eq_appendUChar (hc : c < 256) (b : StringBuilder) :
    b.appendLChar c = b.appendUChar c := by
  have hlatin1 : isLatin1 c = true := decide_eq_true hc
  rw [appendUChar, hlatin1, Bool.or_true, Bool.and_true]
  by_cases hroom : b.hasRoom = true
  · rw [StringBuilder.appendLChar, if_pos hroom, if_pos hroom]
  have hslow : b.appendLChar c = b.appendCharacterSlow8 c := by
    rw [StringBuilder.appendLChar, if_neg hroom]
  rw [appendCharacterSlow16, hlatin1, Bool.true_and, hslow]
  unfold appendCharacterSlow8 extendBufferForAppendingWithUpconvert
  split_ifs <;> rfl

theorem pow_le_capacity {k : ℕ} (hk : k ≤ 29) : 2 ^ (k + 1) = 2 ^ k * 2 ∧ 2 ^ k ≤ 2 ^ 29 :=
  ⟨Nat.pow_succ 2 k, Nat.pow_le_pow_right (by decide) hk⟩

theorem expandedCapacity_pow {k n : ℕ} (hfour : 4 ≤ k) (hk : k ≤ 29) (hn : n ≤ 2 ^ (k + 1)) :
    expandedCapacity (2 ^ k) n = 2 ^ (k + 1) := by
  obtain ⟨hsucc, hle⟩ := pow_le_capacity hk
  have hge : 2 ^ 4 ≤ 2 ^ k := Nat.pow_le_pow_right (by decide) hfour
  have hmax : maxLength = 2 ^ 31 - 1 := rfl
  unfold expandedCapacity
  omega

theorem NarrowCapacity.step {n : ℕ} (h : NarrowCapacity capacity n) (hmax : n + 1 ≤ maxLength) :
    NarrowCapacity (if n + 1 ≤ capacity then capacity else expandedCapacity capacity (n + 1))
      (n + 1) := by
  obtain ⟨hle, hshape⟩ := h
  split_ifs with hroom
  · refine ⟨hroom, ?_⟩
    rcases hshape with ⟨k, hfour, hk, heq, hlow⟩ | ⟨heq, hlong⟩
    · exact .inl ⟨k, hfour, hk, heq, by omega⟩
    · exact .inr ⟨heq, by omega⟩
  obtain rfl : n = capacity := by omega
  rcases hshape with ⟨k, hfour, hk, rfl, -⟩ | ⟨rfl, -⟩
  swap
  · omega
  by_cases hlast : k = 30
  · subst hlast
    exact ⟨by decide, .inr ⟨by decide, by decide⟩⟩
  · have hpos : 0 < 2 ^ k := Nat.two_pow_pos k
    rw [expandedCapacity_pow hfour (by omega) (by omega)]
    exact ⟨by omega, .inl ⟨k + 1, by omega, by omega, rfl, .inr (by omega)⟩⟩

/-- The 16-bit buffer that takes the place of an 8-bit buffer. -/
theorem NarrowCapacity.upconvert {n : ℕ} (h : NarrowCapacity capacity n)
    (hmax : n + 1 ≤ maxLength) : (n ≤ 2 ^ 29 → ∃ k, 4 ≤ k ∧ k ≤ 30 ∧ n + 1 ≤ 2 ^ k ∧
      expandedCapacity capacity (n + 1) = 2 ^ k) ∧
    (2 ^ 29 < n → maxInternalLength false < expandedCapacity capacity (n + 1)) := by
  have hmaxLength : maxLength = 2 ^ 31 - 1 := rfl
  have hinternal : maxInternalLength false = 2147483635 := by decide
  obtain ⟨hle, hshape⟩ := h
  constructor
  · intro hn
    rcases hshape with ⟨k, hfour, hk, rfl, hlow⟩ | ⟨-, hlong⟩
    swap
    · omega
    have hk' : k ≤ 29 := by
      by_contra hlast
      obtain rfl : k = 30 := by omega
      omega
    have hpos : 0 < 2 ^ k := Nat.two_pow_pos k
    exact ⟨k + 1, by omega, by omega, by omega, expandedCapacity_pow hfour hk' (by omega)⟩
  · intro hn
    have hcapacity : 2 ^ 30 ≤ capacity ∧ capacity ≤ maxLength := by
      rcases hshape with ⟨k, hfour, hk, rfl, -⟩ | ⟨rfl, -⟩
      · have : k = 30 := by
          by_contra hne
          have := (pow_le_capacity (show k ≤ 29 by omega)).2
          omega
        subst this
        decide
      · decide
    unfold expandedCapacity
    omega

theorem appendUChar_eq_extend (hlength : b.m_length ≤ maxLength)
    (hwide : b.is8Bit = true → c < 256) :
    b.appendUChar c = b.extendBufferForAppending (b.m_length + 1) [c] := by
  cases h8 : b.is8Bit with
  | true => rw [← appendLChar_eq_appendUChar (hwide h8), appendLChar_eq_extend hlength]
  | false =>
    have hover : b.hasOverflowed = false := decide_eq_false (by omega)
    rw [StringBuilder.appendUChar, appendCharacterSlow16, extendBufferForAppendingWithUpconvert,
      hover, h8, saturatedSum_eq hlength (by decide)]
    cases hroom : b.hasRoom with
    | true => simp [extend_of_hasRoom hroom]
    | false => simp

/-- Appending a 16-bit character to a buffer of 8-bit characters. -/
theorem appendUChar_eq_upconvert (hlength : b.m_length ≤ maxLength) (h8 : b.is8Bit = true)
    (hc : 256 ≤ c) :
    b.appendUChar c = b.extendBufferForAppendingWithUpconvert (b.m_length + 1) [c] := by
  have hover : b.hasOverflowed = false := decide_eq_false (by omega)
  have hlatin1 : isLatin1 c = false := decide_eq_false (by omega)
  rw [StringBuilder.appendUChar, appendCharacterSlow16, hover, h8, hlatin1,
    saturatedSum_eq hlength (by decide)]
  simp

theorem extend_of_some {is8 : Bool} (c : ℕ) (hmax : text.length ≤ maxLength) :
    extendBufferForAppending (text.length + 1) [c] ⟨some ⟨is8, capacity⟩, text.length, text⟩ =
      some (if text.length + 1 ≤ capacity then
        ⟨some ⟨is8, capacity⟩, (text ++ [c]).length, text ++ [c]⟩
      else if expandedCapacity capacity (text.length + 1) ≤ maxInternalLength is8 then
        ⟨some ⟨is8, expandedCapacity capacity (text.length + 1)⟩, (text ++ [c]).length, text ++ [c]⟩
      else ⟨none, 2 ^ 32 - 1, text⟩) := by
  unfold extendBufferForAppending
  dsimp only
  rw [length_append]
  by_cases hroom : text.length + 1 ≤ capacity
  · rw [if_pos hroom, if_pos hroom]
    rfl
  · rw [if_neg hroom, if_neg hroom, slowCase_eq (decide_eq_false (not_lt.mpr hmax)) rfl (by omega)]
    rfl

theorem NarrowCapacity.le_maxLength {n : ℕ} (h : NarrowCapacity capacity n) :
    capacity ≤ maxLength := by
  rcases h.2 with ⟨k, -, hk, rfl, -⟩ | ⟨rfl, -⟩
  · have : 2 ^ k ≤ 2 ^ 30 := Nat.pow_le_pow_right (by decide) hk
    exact this.trans (by decide)
  · exact le_rfl

section
variable (latin1 : ∀ x ∈ text, x < 256) (grown : NarrowCapacity capacity text.length)
  (hmax : text.length + 1 ≤ maxLength)
include latin1 grown hmax

theorem holds_of_narrow (hc : c < 256) :
    ∃ b', StringBuilder.appendUChar c ⟨some ⟨true, capacity⟩, text.length, text⟩ = some b' ∧
      Holds b' (text ++ [c]) := by
  have hlength : (text ++ [c]).length = text.length + 1 := length_append
  have hgrown := grown.step hmax
  have hlatin1 : ∀ x ∈ text ++ [c], x < 256 := by
    rw [forall_mem_append]
    exact ⟨latin1, by simpa using hc⟩
  rw [appendUChar_eq_extend (by dsimp only; omega) fun _ => hc, extend_of_some c (by omega)]
  refine ⟨_, rfl, ?_⟩
  by_cases hroom : text.length + 1 ≤ capacity
  · rw [if_pos hroom] at hgrown ⊢
    exact .narrow hlatin1 (by rwa [hlength])
  · rw [if_neg hroom] at hgrown ⊢
    rw [if_pos (by rw [maxInternalLength_true]; exact (expandedCapacity_le _ hmax).2)]
    exact .narrow hlatin1 (by rwa [hlength])

theorem holds_of_narrow_other (hc : 256 ≤ c) :
    ∃ b', StringBuilder.appendUChar c ⟨some ⟨true, capacity⟩, text.length, text⟩ = some b' ∧
      Holds b' (text ++ [c]) := by
  have hlength : (text ++ [c]).length = text.length + 1 := length_append
  have hother : ¬ ∀ x ∈ text ++ [c], x < 256 := fun h => absurd (h c (by simp)) (not_lt.mpr hc)
  have hfront := narrowFront_append_other latin1 hc
  obtain ⟨hshort, hlong⟩ := grown.upconvert hmax
  rw [appendUChar_eq_upconvert (by dsimp only; omega) rfl hc]
  refine ⟨_, upconvert_eq (decide_eq_false (by dsimp only; omega)) rfl rfl, ?_⟩
  by_cases hn : text.length ≤ 2 ^ 29
  · obtain ⟨k, hfour, hk, hroom, heq⟩ := hshort hn
    have hpow : 2 ^ k ≤ 2 ^ 30 := Nat.pow_le_pow_right (by decide) hk
    rw [heq, if_pos (hpow.trans (by decide)), ← hlength]
    exact .wide hother (by rwa [hfront]) hfour hk (by omega)
  · rw [if_neg (not_le.mpr (hlong (by omega)))]
    refine .overflowed rfl (decide_eq_false ?_) ?_
    · have := grown.le_maxLength
      have : maxLength = 2 ^ 31 - 1 := rfl
      show ¬ 2 ^ 32 - 1 < capacity
      omega
    · rintro (h | ⟨-, h⟩)
      · exact hother h
      · rw [hfront] at h
        exact hn h
end

theorem holds_of_wide {k : ℕ} (c : ℕ) (other : ¬ ∀ x ∈ text, x < 256)
    (front : (narrowFront text).length ≤ 2 ^ 29) (four_le : 4 ≤ k) (le : k ≤ 30)
    (room : text.length ≤ 2 ^ k) :
    ∃ b', StringBuilder.appendUChar c ⟨some ⟨false, 2 ^ k⟩, text.length, text⟩ = some b' ∧
      Holds b' (text ++ [c]) := by
  have hlength : (text ++ [c]).length = text.length + 1 := length_append
  have hother : ¬ ∀ x ∈ text ++ [c], x < 256 :=
    fun h => other fun x hx => h x (mem_append_left _ hx)
  have hfront := narrowFront_append_of_other other c
  have hpow : 2 ^ k ≤ 2 ^ 30 := Nat.pow_le_pow_right (by decide) le
  have hmax : text.length ≤ maxLength := room.trans (hpow.trans (by decide))
  rw [appendUChar_eq_extend hmax fun h => by cases h]
  rw [extend_of_some c hmax]
  refine ⟨_, rfl, ?_⟩
  by_cases hroom : text.length + 1 ≤ 2 ^ k
  · rw [if_pos hroom]
    exact .wide hother (by rwa [hfront]) four_le le (by omega)
  rw [if_neg hroom]
  by_cases hlast : k = 30
  · subst hlast
    have hfull : text.length = 2 ^ 30 := by omega
    rw [hfull]
    refine .overflowed rfl rfl ?_
    rintro (h | ⟨h, -⟩)
    · exact hother h
    · omega
  · have hpos : 0 < 2 ^ k := Nat.two_pow_pos k
    have hpow' : 2 ^ (k + 1) ≤ 2 ^ 30 := Nat.pow_le_pow_right (by decide) (by omega)
    rw [expandedCapacity_pow four_le (by omega) (by omega), if_pos (hpow'.trans (by decide))]
    exact .wide hother (by rwa [hfront]) (by omega) (by omega) (by omega)

/-- A builder that has overflowed takes no more characters. -/
theorem appendUChar_of_overflowed (hover : b.m_length = 2 ^ 32 - 1) (full : b.hasRoom = false) :
    b.appendUChar c = some b := by
  rw [StringBuilder.appendUChar, appendCharacterSlow16, full,
    show b.hasOverflowed = true by rw [hasOverflowed, hover]; rfl]
  rfl

/-- **One code unit**: the builder holds one more, or it has overflowed because the text does not
fit. -/
theorem Holds.appendUChar (h : Holds b text) (hmax : text.length + 1 ≤ maxLength) :
    ∃ b', b.appendUChar c = some b' ∧ Holds b' (text ++ [c]) := by
  rcases h with _ | ⟨latin1, grown⟩ | ⟨other, front, four_le, le, room⟩ | ⟨hover, full, long⟩
  · by_cases hc : c < 256
    · rw [appendUChar_eq_extend (by decide) fun _ => hc]
      refine ⟨_, rfl, ?_⟩
      have hlatin1 : ∀ x ∈ [c], x < 256 := by simpa using hc
      exact .narrow hlatin1
        ⟨by simp [expandedCapacity], .inl ⟨4, le_rfl, by decide, rfl, .inl rfl⟩⟩
    · rw [appendUChar_eq_upconvert (by decide) rfl (not_lt.mp hc)]
      refine ⟨_, rfl, ?_⟩
      have hother : ¬ ∀ x ∈ [] ++ [c], x < 256 := by simpa using hc
      refine .wide hother ?_ le_rfl (by decide) (by simp)
      rw [narrowFront_append_other (by simp) (not_lt.mp hc)]
      decide
  · by_cases hc : c < 256
    · exact holds_of_narrow latin1 grown hmax hc
    · exact holds_of_narrow_other latin1 grown hmax (not_lt.mp hc)
  · exact holds_of_wide c other front four_le le room
  · refine ⟨b, appendUChar_of_overflowed hover full, .overflowed hover full ?_⟩
    exact fun h => long (fits_of_append h)

/-- **What a builder has at the end**: the text if it fits, or it has overflowed. -/
theorem Holds.result (h : Holds b text) (hmax : text.length ≤ maxLength) :
    (Fits text → b.hasOverflowed = false ∧ b.characters = text) ∧
      (¬ Fits text → b.hasOverflowed = true) := by
  have hnot : ∀ buffer, hasOverflowed ⟨buffer, text.length, text⟩ = false :=
    fun _ => decide_eq_false (not_lt.mpr hmax)
  rcases h with _ | ⟨latin1, -⟩ | ⟨other, front, four_le, le, room⟩ | ⟨hover, -, long⟩
  · exact ⟨fun _ => ⟨rfl, rfl⟩, fun h => absurd (.inl (by simp)) h⟩
  · exact ⟨fun _ => ⟨hnot _, rfl⟩, fun h => absurd (.inl latin1) h⟩
  · refine ⟨fun _ => ⟨hnot _, rfl⟩, fun h => absurd (.inr ⟨?_, front⟩) h⟩
    exact room.trans (Nat.pow_le_pow_right (by decide) le)
  · refine ⟨fun h => absurd h long, fun _ => ?_⟩
    rw [hasOverflowed, hover]
    rfl
end

end JscAndroid.Wtf.StringBuilders
