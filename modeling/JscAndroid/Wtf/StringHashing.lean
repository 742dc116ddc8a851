import Mathlib

/-!
# The string hasher

`StringHasher` takes two characters at a time; one that is still without a second is kept as the
pending character. 8-bit data is Latin-1: the converter makes the same code units of it as of 16-bit
data, so that both are lists of code units here.
-/

namespace JscAndroid.Wtf.StringHashing

open List

/-- A 16-bit code unit. -/
abbrev UChar := ℕ

/-- `unsigned`. -/
abbrev Unsigned := BitVec 32

def stringHashingStartValue : Unsigned := 0x9E3779B9#32

def flagCount : ℕ := 8

def maskHash : Unsigned := (1#32 <<< (32 - flagCount)) - 1#32

def avalancheBits (hash : Unsigned) : Unsigned :=
  let result := hash ^^^ (hash <<< 3)
  let result := result + (result >>> 5)
  let result := result ^^^ (result <<< 2)
  let result := result + (result >>> 15)
  result ^^^ (result <<< 10)

def avoidZero (hash : Unsigned) : Unsigned :=
  if hash ≠ 0 then hash else 0x80000000#32 >>> flagCount

def finalizeAndMaskTop8Bits (hash : Unsigned) : Unsigned :=
  avoidZero (avalancheBits hash &&& maskHash)

def calculateWithRemainingLastCharacter (hash : Unsigned) (character : UChar) : Unsigned :=
  let result := hash + BitVec.ofNat 32 character
  let result := result ^^^ (result <<< 11)
  result + (result >>> 17)

def calculateWithTwoCharacters (hash : Unsigned) (firstCharacter secondCharacter : UChar) :
    Unsigned :=
  let result := hash + BitVec.ofNat 32 firstCharacter
  let result := (result <<< 16) ^^^ ((BitVec.ofNat 32 secondCharacter <<< 11) ^^^ result)
  result + (result >>> 11)

/-! ## Hashing in one go -/

/-- `computeHashImpl` of `length` characters, from the hash of the pairs before them. -/
def computeHashImpl : Unsigned → List UChar → Unsigned
  | result, a :: b :: characters =>
    computeHashImpl (calculateWithTwoCharacters result a b) characters
  | result, [a] => calculateWithRemainingLastCharacter result a
  | result, [] => result

/-- `computeHashImpl` of the characters up to a zero, none if the memory has no zero. -/
def computeHashImplTerminated : Unsigned → List UChar → Option Unsigned
  | _, [] => none
  | result, a :: characters =>
    if a = 0 then some result
    else match characters with
      | [] => none
      | b :: characters =>
        if b = 0 then some (calculateWithRemainingLastCharacter result a)
        else computeHashImplTerminated (calculateWithTwoCharacters result a b) characters

def computeHashAndMaskTop8Bits (characters : List UChar) : Unsigned :=
  finalizeAndMaskTop8Bits (computeHashImpl stringHashingStartValue characters)

def computeHashAndMaskTop8BitsTerminated (characters : List UChar) : Option Unsigned :=
  (computeHashImplTerminated stringHashingStartValue characters).map finalizeAndMaskTop8Bits

/-! ## Hashing piece by piece -/

structure StringHasher where
  hash : Unsigned := stringHashingStartValue
  pendingCharacter : UChar := 0
  hasPendingCharacter : Bool := false

def StringHasher.addCharactersAssumingAligned (h : StringHasher) (a b : UChar) : StringHasher :=
  { h with hash := calculateWithTwoCharacters h.hash a b }

def StringHasher.addCharacter (h : StringHasher) (character : UChar) : StringHasher :=
  if h.hasPendingCharacter then
    { h with hasPendingCharacter := false }.addCharactersAssumingAligned h.pendingCharacter
      character
  else { h with pendingCharacter := character, hasPendingCharacter := true }

/-- `addCharacters` of two characters. -/
def StringHasher.addTwoCharacters (h : StringHasher) (a b : UChar) : StringHasher :=
  if h.hasPendingCharacter then
    { h.addCharactersAssumingAligned h.pendingCharacter a with pendingCharacter := b }
  else h.addCharactersAssumingAligned a b

/-- `addCharactersAssumingAligned` of `length` characters. -/
def StringHasher.addDataAssumingAligned : StringHasher → List UChar → StringHasher
  | h, a :: b :: data => (h.addCharactersAssumingAligned a b).addDataAssumingAligned data
  | h, [a] => h.addCharacter a
  | h, [] => h

/-- `addCharacters` of `length` characters. -/
def StringHasher.addData (h : StringHasher) (data : List UChar) : StringHasher :=
  match data with
  | [] => h
  | a :: rest =>
    if h.hasPendingCharacter then
      ({ h with hasPendingCharacter := false }.addCharactersAssumingAligned h.pendingCharacter
        a).addDataAssumingAligned rest
    else h.addDataAssumingAligned data

/-- `addCharactersAssumingAligned` of the characters up to a zero. -/
def StringHasher.addTerminatedAssumingAligned : StringHasher → List UChar → Option StringHasher
  | _, [] => none
  | h, a :: data =>
    if a = 0 then some h
    else match data with
      | [] => none
      | b :: data =>
        if b = 0 then some (h.addCharacter a)
        else (h.addCharactersAssumingAligned a b).addTerminatedAssumingAligned data

/-- `addCharacters` of the characters up to a zero. -/
def StringHasher.addTerminated (h : StringHasher) (data : List UChar) : Option StringHasher :=
  match data with
  | [] => none
  | a :: rest =>
    if h.hasPendingCharacter ∧ a ≠ 0 then
      ({ h with hasPendingCharacter := false }.addCharactersAssumingAligned h.pendingCharacter
        a).addTerminatedAssumingAligned rest
    else h.addTerminatedAssumingAligned data

def StringHasher.processPendingCharacter (h : StringHasher) : Unsigned :=
  if h.hasPendingCharacter then
    calculateWithRemainingLastCharacter h.hash h.pendingCharacter
  else h.hash

def StringHasher.hashWithTop8BitsMasked (h : StringHasher) : Unsigned :=
  finalizeAndMaskTop8Bits h.processPendingCharacter

/-- A call that feeds the hasher; the data of the last one ends at its first zero. -/
inductive Chunk where
  | character (c : UChar)
  | twoCharacters (a b : UChar)
  | data (characters : List UChar)
  | terminated (memory : List UChar)

def Chunk.feed (h : StringHasher) : Chunk → Option StringHasher
  | .character c => some (h.addCharacter c)
  | .twoCharacters a b => some (h.addTwoCharacters a b)
  | .data characters => some (h.addData characters)
  | .terminated memory => h.addTerminated memory

/-- The calls one after another. -/
def feedAll : StringHasher → List Chunk → Option StringHasher
  | h, [] => some h
  | h, chunk :: chunks => do feedAll (← chunk.feed h) chunks

/-! ## The characters that were fed -/

/-- The characters of one call. -/
def Chunk.characters : Chunk → List UChar
  | .character c => [c]
  | .twoCharacters a b => [a, b]
  | .data characters => characters
  | .terminated memory => memory.takeWhile (· ≠ 0)

/-- The memory has a zero where one is looked for. -/
def Chunk.IsTerminated : Chunk → Prop
  | .terminated memory => 0 ∈ memory
  | _ => True

/-- The hasher has taken these characters. -/
structure Took (h : StringHasher) (characters : List UChar) : Prop where
  /-- Whatever comes next, the rest of the computation is that of hashing in one go. -/
  hash : ∀ rest, computeHashImpl stringHashingStartValue (characters ++ rest) =
    if h.hasPendingCharacter then computeHashImpl h.hash (h.pendingCharacter :: rest)
    else computeHashImpl h.hash rest

variable {h : StringHasher} {characters memory : List UChar}

theorem took_nil : Took {} [] := ⟨fun _ => rfl⟩

theorem Took.process (ht : Took h characters) :
    h.processPendingCharacter = computeHashImpl stringHashingStartValue characters := by
  have := ht.hash []
  rw [append_nil] at this
  rw [this]
  unfold StringHasher.processPendingCharacter
  split_ifs <;> rfl

section
variable (ht : Took h characters)
include ht

theorem Took.addCharacter (c : UChar) : Took (h.addCharacter c) (characters ++ [c]) := by
  refine ⟨fun rest => ?_⟩
  rw [append_assoc, ht.hash]
  unfold StringHasher.addCharacter StringHasher.addCharactersAssumingAligned
  cases h.hasPendingCharacter <;> simp [computeHashImpl]

theorem Took.addTwoCharacters (a b : UChar) :
    Took (h.addTwoCharacters a b) (characters ++ [a, b]) := by
  refine ⟨fun rest => ?_⟩
  rw [append_assoc, ht.hash]
  unfold StringHasher.addTwoCharacters StringHasher.addCharactersAssumingAligned
  cases h.hasPendingCharacter <;> simp [computeHashImpl]

/-- The pending character goes with the first one of the data. -/
theorem Took.addPending (hp : h.hasPendingCharacter = true) (a : UChar) :
    Took ({ h with hasPendingCharacter := false }.addCharactersAssumingAligned h.pendingCharacter a)
      (characters ++ [a]) := by
  have := ht.addCharacter a
  rwa [StringHasher.addCharacter, if_pos hp] at this

theorem Took.addAligned (hp : h.hasPendingCharacter = false) (a b : UChar) :
    Took (h.addCharactersAssumingAligned a b) (characters ++ [a, b]) := by
  have := ht.addTwoCharacters a b
  rwa [StringHasher.addTwoCharacters, if_neg (by simp [hp])] at this
end

section
variable (ht : Took h characters)
include ht

theorem Took.addDataAssumingAligned {data : List UChar} (hp : h.hasPendingCharacter = false) :
    Took (h.addDataAssumingAligned data) (characters ++ data) := by
  fun_induction StringHasher.addDataAssumingAligned h data generalizing characters with
  | case1 h a b data ih =>
    have := ih (ht.addAligned hp a b) hp
    rwa [append_assoc] at this
  | case2 h a => exact ht.addCharacter a
  | case3 h => rwa [append_nil]

theorem Took.addData (data : List UChar) : Took (h.addData data) (characters ++ data) := by
  unfold StringHasher.addData
  cases data with
  | nil => rwa [append_nil]
  | cons a rest =>
    by_cases hp : h.hasPendingCharacter = true
    · have : Took (StringHasher.addDataAssumingAligned _ rest) _ :=
        (ht.addPending hp a).addDataAssumingAligned rfl
      rw [append_assoc] at this
      dsimp only
      rwa [if_pos hp]
    · dsimp only
      rw [if_neg hp]
      exact ht.addDataAssumingAligned (Bool.eq_false_iff.mpr hp)

/-! ## Data that ends at a zero -/

omit ht in
theorem addTerminatedAssumingAligned_eq (hzero : 0 ∈ memory) :
    h.addTerminatedAssumingAligned memory =
      some (h.addDataAssumingAligned (memory.takeWhile (· ≠ 0))) := by
  fun_induction StringHasher.addTerminatedAssumingAligned h memory with
  | case1 h => cases hzero
  | case2 h data => rfl
  | case3 h a ha =>
    rw [mem_singleton] at hzero
    exact absurd hzero.symm ha
  | case4 h a ha data => simp [ha, StringHasher.addDataAssumingAligned]
  | case5 h a ha b data hb ih =>
    have hrest : 0 ∈ data := by simpa [Ne.symm ha, Ne.symm hb] using hzero
    rw [ih hrest]
    simp [ha, hb, StringHasher.addDataAssumingAligned]

omit ht in
theorem addTerminated_eq (hzero : 0 ∈ memory) :
    h.addTerminated memory = some (h.addData (memory.takeWhile (· ≠ 0))) := by
  cases memory with
  | nil => cases hzero
  | cons a rest =>
    unfold StringHasher.addTerminated
    by_cases ha : a = 0
    · subst ha
      simp [addTerminatedAssumingAligned_eq hzero, StringHasher.addDataAssumingAligned,
        StringHasher.addData]
    · have hrest : 0 ∈ rest := by simpa [Ne.symm ha] using hzero
      by_cases hp : h.hasPendingCharacter = true
      · simp [hp, ha, addTerminatedAssumingAligned_eq hrest, StringHasher.addData]
      · simp only [addTerminatedAssumingAligned_eq hzero]
        simp [hp, ha, StringHasher.addData]

omit ht in
theorem computeHashImplTerminated_eq {result : Unsigned} (hzero : 0 ∈ memory) :
    computeHashImplTerminated result memory =
      some (computeHashImpl result (memory.takeWhile (· ≠ 0))) := by
  fun_induction computeHashImplTerminated result memory with
  | case1 result => cases hzero
  | case2 result data => rfl
  | case3 result a ha =>
    rw [mem_singleton] at hzero
    exact absurd hzero.symm ha
  | case4 result a ha data => simp [ha, computeHashImpl]
  | case5 result a ha b data hb ih =>
    have hrest : 0 ∈ data := by simpa [Ne.symm ha, Ne.symm hb] using hzero
    rw [ih hrest]
    simp [ha, hb, computeHashImpl]

/-! ## Every way of feeding -/

theorem Took.feed {chunk : Chunk} (hchunk : chunk.IsTerminated) :
    ∃ h', chunk.feed h = some h' ∧ Took h' (characters ++ chunk.characters) := by
  cases chunk with
  | character c => exact ⟨_, rfl, ht.addCharacter c⟩
  | twoCharacters a b => exact ⟨_, rfl, ht.addTwoCharacters a b⟩
  | data characters => exact ⟨_, rfl, ht.addData characters⟩
  | terminated memory => exact ⟨_, addTerminated_eq hchunk, ht.addData _⟩

theorem Took.feedAll {chunks : List Chunk} (hchunks : ∀ chunk ∈ chunks, chunk.IsTerminated) :
    ∃ h', feedAll h chunks = some h' ∧ Took h' (characters ++ chunks.flatMap Chunk.characters) := by
  induction chunks generalizing h characters with
  | nil => exact ⟨h, rfl, by simpa using ht⟩
  | cons chunk chunks ih =>
    rw [forall_mem_cons] at hchunks
    obtain ⟨h₁, hfeed, ht₁⟩ := ht.feed hchunks.1
    obtain ⟨h₂, hfeeds, ht₂⟩ := ih ht₁ hchunks.2
    refine ⟨h₂, ?_, ?_⟩
    · rwa [StringHashing.feedAll, hfeed]
    · rwa [flatMap_cons, ← append_assoc]

theorem Took.hashWithTop8BitsMasked :
    h.hashWithTop8BitsMasked = computeHashAndMaskTop8Bits characters := by
  rw [StringHasher.hashWithTop8BitsMasked, computeHashAndMaskTop8Bits, ht.process]
end

/-- **Every way of feeding** the same characters gives the hash of hashing them in one go. -/
theorem feedAll_hash {chunks : List Chunk} (hchunks : ∀ chunk ∈ chunks, chunk.IsTerminated) :
    (feedAll {} chunks).map StringHasher.hashWithTop8BitsMasked =
      some (computeHashAndMaskTop8Bits (chunks.flatMap Chunk.characters)) := by
  obtain ⟨h, hfeed, ht⟩ := took_nil.feedAll hchunks
  rw [nil_append] at ht
  rw [hfeed, Option.map_some, ht.hashWithTop8BitsMasked]

end JscAndroid.Wtf.StringHashing
