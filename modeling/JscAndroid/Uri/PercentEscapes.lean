import JscAndroid.Uri.Escaping

/-!
# `escape` and `unescape`

The functions of the global object, over the `StringBuilder` they append to. The text of `escape`
can be too long for a string: its builder then loses its buffer, and the next escape ends the
process. `unescape` reserves room for as many characters as it is given, and cannot go on to 16-bit
characters if twice that room is too much.
-/

namespace JscAndroid.Uri.PercentEscapes

open Wtf.StringBuilders Wtf.HexDigits List

/-- The characters that `escape` copies. -/
def doNotEscape : Bitmap := makeCharacterBitmap
  ("ABCDEFGHIJKLMNOPQRSTUVWXYZ" ++ "abcdefghijklmnopqrstuvwxyz" ++ "0123456789" ++ "*+-./@_")

/-- One round of the loop for 8-bit characters. -/
def escape8 (u : ℕ) (builder : StringBuilder) : Option StringBuilder :=
  if doNotEscape u then builder.appendLChar u
  else builder.appendFromAdapters ('%'.toNat :: hex u 2)

/-- One round of the loop for 16-bit characters. -/
def escape16 (u : ℕ) (builder : StringBuilder) : Option StringBuilder :=
  if u ≥ 256 then
    builder.appendFromAdapters
      ('%'.toNat :: 'u'.toNat :: (hex ((u >>> 8) % 256) 2 ++ hex (u % 256) 2))
  else if doNotEscape (u % 256) then builder.appendUChar u
  else builder.appendFromAdapters ('%'.toNat :: hex u 2)

/-- Either loop of `escape`. -/
def escapeLoop (is8Bit : Bool) : List ℕ → StringBuilder → Outcome
  | [], builder => finish builder
  | u :: rest, builder =>
    (if is8Bit then escape8 u builder else escape16 u builder).elim .crash (escapeLoop is8Bit rest)

def globalFuncEscape (view : StringImpl) : Outcome := escapeLoop view.is8Bit view.characters {}

/-- One round of either loop of `unescape`, at the characters from `k` on: what it appends, and by
how much `k` grows. -/
def round (c : List ℕ) : ℕ × ℕ :=
  if c.getD 0 0 = '%'.toNat && 6 ≤ c.length && c.getD 1 0 = 'u'.toNat then
    if isASCIIHexDigit (c.getD 2 0) && isASCIIHexDigit (c.getD 3 0) &&
        isASCIIHexDigit (c.getD 4 0) && isASCIIHexDigit (c.getD 5 0) then
      (convertUnicode (c.getD 2 0) (c.getD 3 0) (c.getD 4 0) (c.getD 5 0), 6)
    else (c.getD 0 0, 1)
  else if c.getD 0 0 = '%'.toNat && 3 ≤ c.length && isASCIIHexDigit (c.getD 1 0) &&
      isASCIIHexDigit (c.getD 2 0) then
    (convertHex (c.getD 1 0) (c.getD 2 0), 3)
  else (c.getD 0 0, 1)

theorem round_pos (c : List ℕ) : 0 < (round c).2 := by
  unfold round
  split_ifs <;> exact Nat.succ_pos _

/-- Either loop of `unescape`. What `%uXXXX` stands for is a `UChar` in both. -/
def unescapeLoop (is8Bit : Bool) (c : List ℕ) (builder : StringBuilder) : Outcome :=
  if c.isEmpty then finish builder
  else (appendCopied (is8Bit && (round c).2 ≠ 6) (round c).1 builder).elim .crash
    (unescapeLoop is8Bit (c.drop (round c).2))
termination_by c.length
decreasing_by
  have := round_pos c
  have := length_pos_iff.mpr (by simpa using ‹¬ c.isEmpty = true› : c ≠ [])
  rw [length_drop]
  omega

def globalFuncUnescape (view : StringImpl) : Outcome :=
  unescapeLoop view.is8Bit view.characters (StringBuilder.reserveCapacity view.length {})

/-! ## What the sequences stand for -/

/-- A sequence `%uXXXX` or `%XX` at the start. -/
inductive StartsSequence : List ℕ → Prop
  | unicode {h₁ h₂ h₃ h₄ n₁ n₂ n₃ n₄ : ℕ} {text : List ℕ} (digit₁ : IsHexDigit h₁ n₁)
      (digit₂ : IsHexDigit h₂ n₂) (digit₃ : IsHexDigit h₃ n₃) (digit₄ : IsHexDigit h₄ n₄) :
      StartsSequence ('%'.toNat :: 'u'.toNat :: h₁ :: h₂ :: h₃ :: h₄ :: text)
  | byte {h₁ h₂ n₁ n₂ : ℕ} {text : List ℕ} (digit₁ : IsHexDigit h₁ n₁)
      (digit₂ : IsHexDigit h₂ n₂) : StartsSequence ('%'.toNat :: h₁ :: h₂ :: text)

/-- The text with its sequences replaced from left to right, and every other character copied. -/
inductive Unescaped : List ℕ → List ℕ → Prop
  | nil : Unescaped [] []
  | unicode {h₁ h₂ h₃ h₄ n₁ n₂ n₃ n₄ : ℕ} {text units : List ℕ} (digit₁ : IsHexDigit h₁ n₁)
      (digit₂ : IsHexDigit h₂ n₂) (digit₃ : IsHexDigit h₃ n₃) (digit₄ : IsHexDigit h₄ n₄)
      (tail : Unescaped text units) :
      Unescaped ('%'.toNat :: 'u'.toNat :: h₁ :: h₂ :: h₃ :: h₄ :: text)
        ((((n₁ * 16 + n₂) * 16 + n₃) * 16 + n₄) :: units)
  | byte {h₁ h₂ n₁ n₂ : ℕ} {text units : List ℕ} (digit₁ : IsHexDigit h₁ n₁)
      (digit₂ : IsHexDigit h₂ n₂) (tail : Unescaped text units) :
      Unescaped ('%'.toNat :: h₁ :: h₂ :: text) ((n₁ * 16 + n₂) :: units)
  | copied {c : ℕ} {text units : List ℕ} (other : ¬ StartsSequence (c :: text))
      (tail : Unescaped text units) : Unescaped (c :: text) (c :: units)

variable {c u : ℕ} {text units : List ℕ}

theorem exists_unescaped (text : List ℕ) : ∃ units, Unescaped text units := by
  induction hn : text.length using Nat.strong_induction_on generalizing text with
  | _ n ih =>
    subst hn
    by_cases hstarts : StartsSequence text
    · cases hstarts with
      | @unicode _ _ _ _ _ _ _ _ text d₁ d₂ d₃ d₄ =>
        obtain ⟨units, h⟩ := ih _ (by simp; omega) text rfl
        exact ⟨_, .unicode d₁ d₂ d₃ d₄ h⟩
      | @byte _ _ _ _ text d₁ d₂ =>
        obtain ⟨units, h⟩ := ih _ (by simp; omega) text rfl
        exact ⟨_, .byte d₁ d₂ h⟩
    · cases text with
      | nil => exact ⟨[], .nil⟩
      | cons c text =>
        obtain ⟨units, h⟩ := ih _ (by simp) text rfl
        exact ⟨_, .copied hstarts h⟩

theorem Unescaped.length_le (h : Unescaped text units) : units.length ≤ text.length := by
  induction h <;> simp only [length_nil, length_cons] <;> omega

theorem round_of_not_startsSequence (h : ¬ StartsSequence (c :: text)) :
    round (c :: text) = (c, 1) := by
  unfold round
  split_ifs with h1 h2 h3
  · match text with
    | u :: x₁ :: x₂ :: x₃ :: x₄ :: text =>
      simp only [Bool.and_eq_true, decide_eq_true_eq] at h1 h2
      obtain ⟨⟨rfl, -⟩, rfl⟩ := h1
      exact absurd (.unicode (isHexDigit_of_isASCIIHexDigit h2.1.1.1)
        (isHexDigit_of_isASCIIHexDigit h2.1.1.2) (isHexDigit_of_isASCIIHexDigit h2.1.2)
        (isHexDigit_of_isASCIIHexDigit h2.2)) h
    | [] | [_] | [_, _] | [_, _, _] | [_, _, _, _] => simp at h1
  · rfl
  · match text with
    | x₁ :: x₂ :: text =>
      simp only [Bool.and_eq_true, decide_eq_true_eq] at h3
      obtain ⟨⟨⟨rfl, -⟩, d₁⟩, d₂⟩ := h3
      exact absurd (.byte (isHexDigit_of_isASCIIHexDigit d₁) (isHexDigit_of_isASCIIHexDigit d₂)) h
    | [] | [_] => simp at h3
  · rfl

theorem ne_u_of_isHexDigit {n : ℕ} (h : IsHexDigit c n) : c ≠ 'u'.toNat := by
  rintro rfl
  exact absurd (isHexDigit_iff.mp h).1 (by decide)

theorem round_unicode {h₁ h₂ h₃ h₄ n₁ n₂ n₃ n₄ : ℕ} (d₁ : IsHexDigit h₁ n₁)
    (d₂ : IsHexDigit h₂ n₂) (d₃ : IsHexDigit h₃ n₃) (d₄ : IsHexDigit h₄ n₄) :
    round ('%'.toNat :: 'u'.toNat :: h₁ :: h₂ :: h₃ :: h₄ :: text) =
      (((n₁ * 16 + n₂) * 16 + n₃) * 16 + n₄, 6) := by
  obtain ⟨a₁, rfl⟩ := isHexDigit_iff.mp d₁
  obtain ⟨a₂, rfl⟩ := isHexDigit_iff.mp d₂
  obtain ⟨a₃, rfl⟩ := isHexDigit_iff.mp d₃
  obtain ⟨a₄, rfl⟩ := isHexDigit_iff.mp d₄
  simp [round, a₁, a₂, a₃, a₄, convertUnicode, convertHex]
  omega

theorem round_byte {h₁ h₂ n₁ n₂ : ℕ} (d₁ : IsHexDigit h₁ n₁) (d₂ : IsHexDigit h₂ n₂) :
    round ('%'.toNat :: h₁ :: h₂ :: text) = (n₁ * 16 + n₂, 3) := by
  obtain ⟨a₁, rfl⟩ := isHexDigit_iff.mp d₁
  obtain ⟨a₂, rfl⟩ := isHexDigit_iff.mp d₂
  have hu := ne_u_of_isHexDigit d₁
  simp_all [round, convertHex]

/-! ## A builder with reserved room -/

/-- The longest text that can have a result of 16-bit characters. -/
def maxConverted : ℕ := maxInternalLength false / 2

/-- What a builder for which `n` characters are reserved is after these code units. -/
inductive Reserved (n : ℕ) : StringBuilder → List ℕ → Prop
  | empty (zero : n = 0) : Reserved n {} []
  | narrow {text : List ℕ} (latin1 : ∀ c ∈ text, c < 256) :
      Reserved n ⟨some ⟨true, n⟩, text.length, text⟩ text
  | wide {capacity : ℕ} {text : List ℕ} (le : n ≤ capacity) (short : n ≤ maxConverted) :
      Reserved n ⟨some ⟨false, capacity⟩, text.length, text⟩ text
  | overflowed {b : StringBuilder} {text : List ℕ} (length_eq : b.m_length = 2 ^ 32 - 1)
      (full : b.hasRoom = false) (other : ¬ ∀ c ∈ text, c < 256) (long : maxConverted < n) :
      Reserved n b text

section
variable {n : ℕ} {b : StringBuilder} {is8Bit : Bool}

theorem reserved_reserveCapacity (hn : n ≤ maxLength) :
    Reserved n (StringBuilder.reserveCapacity n {}) [] := by
  rw [StringBuilder.reserveCapacity, StringBuilder.allocateBuffer, if_neg (by decide),
    show StringBuilder.is8Bit {} = true from rfl, maxInternalLength_true]
  dsimp only
  split_ifs with hpos hmax
  · omega
  · exact .narrow (forall_mem_nil _)
  · exact .empty (by omega)

section
variable (hn : n ≤ maxLength)
include hn

/-- **One code unit**, as long as there is room for it. -/
theorem Reserved.appendUChar (h : Reserved n b text) (hroom : text.length < n) :
    ∃ b', b.appendUChar u = some b' ∧ Reserved n b' (text ++ [u]) := by
  have hwrite : ∀ is8Bit capacity, n ≤ capacity → (is8Bit = true → u < 256) →
      StringBuilder.appendUChar u ⟨some ⟨is8Bit, capacity⟩, text.length, text⟩ =
        some ⟨some ⟨is8Bit, capacity⟩, (text ++ [u]).length, text ++ [u]⟩ := by
    intro is8Bit capacity hle hu
    rw [appendUChar_eq_extend (b := ⟨some ⟨is8Bit, capacity⟩, text.length, text⟩)
      (by dsimp only; omega) hu, extend_of_some u (by omega), if_pos (by omega)]
  rcases h with zero | latin1 | ⟨le, short⟩ | ⟨length_eq, full, other, long⟩
  · omega
  · by_cases hu : u < 256
    · refine ⟨_, hwrite true n le_rfl fun _ => hu, .narrow ?_⟩
      rw [forall_mem_append]
      exact ⟨latin1, by simpa using hu⟩
    rw [appendUChar_eq_upconvert (by dsimp only; omega) rfl (not_lt.mp hu)]
    refine ⟨_, upconvert_eq (decide_eq_false (by dsimp only; omega)) rfl rfl, ?_⟩
    have hmax : maxLength = 2147483647 := rfl
    have hinternal : maxInternalLength false = 2147483635 := by decide
    have hconverted : maxConverted = 1073741817 := by decide
    have hiff : expandedCapacity n (text.length + 1) ≤ maxInternalLength false ↔
        n ≤ maxConverted := by
      unfold expandedCapacity
      omega
    by_cases hshort : n ≤ maxConverted
    · rw [if_pos (hiff.mpr hshort)]
      have hlength : (text ++ [u]).length = text.length + 1 := length_append
      rw [← hlength]
      refine .wide ?_ hshort
      show n ≤ expandedCapacity n _
      unfold expandedCapacity
      omega
    · rw [if_neg (mt hiff.mp hshort)]
      refine .overflowed rfl (decide_eq_false ?_) (fun h => hu (h u (by simp))) (by omega)
      show ¬ 2 ^ 32 - 1 < n
      omega
  · exact ⟨_, hwrite false _ le (absurd · Bool.false_ne_true), .wide le short⟩
  · refine ⟨b, appendUChar_of_overflowed length_eq full, .overflowed length_eq full ?_ long⟩
    exact fun h => other fun x hx => h x (mem_append_left _ hx)

theorem Reserved.finish_eq (h : Reserved n b text) (hle : text.length ≤ n) :
    finish b = if (∀ c ∈ text, c < 256) ∨ n ≤ maxConverted then .value text else .outOfMemory := by
  have hnot : ∀ buffer, StringBuilder.hasOverflowed ⟨buffer, text.length, text⟩ = false :=
    fun _ => decide_eq_false (not_lt.mpr (hle.trans hn))
  unfold finish
  rcases h with zero | latin1 | ⟨le, short⟩ | ⟨length_eq, full, other, long⟩
  · rfl
  · rw [hnot]
    exact (if_pos (.inl latin1)).symm
  · rw [hnot]
    exact (if_pos (.inr short)).symm
  · rw [StringBuilder.hasOverflowed, length_eq]
    exact (if_neg fun h => h.elim other long.not_ge).symm

/-- One round of the loop. -/
theorem unescapeLoop_round {k : ℕ} {done : List ℕ} (hround : round (c :: text) = (u, k))
    (hu : is8Bit = true → k ≠ 6 → u < 256) (h : Reserved n b done) (hroom : done.length < n) :
    ∃ b', unescapeLoop is8Bit (c :: text) b = unescapeLoop is8Bit ((c :: text).drop k) b' ∧
      Reserved n b' (done ++ [u]) := by
  obtain ⟨b', hb', h'⟩ := h.appendUChar hn hroom
  refine ⟨b', ?_, h'⟩
  have happend : appendCopied (is8Bit && k ≠ 6) u b = b.appendUChar u := by
    unfold appendCopied
    split_ifs with h8
    · rw [Bool.and_eq_true, decide_eq_true_eq] at h8
      exact appendLChar_eq_appendUChar (hu h8.1 h8.2) b
    · rfl
  rw [unescapeLoop, hround, happend, hb']
  rfl

/-- **The loop** replaces the sequences. -/
theorem unescapeLoop_eq (h : Unescaped text units) {done : List ℕ} (hb : Reserved n b done)
    (hroom : done.length + text.length ≤ n) (h8 : is8Bit = true → ∀ c ∈ text, c < 256) :
    ∃ b', unescapeLoop is8Bit text b = finish b' ∧ Reserved n b' (done ++ units) := by
  induction h generalizing b done with
  | nil => exact ⟨b, by rw [unescapeLoop]; rfl, by rwa [append_nil]⟩
  | unicode d₁ d₂ d₃ d₄ _ ih =>
    simp only [length_cons] at hroom
    obtain ⟨b₁, hloop, hb₁⟩ := unescapeLoop_round hn (round_unicode d₁ d₂ d₃ d₄)
      (fun (_ : is8Bit = true) h => absurd rfl h) hb (by omega)
    obtain ⟨b', hrest, hb'⟩ := ih hb₁ (by rw [length_append]; simp; omega)
      fun h c hc => h8 h c (by simp [hc])
    exact ⟨b', hloop.trans hrest, by simpa using hb'⟩
  | byte d₁ d₂ _ ih =>
    simp only [length_cons] at hroom
    have := d₁.lt
    have := d₂.lt
    obtain ⟨b₁, hloop, hb₁⟩ := unescapeLoop_round hn (round_byte d₁ d₂)
      (fun (_ : is8Bit = true) _ => by omega) hb (by omega)
    obtain ⟨b', hrest, hb'⟩ := ih hb₁ (by rw [length_append]; simp; omega)
      fun h c hc => h8 h c (by simp [hc])
    exact ⟨b', hloop.trans hrest, by simpa using hb'⟩
  | copied other _ ih =>
    simp only [length_cons] at hroom
    obtain ⟨b₁, hloop, hb₁⟩ := unescapeLoop_round hn (round_of_not_startsSequence other)
      (fun h _ => h8 h _ mem_cons_self) hb (by omega)
    obtain ⟨b', hrest, hb'⟩ := ih hb₁ (by rw [length_append]; simp; omega)
      fun h c hc => h8 h c (mem_cons_of_mem _ hc)
    exact ⟨b', hloop.trans hrest, by simpa using hb'⟩
end
end

/-! ## Back from `escape` -/

theorem unescaped_byte (hu : u < 256) (tail : Unescaped text units) :
    Unescaped ('%'.toNat :: hex u 2 ++ text) (u :: units) := by
  rw [hex_eq u hu]
  have h := Unescaped.byte (isHexDigit_uppercaseHexDigit (u / 16) (by omega))
    (isHexDigit_uppercaseHexDigit (u % 16) (by omega)) tail
  rwa [Nat.div_add_mod'] at h

theorem unescaped_plain (hu : doNotEscape u = true) (tail : Unescaped text units) :
    Unescaped ([u] ++ text) (u :: units) := by
  refine .copied (fun h => ?_) tail
  have hpercent : u = '%'.toNat := by cases h <;> rfl
  rw [hpercent] at hu
  exact absurd hu (by decide)

/-- What a character is escaped as. -/
def escapedUnit (u : ℕ) : List ℕ :=
  if doNotEscape u then [u]
  else if u < 256 then '%'.toNat :: hex u 2
  else '%'.toNat :: 'u'.toNat :: (hex (u / 256) 2 ++ hex (u % 256) 2)

theorem unescaped_escapedUnit (hu : u < 65536) (tail : Unescaped text units) :
    Unescaped (escapedUnit u ++ text) (u :: units) := by
  unfold escapedUnit
  split_ifs with hplain hbyte
  · exact unescaped_plain hplain tail
  · exact unescaped_byte hbyte tail
  · rw [hex_eq _ (by omega), hex_eq _ (by omega)]
    have h := Unescaped.unicode (isHexDigit_uppercaseHexDigit (u / 256 / 16) (by omega))
      (isHexDigit_uppercaseHexDigit (u / 256 % 16) (by omega))
      (isHexDigit_uppercaseHexDigit (u % 256 / 16) (by omega))
      (isHexDigit_uppercaseHexDigit (u % 256 % 16) (by omega)) tail
    rwa [show ((u / 256 / 16 * 16 + u / 256 % 16) * 16 + u % 256 / 16) * 16 + u % 256 % 16 = u by
      omega] at h

theorem unescaped_flatMap (hunits : ∀ u ∈ units, u < 65536) :
    Unescaped (units.flatMap escapedUnit) units := by
  induction units with
  | nil => exact .nil
  | cons u units ih =>
    rw [forall_mem_cons] at hunits
    exact unescaped_escapedUnit hunits.1 (ih hunits.2)

theorem doNotEscape_lt (h : doNotEscape u = true) : u < 256 := by
  have hall : ∀ c ∈ ("ABCDEFGHIJKLMNOPQRSTUVWXYZ" ++ "abcdefghijklmnopqrstuvwxyz" ++ "0123456789" ++
      "*+-./@_").toList.map Char.toNat, c < 256 := by decide
  exact hall u (makeCharacterBitmap_eq_true.mp h)

theorem escapedUnit_lt (hu : u < 65536) : ∀ x ∈ escapedUnit u, x < 256 := by
  unfold escapedUnit
  split_ifs with hplain hbyte
  · simpa using doNotEscape_lt hplain
  · rw [forall_mem_cons]
    exact ⟨by decide, hex_lt u hbyte⟩
  · rw [forall_mem_cons, forall_mem_cons, forall_mem_append]
    exact ⟨by decide, by decide, hex_lt _ (by omega), hex_lt _ (by omega)⟩

theorem length_escapedUnit (hu : u < 65536) :
    0 < (escapedUnit u).length ∧ (escapedUnit u).length ≤ 6 := by
  unfold escapedUnit
  split_ifs
  · simp
  · simp [length_hex u ‹_›]
  · simp [length_hex (u / 256) (by omega), length_hex (u % 256) (by omega)]

/-! ## The builder of `escape` -/

section
variable {b : StringBuilder} {is8Bit : Bool}

/-- A round of either loop appends the character itself, or its escape through the adapters. -/
theorem escapeRound_eq (hu : u < 65536) (h8 : is8Bit = true → u < 256) (b : StringBuilder) :
    (if is8Bit then escape8 u b else escape16 u b) =
      if doNotEscape u then b.appendLChar u else b.appendFromAdapters (escapedUnit u) := by
  unfold escape8 escape16 escapedUnit
  by_cases hplain : doNotEscape u = true
  · have hlt := doNotEscape_lt hplain
    simp [hplain, Nat.mod_eq_of_lt hlt, not_le.mpr hlt, appendLChar_eq_appendUChar hlt]
  · by_cases hlt : u < 256
    · simp [hplain, hlt, Nat.mod_eq_of_lt hlt]
    · have hhigh : (u >>> 8) % 256 = u / 256 := by omega
      rw [if_neg hplain, if_neg hplain, if_neg hplain, if_neg fun h => hlt (h8 h),
        if_pos (not_lt.mp hlt), if_neg hlt, hhigh]

/-- One round: an escape ends the process if the builder has lost its buffer. -/
theorem escapeRound_written (h : Written b text) (hu : u < 65536)
    (h8 : is8Bit = true → u < 256) :
    (∃ b', (if is8Bit then escape8 u b else escape16 u b) = some b' ∧
      Written b' (text ++ escapedUnit u)) ∨
    maxLength < text.length ∧ (if is8Bit then escape8 u b else escape16 u b) = none := by
  rw [escapeRound_eq hu h8]
  by_cases hplain : doNotEscape u = true
  · rw [if_pos hplain, escapedUnit, if_pos hplain]
    exact .inl (h.appendLChar u)
  rw [if_neg hplain]
  obtain ⟨hpos, hle⟩ := length_escapedUnit hu
  unfold Written at h
  split_ifs at h with hfits
  · exact .inl (h.appendFromAdapters hpos (hle.trans (by decide)))
  · exact .inr ⟨not_le.mp hfits, h.appendFromAdapters _⟩

/-- **The loop** gives a value exactly if the text fits in a string. -/
theorem escapeLoop_eq_value {v : List ℕ} (h : Written b text)
    (hunits : ∀ u ∈ units, u < 65536 ∧ (is8Bit = true → u < 256)) :
    escapeLoop is8Bit units b = .value v ↔ text ++ units.flatMap escapedUnit = v ∧
      (text ++ units.flatMap escapedUnit).length ≤ maxLength := by
  induction units generalizing b text with
  | nil =>
    rw [escapeLoop, finish]
    unfold Written at h
    split_ifs at h with hle
    · simp [h.not_hasOverflowed, h.characters_eq, hle]
    · simp [h.hasOverflowed, hle]
  | cons u units ih =>
    rw [forall_mem_cons] at hunits
    rw [escapeLoop, flatMap_cons, ← append_assoc]
    obtain ⟨b', hb', h'⟩ | ⟨hlong, hnone⟩ := escapeRound_written h hunits.1.1 hunits.1.2
    · rw [hb']
      exact ih h' hunits.2
    · rw [hnone]
      refine ⟨fun h => (by cases h), fun h => absurd h.2 ?_⟩
      simp only [length_append]
      omega

/-- An escape behind the end of the longest text ends the process. -/
theorem escapeLoop_crashes {front rest : List ℕ} (h : Written b text)
    (hfront : ∀ u ∈ front, u < 65536 ∧ (is8Bit = true → u < 256)) (hplain : doNotEscape u ≠ true)
    (hu : u < 65536) (h8 : is8Bit = true → u < 256)
    (hlong : maxLength < (text ++ front.flatMap escapedUnit).length) :
    escapeLoop is8Bit (front ++ u :: rest) b = .crash := by
  induction front generalizing b text with
  | nil =>
    rw [flatMap_nil, append_nil] at hlong
    rw [Written, if_neg (not_le.mpr hlong)] at h
    rw [nil_append, escapeLoop, escapeRound_eq hu h8, if_neg hplain, h.appendFromAdapters]
    rfl
  | cons x front ih =>
    rw [forall_mem_cons] at hfront
    rw [flatMap_cons, ← append_assoc] at hlong
    rw [cons_append, escapeLoop]
    obtain ⟨b', hb', h'⟩ | ⟨-, hnone⟩ := escapeRound_written h hfront.1.1 hfront.1.2
    · rw [hb']
      exact ih h' hfront.2 hlong
    · rw [hnone]
      rfl
end

/-! ## Main result -/

/-- `unescape` gives back what `escape` was given. -/
def Inverts (s : StringImpl) : Prop :=
  ∃ text, globalFuncEscape s = .value text ∧
    ∀ t : StringImpl, t.characters = text → globalFuncUnescape t = .value s.characters

/-- `unescape` replaces the sequences of the string. -/
def Replaces (t : StringImpl) : Prop :=
  ∃ units, Unescaped t.characters units ∧ globalFuncUnescape t = .value units

/-- Both builders can take their results. -/
def EscapeFits (s : StringImpl) : Prop :=
  (s.characters.flatMap escapedUnit).length ≤ maxLength ∧
    ((∀ u ∈ s.characters, u < 256) ∨ (s.characters.flatMap escapedUnit).length ≤ maxConverted)

/-- The builder of `unescape` can take its result. -/
def UnescapeFits (t : StringImpl) : Prop :=
  t.length ≤ maxConverted ∨ ∀ units, Unescaped t.characters units → ∀ u ∈ units, u < 256

section
variable {s t : StringImpl}

theorem unescape_eq (ht : t.length ≤ maxLength) (h : Unescaped t.characters units) :
    globalFuncUnescape t = if (∀ u ∈ units, u < 256) ∨ t.length ≤ maxConverted then .value units
      else .outOfMemory := by
  have hlatin1 : t.is8Bit = true → ∀ c ∈ t.characters, c < 256 := by
    rcases t with ⟨characters8, latin1⟩ | _
    · exact fun _ => latin1
    · exact nofun
  obtain ⟨b, hloop, hb⟩ := unescapeLoop_eq ht h (reserved_reserveCapacity ht)
    (by simp [StringImpl.length]) hlatin1
  rw [globalFuncUnescape, hloop, hb.finish_eq ht h.length_le, nil_append]

theorem escape_eq_value {v : List ℕ} : globalFuncEscape s = .value v ↔
    s.characters.flatMap escapedUnit = v ∧
      (s.characters.flatMap escapedUnit).length ≤ maxLength := by
  have hempty : Written {} [] := filled_reserveCapacity (Nat.zero_le _)
  refine escapeLoop_eq_value hempty fun u hu => ⟨StringImpl.units s u hu, ?_⟩
  rcases s with ⟨characters8, latin1⟩ | _
  · exact fun _ => latin1 u hu
  · exact nofun

/-- **`unescape` and `escape`**: what they give is right exactly if it fits in their builders. -/
theorem unescape_escape_iff (s : StringImpl) (hs : s.length ≤ maxLength) :
    (Inverts s ↔ EscapeFits s) ∧ (Replaces s ↔ UnescapeFits s) := by
  have hback := unescaped_flatMap (StringImpl.units s)
  refine ⟨⟨?_, ?_⟩, ?_, ?_⟩
  · rintro ⟨text, hescape, hunescape⟩
    obtain ⟨rfl, hle⟩ := escape_eq_value.mp hescape
    refine ⟨hle, ?_⟩
    have hlt : ∀ x ∈ s.characters.flatMap escapedUnit, x < 256 := by
      intro x hx
      obtain ⟨u, hu, hx⟩ := mem_flatMap.mp hx
      exact escapedUnit_lt (StringImpl.units s u hu) x hx
    have hvalue := hunescape (.eightBit _ hlt) rfl
    rw [unescape_eq (t := .eightBit _ hlt) hle hback] at hvalue
    split_ifs at hvalue with hfits
    exact hfits
  · rintro ⟨hle, hfits⟩
    refine ⟨_, escape_eq_value.mpr ⟨rfl, hle⟩, fun t ht => ?_⟩
    have hlength : t.length = (s.characters.flatMap escapedUnit).length := congrArg _ ht
    rw [unescape_eq (by rwa [hlength]) (by rwa [ht]), hlength, if_pos hfits]
  · rintro ⟨units, -, hvalue⟩
    by_contra hfits
    simp only [UnescapeFits, not_or, not_forall] at hfits
    obtain ⟨hlong, units', hunits', u, hu, hother⟩ := hfits
    rw [unescape_eq hs hunits', if_neg fun h => h.elim (fun h => hother (h u hu)) hlong] at hvalue
    cases hvalue
  · intro hfits
    obtain ⟨units, hunits⟩ := exists_unescaped s.characters
    refine ⟨units, hunits, ?_⟩
    rw [unescape_eq hs hunits, if_pos]
    exact hfits.symm.imp_left fun h => h units hunits

theorem escapeFits_of_length_le (hs : s.length ≤ 2 ^ 27) : EscapeFits s := by
  have hle : (s.characters.flatMap escapedUnit).length ≤ 6 * s.length := by
    have hsum := sum_le_card_nsmul (s.characters.map fun u => (escapedUnit u).length) 6 (by
      intro x hx
      obtain ⟨u, hu, rfl⟩ := mem_map.mp hx
      exact (length_escapedUnit (StringImpl.units s u hu)).2)
    rwa [length_map, smul_eq_mul, mul_comm, ← length_flatMap] at hsum
  have hmax : maxConverted = 1073741817 := by decide
  have : maxLength = 2147483647 := rfl
  exact ⟨by omega, .inr (by omega)⟩
end

/-- The string `%😀 `, which has both kinds of escapes. -/
theorem unescape_escape_example :
    Inverts (.sixteenBit [0x25, 0xD83D, 0xDE00, 0x20] (by decide)) ∧
      Replaces (.sixteenBit [0x25, 0xD83D, 0xDE00, 0x20] (by decide)) := by
  obtain ⟨hinverts, hreplaces⟩ := unescape_escape_iff
    (.sixteenBit [0x25, 0xD83D, 0xDE00, 0x20] (by decide)) (by decide)
  exact ⟨hinverts.mpr (escapeFits_of_length_le (by decide)), hreplaces.mpr (.inl (by decide))⟩

/-- **A string whose escaping ends the process**: 2^30 spaces. -/
theorem escape_crashes_on_long_string :
    globalFuncEscape (.eightBit (replicate (2 ^ 30) 0x20)
        (fun c hc => by rw [eq_of_mem_replicate hc]; decide)) = .crash ∧
      (replicate (2 ^ 30) 0x20).length ≤ maxLength := by
  have hspaces : replicate (2 ^ 30) 0x20 = replicate (2 ^ 30 - 1) 0x20 ++ [0x20] := replicate_succ'
  refine ⟨?_, by rw [length_replicate]; decide⟩
  show escapeLoop true (replicate (2 ^ 30) 0x20) {} = .crash
  have hempty : Written {} [] := filled_reserveCapacity (Nat.zero_le _)
  rw [hspaces]
  refine escapeLoop_crashes hempty (fun u hu => ?_) (by decide) (by decide) (by decide) ?_
  · rw [eq_of_mem_replicate hu]
    decide
  · rw [nil_append, length_flatMap, map_replicate, sum_replicate]
    decide

end JscAndroid.Uri.PercentEscapes
