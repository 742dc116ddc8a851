import JscAndroid.Uri.Coding

/-!
# What decoding a URI gives

`Unescapes reserved` relates a text to what its escapes stand for, and `IllFormed reserved` says
that there is a `%` that does not start the escapes of a scalar value. The code follows these two,
as far as its `StringBuilder` can take the result.
-/

namespace JscAndroid.Uri

open Unicode.Encodings Unicode.Macros Wtf.StringBuilders List Option
open Wtf.HexDigits (IsHexDigit isASCIIHexDigit toASCIIHexValue convertHex isHexDigit_iff
  isHexDigit_of_isASCIIHexDigit)

variable {text escapes units : List ℕ} {character : ℕ} {b : StringBuilder}

/-- The bytes are written as escapes `%XY`. -/
inductive Spells : List ℕ → List ℕ → Prop
  | nil : Spells [] []
  | cons {b h₁ h₂ n₁ n₂ : ℕ} {bytes text : List ℕ} (digit₁ : IsHexDigit h₁ n₁)
      (digit₂ : IsHexDigit h₂ n₂) (value : b = n₁ * 16 + n₂) (tail : Spells bytes text) :
      Spells (b :: bytes) ('%'.toNat :: h₁ :: h₂ :: text)

/-- What the escapes in a text stand for, where those of reserved characters are kept. -/
inductive Unescapes (reserved : Bitmap) : List ℕ → List ℕ → Prop
  | nil : Unescapes reserved [] []
  | plain {c : ℕ} {text units : List ℕ} (notEscape : c ≠ '%'.toNat)
      (tail : Unescapes reserved text units) : Unescapes reserved (c :: text) (c :: units)
  | replaced {character : ℕ} {escapes text units : List ℕ} (scalar : IsScalar character)
      (spells : Spells (utf8 character) escapes)
      (free : ¬ (character < 128 ∧ reserved character = true))
      (tail : Unescapes reserved text units) :
      Unescapes reserved (escapes ++ text) (utf16 character ++ units)
  | kept {character : ℕ} {escapes text units : List ℕ} (ascii : character < 128)
      (spells : Spells [character] escapes) (isReserved : reserved character = true)
      (tail : Unescapes reserved text units) :
      Unescapes reserved (escapes ++ text) (escapes ++ units)

/-- The text starts with the escapes of a scalar value. -/
def StartsEscape (text : List ℕ) : Prop :=
  ∃ character escapes rest, IsScalar character ∧ Spells (utf8 character) escapes ∧
    text = escapes ++ rest

/-- A `%` that starts an escape is not followed by the digits and escapes of a scalar value. -/
def IllFormed (reserved : Bitmap) (text : List ℕ) : Prop :=
  ∃ front rest units, text = front ++ '%'.toNat :: rest ∧ Unescapes reserved front units ∧
    ¬ StartsEscape ('%'.toNat :: rest)

/-! ## One escape sequence -/

theorem Spells.length_eq {bytes : List ℕ} (h : Spells bytes text) :
    text.length = bytes.length * 3 := by
  induction h with
  | nil => rfl
  | cons _ _ _ _ ih =>
    simp only [length_cons]
    omega

theorem convertHex_of_digits {h₁ h₂ n₁ n₂ : ℕ} (digit₁ : IsHexDigit h₁ n₁)
    (digit₂ : IsHexDigit h₂ n₂) :
    (isASCIIHexDigit h₁ && isASCIIHexDigit h₂) = true ∧ convertHex h₁ h₂ = n₁ * 16 + n₂ := by
  obtain ⟨htrue₁, hvalue₁⟩ := isHexDigit_iff.mp digit₁
  obtain ⟨htrue₂, hvalue₂⟩ := isHexDigit_iff.mp digit₂
  rw [htrue₁, htrue₂, convertHex, hvalue₁, hvalue₂]
  exact ⟨rfl, rfl⟩

theorem IsHexDigit.ne_percent {h n : ℕ} (digit : IsHexDigit h n) : h ≠ '%'.toNat := by
  rintro rfl
  have := (isHexDigit_iff.mp digit).1
  revert this
  decide

theorem sequenceAfter_of_spells {bytes : List ℕ} (h : Spells bytes text) (rest : List ℕ) :
    sequenceAfter bytes.length (text ++ rest) = some bytes := by
  induction h with
  | nil => rfl
  | cons digit₁ digit₂ value _ ih =>
    obtain ⟨htrue, hvalue⟩ := convertHex_of_digits digit₁ digit₂
    simp only [length_cons, cons_append, sequenceAfter, decide_true, Bool.true_and, htrue,
      if_true, ih, map_some, hvalue, value]

theorem spells_of_sequenceAfter {n : ℕ} {bytes : List ℕ} (h : sequenceAfter n text = some bytes) :
    bytes.length = n ∧ ∃ escapes rest, Spells bytes escapes ∧ text = escapes ++ rest := by
  fun_induction sequenceAfter n text generalizing bytes with
  | case1 text =>
    obtain rfl := some.inj h
    exact ⟨rfl, [], text, .nil, rfl⟩
  | case2 n q0 q1 q2 q hcond ih =>
    obtain ⟨tail, htail, rfl⟩ := map_eq_some_iff.mp h
    obtain ⟨hlength, escapes, rest, hspells, rfl⟩ := ih htail
    simp only [Bool.and_eq_true, decide_eq_true_eq] at hcond
    obtain ⟨⟨rfl, h1⟩, h2⟩ := hcond
    refine ⟨by simp [hlength], _, rest, .cons (isHexDigit_of_isASCIIHexDigit h1)
      (isHexDigit_of_isASCIIHexDigit h2) rfl hspells, rfl⟩
  | case3 => cases h
  | case4 => cases h

/-- **The escapes at a `%`** are decoded exactly if they are those of a scalar value. -/
theorem escapeAt_of_spells (scalar : IsScalar character) (spells : Spells (utf8 character) escapes)
    (rest : List ℕ) : escapeAt (escapes ++ rest) = some (escapes.length, character) := by
  obtain ⟨b, tail, hutf8, hcount⟩ := u8CountTrailBytes_utf8 scalar.lt
  have hnext := u8Next_append scalar [] []
  rw [hutf8] at spells hnext
  rcases spells with _ | ⟨digit₁, digit₂, value, hspells⟩
  obtain ⟨htrue, hvalue⟩ := convertHex_of_digits digit₁ digit₂
  have hlength := hspells.length_eq
  simp only [nil_append, append_nil, length_nil] at hnext
  simp only [cons_append, escapeAt, htrue, if_true, hvalue, ← value, hcount,
    Nat.add_sub_cancel_left, sequenceAfter_of_spells hspells rest, hnext]
  rw [if_pos (by simp only [length_cons, length_append]; omega)]
  simp only [length_cons, some.injEq, Prod.mk.injEq, and_true]
  omega

theorem spells_of_escapeAt {charLen : ℕ} (hpercent : text.head? = some '%'.toNat)
    (h : escapeAt text = some (charLen, character)) :
    IsScalar character ∧ ∃ escapes rest, Spells (utf8 character) escapes ∧ text =
      escapes ++ rest := by
  unfold escapeAt at h
  split at h
  swap
  · cases h
  rename_i p0 p1 p2 p
  obtain rfl : p0 = '%'.toNat := some.inj hpercent
  dsimp only at h
  split_ifs at h with hdigits hlength
  cases hseq : sequenceAfter (1 + u8CountTrailBytes (convertHex p1 p2) - 1) p with
  | none =>
    rw [hseq] at h
    cases h
  | some tail =>
    rw [hseq] at h
    dsimp only at h
    obtain ⟨htail, escapes, rest, hspells, rfl⟩ := spells_of_sequenceAfter hseq
    cases hfirst : firstUtf8 (convertHex p1 p2 :: tail) with
    | none =>
      rw [u8Next, drop_zero, hfirst] at h
      cases h
    | some c =>
      rw [u8Next, drop_zero, hfirst] at h
      obtain ⟨-, rfl⟩ := Prod.mk.inj (some.inj h)
      obtain ⟨hscalar, beyond, heq⟩ := firstUtf8_eq_some hfirst
      obtain ⟨b, bytes, hutf8, hcount⟩ := u8CountTrailBytes_utf8 hscalar.lt
      rw [hutf8, cons_append] at heq
      obtain ⟨rfl, rfl⟩ := heq
      have hnil : beyond = [] := by
        rw [length_append] at htail
        rw [← length_eq_zero_iff]
        omega
      rw [Bool.and_eq_true] at hdigits
      refine ⟨hscalar, '%'.toNat :: p1 :: p2 :: escapes, rest, ?_, rfl⟩
      rw [hutf8]
      rw [hnil, append_nil] at hspells
      exact .cons (isHexDigit_of_isASCIIHexDigit hdigits.1)
        (isHexDigit_of_isASCIIHexDigit hdigits.2) rfl hspells

theorem escapeAt_eq_none_iff (rest : List ℕ) :
    escapeAt ('%'.toNat :: rest) = none ↔ ¬ StartsEscape ('%'.toNat :: rest) := by
  constructor
  · rintro hnone ⟨character, escapes, rest', scalar, spells, heq⟩
    rw [heq, escapeAt_of_spells scalar spells] at hnone
    cases hnone
  · intro hnot
    cases h : escapeAt ('%'.toNat :: rest) with
    | none => rfl
    | some escape =>
      obtain ⟨hscalar, escapes, rest', hspells, heq⟩ := spells_of_escapeAt rfl h
      exact absurd ⟨_, escapes, rest', hscalar, hspells, heq⟩ hnot

/-! ## One round -/

section
variable {reserved : Bitmap}

theorem decodeRound_plain {c : ℕ} (hc : c ≠ '%'.toNat) (rest : List ℕ) :
    decodeRound reserved true (c :: rest) = .copy [] := by
  rw [decodeRound, if_neg]
  rintro h
  exact hc (some.inj h)

theorem Spells.head?_eq {b : ℕ} {bytes : List ℕ} (h : Spells (b :: bytes) escapes) (rest : List ℕ) :
    (escapes ++ rest).head? = some '%'.toNat := by
  cases h
  rfl

theorem head?_of_spells_utf8 (h : Spells (utf8 character) escapes) (rest : List ℕ) :
    (escapes ++ rest).head? = some '%'.toNat := by
  obtain ⟨b, bytes, hutf8⟩ := exists_cons_of_ne_nil (utf8_ne_nil character)
  rw [hutf8] at h
  exact h.head?_eq rest

theorem decodeRound_replaced (scalar : IsScalar character)
    (spells : Spells (utf8 character) escapes)
    (free : ¬ (character < 128 ∧ reserved character = true)) (rest : List ℕ) :
    decodeRound reserved true (escapes ++ rest) = .replace (utf16 character) escapes.length := by
  rw [decodeRound, if_pos (head?_of_spells_utf8 spells rest), escapeAt_of_spells scalar spells]
  dsimp only
  unfold replaceUnlessReserved
  by_cases hbmp : isBmp character = true
  · have hcond : (decide (character ≥ 128) || !reserved character) = true := by
      rw [Bool.or_eq_true, decide_eq_true_eq]
      by_cases hascii : character < 128
      · exact .inr (by simpa [hascii] using free)
      · exact .inl (not_lt.mp hascii)
    rw [hbmp, utf16_of_bmp hbmp, hcond]
    rfl
  · have hcond : (decide (u16Trail character ≥ 128) || !reserved (u16Trail character)) = true := by
      rw [Bool.or_eq_true, decide_eq_true_eq]
      refine .inl ?_
      exact le_trans (by decide) Nat.right_le_or
    rw [utf16_of_not_bmp hbmp, Bool.eq_false_iff.mpr hbmp, hcond]
    rfl

theorem decodeRound_kept (ascii : character < 128) (spells : Spells [character] escapes)
    (isReserved : reserved character = true) (rest : List ℕ) :
    decodeRound reserved true (escapes ++ rest) = .copy [] := by
  have hscalar : IsScalar character := .inl (by omega)
  have hutf8 : utf8 character = [character] := by
    rw [utf8, if_pos ascii]
  have hbmp : isBmp character = true := decide_eq_true (by omega)
  have hcond : (decide (character ≥ 128) || !reserved character) = false := by
    rw [isReserved]
    simpa using ascii
  rw [decodeRound, if_pos (spells.head?_eq rest), escapeAt_of_spells hscalar (by rwa [hutf8])]
  dsimp only
  unfold replaceUnlessReserved
  rw [hbmp, hcond]
  rfl

theorem decodeRound_illFormed {rest : List ℕ} (h : ¬ StartsEscape ('%'.toNat :: rest)) :
    decodeRound reserved true ('%'.toNat :: rest) = .throw := by
  rw [decodeRound, (escapeAt_eq_none_iff rest).mpr h]
  rfl
end

/-! ## All rounds -/

theorem holds_foldlM (h : Holds b text) (units : List ℕ)
    (hmax : text.length + units.length ≤ maxLength) :
    ∃ b', units.foldlM (fun builder u => builder.appendUChar u) b = some b' ∧
      Holds b' (text ++ units) := by
  induction units generalizing b text with
  | nil => exact ⟨b, rfl, by rwa [append_nil]⟩
  | cons u units ih =>
    rw [length_cons] at hmax
    obtain ⟨b₁, hb₁, hholds₁⟩ := h.appendUChar (by omega)
    obtain ⟨b', hb', hholds⟩ := ih hholds₁ (by
      simp only [length_append, length_cons, length_nil]
      omega)
    refine ⟨b', ?_, by simpa using hholds⟩
    rwa [foldlM_cons, hb₁]

/-- **Any run of appends** of code units: the builder has overflowed just if they do not fit, and
otherwise holds them, in 8-bit characters if it can. -/
theorem appendUChar_run (units : List ℕ) (hmax : units.length ≤ maxLength) :
    ∃ b, units.foldlM (fun builder u => builder.appendUChar u) ({} : StringBuilder) = some b ∧
      (b.hasOverflowed = true ↔ ¬ Fits units) ∧
      (Fits units → b.characters = units ∧ (b.is8Bit = true ↔ ∀ c ∈ units, c < 256)) := by
  obtain ⟨b, hb, h⟩ := holds_foldlM .empty units (by simpa using hmax)
  obtain ⟨hfits, hlong⟩ := h.result hmax
  refine ⟨b, hb, ⟨fun hover hfit => ?_, hlong⟩, fun hfit => ⟨(hfits hfit).2, ?_⟩⟩
  · rw [(hfits hfit).1] at hover
    cases hover
  · rcases h with _ | ⟨latin1, -⟩ | ⟨other, -, -, -, -⟩ | ⟨-, -, long⟩
    · simp [StringBuilder.is8Bit]
    · exact iff_of_true rfl latin1
    · exact iff_of_false (by simp [StringBuilder.is8Bit]) other
    · exact absurd hfit long

/-- An 8-bit builder goes over to 16 bits. -/
theorem appendUChar_run_mixed : ∃ b, [0x61, 0x3b1].foldlM (fun builder u => builder.appendUChar u)
    ({} : StringBuilder) = some b ∧ b.characters = [0x61, 0x3b1] := by
  obtain ⟨b, hb, -, h⟩ := appendUChar_run [0x61, 0x3b1] (by decide)
  exact ⟨b, hb, (h (by decide)).1⟩

theorem Unescapes.length_le {reserved : Bitmap} (h : Unescapes reserved text units) :
    units.length ≤ text.length := by
  induction h with
  | nil => exact le_rfl
  | plain _ _ ih =>
    simp only [length_cons]
    omega
  | @replaced character _ _ _ _ spells _ _ ih =>
    have hlength := spells.length_eq
    have := (length_utf16_le character).1
    simp only [length_append]
    omega
  | kept _ _ _ _ ih =>
    simp only [length_append]
    omega

section
variable {is8Bit : Bool} {reserved : Bitmap}

theorem decodeLoop_copy {c : ℕ} {rest : List ℕ} {fuel : ℕ}
    (hround : decodeRound reserved true (c :: rest) = .copy []) (hlatin1 : is8Bit = true → c < 256)
    (h : Holds b text) (hmax : text.length + 1 ≤ maxLength) :
    ∃ b', decodeLoop is8Bit reserved true (fuel + 1) (c :: rest) b =
      decodeLoop is8Bit reserved true fuel rest b' ∧ Holds b' (text ++ [c]) := by
  obtain ⟨b', hb', hholds⟩ := h.appendUChar hmax
  refine ⟨b', ?_, hholds⟩
  have happend : appendCopied is8Bit c b = some b' := by
    unfold appendCopied
    split_ifs with h8
    · rw [appendLChar_eq_appendUChar (hlatin1 h8), hb']
    · exact hb'
  rw [decodeLoop, hround]
  dsimp only
  rw [foldlM_nil, pure_bind, happend]

theorem decodeLoop_replace {p : List ℕ} {charLen : ℕ} {fuel : ℕ} (hp : p ≠ [])
    (hround : decodeRound reserved true p = .replace units charLen) (h : Holds b text)
    (hmax : text.length + units.length ≤ maxLength) :
    ∃ b', decodeLoop is8Bit reserved true (fuel + 1) p b =
      decodeLoop is8Bit reserved true fuel (p.drop charLen) b' ∧ Holds b' (text ++ units) := by
  obtain ⟨b', hb', hholds⟩ := holds_foldlM h units hmax
  refine ⟨b', ?_, hholds⟩
  obtain ⟨c, rest, rfl⟩ := exists_cons_of_ne_nil hp
  rw [decodeLoop, hround]
  dsimp only
  rw [hb']

/-- **A front that is well formed**: the loop goes behind it, and the builder holds what it stands
for. -/
theorem decodeLoop_front {front : List ℕ} (h : Unescapes reserved front units) (rest : List ℕ)
    (hb : Holds b text) (hmax : text.length + units.length ≤ maxLength) (fuel : ℕ)
    (hfuel : (front ++ rest).length ≤ fuel) (hlatin1 : is8Bit = true → ∀ c ∈ front, c < 256) :
    ∃ b' fuel', decodeLoop is8Bit reserved true fuel (front ++ rest) b =
      decodeLoop is8Bit reserved true fuel' rest b' ∧ Holds b' (text ++ units) ∧
        rest.length ≤ fuel' := by
  induction h generalizing b text fuel with
  | nil => exact ⟨b, fuel, rfl, by rwa [append_nil], hfuel⟩
  | @plain c front units notEscape tail ih =>
    obtain ⟨fuel, rfl⟩ : ∃ n, fuel = n + 1 := ⟨fuel - 1, by simp at hfuel; omega⟩
    simp only [length_cons] at hmax
    obtain ⟨b₁, heq₁, hholds₁⟩ := decodeLoop_copy
      (decodeRound_plain notEscape (front ++ rest))
      (fun h8 => hlatin1 h8 c mem_cons_self) hb (by omega)
    obtain ⟨b', fuel', heq, hholds, hle⟩ := ih hholds₁
      (by simp only [length_append, length_cons, length_nil]; omega)
      fuel (by simpa using hfuel) fun h8 x hx => hlatin1 h8 x (mem_cons_of_mem _ hx)
    refine ⟨b', fuel', heq₁.trans heq, by simpa using hholds, hle⟩
  | @replaced character escapes front units scalar spells free tail ih =>
    have hlength := spells.length_eq
    have hpos := length_pos_iff.mpr (utf8_ne_nil character)
    simp only [length_append] at hmax hfuel
    obtain ⟨fuel, rfl⟩ : ∃ n, fuel = n + 1 := ⟨fuel - 1, by omega⟩
    obtain ⟨b₁, heq₁, hholds₁⟩ := decodeLoop_replace
      (append_ne_nil_of_left_ne_nil (ne_nil_of_length_pos (by omega)) _)
      (decodeRound_replaced scalar spells free (front ++ rest)) hb (by omega)
    obtain ⟨b', fuel', heq, hholds, hle⟩ := ih hholds₁
      (by simp only [length_append]; omega) fuel
      (by simp only [length_append]; omega)
      fun h8 x hx => hlatin1 h8 x (mem_append_right _ hx)
    rw [drop_left] at heq₁
    rw [append_assoc]
    exact ⟨b', fuel', heq₁.trans heq, by rwa [← append_assoc], hle⟩
  | @kept character escapes front units ascii spells isReserved tail ih =>
    have hround := decodeRound_kept ascii spells isReserved (front ++ rest)
    rcases spells with _ | @⟨_, h₁, h₂, _, _, _, _, digit₁, digit₂, -, ⟨⟩⟩
    simp only [cons_append, nil_append, length_cons] at *
    obtain ⟨fuel, rfl⟩ : ∃ n, fuel = n + 3 := ⟨fuel - 3, by omega⟩
    have hmem : is8Bit = true → '%'.toNat < 256 ∧ h₁ < 256 ∧ h₂ < 256 ∧ ∀ c ∈ front, c < 256 := by
      simpa only [forall_mem_cons] using hlatin1
    -- the three characters are copied one by one
    obtain ⟨b₁, heq₁, hholds₁⟩ := decodeLoop_copy hround
      (fun h8 => (hmem h8).1) hb (by omega)
    obtain ⟨b₂, heq₂, hholds₂⟩ := decodeLoop_copy
      (decodeRound_plain (IsHexDigit.ne_percent digit₁)
        (h₂ :: (front ++ rest))) (fun h8 => (hmem h8).2.1) hholds₁
      (by simp only [length_append, length_cons, length_nil]; omega)
    obtain ⟨b₃, heq₃, hholds₃⟩ := decodeLoop_copy
      (decodeRound_plain (IsHexDigit.ne_percent digit₂) (front ++ rest))
      (fun h8 => (hmem h8).2.2.1) hholds₂
      (by simp only [length_append, length_cons, length_nil]; omega)
    obtain ⟨b', fuel', heq, hholds, hle⟩ := ih hholds₃
      (by simp only [length_append, length_cons, length_nil]; omega) fuel
      (by omega) fun h8 => (hmem h8).2.2.2
    exact ⟨b', fuel', heq₁.trans (heq₂.trans (heq₃.trans heq)), by simpa using hholds, hle⟩
end

/-! ## Every text -/

section
variable {reserved : Bitmap}

theorem unescapes_of_escape (scalar : IsScalar character) (spells : Spells (utf8 character) escapes)
    (tail : Unescapes reserved text units) :
    ∃ units', Unescapes reserved (escapes ++ text) units' := by
  by_cases hkept : character < 128 ∧ reserved character = true
  · rw [utf8, if_pos hkept.1] at spells
    exact ⟨_, .kept hkept.1 spells hkept.2 tail⟩
  · exact ⟨_, .replaced scalar spells hkept tail⟩

theorem IllFormed.append {piece : List ℕ} (h : IllFormed reserved text)
    (hpiece : ∀ front units, Unescapes reserved front units →
      ∃ units', Unescapes reserved (piece ++ front) units') :
    IllFormed reserved (piece ++ text) := by
  obtain ⟨front, rest, units, rfl, hfront, hnot⟩ := h
  obtain ⟨units', hunits'⟩ := hpiece front units hfront
  exact ⟨piece ++ front, rest, units', (append_assoc _ _ _).symm, hunits', hnot⟩

theorem unescapes_or_illFormed (reserved : Bitmap) (text : List ℕ) :
    (∃ units, Unescapes reserved text units) ∨ IllFormed reserved text := by
  induction hn : text.length using Nat.strong_induction_on generalizing text with
  | _ n ih =>
  subst hn
  match text with
  | [] => exact .inl ⟨[], .nil⟩
  | c :: rest =>
    by_cases hc : c = '%'.toNat
    swap
    · rcases ih rest.length (Nat.lt_succ_self _) rest rfl with ⟨units, hunits⟩ | hill
      · exact .inl ⟨_, .plain hc hunits⟩
      · have hill' : IllFormed reserved ([c] ++ rest) :=
          hill.append fun front units h => ⟨_, .plain hc h⟩
        exact .inr hill'
    subst hc
    by_cases hstarts : StartsEscape ('%'.toNat :: rest)
    swap
    · exact .inr ⟨[], rest, [], rfl, .nil, hstarts⟩
    obtain ⟨character, escapes, rest', scalar, spells, heq⟩ := hstarts
    have hlength := spells.length_eq
    have hpos := length_pos_iff.mpr (utf8_ne_nil character)
    rw [heq]
    have hlt : rest'.length < ('%'.toNat :: rest).length := by
      rw [heq, length_append]
      omega
    rcases ih rest'.length hlt rest' rfl with ⟨units, hunits⟩ | hill
    · exact .inl (unescapes_of_escape scalar spells hunits)
    · exact .inr (hill.append fun front units h => unescapes_of_escape scalar spells h)

theorem StringImpl.latin1 (s : StringImpl) (h8 : s.is8Bit = true) : ∀ c ∈ s.characters,
    c < 256 := by
  rcases s with ⟨characters8, latin1⟩ | ⟨characters16, units⟩
  · exact latin1
  · cases h8

variable {s : StringImpl}

/-- **Decoding a well-formed text** gives what it stands for, if the builder can take it. -/
theorem decode_of_unescapes (hs : s.length ≤ maxLength)
    (h : Unescapes reserved s.characters units) :
    decode s reserved true = some (if Fits units then .value units else .outOfMemory) := by
  have hunits : units.length ≤ maxLength := h.length_le.trans hs
  obtain ⟨b, fuel, heq, hholds, -⟩ := decodeLoop_front h [] .empty
    (by simpa using hunits) s.length (by simp [StringImpl.length]) (StringImpl.latin1 s)
  obtain ⟨hfits, hlong⟩ := hholds.result hunits
  rw [append_nil] at heq
  rw [decode, heq, decodeLoop]
  unfold finish
  by_cases hfit : Fits units
  · rw [if_pos hfit, (hfits hfit).1, (hfits hfit).2]
    rfl
  · rw [if_neg hfit, hlong hfit]
    rfl

/-- **Decoding an ill-formed text** throws. -/
theorem decode_of_illFormed (hs : s.length ≤ maxLength) (h : IllFormed reserved s.characters) :
    decode s reserved true = some (.uriError "URI error") := by
  obtain ⟨front, rest, units, htext, hfront, hnot⟩ := h
  have hlength := congrArg length htext
  rw [length_append] at hlength
  have hunits : units.length ≤ maxLength := by
    have := hfront.length_le
    unfold StringImpl.length at hs
    omega
  obtain ⟨b, fuel, heq, -, hfuel⟩ := decodeLoop_front hfront ('%'.toNat :: rest) .empty
    (by simpa using hunits) s.length (by rw [← htext]; exact le_rfl)
    fun (h8 : s.is8Bit = true) c hc => StringImpl.latin1 s h8 c (by
      rw [htext]
      exact mem_append_left _ hc)
  obtain ⟨fuel, rfl⟩ : ∃ n, fuel = n + 1 := ⟨fuel - 1, by simp at hfuel; omega⟩
  rw [decode, htext, heq, decodeLoop, decodeRound_illFormed hnot]

theorem not_illFormed_of_unescapes (hs : s.length ≤ maxLength)
    (h : Unescapes reserved s.characters units) : ¬ IllFormed reserved s.characters := by
  intro hill
  have heq := (decode_of_unescapes hs h).symm.trans (decode_of_illFormed hs hill)
  split_ifs at heq <;> cases heq
end

/-! ## The specification -/

def Outcome.Throws : Outcome → Prop
  | .uriError _ => True
  | .outOfMemory => True
  | _ => False

/-- What decoding a string should do: it throws exactly if the string is ill formed, and gives what
the string stands for otherwise. -/
structure DecodesAsSpecified (decode : StringImpl → Option Outcome) (reserved : Bitmap)
    (s : StringImpl) : Prop where
  throws_iff : (∃ outcome ∈ decode s, outcome.Throws) ↔ IllFormed reserved s.characters
  value : ¬ IllFormed reserved s.characters →
    ∃ units, decode s = some (.value units) ∧ Unescapes reserved s.characters units

/-- The builder can take what the string stands for. -/
def DecodingFits (reserved : Bitmap) (s : StringImpl) : Prop :=
  ∀ units, Unescapes reserved s.characters units → Fits units

/-- **Decoding is as specified** exactly if the builder can take the result. -/
theorem decodesAsSpecified_iff (reserved : Bitmap) {s : StringImpl} (hs : s.length ≤ maxLength) :
    DecodesAsSpecified (decode · reserved true) reserved s ↔ DecodingFits reserved s := by
  constructor
  · intro h units hunits
    obtain ⟨units', hvalue, -⟩ := h.value (not_illFormed_of_unescapes hs hunits)
    by_contra hfit
    rw [decode_of_unescapes hs hunits, if_neg hfit] at hvalue
    cases hvalue
  · intro hfits
    by_cases hill : IllFormed reserved s.characters
    · refine ⟨⟨fun _ => hill, fun _ => ⟨_, decode_of_illFormed hs hill, trivial⟩⟩,
        fun h => absurd hill h⟩
    · obtain ⟨units, hunits⟩ := (unescapes_or_illFormed reserved s.characters).resolve_right hill
      have hvalue := decode_of_unescapes hs hunits
      rw [if_pos (hfits units hunits)] at hvalue
      refine ⟨⟨?_, fun h => absurd h hill⟩, fun _ => ⟨units, hvalue, hunits⟩⟩
      rintro ⟨outcome, houtcome, hthrows⟩
      rw [hvalue] at houtcome
      cases houtcome
      cases hthrows

end JscAndroid.Uri
