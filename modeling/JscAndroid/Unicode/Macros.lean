import JscAndroid.Unicode.Encodings

/-!
# ICU's macros for UTF-8 and UTF-16

The `U8_` and `U16_` macros that the code uses, as ICU documents them: code points, code units and
bytes are numbers, and `U8_APPEND_UNSAFE` writes `utf8`.
-/

namespace JscAndroid.Unicode.Macros

open Encodings Nat

variable {c : ℕ}

/-- `U8_NEXT`: the code point at the offset, none for an illegal sequence, and the next offset. -/
def u8Next (s : List ℕ) (i : ℕ) : Option ℕ × ℕ :=
  match firstUtf8 (s.drop i) with
  | some c => (some c, i + (utf8 c).length)
  | none => (none, i + 1)

/-- `U8_COUNT_TRAIL_BYTES`. -/
def u8CountTrailBytes (leadByte : ℕ) : ℕ :=
  if 0xC2 ≤ leadByte ∧ leadByte ≤ 0xF4 then
    (if 0xE0 ≤ leadByte then 1 else 0) + (if 0xF0 ≤ leadByte then 1 else 0) + 1
  else 0

/-- `U_IS_BMP`. -/
def isBmp (c : ℕ) : Bool := c < 0x10000

/-- `U16_IS_LEAD`. -/
def u16IsLead (c : ℕ) : Bool := 0xD800 ≤ c && c < 0xDC00

/-- `U16_IS_TRAIL`. -/
def u16IsTrail (c : ℕ) : Bool := 0xDC00 ≤ c && c < 0xE000

/-- `U16_GET_SUPPLEMENTARY`. -/
def u16GetSupplementary (lead trail : ℕ) : ℕ :=
  (lead <<< 10) + trail - ((0xD800 <<< 10) + 0xDC00 - 0x10000)

/-- `U16_LEAD`. -/
def u16Lead (c : ℕ) : ℕ := (c >>> 10) + 0xD7C0

/-- `U16_TRAIL`. -/
def u16Trail (c : ℕ) : ℕ := (c &&& 0x3FF) ||| 0xDC00

theorem utf16_of_not_bmp (h : ¬ isBmp c = true) : utf16 c = [u16Lead c, u16Trail c] := by
  have hle : ¬ c < 0x10000 := by simpa [isBmp] using h
  have htrail : u16Trail c = 0xDC00 + c % 0x400 := by
    rw [u16Trail, show (0x3FF : ℕ) = 2 ^ 10 - 1 by rfl, and_two_pow_sub_one_eq_mod, Nat.or_comm]
    exact (two_pow_add_eq_or_of_lt (i := 10) (mod_lt c (by decide)) 55).symm
  rw [utf16, u16Lead, if_neg hle, htrail, shiftRight_eq_div_pow, add_comm]

theorem utf16_of_bmp (h : isBmp c = true) : utf16 c = [c] := by
  rw [utf16, if_pos (by simpa [isBmp] using h)]

theorem u16GetSupplementary_of_utf16 {l t : ℕ} (h : utf16 c = [l, t]) :
    u16GetSupplementary l t = c := by
  unfold utf16 at h
  split_ifs at h with hbmp
  · simp at h
  obtain ⟨rfl, rfl⟩ := h
  unfold u16GetSupplementary
  omega

theorem u8Next_append (hc : IsScalar c) (front rest : List ℕ) :
    u8Next (front ++ (utf8 c ++ rest)) front.length = (some c, (front ++ utf8 c).length) := by
  rw [u8Next, List.drop_left, firstUtf8_append hc, List.length_append]

theorem u8CountTrailBytes_utf8 (hc : c < 0x110000) :
    ∃ b tail, utf8 c = b :: tail ∧ u8CountTrailBytes b = tail.length := by
  unfold utf8 u8CountTrailBytes
  split_ifs with h1 h2 h3
  · exact ⟨_, _, rfl, by rw [if_neg (by omega)]; rfl⟩
  · refine ⟨_, _, rfl, ?_⟩
    rw [if_pos (by omega), if_neg (by omega), if_neg (by omega)]
    rfl
  · refine ⟨_, _, rfl, ?_⟩
    rw [if_pos (by omega), if_pos (by omega), if_neg (by omega)]
    rfl
  · refine ⟨_, _, rfl, ?_⟩
    rw [if_pos (by omega), if_pos (by omega), if_pos (by omega)]
    rfl

end JscAndroid.Unicode.Macros
