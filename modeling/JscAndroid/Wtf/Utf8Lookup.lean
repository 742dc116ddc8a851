import JscAndroid.Unicode.Macros
import JscAndroid.Wtf.StringBuilders
import JscAndroid.Wtf.StringHashing

/-!
# Looking up an atom string by UTF-8

`calculateStringHashAndLengthFromUTF8MaskingTop8Bits` and the comparisons of UTF8Conversion.cpp, and
`HashAndUTF8CharactersTranslator::equal` of AtomStringImpl.cpp. Bytes and code units are numbers;
a comparison gives no value if it reads a string beyond its end.
-/

namespace JscAndroid.Wtf.Utf8Lookup

open Unicode.Encodings Unicode.Macros StringHashing List Option Nat
open StringBuilders (StringImpl)

variable {cs : List ℕ} {fuel : ℕ} {hasher : StringHasher}

/-- A number that is stored in an `int`. -/
def toInt (n : ℕ) : ℤ := (BitVec.ofNat 32 n).toInt

/-- The value of a `char`, which is a signed type on some targets only. -/
def charValue (signedChar : Bool) (byte : ℕ) : ℤ :=
  if signedChar ∧ 128 ≤ byte then byte - 256 else byte

def isASCII (c : ℕ) : Bool := c < 128

/-! ## Hash and lengths -/

/-- What `calculateStringHashAndLengthFromUTF8MaskingTop8Bits` returns and stores; the length of
the data is not stored if the data is not UTF-8. -/
structure HashAndLength where
  hash : Unsigned
  dataLength : Option ℕ
  utf16Length : ℕ

variable {result : HashAndLength}

/-- Its loop, with a bound on the rounds. -/
def calculateLoop (data : List ℕ) (inputLength : ℤ) :
    ℕ → StringHasher → ℕ → ℕ → Option HashAndLength
  | fuel, stringHasher, utf16Length, inputOffset =>
    if (inputOffset : ℤ) < inputLength then
      match fuel with
      | 0 => none
      | fuel + 1 =>
        match u8Next (data.take inputLength.toNat) inputOffset with
        | (none, _) => some ⟨0, none, utf16Length⟩
        | (some character, inputOffset) =>
          if isBmp character then
            calculateLoop data inputLength fuel (stringHasher.addCharacter character)
              (utf16Length + 1) inputOffset
          else
            calculateLoop data inputLength fuel
              (stringHasher.addTwoCharacters (u16Lead character) (u16Trail character))
              (utf16Length + 2) inputOffset
    else some ⟨stringHasher.hashWithTop8BitsMasked, some inputOffset, utf16Length⟩

def calculateStringHashAndLengthFromUTF8MaskingTop8Bits (data : List ℕ) : Option HashAndLength :=
  calculateLoop data (toInt data.length) data.length {} 0 0

/-! ## Comparisons -/

/-- Units that are compared with those of a string one by one: what is left of the string, or the
answer that there is a difference. -/
def matchUnits : List UChar → List UChar → Option (Option (List UChar))
  | [], a => some (some a)
  | _ :: _, [] => none
  | unit :: units, x :: a => if x ≠ unit then some none else matchUnits units a

/-- `equalUTF16WithUTF8`, with a bound on the rounds. -/
def equalUTF16WithUTF8 : ℕ → List UChar → List ℕ → Option Bool
  | fuel, a, b =>
    if b = [] then some true
    else match fuel with
      | 0 => none
      | fuel + 1 =>
        match u8Next b 0 with
        | (none, _) => some false
        | (some character, offset) => do
          let units := if isBmp character then [character]
            else [u16Lead character, u16Trail character]
          match ← matchUnits units a with
          | none => return false
          | some a => equalUTF16WithUTF8 fuel a (b.drop offset)

/-- The two-byte sequence as the code decodes it, stored in an `LChar`. -/
def latin1OfTwoBytes (b0 b1 : ℕ) : ℕ := (((b0 &&& 0x1F) <<< 6) ||| (b1 &&& 0x3F)) % 256

/-- One round of `equalLatin1WithUTF8`: the bytes that are left, none for a difference. -/
def latin1Round (signedChar : Bool) (x b0 : ℕ) (b : List ℕ) : Option (List ℕ) :=
  if isASCII x || isASCII b0 then
    if (x : ℤ) ≠ charValue signedChar b0 then none else some b
  else
    match b with
    | [] => none
    | b1 :: b =>
      if b0 &&& 0xE0 ≠ 0xC0 ∨ b1 &&& 0xC0 ≠ 0x80 then none
      else if x ≠ latin1OfTwoBytes b0 b1 then none
      else some b

def equalLatin1WithUTF8 (signedChar : Bool) : List ℕ → List ℕ → Option Bool
  | _, [] => some true
  | [], _ :: _ => none
  | x :: a, b0 :: b =>
    match latin1Round signedChar x b0 b with
    | none => some false
    | some b => equalLatin1WithUTF8 signedChar a b

/-- The last two loops of `HashAndUTF8CharactersTranslator::equal`. -/
def equalCharacters (signedChar : Bool) : List UChar → List ℕ → Option Bool
  | _, [] => some true
  | [], _ :: _ => none
  | x :: a, byte :: b =>
    if (x : ℤ) ≠ charValue signedChar byte then some false
    else equalCharacters signedChar a b

structure HashAndUTF8Characters where
  hash : Unsigned
  characters : List ℕ
  length : ℕ
  utf16Length : ℕ

/-- `HashAndUTF8CharactersTranslator::equal`. -/
def translatorEqual (signedChar : Bool) (string : StringImpl) (buffer : HashAndUTF8Characters) :
    Option Bool :=
  if buffer.utf16Length ≠ string.length then some false
  else if buffer.utf16Length ≠ buffer.length then
    match string with
    | .eightBit characters8 _ =>
      equalLatin1WithUTF8 signedChar characters8 (buffer.characters.take buffer.length)
    | .sixteenBit characters16 _ =>
      equalUTF16WithUTF8 buffer.length characters16 (buffer.characters.take buffer.length)
  else equalCharacters signedChar string.characters (buffer.characters.take buffer.length)

/-- The buffer that `AtomStringImpl::addUTF8` makes. -/
def bufferOf (data : List ℕ) : Option HashAndUTF8Characters := do
  let h ← calculateStringHashAndLengthFromUTF8MaskingTop8Bits data
  return ⟨h.hash, data, ← h.dataLength, h.utf16Length⟩

/-! ## The hash and the lengths of well-formed data -/

theorem calculateLoop_eq (hcs : ∀ c ∈ cs, IsScalar c) (hfuel : cs.length ≤ fuel) (front : List ℕ)
    {taken : List UChar} (htook : Took hasher taken) (utf16Length : ℕ) :
    calculateLoop (front ++ cs.flatMap utf8) (front ++ cs.flatMap utf8).length fuel hasher
        utf16Length front.length = some ⟨computeHashAndMaskTop8Bits (taken ++ cs.flatMap utf16),
        some (front ++ cs.flatMap utf8).length, utf16Length + (cs.flatMap utf16).length⟩ := by
  induction cs generalizing fuel front taken hasher utf16Length with
  | nil =>
    unfold calculateLoop
    simp [htook.hashWithTop8BitsMasked]
  | cons c cs ih =>
    rw [forall_mem_cons] at hcs
    obtain ⟨fuel, rfl⟩ : ∃ n, fuel = n + 1 := ⟨fuel - 1, by simp at hfuel; omega⟩
    have hlt : (front.length : ℤ) < (front ++ (c :: cs).flatMap utf8).length := by
      have := length_pos_iff.mpr (utf8_ne_nil c)
      simp only [flatMap_cons, length_append]
      omega
    have hnext := u8Next_append hcs.1 front (cs.flatMap utf8)
    rw [calculateLoop, if_pos hlt]
    simp only [flatMap_cons, Int.toNat_natCast, take_length, hnext]
    have hfuel' : cs.length ≤ fuel := by simpa using hfuel
    split_ifs with hbmp
    · have := ih hcs.2 hfuel' (front ++ utf8 c) (htook.addCharacter c) (utf16Length + 1)
      simp only [append_assoc] at this
      rw [this, utf16_of_bmp hbmp]
      simp [add_assoc, add_comm 1]
    · have := ih hcs.2 hfuel' (front ++ utf8 c)
        (htook.addTwoCharacters (u16Lead c) (u16Trail c)) (utf16Length + 2)
      simp only [append_assoc] at this
      rw [this, utf16_of_not_bmp hbmp]
      simp [add_assoc, add_comm 2]

theorem length_le_flatMap_utf8 (cs : List ℕ) : cs.length ≤ (cs.flatMap utf8).length := by
  induction cs with
  | nil => exact le_rfl
  | cons c cs ih =>
    have := length_pos_iff.mpr (utf8_ne_nil c)
    simp only [flatMap_cons, length_append, length_cons]
    omega

/-- **Hash and lengths** of well-formed UTF-8. -/
theorem calculateStringHashAndLength_eq (hcs : ∀ c ∈ cs, IsScalar c)
    (hlength : (cs.flatMap utf8).length < 2 ^ 31) :
    calculateStringHashAndLengthFromUTF8MaskingTop8Bits (cs.flatMap utf8) =
      some ⟨computeHashAndMaskTop8Bits (cs.flatMap utf16), some (cs.flatMap utf8).length,
        (cs.flatMap utf16).length⟩ := by
  have hint : toInt (cs.flatMap utf8).length = (cs.flatMap utf8).length := by
    have hmod : (BitVec.ofNat 32 (cs.flatMap utf8).length).toNat = (cs.flatMap utf8).length := by
      exact mod_eq_of_lt (by omega)
    rw [toInt, BitVec.toInt_eq_toNat_of_lt (by omega), hmod]
  have h := calculateLoop_eq hcs (length_le_flatMap_utf8 cs) [] took_nil 0
  simp only [zero_add] at h
  rwa [calculateStringHashAndLengthFromUTF8MaskingTop8Bits, hint]

theorem calculateLoop_dataLength_le {data : List ℕ} {inputLength : ℤ} {utf16Length inputOffset : ℕ}
    {length : ℕ}
    (h : calculateLoop data inputLength fuel hasher utf16Length inputOffset = some result)
    (hlength : result.dataLength = some length) : length ≤ max inputOffset inputLength.toNat := by
  induction fuel generalizing hasher utf16Length inputOffset with
  | zero =>
    unfold calculateLoop at h
    split_ifs at h with hlt
    obtain rfl := some.inj h
    obtain rfl := some.inj hlength
    exact le_max_left _ _
  | succ fuel ih =>
    unfold calculateLoop at h
    split_ifs at h with hlt
    swap
    · obtain rfl := some.inj h
      obtain rfl := some.inj hlength
      exact le_max_left _ _
    cases hfirst : firstUtf8 ((data.take inputLength.toNat).drop inputOffset) with
    | none =>
      rw [u8Next, hfirst] at h
      obtain rfl := some.inj h
      cases hlength
    | some c =>
      rw [u8Next, hfirst] at h
      obtain ⟨-, rest, hrest⟩ := firstUtf8_eq_some hfirst
      have hle := congrArg List.length hrest
      simp only [length_drop, length_take, length_append] at hle
      have hnext : length ≤ max (inputOffset + (utf8 c).length) inputLength.toNat := by
        dsimp only at h
        split_ifs at h
        · exact ih h
        · exact ih h
      omega

/-- Data of 2 GiB or more does not have its length as an `int`. -/
theorem calculateStringHashAndLength_of_long {data : List ℕ} (hlong : 2 ^ 31 ≤ data.length)
    (h : calculateStringHashAndLengthFromUTF8MaskingTop8Bits data = some result) :
    result.dataLength ≠ some data.length := by
  intro hlength
  have hle := calculateLoop_dataLength_le h hlength
  have hlt : toInt data.length < 2 ^ 31 := by
    have := BitVec.toInt_lt (x := BitVec.ofNat 32 data.length)
    simpa [toInt] using this
  omega

/-! ## Comparisons with well-formed data -/

/-- What the Latin-1 comparison takes for equal. -/
def Latin1Matches (x c : ℕ) : Prop :=
  c < 0x80 ∧ x = c ∨ 0x80 ≤ c ∧ c < 0x800 ∧ 0x80 ≤ x ∧ x = c % 256

theorem charValue_of_ascii {signedChar : Bool} {byte : ℕ} (h : byte < 128) :
    charValue signedChar byte = byte := by
  rw [charValue, if_neg (by omega)]

theorem charValue_ne_ascii {signedChar : Bool} {byte x : ℕ} (h : 128 ≤ byte) (hbyte : byte < 256)
    (hx : x < 128) : (x : ℤ) ≠ charValue signedChar byte := by
  unfold charValue
  split_ifs <;> omega

theorem leadByte_and : ∀ b < 256, (b &&& 0xE0 = 0xC0 ↔ 0xC0 ≤ b ∧ b < 0xE0) := by decide +kernel

theorem trailByte_and : ∀ b < 64, (0x80 + b) &&& 0xC0 = 0x80 := by decide +kernel

theorem latin1OfTwoBytes_eq {c : ℕ} (h : c < 0x800) :
    latin1OfTwoBytes (0xC0 + c / 0x40) (0x80 + c % 0x40) = c % 256 := by
  have hlead : (0xC0 + c / 0x40) &&& 0x1F = c / 0x40 := by
    rw [show (0x1F : ℕ) = 2 ^ 5 - 1 by rfl, and_two_pow_sub_one_eq_mod]
    omega
  have htrail : (0x80 + c % 0x40) &&& 0x3F = c % 0x40 := by
    rw [show (0x3F : ℕ) = 2 ^ 6 - 1 by rfl, and_two_pow_sub_one_eq_mod]
    omega
  rw [latin1OfTwoBytes, hlead, htrail, shiftLeft_eq, mul_comm,
    ← two_pow_add_eq_or_of_lt (mod_lt c (by decide)), div_add_mod]

theorem latin1Round_spec (signedChar : Bool) {c : ℕ} (hc : IsScalar c) (x : ℕ) (rest : List ℕ) :
    ∃ b0 b, utf8 c ++ rest = b0 :: b ∧
      (Latin1Matches x c → latin1Round signedChar x b0 b = some rest) ∧
      (¬ Latin1Matches x c → latin1Round signedChar x b0 b = none) := by
  have hcut := hc.lt
  unfold Latin1Matches latin1Round
  by_cases hascii : c < 0x80
  · have hb0 : isASCII c = true := decide_eq_true hascii
    refine ⟨c, rest, by rw [utf8, if_pos hascii]; rfl, ?_, ?_⟩
    all_goals
      intro hx
      simp only [hb0, Bool.or_true, if_true, charValue_of_ascii hascii]
    · rw [if_neg (by omega)]
    · rw [if_pos (by omega)]
  -- the first byte is not ASCII
  obtain ⟨b0, b1, tail, hutf8, hb0, hb0', htwo⟩ : ∃ b0 b1 tail, utf8 c = b0 :: b1 :: tail ∧
      128 ≤ b0 ∧ b0 < 256 ∧ ((c < 0x800 ∧ b0 = 0xC0 + c / 0x40 ∧ b1 = 0x80 + c % 0x40 ∧
        tail = []) ∨ (0x800 ≤ c ∧ 0xE0 ≤ b0)) := by
    unfold utf8
    split_ifs with h2 h3
    · exact ⟨_, _, _, rfl, by omega, by omega, .inl ⟨h2, rfl, rfl, rfl⟩⟩
    · exact ⟨_, _, _, rfl, by omega, by omega, .inr ⟨by omega, by omega⟩⟩
    · exact ⟨_, _, _, rfl, by omega, by omega, .inr ⟨by omega, by omega⟩⟩
  have hb0ascii : isASCII b0 = false := decide_eq_false (by omega)
  refine ⟨b0, b1 :: (tail ++ rest), by rw [hutf8]; rfl, ?_⟩
  by_cases hx : x < 128
  · have hxascii : isASCII x = true := decide_eq_true hx
    simp only [hxascii, Bool.true_or, if_true, if_pos (charValue_ne_ascii hb0 hb0' hx)]
    exact ⟨fun h => by omega, fun _ => trivial⟩
  have hxascii : isASCII x = false := decide_eq_false hx
  simp only [hxascii, hb0ascii, Bool.or_false, Bool.false_eq_true, if_false]
  rcases htwo with ⟨hlt, rfl, rfl, rfl⟩ | ⟨hle, hbig⟩
  · have hcond : ¬ (0xC0 + c / 0x40 &&& 0xE0 ≠ 0xC0 ∨ 0x80 + c % 0x40 &&& 0xC0 ≠ 0x80) := by
      rw [not_or, not_not, not_not, leadByte_and _ hb0']
      exact ⟨by omega, trailByte_and _ (mod_lt _ (by decide))⟩
    simp only [if_neg hcond, latin1OfTwoBytes_eq hlt]
    refine ⟨fun h => if_neg ?_, fun h => if_pos ?_⟩ <;> omega
  · have hcond : b0 &&& 0xE0 ≠ 0xC0 ∨ b1 &&& 0xC0 ≠ 0x80 := by
      left
      rw [Ne, leadByte_and _ hb0']
      omega
    simp only [if_pos hcond]
    exact ⟨fun h => by omega, fun _ => trivial⟩

/-- **The Latin-1 comparison** with the characters of well-formed UTF-8. -/
theorem equalLatin1WithUTF8_spec (signedChar : Bool) (hcs : ∀ c ∈ cs, IsScalar c) {a : List ℕ}
    (hlength : cs.length ≤ a.length) :
    ∃ r, equalLatin1WithUTF8 signedChar a (cs.flatMap utf8) = some r ∧
      (r = true ↔ List.Forall₂ Latin1Matches (a.take cs.length) cs) := by
  induction cs generalizing a with
  | nil => exact ⟨true, by cases a <;> rfl, by simp⟩
  | cons c cs ih =>
    rw [forall_mem_cons] at hcs
    cases a with
    | nil => simp at hlength
    | cons x a =>
      obtain ⟨r, hr, hiff⟩ := ih hcs.2 (by simpa using hlength)
      obtain ⟨b0, b, hb, hyes, hno⟩ := latin1Round_spec signedChar hcs.1 x (cs.flatMap utf8)
      rw [flatMap_cons, hb, length_cons, take_succ_cons, forall₂_cons]
      by_cases hx : Latin1Matches x c
      · refine ⟨r, ?_, by rw [hiff, and_iff_right hx]⟩
        rwa [equalLatin1WithUTF8, hyes hx]
      · refine ⟨false, ?_, by simp [hx]⟩
        rw [equalLatin1WithUTF8, hno hx]

theorem matchUnits_append {units a : List UChar} (h : units.length ≤ a.length) :
    matchUnits units a =
      some (if a.take units.length = units then some (a.drop units.length) else none) := by
  induction units generalizing a with
  | nil => simp [matchUnits]
  | cons unit units ih =>
    cases a with
    | nil => simp at h
    | cons x a =>
      rw [matchUnits, ih (by simpa using h)]
      by_cases hx : x = unit <;> simp [hx]

/-- **The UTF-16 comparison** with the characters of well-formed UTF-8. -/
theorem equalUTF16WithUTF8_spec (hcs : ∀ c ∈ cs, IsScalar c) (hfuel : cs.length ≤ fuel)
    {a : List UChar} (hlength : a.length = (cs.flatMap utf16).length) :
    equalUTF16WithUTF8 fuel a (cs.flatMap utf8) = some (decide (a = cs.flatMap utf16)) := by
  induction cs generalizing fuel a with
  | nil =>
    rw [length_eq_zero_iff.mp hlength]
    unfold equalUTF16WithUTF8
    rfl
  | cons c cs ih =>
    rw [forall_mem_cons] at hcs
    obtain ⟨fuel, rfl⟩ : ∃ n, fuel = n + 1 := ⟨fuel - 1, by simp at hfuel; omega⟩
    have hnext := u8Next_append hcs.1 [] (cs.flatMap utf8)
    simp only [nil_append, length_nil] at hnext
    have hunits : (if isBmp c = true then [c] else [u16Lead c, u16Trail c]) = utf16 c := by
      split_ifs with h
      · exact (utf16_of_bmp h).symm
      · exact (utf16_of_not_bmp h).symm
    rw [flatMap_cons, length_append] at hlength
    rw [flatMap_cons, flatMap_cons]
    rw [equalUTF16WithUTF8, if_neg (by simp [utf8_ne_nil])]
    simp only [hnext, hunits, matchUnits_append (by omega : (utf16 c).length ≤ a.length),
      bind_eq_bind, bind_some, drop_left]
    split_ifs with htake
    · have hlength' : (a.drop (utf16 c).length).length = (cs.flatMap utf16).length := by
        rw [length_drop]
        omega
      dsimp only
      rw [ih hcs.2 (by simpa using hfuel) hlength']
      conv_rhs => rw [← take_append_drop (utf16 c).length a, htake]
      simp only [append_cancel_left_eq]
    · have hne : a ≠ utf16 c ++ cs.flatMap utf16 := by
        rintro rfl
        exact htake take_left
      simp [hne]

theorem equalCharacters_spec (signedChar : Bool) {b : List ℕ} (hb : ∀ c ∈ b, c < 128)
    {a : List UChar} (hlength : a.length = b.length) :
    equalCharacters signedChar a b = some (decide (a = b)) := by
  induction b generalizing a with
  | nil =>
    rw [length_eq_zero_iff.mp hlength]
    rfl
  | cons byte b ih =>
    rw [forall_mem_cons] at hb
    cases a with
    | nil => simp at hlength
    | cons x a =>
      rw [equalCharacters, ih hb.2 (by simpa using hlength), charValue_of_ascii hb.1]
      by_cases hx : x = byte <;> simp [hx]

/-! ## The lookup -/

/-- The low eight bits of a character outside of Latin-1 are those of an ASCII character, or it has
more than two bytes, or there is no character outside of Latin-1. -/
def ToldApart (cs : List ℕ) : Prop :=
  (∃ c ∈ cs, 0x800 ≤ c ∨ 0x100 ≤ c ∧ c % 256 < 0x80) ∨ ∀ c ∈ cs, c < 0x100

theorem length_le_flatMap_utf16 (cs : List ℕ) : cs.length ≤ (cs.flatMap utf16).length := by
  induction cs with
  | nil => exact le_rfl
  | cons c cs ih =>
    have := length_utf16_pos c
    simp only [flatMap_cons, length_append, length_cons]
    omega

theorem forall₂_imp_of_mem {R S : ℕ → ℕ → Prop} {l l' : List ℕ} (h : List.Forall₂ R l l')
    (himp : ∀ x c, c ∈ l' → R x c → S x c) : List.Forall₂ S l l' :=
  forall₂_iff_zip.mpr ⟨h.length_eq, fun hxc => himp _ _ (of_mem_zip hxc).2 (forall₂_zip h hxc)⟩

theorem exists_of_forall₂_right {R : ℕ → ℕ → Prop} {l l' : List ℕ} (h : List.Forall₂ R l l')
    {c : ℕ} (hc : c ∈ l') : ∃ x ∈ l, R x c := by
  obtain ⟨i, hi, rfl⟩ := mem_iff_getElem.mp hc
  exact ⟨_, getElem_mem _, h.get (h.length_eq ▸ hi) hi⟩

theorem flatMap_utf16_of_matches {s : List ℕ} (h : List.Forall₂ Latin1Matches s cs) :
    cs.flatMap utf16 = cs := by
  refine flatMap_utf16_bmp fun c hc => ?_
  obtain ⟨x, -, hx⟩ := exists_of_forall₂_right h hc
  unfold Latin1Matches at hx
  omega

section
variable (signedChar : Bool) {cs : List ℕ} (hcs : ∀ c ∈ cs, IsScalar c)

/-- The buffer for these characters. -/
def buffer (cs : List ℕ) : HashAndUTF8Characters :=
  ⟨computeHashAndMaskTop8Bits (cs.flatMap utf16), cs.flatMap utf8, (cs.flatMap utf8).length,
    (cs.flatMap utf16).length⟩

include hcs in
theorem bufferOf_eq (hlength : (cs.flatMap utf8).length < 2 ^ 31) :
    bufferOf (cs.flatMap utf8) = some (buffer cs) := by
  rw [bufferOf, calculateStringHashAndLength_eq hcs hlength]
  rfl

theorem translatorEqual_of_ascii (s : StringImpl) (h : s.length = (cs.flatMap utf16).length →
      (cs.flatMap utf16).length = (cs.flatMap utf8).length) :
    translatorEqual signedChar s (buffer cs) = some (decide (s.characters = cs.flatMap utf16)) := by
  unfold translatorEqual buffer
  by_cases hlength : (cs.flatMap utf16).length = s.length
  swap
  · have hne : s.characters ≠ cs.flatMap utf16 := fun heq => hlength (by rw [← heq]; rfl)
    rw [if_pos hlength]
    simp [hne]
  have hsame := h hlength.symm
  have hascii := (length_flatMap_utf16_le cs).2.mp hsame
  have hbmp : cs.flatMap utf16 = cs := flatMap_utf16_bmp fun c hc => by
    have := hascii c hc
    omega
  rw [if_neg (by simpa using hlength), if_neg (by simpa using hsame), take_length,
    flatMap_utf8_ascii hascii, hbmp]
  rw [hbmp] at hlength
  exact equalCharacters_spec signedChar hascii hlength.symm

include hcs

theorem translatorEqual_sixteenBit (s : List UChar) (units : ∀ c ∈ s, c < 65536) :
    translatorEqual signedChar (.sixteenBit s units) (buffer cs) =
      some (decide (s = cs.flatMap utf16)) := by
  by_cases h : s.length = (cs.flatMap utf16).length ∧
      (cs.flatMap utf16).length ≠ (cs.flatMap utf8).length
  · rw [translatorEqual, buffer,
      if_neg (fun hne : _ ≠ (StringImpl.sixteenBit s units).length => hne h.1.symm), if_pos h.2,
      take_length]
    exact equalUTF16WithUTF8_spec hcs (length_le_flatMap_utf8 cs) h.1
  · refine translatorEqual_of_ascii signedChar _ fun hs => ?_
    by_contra hne
    exact h ⟨hs, hne⟩

/-- An 8-bit string is taken for equal if it has the low eight bits of all characters, and
characters from 0x80 on have two bytes and are compared with characters from 0x80 on. -/
theorem translatorEqual_eightBit (s : List ℕ) (latin1 : ∀ c ∈ s, c < 256) :
    ∃ r, translatorEqual signedChar (.eightBit s latin1) (buffer cs) = some r ∧
      (r = true ↔ List.Forall₂ Latin1Matches s cs) := by
  by_cases h : s.length = (cs.flatMap utf16).length ∧
      (cs.flatMap utf16).length ≠ (cs.flatMap utf8).length
  · obtain ⟨r, hr, hiff⟩ := equalLatin1WithUTF8_spec signedChar hcs (by
      rw [h.1]
      exact length_le_flatMap_utf16 cs)
    refine ⟨r, ?_, hiff.trans ⟨fun hall => ?_, fun hall => ?_⟩⟩
    · rwa [translatorEqual, buffer,
        if_neg (fun hne : _ ≠ (StringImpl.eightBit s latin1).length => hne h.1.symm), if_pos h.2,
        take_length]
    · have hlength := h.1
      rw [flatMap_utf16_of_matches hall] at hlength
      rwa [← hlength, take_length] at hall
    · rwa [← hall.length_eq, take_length]
  · refine ⟨_, translatorEqual_of_ascii signedChar _ fun hs => ?_, ?_⟩
    · by_contra hne
      exact h ⟨hs, hne⟩
    rw [decide_eq_true_iff]
    constructor
    · rintro rfl
      have hascii := (length_flatMap_utf16_le cs).2.mp (by
        by_contra hne
        exact h ⟨rfl, hne⟩)
      rw [flatMap_utf16_bmp fun c hc => (hascii c hc).trans (by decide)]
      exact forall₂_same.mpr fun c hc => .inl ⟨hascii c hc, rfl⟩
    · intro hall
      have hunits := flatMap_utf16_of_matches hall
      have hascii := (length_flatMap_utf16_le cs).2.mp (by
        by_contra hne
        exact h ⟨by rw [hunits, hall.length_eq], hne⟩)
      rw [hunits, ← forall₂_eq_eq_eq]
      exact forall₂_imp_of_mem hall fun x c hc hx => by
        have := hascii c hc
        rcases hx with ⟨-, rfl⟩ | ⟨hle, -⟩
        · rfl
        · omega

/-- **The comparison is right for all strings** exactly if no character that an 8-bit string cannot
have is taken for one that it can have. -/
theorem translatorEqual_iff : (∀ s, translatorEqual signedChar s (buffer cs) =
    some (decide (s.characters = cs.flatMap utf16))) ↔ ToldApart cs := by
  constructor
  · intro h
    by_contra hnot
    unfold ToldApart at hnot
    push Not at hnot
    obtain ⟨hsmall, c, hc, hbig⟩ := hnot
    -- the string of the low eight bits
    have hlatin1 : ∀ x ∈ cs.map (· % 256), x < 256 := by
      intro x hx
      obtain ⟨c, -, rfl⟩ := mem_map.mp hx
      exact mod_lt _ (by decide)
    have hall : Forall₂ Latin1Matches (cs.map (· % 256)) cs := by
      rw [forall₂_map_left_iff]
      refine forall₂_same.mpr fun c hc => ?_
      have := hsmall c hc
      unfold Latin1Matches
      omega
    obtain ⟨r, hr, hiff⟩ := translatorEqual_eightBit signedChar hcs _ hlatin1
    rw [h, some_inj] at hr
    rw [← hr, decide_eq_true_iff] at hiff
    have heq : cs.map (· % 256) = cs.flatMap utf16 := hiff.mpr hall
    rw [flatMap_utf16_of_matches hall] at heq
    have hmem : c ∈ cs.map (· % 256) := by
      rwa [heq]
    have := hlatin1 c hmem
    omega
  · rintro hcond (⟨s, latin1⟩ | ⟨s, units⟩)
    swap
    · exact translatorEqual_sixteenBit signedChar hcs s units
    obtain ⟨r, hr, hiff⟩ := translatorEqual_eightBit signedChar hcs s latin1
    rw [hr, some_inj, Bool.eq_iff_iff, hiff, decide_eq_true_iff]
    constructor
    · intro hall
      have hlow : ∀ c ∈ cs, c < 0x100 := by
        rcases hcond with ⟨c, hc, hbad⟩ | hlow
        · obtain ⟨x, -, hx⟩ := exists_of_forall₂_right hall hc
          unfold Latin1Matches at hx
          omega
        · exact hlow
      rw [flatMap_utf16_of_matches hall, ← forall₂_eq_eq_eq]
      exact forall₂_imp_of_mem hall fun x c hc hx => by
        have := hlow c hc
        unfold Latin1Matches at hx
        omega
    · rintro rfl
      have hbmp : cs.flatMap utf16 = cs := by
        refine flatMap_utf16_bmp fun c hc => ?_
        by_contra hbig
        have hlead : 0xD7C0 + c / 0x400 ∈ cs.flatMap utf16 := by
          rw [mem_flatMap]
          exact ⟨c, hc, by rw [utf16, if_neg hbig]; exact mem_cons_self⟩
        have := latin1 _ hlead
        omega
      rw [hbmp] at latin1 ⊢
      refine forall₂_same.mpr fun c hc => ?_
      have := latin1 c hc
      unfold Latin1Matches
      omega
end

/-- What looking up these characters by their UTF-8 bytes needs: the hash and the lengths are those
of the UTF-16 units, which give one hash whether they are taken in one go or piece by piece, and the
comparison with a string answers whether it has these units. -/
structure LooksUp (signedChar : Bool) (cs : List ℕ) : Prop where
  hashAndLength : calculateStringHashAndLengthFromUTF8MaskingTop8Bits (cs.flatMap utf8) =
    some ⟨computeHashAndMaskTop8Bits (cs.flatMap utf16), some (cs.flatMap utf8).length,
      (cs.flatMap utf16).length⟩
  chunked : ∀ chunks : List Chunk, (∀ chunk ∈ chunks, chunk.IsTerminated) →
    chunks.flatMap Chunk.characters = cs.flatMap utf16 →
    (feedAll {} chunks).map StringHasher.hashWithTop8BitsMasked =
      some (computeHashAndMaskTop8Bits (cs.flatMap utf16))
  terminated : ∀ memory : List UChar, 0 ∈ memory → memory.takeWhile (· ≠ 0) = cs.flatMap utf16 →
    computeHashAndMaskTop8BitsTerminated memory =
      some (computeHashAndMaskTop8Bits (cs.flatMap utf16))
  compared : ∀ s : StringImpl, ∃ buffer, bufferOf (cs.flatMap utf8) = some buffer ∧
    translatorEqual signedChar s buffer = some (decide (s.characters = cs.flatMap utf16))

/-- **A well-formed byte string is looked up correctly** exactly if its length is an `int` and its
characters are told apart from Latin-1 ones. -/
theorem looksUp_iff (signedChar : Bool) (cs : List ℕ) (hcs : ∀ c ∈ cs, IsScalar c) :
    LooksUp signedChar cs ↔ (cs.flatMap utf8).length < 2 ^ 31 ∧ ToldApart cs := by
  have hcompared : (cs.flatMap utf8).length < 2 ^ 31 →
      ((∀ s : StringImpl, ∃ buffer, bufferOf (cs.flatMap utf8) = some buffer ∧
        translatorEqual signedChar s buffer = some (decide (s.characters = cs.flatMap utf16))) ↔
        ToldApart cs) := by
    intro hlength
    rw [← translatorEqual_iff signedChar hcs]
    refine forall_congr' fun s => ?_
    rw [bufferOf_eq hcs hlength]
    simp
  constructor
  · intro h
    have hlength : (cs.flatMap utf8).length < 2 ^ 31 := by
      by_contra hlong
      exact calculateStringHashAndLength_of_long (not_lt.mp hlong) h.hashAndLength rfl
    exact ⟨hlength, (hcompared hlength).mp h.compared⟩
  · rintro ⟨hlength, happart⟩
    refine ⟨calculateStringHashAndLength_eq hcs hlength, fun chunks hchunks heq => ?_,
      fun memory hzero heq => ?_, (hcompared hlength).mpr happart⟩
    · rw [feedAll_hash hchunks, heq]
    · rw [computeHashAndMaskTop8BitsTerminated, computeHashAndMaskTop8Bits,
        computeHashImplTerminated_eq hzero, heq]
      rfl

/-- The characters of "aé€😀", which have one to four bytes. -/
theorem looksUp_one_to_four_bytes : LooksUp true [0x61, 0xE9, 0x20AC, 0x1F600] := by
  refine (looksUp_iff true _ (by decide)).mpr ⟨by decide, .inl ⟨0x20AC, by decide, ?_⟩⟩
  exact .inl (by decide)

/-- The UTF-8 bytes of U+01E9 are taken for the Latin-1 string of U+00E9. -/
theorem latin1_taken_for_another :
    (bufferOf [0xC7, 0xA9]).bind (translatorEqual true (.eightBit [0xE9] (by decide))) =
        some true ∧
      (bufferOf [0xC7, 0xA9]).bind (translatorEqual false (.eightBit [0xE9] (by decide))) =
        some true ∧
      [0xC7, 0xA9] = [0x1E9].flatMap utf8 ∧ [0x1E9].flatMap utf16 ≠ [0xE9] := by
  decide +kernel

end JscAndroid.Wtf.Utf8Lookup
