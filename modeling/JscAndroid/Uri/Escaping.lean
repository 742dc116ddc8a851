import JscAndroid.Uri.Unescaping

/-!
# What encoding a URI gives, and that decoding takes it back

`escaped` is the text that a character is encoded as. The code appends it to a `StringBuilder` of
8-bit characters, which overflows when the text is longer than a string can be; the next escape
after that ends the process.
-/

namespace JscAndroid.Uri

open Unicode.Encodings Unicode.Macros Wtf.StringBuilders List
open Wtf.HexDigits (IsHexDigit)

variable {b : StringBuilder} {text octets cs : List ℕ} {c : ℕ} {doNotEscape : Bitmap}
variable {s : StringImpl}

/-- A byte as `%XY`. -/
def escapedByte (octet : ℕ) : List ℕ := '%'.toNat :: hex octet 2

/-- A character in the encoded text. -/
def escaped (doNotEscape : Bitmap) (c : ℕ) : List ℕ :=
  if c < 128 ∧ doNotEscape c = true then [c] else (utf8 c).flatMap escapedByte

/-! ## The builder -/

theorem length_hex : ∀ octet < 256, (hex octet 2).length = 2 := by decide +kernel

/-- **The escapes of some bytes**: the process ends if the builder has lost its buffer before the
digits of the last one. -/
theorem written_appendEscapes (h : Written b text) (hoctets : ∀ octet ∈ octets, octet < 256)
    (hne : octets ≠ []) : ((text ++ octets.flatMap escapedByte).length ≤ maxLength + 2 →
      ∃ b', Uri.appendEscapes octets b = some b' ∧
        Written b' (text ++ octets.flatMap escapedByte)) ∧
    (maxLength + 2 < (text ++ octets.flatMap escapedByte).length →
      Uri.appendEscapes octets b = none) := by
  induction octets generalizing b text with
  | nil => exact absurd rfl hne
  | cons octet octets ih =>
    rw [forall_mem_cons] at hoctets
    have hhex := length_hex octet hoctets.1
    obtain ⟨b₁, hb₁, hwritten₁⟩ := h.appendLChar '%'.toNat
    rw [flatMap_cons, show text ++ (escapedByte octet ++ octets.flatMap escapedByte) =
      text ++ ['%'.toNat] ++ hex octet 2 ++ octets.flatMap escapedByte by simp [escapedByte]]
    simp only [Uri.appendEscapes, hb₁, Option.bind_eq_bind, Option.bind_some]
    unfold Written at hwritten₁
    split_ifs at hwritten₁ with hle
    swap
    · rw [hwritten₁.appendFromAdapters]
      refine ⟨fun hshort => ?_, fun _ => rfl⟩
      simp only [length_append] at hshort hle
      omega
    have hpos : 0 < (hex octet 2).length := by omega
    obtain ⟨b₂, hb₂, hwritten₂⟩ := hwritten₁.appendFromAdapters hpos (by rw [hhex]; decide)
    rw [hb₂]
    by_cases hrest : octets = []
    · subst hrest
      rw [flatMap_nil, append_nil]
      refine ⟨fun _ => ⟨b₂, rfl, hwritten₂⟩, fun hlong => ?_⟩
      rw [length_append] at hlong
      omega
    · exact ih hwritten₂ hoctets.2 hrest

/-! ## The loop -/

section
theorem u16IsLead_iff (x : ℕ) : u16IsLead x = true ↔ IsLead x := by simp [u16IsLead, IsLead]

theorem u16IsTrail_iff (x : ℕ) : u16IsTrail x = true ↔ IsTrail x := by simp [u16IsTrail, IsTrail]

variable {doNotEscape : Bitmap}

/-- One character of the string, where no byte that is left as it is belongs to another one. -/
theorem encodeLoop_scalar (hascii : ∀ c, doNotEscape c = true → c < 128) (hc : IsScalar c)
    (h : Written b text) (rest : List ℕ) :
    ((doNotEscape c = true ∨ (text ++ escaped doNotEscape c).length ≤ maxLength + 2) →
      ∃ b', encodeLoop doNotEscape (utf16 c ++ rest) b = encodeLoop doNotEscape rest b' ∧
        Written b' (text ++ escaped doNotEscape c)) ∧
    (¬ doNotEscape c = true → maxLength + 2 < (text ++ escaped doNotEscape c).length →
      encodeLoop doNotEscape (utf16 c ++ rest) b = .crash) := by
  by_cases hfree : doNotEscape c = true
  · have hlt := hascii c hfree
    refine ⟨fun _ => ?_, fun hnot => absurd hfree hnot⟩
    obtain ⟨b', hb', hwritten⟩ := h.appendLChar c
    rw [escaped, if_pos ⟨hlt, hfree⟩, utf16, if_pos (by omega)]
    refine ⟨b', ?_, hwritten⟩
    rw [singleton_append, encodeLoop.eq_def]
    dsimp only
    rw [if_pos (by simp [hfree]; omega), hb']
    rfl
  have hesc : escaped doNotEscape c = (utf8 c).flatMap escapedByte := by
    rw [escaped, if_neg fun h => hfree h.2]
  obtain ⟨hshort, hlong⟩ := written_appendEscapes h (utf8_lt hc.lt) (utf8_ne_nil c)
  rw [← hesc] at hshort hlong
  -- both forms of a character come to the same escapes
  have hloop : encodeLoop doNotEscape (utf16 c ++ rest) b =
      (appendEscapes (utf8 c) b).elim .crash (encodeLoop doNotEscape rest) := by
    rcases utf16_cases hc with ⟨heq, hnolead, hnotrail⟩ | ⟨l, t, heq, hl, ht⟩
    · rw [heq, singleton_append, encodeLoop.eq_def]
      dsimp only
      rw [if_neg (by simp [hfree]), if_neg (by rwa [u16IsTrail_iff]),
        if_pos (by rwa [Bool.not_eq_true', Bool.eq_false_iff, Ne, u16IsLead_iff])]
    · have hnot : ¬ (decide (l < 256) && doNotEscape l) = true := by
        have := hl.1
        simp only [Bool.and_eq_true, decide_eq_true_eq]
        omega
      have hnotrail : ¬ IsTrail l := by
        have := hl.2
        unfold IsTrail
        omega
      rw [heq, cons_append, singleton_append, encodeLoop.eq_def]
      dsimp only
      rw [if_neg hnot, if_neg (by rwa [u16IsTrail_iff]), if_neg (by simpa [u16IsLead_iff] using hl),
        if_neg (by simpa [u16IsTrail_iff] using ht), u16GetSupplementary_of_utf16 heq]
  rw [hloop]
  refine ⟨fun hor => ?_, fun _ hlt => by rw [hlong hlt]; rfl⟩
  obtain ⟨b', hb', hwritten⟩ := hshort (hor.resolve_left hfree)
  exact ⟨b', by rw [hb']; rfl, hwritten⟩

/-- No escape comes after the builder has overflowed. -/
def NoCrash (doNotEscape : Bitmap) (text cs : List ℕ) : Prop :=
  ∀ front c rest, cs = front ++ c :: rest → ¬ doNotEscape c = true →
    (text ++ (front ++ [c]).flatMap (escaped doNotEscape)).length ≤ maxLength + 2

theorem noCrash_cons : NoCrash doNotEscape text (c :: cs) ↔
    (doNotEscape c = true ∨ (text ++ escaped doNotEscape c).length ≤ maxLength + 2) ∧
      NoCrash doNotEscape (text ++ escaped doNotEscape c) cs := by
  constructor
  · intro h
    constructor
    · by_cases hfree : doNotEscape c = true
      · exact .inl hfree
      · exact .inr (by simpa using h [] c cs rfl hfree)
    · rintro front x rest rfl hx
      simpa using h (c :: front) x rest rfl hx
  · rintro ⟨hfirst, hrest⟩ front x rest heq hx
    cases front with
    | nil =>
      obtain ⟨rfl, rfl⟩ := cons.inj heq
      simpa using hfirst.resolve_left hx
    | cons y front =>
      obtain ⟨rfl, rfl⟩ := cons.inj heq
      simpa using hrest front x rest rfl hx

/-- **A front that is UTF-16**: the loop goes behind it, or the process ends. -/
theorem encodeLoop_front (hascii : ∀ c, doNotEscape c = true → c < 128) (hcs : ∀ c ∈ cs, IsScalar c)
    (h : Written b text) (rest : List ℕ) : (NoCrash doNotEscape text cs →
      ∃ b', encodeLoop doNotEscape (cs.flatMap utf16 ++ rest) b = encodeLoop doNotEscape rest b' ∧
        Written b' (text ++ cs.flatMap (escaped doNotEscape))) ∧ (¬ NoCrash doNotEscape text cs →
      encodeLoop doNotEscape (cs.flatMap utf16 ++ rest) b = .crash) := by
  induction cs generalizing b text with
  | nil =>
    refine ⟨fun _ => ⟨b, rfl, by rwa [flatMap_nil, append_nil]⟩, fun hcrash => ?_⟩
    exact absurd (fun front c rest heq => by simp at heq) hcrash
  | cons c cs ih =>
    rw [forall_mem_cons] at hcs
    obtain ⟨hgo, hcrash⟩ := encodeLoop_scalar hascii hcs.1 h (cs.flatMap utf16 ++ rest)
    rw [noCrash_cons, flatMap_cons, flatMap_cons, append_assoc]
    by_cases hfirst : doNotEscape c = true ∨
        (text ++ escaped doNotEscape c).length ≤ maxLength + 2
    · obtain ⟨b₁, heq₁, hwritten₁⟩ := hgo hfirst
      rw [heq₁, ← append_assoc text]
      obtain ⟨hgo', hcrash'⟩ := ih hcs.2 hwritten₁
      exact ⟨fun hno => hgo' hno.2, fun hno => hcrash' fun h => hno ⟨hfirst, h⟩⟩
    · refine ⟨fun hno => absurd hno.1 hfirst, fun _ => ?_⟩
      rw [not_or, not_le] at hfirst
      exact hcrash hfirst.1 hfirst.2

theorem encodeLoop_startsUnpaired {units : List ℕ} (h : StartsUnpaired units) (b : StringBuilder) :
    encodeLoop doNotEscape units b = encodeError := by
  obtain ⟨c, rest, rfl, hc⟩ := h
  have hnot : ¬ (decide (c < 256) && doNotEscape c) = true := by
    have : 256 ≤ c := by
      rcases hc with hc | ⟨hc, -⟩ <;> exact le_trans (by decide) hc.1
    simp only [Bool.and_eq_true, decide_eq_true_eq]
    omega
  rw [encodeLoop.eq_def]
  dsimp only
  rw [if_neg hnot]
  by_cases hct : IsTrail c
  · rw [if_pos ((u16IsTrail_iff c).mpr hct)]
  obtain ⟨hcl, hrest⟩ := hc.resolve_left hct
  rw [if_neg (by rwa [u16IsTrail_iff]), if_neg (by simpa [u16IsLead_iff] using hcl)]
  cases rest with
  | nil => rfl
  | cons t rest =>
    have ht : ¬ IsTrail t := hrest t rfl
    dsimp only
    rw [if_pos (by rwa [Bool.not_eq_true', Bool.eq_false_iff, Ne, u16IsTrail_iff])]
end

/-! ## Every string -/

/-- A character is escaped behind the end of the longest text. -/
def EscapesTooLong (doNotEscape : Bitmap) (units : List ℕ) : Prop :=
  ∃ cs c rest, units = (cs ++ [c]).flatMap utf16 ++ rest ∧ (∀ x ∈ cs ++ [c], IsScalar x) ∧
    ¬ doNotEscape c = true ∧
    maxLength + 2 < ((cs ++ [c]).flatMap (escaped doNotEscape)).length

section
variable {doNotEscape : Bitmap} {s : StringImpl}

theorem written_reserveCapacity (hs : s.length ≤ maxLength) :
    Written (StringBuilder.reserveCapacity s.length {}) [] := by
  exact filled_reserveCapacity hs

section
variable (hascii : ∀ c, doNotEscape c = true → c < 128) (hs : s.length ≤ maxLength)
include hascii hs

theorem encode_of_escapesTooLong (h : EscapesTooLong doNotEscape s.characters) :
    encode doNotEscape s = .crash := by
  obtain ⟨cs, c, rest, heq, hscalar, hfree, hlong⟩ := h
  rw [encode, heq]
  refine (encodeLoop_front hascii hscalar (written_reserveCapacity hs) rest).2 fun hno => ?_
  have := hno cs c [] rfl hfree
  simp only [nil_append] at this
  omega

/-- **Encoding a string** whose front is UTF-16, and which may have an unpaired surrogate then. -/
theorem encode_eq
    {rest : List ℕ} (heq : s.characters = cs.flatMap utf16 ++ rest) (hcs : ∀ c ∈ cs, IsScalar c)
    (hrest : rest = [] ∨ StartsUnpaired rest) (hno : ¬ EscapesTooLong doNotEscape s.characters) :
    encode doNotEscape s = if rest ≠ [] then encodeError
      else if (cs.flatMap (escaped doNotEscape)).length ≤ maxLength then
        .value (cs.flatMap (escaped doNotEscape)) else .outOfMemory := by
  have hnoCrash : NoCrash doNotEscape [] cs := by
    rintro front c tail rfl hfree
    by_contra hlong
    refine hno ⟨front, c, tail.flatMap utf16 ++ rest, ?_, ?_, hfree, by simpa using hlong⟩
    · rw [heq]
      simp
    · intro x hx
      refine hcs x ?_
      rw [append_cons]
      exact mem_append_left _ hx
  obtain ⟨b, hloop, hwritten⟩ :=
    (encodeLoop_front hascii hcs (written_reserveCapacity hs) rest).1 hnoCrash
  rw [nil_append] at hwritten
  rw [encode, heq, hloop]
  rcases hrest with rfl | hrest
  swap
  · have hne : rest ≠ [] := by
      obtain ⟨c, tail, rfl, -⟩ := hrest
      exact cons_ne_nil c tail
    rw [encodeLoop_startsUnpaired hrest, if_pos hne]
  rw [encodeLoop]
  unfold Written at hwritten
  unfold finish
  by_cases hle : (cs.flatMap (escaped doNotEscape)).length ≤ maxLength
  · rw [if_pos hle] at hwritten ⊢
    rw [hwritten.not_hasOverflowed, hwritten.characters_eq]
    rfl
  · rw [if_neg hle] at hwritten ⊢
    rw [hwritten.hasOverflowed]
    rfl
end

end

/-! ## Back again -/

theorem hex_eq : ∀ octet < 256,
    hex octet 2 = [uppercaseHexDigit (octet / 16), uppercaseHexDigit (octet % 16)] := by
  decide +kernel

theorem isHexDigit_uppercaseHexDigit : ∀ n < 16, IsHexDigit (uppercaseHexDigit n) n := by
  unfold IsHexDigit
  decide

theorem spells_flatMap_escapedByte (h : ∀ octet ∈ octets, octet < 256) :
    Spells octets (octets.flatMap escapedByte) := by
  induction octets with
  | nil => exact .nil
  | cons octet octets ih =>
    rw [forall_mem_cons] at h
    rw [flatMap_cons, escapedByte, hex_eq octet h.1]
    exact .cons (isHexDigit_uppercaseHexDigit _ (by omega))
      (isHexDigit_uppercaseHexDigit _ (Nat.mod_lt _ (by decide))) (by omega) (ih h.2)

/-- **The encoded text stands for the characters**, if what decoding keeps is not escaped. -/
theorem unescapes_escaped {reserved : Bitmap} (hpercent : doNotEscape '%'.toNat = false)
    (hsub : ∀ c, reserved c = true → doNotEscape c = true) (hcs : ∀ c ∈ cs, IsScalar c) :
    Unescapes reserved (cs.flatMap (escaped doNotEscape)) (cs.flatMap utf16) := by
  induction cs with
  | nil => exact .nil
  | cons c cs ih =>
    rw [forall_mem_cons] at hcs
    rw [flatMap_cons, flatMap_cons, escaped]
    split_ifs with hfree
    · rw [utf16, if_pos (by omega)]
      refine .plain ?_ (ih hcs.2)
      rintro rfl
      rw [hpercent] at hfree
      exact absurd hfree.2 (by decide)
    · refine .replaced hcs.1 (spells_flatMap_escapedByte (utf8_lt hcs.1.lt)) ?_ (ih hcs.2)
      exact fun h => hfree ⟨h.1, hsub c h.2⟩

theorem hex_lt : ∀ octet < 256, ∀ x ∈ hex octet 2, x < 256 := by decide +kernel

theorem escaped_lt (hcs : ∀ c ∈ cs, IsScalar c) :
    ∀ x ∈ cs.flatMap (escaped doNotEscape), x < 256 := by
  intro x hx
  obtain ⟨c, hc, hx⟩ := mem_flatMap.mp hx
  unfold escaped at hx
  split_ifs at hx with hfree
  · rw [mem_singleton] at hx
    omega
  · obtain ⟨octet, hoctet, hx⟩ := mem_flatMap.mp hx
    rcases mem_cons.mp hx with rfl | hx
    · decide
    · exact hex_lt octet (utf8_lt (hcs c hc).lt octet hoctet) x hx

/-! ## The specification -/

/-- What encoding a string should do: it throws exactly if there is an unpaired surrogate, and gives
a text that is decoded to the string otherwise. -/
structure EncodesAsSpecified (encode : StringImpl → Outcome) (decode : StringImpl → Option Outcome)
    (s : StringImpl) : Prop where
  throws_iff : (encode s).Throws ↔ HasUnpairedSurrogate s.characters
  back : ¬ HasUnpairedSurrogate s.characters → ∃ text, encode s = .value text ∧
    ∀ t : StringImpl, t.characters = text → decode t = some (.value s.characters)

/-- The builders can take the encoded text, and the characters one by one. -/
structure EncodingFits (doNotEscape : Bitmap) (s : StringImpl) : Prop where
  noCrash : ¬ EscapesTooLong doNotEscape s.characters
  fits : ∀ cs : List ℕ, (∀ c ∈ cs, IsScalar c) → s.characters = cs.flatMap utf16 →
    (cs.flatMap (escaped doNotEscape)).length ≤ maxLength ∧ Fits s.characters

theorem StringImpl.units (s : StringImpl) : ∀ c ∈ s.characters, c < 0x10000 := by
  rcases s with ⟨characters8, latin1⟩ | ⟨characters16, units⟩
  · exact fun c hc => (latin1 c hc).trans (by decide)
  · exact units

/-- **Encoding is as specified** exactly if the builders can take the results. -/
theorem encodesAsSpecified_iff {reserved : Bitmap} (hascii : ∀ c, doNotEscape c = true → c < 128)
    (hpercent : doNotEscape '%'.toNat = false)
    (hsub : ∀ c, reserved c = true → doNotEscape c = true) (hs : s.length ≤ maxLength) :
    EncodesAsSpecified (encode doNotEscape) (decode · reserved true) s ↔
      EncodingFits doNotEscape s := by
  -- what decoding the encoded text gives
  have hback : ∀ {cs : List ℕ}, (∀ c ∈ cs, IsScalar c) → s.characters = cs.flatMap utf16 →
      (cs.flatMap (escaped doNotEscape)).length ≤ maxLength →
      ∀ t : StringImpl, t.characters = cs.flatMap (escaped doNotEscape) →
        decode t reserved true =
          some (if Fits s.characters then .value s.characters else .outOfMemory) := by
    intro cs hcs heq hle t ht
    rw [heq]
    refine decode_of_unescapes (by rwa [StringImpl.length, ht]) ?_
    rw [ht]
    exact unescapes_escaped hpercent hsub hcs
  constructor
  · intro h
    have hno : ¬ EscapesTooLong doNotEscape s.characters := by
      intro htoo
      have hcrash := encode_of_escapesTooLong hascii hs htoo
      by_cases hu : HasUnpairedSurrogate s.characters
      · have hthrows := h.throws_iff.mpr hu
        rwa [hcrash] at hthrows
      · obtain ⟨text, htext, -⟩ := h.back hu
        rw [hcrash] at htext
        cases htext
    refine ⟨hno, fun cs hcs heq => ?_⟩
    have heq' : s.characters = cs.flatMap utf16 ++ [] := by rwa [append_nil]
    have hu : ¬ HasUnpairedSurrogate s.characters := by
      rw [heq', hasUnpairedSurrogate_append hcs (.inl rfl)]
      exact fun h => h rfl
    obtain ⟨text, htext, hdecode⟩ := h.back hu
    rw [encode_eq hascii hs heq' hcs (.inl rfl) hno, if_neg (fun h => h rfl)] at htext
    split_ifs at htext with hle
    obtain rfl := Outcome.value.inj htext
    refine ⟨hle, ?_⟩
    have hvalue := hdecode (.eightBit _ (escaped_lt hcs)) rfl
    rw [hback hcs heq hle _ rfl] at hvalue
    by_contra hfit
    rw [if_neg hfit] at hvalue
    cases hvalue
  · rintro ⟨hno, hfits⟩
    obtain ⟨cs, rest, heq, hcs, hrest⟩ := exists_utf16_front (StringImpl.units s)
    have hunpaired : HasUnpairedSurrogate s.characters ↔ rest ≠ [] := by
      rw [heq]
      exact hasUnpairedSurrogate_append hcs hrest
    have hencode := encode_eq hascii hs heq hcs hrest hno
    by_cases hnil : rest = []
    swap
    · rw [if_pos hnil] at hencode
      refine ⟨?_, fun h => absurd (hunpaired.mpr hnil) h⟩
      rw [hencode, hunpaired]
      exact ⟨fun _ => hnil, fun _ => trivial⟩
    rw [hnil, append_nil] at heq
    obtain ⟨hle, hfit⟩ := hfits cs hcs heq
    rw [if_neg (fun h => h hnil), if_pos hle] at hencode
    refine ⟨?_, fun _ => ⟨_, hencode, fun t ht => ?_⟩⟩
    · rw [hencode, hunpaired]
      exact ⟨fun h => h.elim, fun h => absurd hnil h⟩
    · have hvalue := hback hcs heq hle t ht
      rwa [if_pos hfit] at hvalue

/-! ## The functions of the global object -/

theorem makeCharacterBitmap_eq_true {characters : String} :
    makeCharacterBitmap characters c = true ↔ c ∈ characters.toList.map Char.toNat := by
  rw [makeCharacterBitmap, contains_iff_mem]

/-- What the four functions should do with a string. -/
structure FollowsSpecification (s : StringImpl) : Prop where
  encodeURI : EncodesAsSpecified globalFuncEncodeURI globalFuncDecodeURI s
  encodeURIComponent :
    EncodesAsSpecified globalFuncEncodeURIComponent globalFuncDecodeURIComponent s
  decodeURI : DecodesAsSpecified globalFuncDecodeURI doNotUnescapeWhenDecodingURI s
  decodeURIComponent : DecodesAsSpecified globalFuncDecodeURIComponent emptyBitmap s

/-- The results of the four functions are not too long for the builders. -/
structure ResultsFit (s : StringImpl) : Prop where
  encodeURI : EncodingFits doNotEscapeWhenEncodingURI s
  encodeURIComponent : EncodingFits doNotEscapeWhenEncodingURIComponent s
  decodeURI : DecodingFits doNotUnescapeWhenDecodingURI s
  decodeURIComponent : DecodingFits emptyBitmap s

theorem doNotEscapeWhenEncodingURI_lt (h : doNotEscapeWhenEncodingURI c = true) : c < 128 := by
  have hall : ∀ c ∈ ("ABCDEFGHIJKLMNOPQRSTUVWXYZ" ++ "abcdefghijklmnopqrstuvwxyz" ++ "0123456789" ++
      "!#$&'()*+,-./:;=?@_~").toList.map Char.toNat, c < 128 := by decide
  exact hall c (makeCharacterBitmap_eq_true.mp h)

theorem doNotEscapeWhenEncodingURIComponent_lt (h : doNotEscapeWhenEncodingURIComponent c = true) :
    c < 128 := by
  have hall : ∀ c ∈ ("ABCDEFGHIJKLMNOPQRSTUVWXYZ" ++ "abcdefghijklmnopqrstuvwxyz" ++ "0123456789" ++
      "!'()*-._~").toList.map Char.toNat, c < 128 := by decide
  exact hall c (makeCharacterBitmap_eq_true.mp h)

/-- What `decodeURI` leaves escaped, `encodeURI` does not escape. -/
theorem doNotEscape_of_doNotUnescape (h : doNotUnescapeWhenDecodingURI c = true) :
    doNotEscapeWhenEncodingURI c = true := by
  have hall : ∀ c ∈ "#$&+,/:;=?@".toList.map Char.toNat, doNotEscapeWhenEncodingURI c = true := by
    decide
  exact hall c (makeCharacterBitmap_eq_true.mp h)

/-- **The four functions follow the specification** exactly if their results fit. -/
theorem followsSpecification_iff (s : StringImpl) (hs : s.length ≤ maxLength) :
    FollowsSpecification s ↔ ResultsFit s := by
  have huri := encodesAsSpecified_iff (fun _ => doNotEscapeWhenEncodingURI_lt) (by decide)
    (fun _ => doNotEscape_of_doNotUnescape) hs
  have hcomponent : EncodesAsSpecified _ (decode · emptyBitmap true) s ↔ _ :=
    encodesAsSpecified_iff (fun _ => doNotEscapeWhenEncodingURIComponent_lt) (by decide)
      (fun _ h => by cases h) hs
  have hdecode := decodesAsSpecified_iff doNotUnescapeWhenDecodingURI hs
  have hdecodeComponent := decodesAsSpecified_iff emptyBitmap hs
  exact ⟨fun ⟨h₁, h₂, h₃, h₄⟩ => ⟨huri.mp h₁, hcomponent.mp h₂, hdecode.mp h₃,
      hdecodeComponent.mp h₄⟩,
    fun ⟨h₁, h₂, h₃, h₄⟩ => ⟨huri.mpr h₁, hcomponent.mpr h₂, hdecode.mpr h₃,
      hdecodeComponent.mpr h₄⟩⟩

/-! ## Short strings -/

theorem length_flatMap_escapedByte (h : ∀ octet ∈ octets, octet < 256) :
    (octets.flatMap escapedByte).length = octets.length * 3 :=
  (spells_flatMap_escapedByte h).length_eq

theorem length_escaped_le (doNotEscape : Bitmap) (hcs : ∀ c ∈ cs, IsScalar c) :
    (cs.flatMap (escaped doNotEscape)).length ≤ 9 * (cs.flatMap utf16).length := by
  induction cs with
  | nil => exact le_rfl
  | cons c cs ih =>
    rw [forall_mem_cons] at hcs
    have hutf8 : (utf8 c).length ≤ 3 * (utf16 c).length := by
      unfold utf8 utf16
      split_ifs <;> first | omega | simp
    have hfirst : (escaped doNotEscape c).length ≤ 9 * (utf16 c).length := by
      have := length_utf16_pos c
      unfold escaped
      split_ifs
      · simp only [length_singleton]
        omega
      · rw [length_flatMap_escapedByte (utf8_lt hcs.1.lt)]
        omega
    have := ih hcs.2
    simp only [flatMap_cons, length_append]
    omega

theorem fits_of_length_le (h : text.length ≤ 2 ^ 29) : Fits text := by
  have hfront := takeWhile_prefix (l := text) isLatin1
  exact .inr ⟨h.trans (by decide), hfront.length_le.trans h⟩

theorem encodingFits_of_length_le (doNotEscape : Bitmap) (hs : s.length ≤ 2 ^ 27) :
    EncodingFits doNotEscape s := by
  have hmax : 9 * 2 ^ 27 ≤ maxLength := by decide
  unfold StringImpl.length at hs
  refine ⟨?_, fun cs hcs heq => ⟨?_, fits_of_length_le (hs.trans (by decide))⟩⟩
  · rintro ⟨cs, c, rest, heq, hscalar, -, hlong⟩
    have := length_escaped_le doNotEscape hscalar
    rw [heq, length_append] at hs
    omega
  · have := length_escaped_le doNotEscape hcs
    rw [heq] at hs
    omega

theorem decodingFits_of_length_le (reserved : Bitmap) (hs : s.length ≤ 2 ^ 27) :
    DecodingFits reserved s :=
  fun _ hunits => fits_of_length_le (hunits.length_le.trans (hs.trans (by decide)))

theorem resultsFit_of_length_le (hs : s.length ≤ 2 ^ 27) : ResultsFit s :=
  ⟨encodingFits_of_length_le _ hs, encodingFits_of_length_le _ hs, decodingFits_of_length_le _ hs,
    decodingFits_of_length_le _ hs⟩

/-- The string "%23😀". -/
theorem followsSpecification_example :
    FollowsSpecification (.sixteenBit [0x25, 0x32, 0x33, 0xD83D, 0xDE00] (by decide)) :=
  (followsSpecification_iff _ (by decide)).mpr (resultsFit_of_length_le (by decide))

/-! ## Long strings -/

theorem escapesTooLong_replicate {n : ℕ} (hc : IsScalar c) (hbmp : c < 0x10000)
    (hfree : ¬ doNotEscape c = true)
    (hlong : maxLength + 2 < (n + 1) * (escaped doNotEscape c).length) :
    EscapesTooLong doNotEscape (List.replicate (n + 1) c) := by
  refine ⟨replicate n c, c, [], ?_, ?_, hfree, ?_⟩
  · rw [← replicate_succ', append_nil, flatMap_utf16_bmp]
    exact fun x hx => by rwa [eq_of_mem_replicate hx]
  · rw [← replicate_succ']
    exact fun x hx => by rwa [eq_of_mem_replicate hx]
  · rwa [← replicate_succ', length_flatMap, map_replicate, sum_replicate]

/-- **A string whose encoding ends the process**: 2^28 times the same character of three bytes. -/
theorem encode_crashes_on_long_string :
    globalFuncEncodeURI (.sixteenBit (List.replicate (2 ^ 28 - 1 + 1) 0x4E00)
        (fun c hc => by rw [eq_of_mem_replicate hc]; decide)) = .crash ∧
      (List.replicate (2 ^ 28 - 1 + 1) 0x4E00).length ≤ maxLength ∧
      ¬ HasUnpairedSurrogate (List.replicate (2 ^ 28 - 1 + 1) 0x4E00) := by
  have hlength : (replicate (2 ^ 28 - 1 + 1) 0x4E00).length ≤ maxLength := by
    rw [length_replicate]
    decide
  have hmem : ∀ c ∈ replicate (2 ^ 28 - 1 + 1) 0x4E00, c = 0x4E00 :=
    fun c hc => eq_of_mem_replicate hc
  refine ⟨encode_of_escapesTooLong (fun _ => doNotEscapeWhenEncodingURI_lt) hlength
    (escapesTooLong_replicate (by decide) (by decide) (by decide) ?_), hlength, ?_⟩
  · decide
  · rintro ⟨front, c, rest, heq, hc⟩
    obtain rfl := hmem c (by rw [heq]; simp)
    rcases hc with ⟨hlead, -⟩ | ⟨htrail, -⟩
    · exact absurd hlead (by decide)
    · exact absurd htrail (by decide)

end JscAndroid.Uri
