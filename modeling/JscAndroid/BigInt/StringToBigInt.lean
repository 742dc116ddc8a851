import JscAndroid.BigInt.AddSub

/-!
# Strings as BigInts

`stringToBigInt` skips white space, recognizes a radix mark or a sign, and hands the rest to
`parseIntFrom`. `StringIntegerLiteral` is the grammar it should accept; a string is laid out in one
way only (`Literal.unique`), so the two can be compared part by part.

They differ on three kinds of strings (`stringToBigInt_iff`): a sign without digits is read as 0,
and so is a radix mark that only white space follows; and literals that are too long for
`allocateFor` are refused.
-/

namespace JscAndroid.BigInt.StringToBigInt

open Arith.Limbs Arith.Numerals DigitArith Heap AddSub BigInt.ToString ParseInt List Nat

variable {P : Platform}
variable {radix : ℕ} {text trail : List UChar} {ds : List ℕ} {vm : VM P}

/-! ## The source -/

def isASCIIAlphaCaselessEqual (inputCharacter : UChar) (expectedASCIILowercaseLetter : Char) :
    Bool :=
  inputCharacter ||| 0x20 == expectedASCIILowercaseLetter.toNat

/-- `parseInt` for a whole text. -/
def parseIntText (data : List UChar) (errorParseMode : ErrorParseMode) :
    Op P (Option (JSBigInt P)) :=
  let p := (data.takeWhile isStrWhiteSpace).length
  if p + 1 < data.length ∧ data.getD p 0 = '0'.toNat ∧
      isASCIIAlphaCaselessEqual (data.getD (p + 1) 0) 'b' then
    parseIntFrom data (p + 2) 2 errorParseMode .Unsigned .DisallowEmptyString
  else if p + 1 < data.length ∧ data.getD p 0 = '0'.toNat ∧
      isASCIIAlphaCaselessEqual (data.getD (p + 1) 0) 'x' then
    parseIntFrom data (p + 2) 16 errorParseMode .Unsigned .DisallowEmptyString
  else if p + 1 < data.length ∧ data.getD p 0 = '0'.toNat ∧
      isASCIIAlphaCaselessEqual (data.getD (p + 1) 0) 'o' then
    parseIntFrom data (p + 2) 8 errorParseMode .Unsigned .DisallowEmptyString
  else if p < data.length ∧ data.getD p 0 = '-'.toNat then
    parseIntFrom data (p + 1) 10 errorParseMode .Signed .AllowEmptyString
  else if p < data.length ∧ data.getD p 0 = '+'.toNat then
    parseIntFrom data (p + 1) 10 errorParseMode .Unsigned .AllowEmptyString
  else
    parseIntFrom data p 10 errorParseMode .Unsigned .AllowEmptyString

def stringToBigInt (s : List UChar) : Op P (Option (JSBigInt P)) :=
  parseIntText s .IgnoreExceptions

/-! ## The grammar -/

/-- The character is the digit `d` to the radix, in either case. -/
def IsDigit (radix ch d : ℕ) : Prop :=
  d < radix ∧ ((d < 10 ∧ ch = '0'.toNat + d) ∨
    (10 ≤ d ∧ (ch + 10 = 'a'.toNat + d ∨ ch + 10 = 'A'.toNat + d)))

/-- What can stand in front of the digits. -/
structure Mark where
  text : List UChar
  radix : ℕ
  negative : Bool
  deriving DecidableEq, Repr

variable {mark : Mark}

def marks : List Mark :=
  [⟨[], 10, false⟩, ⟨['+'.toNat], 10, false⟩, ⟨['-'.toNat], 10, true⟩,
    ⟨['0'.toNat, 'b'.toNat], 2, false⟩, ⟨['0'.toNat, 'B'.toNat], 2, false⟩,
    ⟨['0'.toNat, 'o'.toNat], 8, false⟩, ⟨['0'.toNat, 'O'.toNat], 8, false⟩,
    ⟨['0'.toNat, 'x'.toNat], 16, false⟩, ⟨['0'.toNat, 'X'.toNat], 16, false⟩]

def WhiteSpace (s : List UChar) : Prop := ∀ ch ∈ s, isStrWhiteSpace ch = true

/-- `s` is white space, a mark, the digits `ds`, which may be missing, and white space. -/
structure Literal (s : List UChar) (mark : Mark) (text : List UChar) (ds : List ℕ)
    (trail : List UChar) : Prop where
  mark_mem : mark ∈ marks
  eq : ∃ lead, WhiteSpace lead ∧ s = lead ++ (mark.text ++ (text ++ trail))
  trail : WhiteSpace trail
  digits : List.Forall₂ (IsDigit mark.radix) text ds

/-- **The grammar of the strings that denote an integer**, with that integer: only a string of white
space may have no digits. -/
def StringIntegerLiteral (s : List UChar) (z : ℤ) : Prop :=
  ∃ mark text ds trail, Literal s mark text ds trail ∧ (text ≠ [] ∨ mark.text = []) ∧
    z = signed mark.negative (readOnto mark.radix 0 ds : ℕ)

/-- A sign without digits. -/
def BareSign (s : List UChar) : Prop :=
  ∃ mark trail, Literal s mark [] [] trail ∧ mark.text.length = 1

/-- A radix mark with white space in place of the digits. -/
def BareRadixMark (s : List UChar) : Prop :=
  ∃ mark trail, Literal s mark [] [] trail ∧ mark.text.length = 2 ∧ trail ≠ []

/-- A literal for which `allocateFor` asks for more than `maxLength` digits. -/
def TooLong (P : Platform) (s : List UChar) : Prop :=
  ∃ mark text ds trail, Literal s mark text ds trail ∧
    maxLength P < allocateForLength P mark.radix (text.dropWhile (· == '0'.toNat)).length

/-! ## Digits -/

theorem parseDigit_eq_some_iff (h36 : radix ≤ 36) (ch d : ℕ) :
    parseDigit radix ch = some d ↔ IsDigit radix ch d := by
  have h0 : '0'.toNat = 48 := rfl
  have ha : 'a'.toNat = 97 := rfl
  have hA : 'A'.toNat = 65 := rfl
  rw [parseDigit, IsDigit, h0, ha, hA]
  have h10 : (if radix < 10 then radix else 10) = min radix 10 := by
    split_ifs <;> omega
  rw [h10]
  by_cases h1 : 48 ≤ ch ∧ ch < 48 + min radix 10
  · rw [if_pos h1, Option.some.injEq]
    omega
  rw [if_neg h1]
  by_cases h2 : 97 ≤ ch ∧ ch < 97 + radix - 10
  · rw [if_pos h2, Option.some.injEq]
    omega
  rw [if_neg h2]
  by_cases h3 : 65 ≤ ch ∧ ch < 65 + radix - 10
  · rw [if_pos h3, Option.some.injEq]
    omega
  rw [if_neg h3]
  constructor
  · intro h
    cases h
  · intro h
    omega

theorem isStrWhiteSpace_of_isDigit {ch d : ℕ} (h36 : radix ≤ 36) (h : IsDigit radix ch d) :
    isStrWhiteSpace ch = false := by
  have h0 : '0'.toNat = 48 := rfl
  have ha : 'a'.toNat = 97 := rfl
  have hA : 'A'.toNat = 65 := rfl
  obtain ⟨hd, h⟩ := h
  have hlt : ch < 128 := by omega
  have hge : 48 ≤ ch := by omega
  have key : ∀ c < 128, 48 ≤ c → isStrWhiteSpace c = false := by decide
  exact key ch hlt hge

theorem forall₂_parseDigit (h36 : radix ≤ 36) :
    List.Forall₂ (IsDigit radix) text ds ↔ text.map (parseDigit radix) = ds.map some := by
  induction text generalizing ds with
  | nil =>
    cases ds <;> simp
  | cons ch text ih =>
    cases ds with
    | nil => simp
    | cons d ds =>
      rw [forall₂_cons, map_cons, map_cons, cons.injEq,
        parseDigit_eq_some_iff h36, ih]

/-! ## The mark of a text -/

theorem letter_toNat {letter : Char} (hl : letter = 'b' ∨ letter = 'o' ∨ letter = 'x') :
    letter.toNat = 98 ∨ letter.toNat = 111 ∨ letter.toNat = 120 := by
  rcases hl with rfl | rfl | rfl <;> decide

theorem caseless_iff {letter : Char} (hl : letter = 'b' ∨ letter = 'o' ∨ letter = 'x') (ch : ℕ) :
    isASCIIAlphaCaselessEqual ch letter = true ↔ ch = letter.toNat ∨ ch + 32 = letter.toNat := by
  have key : ∀ n ∈ [98, 111, 120], ∀ c < 128, (c ||| 0x20 = n ↔ c = n ∨ c + 32 = n) := by decide
  have hletter := letter_toNat hl
  rw [isASCIIAlphaCaselessEqual, beq_iff_eq]
  by_cases hch : ch < 128
  · exact key _ (by simpa using hletter) ch hch
  · constructor
    · intro h
      have h1 : ch ||| 0x20 = letter.toNat := h
      have h2 : ch ≤ ch ||| 0x20 := left_le_or
      omega
    · intro h
      omega

/-- The mark that `parseIntText` finds at the front of a text. -/
def markOf (rest : List UChar) : Mark :=
  if 1 < rest.length ∧ rest.getD 0 0 = '0'.toNat ∧
      isASCIIAlphaCaselessEqual (rest.getD 1 0) 'b' then ⟨rest.take 2, 2, false⟩
  else if 1 < rest.length ∧ rest.getD 0 0 = '0'.toNat ∧
      isASCIIAlphaCaselessEqual (rest.getD 1 0) 'x' then ⟨rest.take 2, 16, false⟩
  else if 1 < rest.length ∧ rest.getD 0 0 = '0'.toNat ∧
      isASCIIAlphaCaselessEqual (rest.getD 1 0) 'o' then ⟨rest.take 2, 8, false⟩
  else if 0 < rest.length ∧ rest.getD 0 0 = '-'.toNat then ⟨['-'.toNat], 10, true⟩
  else if 0 < rest.length ∧ rest.getD 0 0 = '+'.toNat then ⟨['+'.toNat], 10, false⟩
  else ⟨[], 10, false⟩

def Mark.sign (mark : Mark) : ParseIntSign := if mark.negative then .Signed else .Unsigned

/-- Digits are asked for after a radix mark only. -/
def Mark.parseMode (mark : Mark) : ParseIntMode :=
  if mark.text.length = 2 then .DisallowEmptyString else .AllowEmptyString

/-- **`parseIntText` is `parseIntFrom` behind the mark.** -/
theorem parseIntText_eq (lead rest : List UChar) (errorParseMode : ErrorParseMode)
    (hlead : (lead ++ rest).takeWhile isStrWhiteSpace = lead) :
    parseIntText (P := P) (lead ++ rest) errorParseMode =
      parseIntFrom (lead ++ rest) (lead.length + (markOf rest).text.length) (markOf rest).radix
        errorParseMode (markOf rest).sign (markOf rest).parseMode := by
  have h0 : (lead ++ rest).getD lead.length 0 = rest.getD 0 0 := by
    rw [getD_append_right _ _ _ _ (le_refl _), Nat.sub_self]
  have h1 : (lead ++ rest).getD (lead.length + 1) 0 = rest.getD 1 0 := by
    rw [getD_append_right _ _ _ _ (by omega), Nat.add_sub_cancel_left]
  have hlen1 : lead.length + 1 < (lead ++ rest).length ↔ 1 < rest.length := by
    rw [length_append]
    omega
  have hlen0 : lead.length < (lead ++ rest).length ↔ 0 < rest.length := by
    rw [length_append]
    omega
  have hradix : ∀ radix, 1 < rest.length →
      parseIntFrom (P := P) (lead ++ rest) (lead.length + 2) radix errorParseMode .Unsigned
          .DisallowEmptyString =
        parseIntFrom (lead ++ rest)
          (lead.length + (⟨rest.take 2, radix, false⟩ : Mark).text.length) radix errorParseMode
          (⟨rest.take 2, radix, false⟩ : Mark).sign
          (⟨rest.take 2, radix, false⟩ : Mark).parseMode := by
    intro radix h
    have htake : (rest.take 2).length = 2 := by
      rw [length_take]
      omega
    rw [Mark.parseMode, htake]
    rfl
  rw [parseIntText, markOf, hlead]
  simp only [h0, h1, hlen1, hlen0]
  split_ifs with c1 c2 c3
  · exact hradix 2 c1.1
  · exact hradix 16 c2.1
  · exact hradix 8 c3.1
  all_goals rfl

theorem markOf_mem (rest : List UChar) :
    markOf rest ∈ marks ∧ ∃ body, rest = (markOf rest).text ++ body := by
  have hmark : ∀ {letter : Char} {radix : ℕ}, letter = 'b' ∨ letter = 'o' ∨ letter = 'x' →
      1 < rest.length ∧ rest.getD 0 0 = '0'.toNat ∧
        isASCIIAlphaCaselessEqual (rest.getD 1 0) letter = true →
      (∀ b ∈ [letter.toNat, letter.toNat - 32], ⟨['0'.toNat, b], radix, false⟩ ∈ marks) →
      ⟨rest.take 2, radix, false⟩ ∈ marks := by
    rintro letter radix hl ⟨h1, h2, h3⟩ hmem
    match rest, h1, h2, h3 with
    | a :: b :: l, _, h2, h3 =>
      rw [caseless_iff hl, getD_cons_succ, getD_cons_zero] at h3
      subst h2
      refine hmem b ?_
      simp only [mem_cons]
      omega
  have hsplit : ∃ body, rest = rest.take 2 ++ body := ⟨_, (take_append_drop 2 rest).symm⟩
  have hhead : ∀ {a : UChar}, 0 < rest.length ∧ rest.getD 0 0 = a → ∃ body, rest = [a] ++ body := by
    rintro a ⟨h1, h2⟩
    match rest, h1, h2 with
    | b :: l, _, h2 =>
      subst h2
      exact ⟨l, rfl⟩
  unfold markOf
  split_ifs with c1 c2 c3 c4 c5
  · exact ⟨hmark (by tauto) c1 (by decide), hsplit⟩
  · exact ⟨hmark (by tauto) c2 (by decide), hsplit⟩
  · exact ⟨hmark (by tauto) c3 (by decide), hsplit⟩
  · exact ⟨by decide, hhead c4⟩
  · exact ⟨by decide, hhead c5⟩
  · exact ⟨by decide, rest, rfl⟩

theorem markOf_append (hm : mark ∈ marks) (hne : mark.text ≠ []) (w : List UChar) :
    markOf (mark.text ++ w) = mark := by
  simp only [marks, mem_cons, not_mem_nil, or_false] at hm
  rcases hm with rfl | rfl | rfl | rfl | rfl | rfl | rfl | rfl | rfl
  · exact absurd rfl hne
  all_goals simp [markOf, isASCIIAlphaCaselessEqual]

/-- The characters that a mark can have after a zero, and the signs. -/
def markLetters : List ℕ := [43, 45, 66, 98, 79, 111, 88, 120]

theorem markOf_eq_plain {w : List UChar} (h : ∀ ch ∈ w, ch ∉ markLetters) :
    markOf w = ⟨[], 10, false⟩ := by
  have hradix : ∀ letter, letter = 'b' ∨ letter = 'o' ∨ letter = 'x' →
      ¬ (1 < w.length ∧ w.getD 0 0 = '0'.toNat ∧
        isASCIIAlphaCaselessEqual (w.getD 1 0) letter = true) := by
    rintro letter hl ⟨h1, -, h3⟩
    have key : ∀ n, n = 98 ∨ n = 111 ∨ n = 120 → n ∈ markLetters ∧ n - 32 ∈ markLetters := by
      rintro n (rfl | rfl | rfl) <;> decide
    obtain ⟨k1, k2⟩ := key _ (letter_toNat hl)
    rw [caseless_iff hl, getD_eq_getElem _ _ h1] at h3
    refine h _ (getElem_mem h1) ?_
    rcases h3 with h3 | h3
    · rwa [h3]
    · rwa [Nat.eq_sub_of_add_eq h3]
  have hsign : ∀ sign ∈ markLetters, ¬ (0 < w.length ∧ w.getD 0 0 = sign) := by
    rintro sign hs ⟨h1, h2⟩
    rw [getD_eq_getElem _ _ h1] at h2
    exact h _ (getElem_mem h1) (h2 ▸ hs)
  rw [markOf, if_neg (hradix 'b' (by simp)), if_neg (hradix 'x' (by simp)),
    if_neg (hradix 'o' (by simp)), if_neg (hsign '-'.toNat (by decide)),
    if_neg (hsign '+'.toNat (by decide))]

theorem not_mem_markLetters_of_isDigit {ch d : ℕ} (h : IsDigit 10 ch d) : ch ∉ markLetters := by
  have h0 : '0'.toNat = 48 := rfl
  obtain ⟨hd, h⟩ := h
  simp only [markLetters, mem_cons, not_mem_nil, or_false]
  omega

theorem not_mem_markLetters_of_whiteSpace {ch : ℕ} (h : isStrWhiteSpace ch = true) :
    ch ∉ markLetters := by
  have key : ∀ c ∈ markLetters, isStrWhiteSpace c = false := by decide
  intro hmem
  rw [key ch hmem] at h
  cases h

theorem forall_mem_of_forall₂ (h : List.Forall₂ (IsDigit radix) text ds) :
    ∀ ch ∈ text, ∃ d, IsDigit radix ch d := by
  induction h with
  | nil => simp
  | cons hd _ ih =>
    intro ch hch
    rcases mem_cons.mp hch with rfl | hch
    · exact ⟨_, hd⟩
    · exact ih ch hch

theorem marks_radix (h : mark ∈ marks) : 2 ≤ mark.radix ∧ mark.radix ≤ 16 := by
  revert mark
  decide

theorem marks_plain (h : mark ∈ marks) (hnil : mark.text = []) : mark = ⟨[], 10, false⟩ := by
  revert mark
  decide

/-! ## One layout only -/

/-- White space at the end is stripped from a text whose characters are not white space. -/
theorem rdropWhile_append (htext : ∀ ch ∈ text, isStrWhiteSpace ch = false)
    (htrail : WhiteSpace trail) : (text ++ trail).rdropWhile isStrWhiteSpace = text := by
  rw [rdropWhile, reverse_append, dropWhile_append_of_pos fun ch h => htrail ch (mem_reverse.mp h),
    dropWhile_eq_self_iff.mpr, reverse_reverse]
  intro hl
  rw [htext _ (mem_reverse.mp (getElem_mem hl))]
  exact Bool.false_ne_true

theorem exists_trail (body : List UChar) :
    ∃ trail, WhiteSpace trail ∧ body = body.rdropWhile isStrWhiteSpace ++ trail := by
  refine ⟨(body.reverse.takeWhile isStrWhiteSpace).reverse, fun ch h => ?_, ?_⟩
  · exact mem_takeWhile_imp (mem_reverse.mp h)
  · rw [rdropWhile, ← reverse_append, takeWhile_append_dropWhile, reverse_reverse]

theorem dropWhile_whiteSpace_append {lead w : List UChar} (hlead : WhiteSpace lead)
    (hw : ∀ h : w ≠ [], isStrWhiteSpace (w.head h) = false) :
    (lead ++ w).dropWhile isStrWhiteSpace = w := by
  rw [dropWhile_append_of_pos hlead]
  refine dropWhile_eq_self_iff.mpr fun hl => ?_
  rw [getElem_zero_eq_head, hw]
  exact Bool.false_ne_true

/-- **The layout is unique**: mark and digits are found after the white space, and the rest is
trailing white space. -/
theorem Literal.unique {s : List UChar} (h : Literal s mark text ds trail) :
    mark = markOf (s.dropWhile isStrWhiteSpace) ∧
      text = ((s.dropWhile isStrWhiteSpace).drop mark.text.length).rdropWhile isStrWhiteSpace ∧
      (mark.text ≠ [] → (s.dropWhile isStrWhiteSpace).drop mark.text.length = text ++ trail) := by
  obtain ⟨lead, hlead, rfl⟩ := h.eq
  have hradix := marks_radix h.mark_mem
  have htext : ∀ ch ∈ text, isStrWhiteSpace ch = false := fun ch hch => by
    obtain ⟨d, hd⟩ := forall_mem_of_forall₂ h.digits ch hch
    exact isStrWhiteSpace_of_isDigit (by omega) hd
  have hstrip := rdropWhile_append htext h.trail
  by_cases hempty : mark.text = [] ∧ text = []
  · -- white space only
    obtain ⟨h1, rfl⟩ := hempty
    have hall : (lead ++ (mark.text ++ ([] ++ trail))).dropWhile isStrWhiteSpace = [] := by
      rw [h1, dropWhile_eq_nil_iff]
      intro ch hch
      rcases mem_append.mp hch with hch | hch
      · exact hlead ch hch
      · exact h.trail ch hch
    rw [hall]
    refine ⟨?_, by simp, fun h0 => absurd h1 h0⟩
    rw [marks_plain h.mark_mem h1]
    rfl
  · have hw : ∀ hne : mark.text ++ (text ++ trail) ≠ [],
        isStrWhiteSpace ((mark.text ++ (text ++ trail)).head hne) = false := by
      intro hne
      by_cases h1 : mark.text = []
      · have h2 : text ≠ [] := fun h2 => hempty ⟨h1, h2⟩
        have hhead : (mark.text ++ (text ++ trail)).head hne = text.head h2 := by
          simp only [h1]
          exact head_append_left h2
        rw [hhead]
        exact htext _ (head_mem h2)
      · rw [head_append_left h1]
        have key : ∀ m ∈ marks, ∀ h : m.text ≠ [], isStrWhiteSpace (m.text.head h) = false := by
          decide
        exact key mark h.mark_mem h1
    rw [dropWhile_whiteSpace_append hlead hw, drop_left, hstrip]
    refine ⟨?_, rfl, fun _ => rfl⟩
    by_cases h1 : mark.text = []
    · have hplain := marks_plain h.mark_mem h1
      subst hplain
      refine (markOf_eq_plain fun ch hch => ?_).symm
      rcases mem_append.mp hch with hch | hch
      · cases hch
      · rcases mem_append.mp hch with hch | hch
        · obtain ⟨d, hd⟩ := forall_mem_of_forall₂ h.digits ch hch
          exact not_mem_markLetters_of_isDigit hd
        · exact not_mem_markLetters_of_whiteSpace (h.trail ch hch)
    · exact (markOf_append h.mark_mem h1 _).symm

/-! ## The loop sees digits only -/

theorem parseChunk_congr (radix : ℕ) : ∀ (limit : ℕ) (data data' : List UChar) (digit m : ℕ),
    data.map (parseDigit radix) = data'.map (parseDigit radix) →
    (parseChunk radix limit data digit m).map
        (fun c => (c.1, c.2.1, c.2.2.map (parseDigit radix))) =
      (parseChunk radix limit data' digit m).map
        (fun c => (c.1, c.2.1, c.2.2.map (parseDigit radix)))
  | 0, data, data', digit, m, h => by
    rw [parseChunk, parseChunk, Option.map_some, Option.map_some, h]
  | limit + 1, [], [], digit, m, _ => rfl
  | limit + 1, ch :: data, ch' :: data', digit, m, h => by
    rw [map_cons, map_cons, List.cons.injEq] at h
    rw [parseChunk, parseChunk, h.1]
    cases parseDigit radix ch' with
    | none => rfl
    | some d => exact parseChunk_congr radix limit data data' _ _ h.2

/-- **The loop depends on the values of the characters only.** -/
theorem parseIntLoop_congr (radix : ℕ) (errorParseMode : ErrorParseMode) (sign : ParseIntSign)
    (initialLength : ℕ) : ∀ (fuel : ℕ) (data data' : List UChar) (heapResult : Option (JSBigInt P)),
      data.map (parseDigit radix) = data'.map (parseDigit radix) →
      parseIntLoop radix errorParseMode sign initialLength fuel data heapResult =
        parseIntLoop radix errorParseMode sign initialLength fuel data' heapResult
  | 0, data, data', none, _ => rfl
  | 0, data, data', some _, _ => rfl
  | fuel + 1, data, data', heapResult, h => by
    have ih := parseIntLoop_congr radix errorParseMode sign initialLength fuel
    have hnil : ∀ {l l' : List UChar}, l.map (parseDigit radix) = l'.map (parseDigit radix) →
        (l = [] ↔ l' = []) := by
      intro l l' hl
      rw [← map_eq_nil_iff, hl, map_eq_nil_iff]
    have hchunk := parseChunk_congr radix (lengthLimitForBigInt32 radix) data data' 0 1 h
    rw [parseIntLoop, parseIntLoop]
    by_cases h0 : data = []
    · rw [if_pos h0, if_pos ((hnil h).mp h0)]
      exact ih _ _ _ h
    · rw [if_neg h0, if_neg (fun h1 => h0 ((hnil h).mpr h1))]
      cases h1 : parseChunk radix (lengthLimitForBigInt32 radix) data 0 1 with
      | none =>
        rw [h1, Option.map_none, eq_comm, Option.map_eq_none_iff] at hchunk
        rw [hchunk]
      | some c =>
        rw [h1, Option.map_some, eq_comm, Option.map_eq_some_iff] at hchunk
        obtain ⟨c', h2, hc⟩ := hchunk
        obtain ⟨digit, m, rest⟩ := c
        obtain ⟨digit', m', rest'⟩ := c'
        rw [Prod.mk.injEq, Prod.mk.injEq] at hc
        obtain ⟨rfl, rfl, hrest⟩ := hc
        rw [h2]
        cases heapResult with
        | some heapResult => exact ih _ _ _ hrest.symm
        | none =>
          simp only [hnil hrest.symm]
          have hbuffer := fun c => ih _ _ (some (inplaceMultiplyAdd
            (JSBigInt.setDigits c 0 (replicate c.length 0)) (BitVec.ofNat P.digitBits m')
            (BitVec.ofNat P.digitBits digit'))) hrest.symm
          simp only [hbuffer]

theorem parseChunk_digits (h36 : radix ≤ 36) :
    ∀ (limit : ℕ) {data : List UChar} {digit m : ℕ} {c : ℕ × ℕ × List UChar},
      parseChunk radix limit data digit m = some c →
      ∃ text ds, data = text ++ c.2.2 ∧ List.Forall₂ (IsDigit radix) text ds ∧
        (0 < limit → data ≠ [] → text ≠ [])
  | 0, data, digit, m, c, h => by
    cases h
    exact ⟨[], [], rfl, .nil, fun h0 => absurd h0 (Nat.lt_irrefl 0)⟩
  | limit + 1, [], digit, m, c, h => by
    cases h
    exact ⟨[], [], rfl, .nil, fun _ h0 => absurd rfl h0⟩
  | limit + 1, ch :: data, digit, m, c, h => by
    rw [parseChunk] at h
    cases hd : parseDigit radix ch with
    | none =>
      rw [hd] at h
      cases h
    | some d =>
      rw [hd] at h
      obtain ⟨text, ds, h1, h2, -⟩ := parseChunk_digits h36 limit h
      refine ⟨ch :: text, d :: ds, by rw [h1]; rfl, ?_, fun _ _ => cons_ne_nil _ _⟩
      exact .cons ((parseDigit_eq_some_iff h36 ch d).mp hd) h2

/-- **A text that yields a BigInt has digits only.** -/
theorem parseIntLoop_digits (h2 : 2 ≤ radix) (h36 : radix ≤ 36) (sign : ParseIntSign)
    (initialLength : ℕ) :
    ∀ (fuel : ℕ) {data : List UChar} {heapResult : Option (JSBigInt P)} {r : JSBigInt P}
      {vm vm' : VM P}, data.length ≤ fuel →
      parseIntLoop radix .IgnoreExceptions sign initialLength fuel data heapResult vm =
        .ok (some r, vm') → ∃ ds, List.Forall₂ (IsDigit radix) data ds
  | 0, data, heapResult, r, vm, vm', hf, _ => by
    rw [length_eq_zero_iff.mp (le_zero.mp hf)]
    exact ⟨[], .nil⟩
  | fuel + 1, data, heapResult, r, vm, vm', hf, h => by
    rw [parseIntLoop] at h
    by_cases h0 : data = []
    · rw [h0]
      exact ⟨[], .nil⟩
    · rw [if_neg h0] at h
      cases h1 : parseChunk radix (lengthLimitForBigInt32 radix) data 0 1 with
      | none =>
        rw [h1] at h
        cases (pure_ok.mp h).1
      | some c =>
        obtain ⟨digit, m, rest⟩ := c
        rw [h1] at h
        obtain ⟨text, ds, e1, e2, e3⟩ := parseChunk_digits h36 _ h1
        have e1 : data = text ++ rest := e1
        have hpos := length_pos_iff.mpr (e3 (lengthLimit_spec radix (by omega) h2).1 h0)
        have hlen : rest.length ≤ fuel := by
          rw [e1, length_append] at hf
          omega
        have hrest : ∃ ds', Forall₂ (IsDigit radix) rest ds' := by
          cases heapResult with
          | some heapResult => exact parseIntLoop_digits h2 h36 sign initialLength fuel hlen h
          | none =>
            by_cases hr : rest = []
            · rw [hr]
              exact ⟨[], .nil⟩
            · dsimp only at h
              rw [if_neg (fun h0 => hr h0.1)] at h
              obtain ⟨c, vm1, -, h⟩ := bind_ok.mp h
              exact parseIntLoop_digits h2 h36 sign initialLength fuel hlen h
        obtain ⟨ds', e4⟩ := hrest
        exact ⟨ds ++ ds', by rw [e1]; exact rel_append e2 e4⟩

/-! ## The digits behind the mark -/

/-- Zeros are stripped in front and white space at the end, in either order. -/
theorem strip_eq (body : List UChar) :
    body.rdropWhile isStrWhiteSpace = body.takeWhile (· == '0'.toNat) ++
        (body.dropWhile (· == '0'.toNat)).rdropWhile isStrWhiteSpace ∧
      (body.rdropWhile isStrWhiteSpace).dropWhile (· == '0'.toNat) =
        (body.dropWhile (· == '0'.toNat)).rdropWhile isStrWhiteSpace := by
  have hzeros : ∀ ch ∈ body.takeWhile (· == '0'.toNat), ch = '0'.toNat := fun ch h =>
    beq_iff_eq.mp (mem_takeWhile_imp (p := (· == '0'.toNat)) h)
  have hsplit := takeWhile_append_dropWhile (p := (· == '0'.toNat)) (l := body)
  have hhead := head?_dropWhile_not (· == '0'.toNat) body
  obtain ⟨trail, htrail, htail⟩ := exists_trail (body.dropWhile (· == '0'.toNat))
  set zeros := body.takeWhile (· == '0'.toNat)
  set v := body.dropWhile (· == '0'.toNat)
  have hstrip : body.rdropWhile isStrWhiteSpace = zeros ++ v.rdropWhile isStrWhiteSpace := by
    conv_lhs => rw [← hsplit]
    unfold rdropWhile
    rw [reverse_append, dropWhile_append]
    split_ifs with h
    · rw [isEmpty_iff.mp h, reverse_nil, append_nil]
      have := rdropWhile_append (fun ch hch => by
        rw [hzeros ch hch]
        decide) (show WhiteSpace [] by simp [WhiteSpace])
      rwa [append_nil] at this
    · rw [reverse_append, reverse_reverse]
  refine ⟨hstrip, ?_⟩
  rw [hstrip, dropWhile_append_of_pos fun ch hch => beq_iff_eq.mpr (hzeros ch hch)]
  refine dropWhile_eq_self_iff.mpr fun hl => ?_
  have hv : v.head? = some ((v.rdropWhile isStrWhiteSpace)[0]) := by
    conv_lhs => rw [htail]
    rw [head?_append_of_ne_nil _ (length_pos_iff.mp hl), head?_eq_getElem?,
      getElem?_eq_getElem hl]
  rw [hv] at hhead
  simpa using hhead

theorem isDigit_zero (h2 : 2 ≤ radix) : IsDigit radix '0'.toNat 0 :=
  ⟨by omega, Or.inl ⟨by omega, rfl⟩⟩

theorem eq_zero_of_isDigit {ch : ℕ} (h : IsDigit radix ch 0) : ch = '0'.toNat := by
  obtain ⟨-, ⟨-, h⟩ | ⟨h, -⟩⟩ := h
  · exact h
  · omega

theorem readOnto_replicate_zero (radix : ℕ) (ds : List ℕ) :
    ∀ k, readOnto radix 0 (List.replicate k 0 ++ ds) = readOnto radix 0 ds
  | 0 => rfl
  | k + 1 => by
    rw [replicate_succ, cons_append, readOnto_cons, Nat.zero_mul, Nat.zero_add,
      readOnto_replicate_zero radix ds k]

section
variable {radix : ℕ} (h2 : 2 ≤ radix) (h36 : radix ≤ 36)
include h2 h36

/-- **The loop on digits** is the parser on the numeral of a BigInt. -/
theorem parseIntLoop_eq_numeral (sign : ParseIntSign) {t : List UChar}
    (ht : List.Forall₂ (IsDigit radix) t ds) (hne : t ≠ [])
    (hhead : t.dropWhile (· == '0'.toNat) = t) : ∃ x : JSBigInt P, x.Normalized ∧ x.digits ≠ [] ∧
      x.toInt = signed (sign = .Signed) (readOnto radix 0 ds : ℕ) ∧
      (digits radix (value x.digits)).length = t.length ∧
      ∀ errorParseMode, parseIntLoop radix errorParseMode sign t.length t.length t none =
        parseInt (P := P) (canonicalNumeral radix |x.toInt|) radix errorParseMode
          (matchingSign x) := by
  have hlen := ht.length_eq
  have hds : ds ≠ [] := fun h0 => hne (length_eq_zero_iff.mp (by rw [hlen, h0]; rfl))
  have hlt : ∀ d ∈ ds, d < radix := by
    clear hne hhead hlen hds
    induction ht with
    | nil => simp
    | cons hd _ ih =>
      intro d hmem
      rcases mem_cons.mp hmem with rfl | hmem
      · exact hd.1
      · exact ih d hmem
  have htop : ds.head hds ≠ 0 := by
    intro h0
    match t, ds, ht with
    | ch :: t, d :: ds, .cons hd _ =>
      subst h0
      rw [eq_zero_of_isDigit hd, dropWhile_cons, if_pos (beq_self_eq_true _)] at hhead
      have := congrArg length hhead
      have hle := length_dropWhile_le (· == '0'.toNat) t
      rw [length_cons] at this
      omega
  have hnum : IsNumeral radix ds.reverse (readOnto radix 0 ds) := by
    refine ⟨fun d hd => hlt d (mem_reverse.mp hd), fun h => ?_, ?_⟩
    · rwa [getLast_reverse]
    · rw [← readOnto_reverse, reverse_reverse]
  have hdigits := hnum.eq_digits (by omega)
  have hn0 : readOnto radix 0 ds ≠ 0 := fun h0 => by
    rw [h0, digits_zero, reverse_eq_nil_iff] at hdigits
    exact hds hdigits
  set n := readOnto radix 0 ds
  have hval : value ((JSBigInt.ofNat P n).setSign (sign = .Signed)).digits = n :=
    JSBigInt.value_ofNat n
  have hxne : ((JSBigInt.ofNat P n).setSign (sign = .Signed)).digits ≠ [] := fun h0 => by
    rw [h0] at hval
    exact hn0 hval.symm
  have hx : ((JSBigInt.ofNat P n).setSign (sign = .Signed)).Normalized :=
    ⟨(JSBigInt.normalized_ofNat n).top, fun h0 => absurd h0 hxne⟩
  refine ⟨_, hx, hxne, ?_, ?_, fun errorParseMode => ?_⟩
  · rw [toInt_eq_signed, hval]
    rfl
  · rw [hval, ← hdigits, length_reverse, hlen]
  · have hsign : matchingSign ((JSBigInt.ofNat P n).setSign (sign = .Signed)) = sign := by
      cases sign <;> rfl
    rw [parseInt_eq_loop hx hxne h2 h36, hval, ← hdigits, reverse_reverse,
      length_reverse, hsign, hlen]
    refine parseIntLoop_congr radix errorParseMode sign _ _ _ _ _ ?_
    rw [(forall₂_parseDigit h36).mp ht, map_map]
    refine (map_congr_left fun d hd => ?_).symm
    exact parseDigit_radixDigit radix (by omega) d (hlt d hd)

omit h36 in
theorem forall₂_zeros {l : List UChar} (h : ∀ ch ∈ l, ch = '0'.toNat) :
    List.Forall₂ (IsDigit radix) l (List.replicate l.length 0) := by
  induction l with
  | nil => exact .nil
  | cons ch l ih =>
    rw [h ch (mem_cons_self ..)]
    exact .cons (isDigit_zero h2) (ih fun ch hch => h ch (mem_cons_of_mem _ hch))

omit h36 in
theorem digits_of_stripped {body : List UChar} (h : List.Forall₂ (IsDigit radix)
      ((body.dropWhile (· == '0'.toNat)).rdropWhile isStrWhiteSpace) ds) :
    ∃ ds', List.Forall₂ (IsDigit radix) (body.rdropWhile isStrWhiteSpace) ds' ∧
      readOnto radix 0 ds' = readOnto radix 0 ds := by
  refine ⟨replicate (body.takeWhile (· == '0'.toNat)).length 0 ++ ds, ?_,
    readOnto_replicate_zero radix ds _⟩
  rw [(strip_eq body).1]
  refine rel_append (forall₂_zeros h2 fun ch hch => ?_) h
  exact beq_iff_eq.mp (mem_takeWhile_imp (p := (· == '0'.toNat)) hch)

omit h2 h36 in
theorem allocateForLength_zero : allocateForLength P radix 0 ≤ maxLength P := by
  have hw := P.digitBits_ge
  unfold allocateForLength
  dsimp only
  rw [mul_zero, zero_add,
    show (bitsPerCharTableMultiplier - 1) >>> bitsPerCharTableShift = 0 from rfl,
    div_eq_of_lt (by omega)]
  exact zero_le _

variable (sign : ParseIntSign) (parseMode : ParseIntMode) {data : List UChar} {start : ℕ}
  (hstart : start ≤ data.length)
include hstart

/-- **What the parser accepts** behind the mark, and what it makes of it. -/
theorem parseIntFrom_ok {r : JSBigInt P} {vm' : VM P}
    (h : parseIntFrom data start radix .IgnoreExceptions sign parseMode vm = .ok (some r, vm')) :
    ¬ (parseMode ≠ .AllowEmptyString ∧ data.drop start = []) ∧
      ∃ ds, List.Forall₂ (IsDigit radix) ((data.drop start).rdropWhile isStrWhiteSpace) ds ∧
        r.Normalized ∧ r.toInt = signed (sign = .Signed) (readOnto radix 0 ds : ℕ) ∧
        (VM.Unlimited vm → allocateForLength P radix
          (((data.drop start).rdropWhile isStrWhiteSpace).dropWhile (· == '0'.toNat)).length ≤
            maxLength P) := by
  have hempty : start = data.length ↔ data.drop start = [] := by
    rw [drop_eq_nil_iff]
    omega
  rw [(strip_eq _).2]
  have hhead := (strip_eq (data.drop start)).2
  simp only [parseIntFrom, hempty] at h
  by_cases hreject : parseMode ≠ .AllowEmptyString ∧ data.drop start = []
  · rw [if_pos hreject] at h
    cases (pure_ok.mp h).1
  refine ⟨hreject, ?_⟩
  rw [if_neg hreject] at h
  set t := ((data.drop start).dropWhile (· == '0'.toNat)).rdropWhile isStrWhiteSpace
  by_cases ht : t = []
  · rw [if_pos ht] at h
    obtain ⟨z, vm1, hz, h⟩ := bind_ok.mp h
    obtain ⟨⟨⟩, -⟩ := pure_ok.mp h
    obtain ⟨ds, h1, h3⟩ := digits_of_stripped h2
      (show Forall₂ (IsDigit radix) t [] by rw [ht]; exact .nil)
    obtain ⟨n1, n2⟩ := (createZero_returns True).ok hz
    refine ⟨ds, h1, n1, ?_, fun _ => by rw [ht]; exact allocateForLength_zero⟩
    rw [n2, h3]
    cases decide (sign = .Signed) <;> rfl
  · rw [if_neg ht] at h
    obtain ⟨ds, hds⟩ := parseIntLoop_digits h2 h36 sign _ _ (le_refl _) h
    have hfix : t.dropWhile (· == '0'.toNat) = t := by
      rw [← hhead]
      exact dropWhile_idempotent _ _
    obtain ⟨x, hx, hxne, hxz, hlen, heq⟩ := parseIntLoop_eq_numeral h2 h36 sign hds ht hfix
    obtain ⟨ds', h1, h3⟩ := digits_of_stripped h2 hds
    rw [heq] at h
    obtain ⟨⟩ := (parseInt_returns hx hxne h2 h36 .IgnoreExceptions).ok h
    refine ⟨ds', h1, hx, by rw [h3, hxz], fun hvm => ?_⟩
    by_contra hbig
    have herror := (parseInt_unlimited hx hxne h2 h36 .IgnoreExceptions hvm).2
      (by rw [hlen]; exact not_le.mp hbig)
    rw [herror] at h
    cases h

/-- **The parser returns** if there are digits, or nothing where that is allowed, and not too many
of them. -/
theorem parseIntFrom_unlimited (hvm : VM.Unlimited vm)
    (haccept : ¬ (parseMode ≠ .AllowEmptyString ∧ data.drop start = []))
    (hds : List.Forall₂ (IsDigit radix) ((data.drop start).rdropWhile isStrWhiteSpace) ds)
    (hfit : allocateForLength P radix
      (((data.drop start).rdropWhile isStrWhiteSpace).dropWhile (· == '0'.toNat)).length ≤
        maxLength P) : ∃ r vm', parseIntFrom data start radix .IgnoreExceptions sign parseMode vm =
      .ok (some r, vm') := by
  have hempty : start = data.length ↔ data.drop start = [] := by
    rw [drop_eq_nil_iff]
    omega
  obtain ⟨hsplit, hhead⟩ := strip_eq (data.drop start)
  rw [hhead] at hfit
  rw [hsplit] at hds
  simp only [parseIntFrom, hempty]
  rw [if_neg haccept]
  set t := ((data.drop start).dropWhile (· == '0'.toNat)).rdropWhile isStrWhiteSpace
  by_cases ht : t = []
  · rw [if_pos ht]
    obtain ⟨z, vm1, hz, -⟩ := (createZero_returns True).unlimited trivial hvm
    exact ⟨z, vm1, bind_ok.mpr ⟨z, vm1, hz, rfl⟩⟩
  · rw [if_neg ht]
    have hdst := forall₂_drop ((data.drop start).takeWhile (· == '0'.toNat)).length hds
    rw [drop_left] at hdst
    have hfix : t.dropWhile (· == '0'.toNat) = t := by
      rw [← hhead]
      exact dropWhile_idempotent _ _
    obtain ⟨x, hx, hxne, -, hlen, heq⟩ := parseIntLoop_eq_numeral h2 h36 sign hdst ht hfix
    rw [heq]
    obtain ⟨vm', h⟩ := (parseInt_unlimited hx hxne h2 h36 .IgnoreExceptions hvm).1
      (by rw [hlen]; exact hfit)
    exact ⟨x, vm', h⟩
end

/-! ## The strings that are accepted -/

theorem sign_eq_negative (mark : Mark) : decide (mark.sign = .Signed) = mark.negative := by
  unfold Mark.sign
  cases mark.negative <;> rfl

theorem parseMode_iff (mark : Mark) :
    mark.parseMode ≠ .AllowEmptyString ↔ mark.text.length = 2 := by
  unfold Mark.parseMode
  split_ifs with h <;> simp [h]

theorem marks_length (h : mark ∈ marks) (hne : mark.text ≠ []) :
    mark.text.length = 1 ∨ mark.text.length = 2 := by
  revert mark
  decide

theorem forall₂_unique (h36 : radix ≤ 36) {ds' : List ℕ} (h : List.Forall₂ (IsDigit radix) text ds)
    (h' : List.Forall₂ (IsDigit radix) text ds') : ds = ds' := by
  rw [forall₂_parseDigit h36] at h h'
  exact map_injective_iff.mpr (Option.some_injective ℕ) (h.symm.trans h')

section
variable (s : List UChar)

/-- The mark of a string. -/
def markIn : Mark := markOf (s.dropWhile isStrWhiteSpace)

/-- What follows the mark. -/
def bodyOf : List UChar := (s.dropWhile isStrWhiteSpace).drop (markIn s).text.length

/-- What should be digits. -/
def textOf : List UChar := (bodyOf s).rdropWhile isStrWhiteSpace

theorem markIn_mem : markIn s ∈ marks := (markOf_mem _).1

theorem dropWhile_eq : s.dropWhile isStrWhiteSpace = (markIn s).text ++ bodyOf s := by
  obtain ⟨-, body, hbody⟩ := markOf_mem (s.dropWhile isStrWhiteSpace)
  unfold bodyOf markIn
  generalize markOf (s.dropWhile isStrWhiteSpace) = mark at hbody
  rw [hbody, drop_left]

theorem drop_start_eq : s.drop ((s.takeWhile isStrWhiteSpace).length + (markIn s).text.length) =
    bodyOf s := by
  conv_lhs =>
    arg 2
    rw [← takeWhile_append_dropWhile (l := s), dropWhile_eq]
  rw [← drop_drop, drop_left, drop_left]

theorem start_le : (s.takeWhile isStrWhiteSpace).length + (markIn s).text.length ≤ s.length := by
  have hsplit := congrArg length
    (takeWhile_append_dropWhile (p := isStrWhiteSpace) (l := s))
  rw [dropWhile_eq, length_append, length_append] at hsplit
  omega

theorem stringToBigInt_eq : stringToBigInt (P := P) s =
    parseIntFrom s ((s.takeWhile isStrWhiteSpace).length + (markIn s).text.length)
      (markIn s).radix .IgnoreExceptions (markIn s).sign (markIn s).parseMode := by
  have hsplit := takeWhile_append_dropWhile (p := isStrWhiteSpace) (l := s)
  have h := parseIntText_eq (P := P) (s.takeWhile isStrWhiteSpace) (s.dropWhile isStrWhiteSpace)
    .IgnoreExceptions (by rw [hsplit])
  rwa [hsplit] at h

theorem literal_of_digits (h : List.Forall₂ (IsDigit (markIn s).radix) (textOf s) ds) :
    ∃ trail, bodyOf s = textOf s ++ trail ∧ Literal s (markIn s) (textOf s) ds trail := by
  obtain ⟨trail, htrail, heq⟩ := exists_trail (bodyOf s)
  have heq : bodyOf s = textOf s ++ trail := heq
  refine ⟨trail, heq, markIn_mem s, ⟨s.takeWhile isStrWhiteSpace, fun ch hch => ?_, ?_⟩, htrail, h⟩
  · exact mem_takeWhile_imp hch
  · rw [← heq, ← dropWhile_eq, takeWhile_append_dropWhile]

variable {s}

theorem Literal.parts (h : Literal s mark text ds trail) :
    mark = markIn s ∧ text = textOf s ∧ (mark.text ≠ [] → bodyOf s = text ++ trail) := by
  obtain ⟨h1, h2, h3⟩ := h.unique
  rw [textOf, bodyOf, markIn, ← h1]
  exact ⟨rfl, h2, h3⟩

theorem stringToBigInt_ok {r : JSBigInt P} {vm' : VM P}
    (h : stringToBigInt s vm = .ok (some r, vm')) : ¬ ((markIn s).text.length = 2 ∧ bodyOf s = []) ∧
      ∃ ds, List.Forall₂ (IsDigit (markIn s).radix) (textOf s) ds ∧ r.Normalized ∧
        r.toInt = signed (markIn s).negative (readOnto (markIn s).radix 0 ds : ℕ) ∧
        (VM.Unlimited vm → allocateForLength P (markIn s).radix
          ((textOf s).dropWhile (· == '0'.toNat)).length ≤ maxLength P) := by
  obtain ⟨h2, h16⟩ := marks_radix (markIn_mem s)
  rw [stringToBigInt_eq] at h
  have hok := parseIntFrom_ok h2 (by omega) _ _ (start_le s) h
  rwa [drop_start_eq, sign_eq_negative, parseMode_iff] at hok

theorem stringToBigInt_unlimited (hvm : VM.Unlimited vm)
    (haccept : ¬ ((markIn s).text.length = 2 ∧ bodyOf s = []))
    (hds : List.Forall₂ (IsDigit (markIn s).radix) (textOf s) ds)
    (hfit : allocateForLength P (markIn s).radix
      ((textOf s).dropWhile (· == '0'.toNat)).length ≤ maxLength P) :
    ∃ r vm', stringToBigInt s vm = .ok (some r, vm') := by
  obtain ⟨h2, h16⟩ := marks_radix (markIn_mem s)
  rw [stringToBigInt_eq]
  rw [← parseMode_iff] at haccept
  refine parseIntFrom_unlimited h2 (by omega) _ _ (start_le s) hvm ?_
    (by rw [drop_start_eq]; exact hds) ?_
  · rwa [drop_start_eq]
  · rwa [drop_start_eq]

/-- Nothing where digits should be is read as 0, unless it comes right after a radix mark. -/
theorem stringToBigInt_empty (h : Literal s mark [] [] trail)
    (hmark : mark.text.length ≠ 2 ∨ trail ≠ []) (hne : mark.text ≠ []) (hvm : VM.Unlimited vm) :
    (∃ r vm', stringToBigInt s vm = .ok (some r, vm') ∧ r.Normalized ∧ r.toInt = 0) ∧
      ∀ z, ¬ StringIntegerLiteral s z := by
  obtain ⟨rfl, htext, hbody⟩ := h.parts
  have hds : Forall₂ (IsDigit (markIn s).radix) (textOf s) [] := by
    rw [← htext]
    exact .nil
  refine ⟨?_, ?_⟩
  · obtain ⟨r, vm', hr⟩ := stringToBigInt_unlimited hvm (fun h0 => by
      rw [hbody hne] at h0
      rcases hmark with h1 | h1
      · exact h1 h0.1
      · exact h1 h0.2) hds (by rw [← htext]; exact allocateForLength_zero)
    obtain ⟨-, ds, h1, h2, h3, -⟩ := stringToBigInt_ok hr
    refine ⟨r, vm', hr, h2, ?_⟩
    rw [h3]
    rw [← htext] at h1
    cases h1
    cases (markIn s).negative <;> rfl
  · rintro z ⟨mark, text, ds, trail', hlit, hdigits, -⟩
    obtain ⟨rfl, htext', -⟩ := hlit.parts
    rw [← htext] at htext'
    rcases hdigits with h1 | h1
    · exact h1 htext'
    · exact hne h1
end

/-- **The strings that `stringToBigInt` gets right.** If no allocation fails, it returns the BigInt
`z` just for the literals of `z`, unless the string is a bare sign, or a radix mark followed by
white space, both of which it reads as 0, or a literal too long for `allocateFor`. -/
theorem stringToBigInt_iff (P : Platform) (s : List UChar) :
    (∀ vm : VM P, VM.Unlimited vm → ∀ z : ℤ,
      (∃ r vm', stringToBigInt s vm = .ok (some r, vm') ∧ r.Normalized ∧ r.toInt = z) ↔
        StringIntegerLiteral s z) ↔ ¬ BareSign s ∧ ¬ BareRadixMark s ∧ ¬ TooLong P s := by
  obtain ⟨-, h16⟩ := marks_radix (markIn_mem s)
  constructor
  · intro h
    have hwrong : ∀ {mark trail}, Literal s mark [] [] trail →
        (mark.text.length ≠ 2 ∨ trail ≠ []) → mark.text ≠ [] → False := by
      intro mark trail hlit hmark hne
      obtain ⟨hzero, hnone⟩ := stringToBigInt_empty hlit hmark hne VM.zeroed_unlimited
      exact hnone 0 ((h VM.zeroed VM.zeroed_unlimited 0).mp hzero)
    refine ⟨?_, ?_, ?_⟩
    · rintro ⟨mark, trail, hlit, hlen⟩
      exact hwrong hlit (Or.inl (by omega)) (ne_nil_of_length_pos (by omega))
    · rintro ⟨mark, trail, hlit, hlen, htrail⟩
      exact hwrong hlit (Or.inr htrail) (ne_nil_of_length_pos (by omega))
    · rintro ⟨mark, text, ds, trail, hlit, hlong⟩
      have htext : text ≠ [] := fun h0 => by
        rw [h0] at hlong
        exact absurd hlong (not_lt.mpr allocateForLength_zero)
      obtain ⟨r, vm', hr, -, -⟩ := (h VM.zeroed VM.zeroed_unlimited _).mpr
        ⟨mark, text, ds, trail, hlit, Or.inl htext, rfl⟩
      obtain ⟨-, ds', -, -, -, hfit⟩ := stringToBigInt_ok hr
      obtain ⟨rfl, rfl, -⟩ := hlit.parts
      exact absurd hlong (not_lt.mpr (hfit VM.zeroed_unlimited))
  · rintro ⟨hsign, hradix, hlong⟩ vm hvm z
    constructor
    · rintro ⟨r, vm', hr, -, rfl⟩
      obtain ⟨haccept, ds, hds, -, hz, -⟩ := stringToBigInt_ok hr
      obtain ⟨trail, hbody, hlit⟩ := literal_of_digits s hds
      refine ⟨_, _, _, _, hlit, ?_, hz⟩
      by_contra hempty
      rw [not_or, not_not] at hempty
      obtain ⟨htext, hne⟩ := hempty
      rw [htext] at hlit hbody hds
      cases hds
      rcases marks_length (markIn_mem s) hne with hlen | hlen
      · exact hsign ⟨_, _, hlit, hlen⟩
      · refine hradix ⟨_, _, hlit, hlen, fun h0 => haccept ⟨hlen, ?_⟩⟩
        rw [hbody, h0]
        rfl
    · rintro ⟨mark, text, ds, trail, hlit, hdigits, rfl⟩
      obtain ⟨rfl, rfl, -⟩ := hlit.parts
      obtain ⟨r, vm', hr⟩ := stringToBigInt_unlimited hvm (fun h0 => by
        rcases hdigits with h1 | h1
        · refine h1 ?_
          rw [textOf, h0.2]
          rfl
        · rw [h1] at h0
          exact absurd h0.1 (by decide)) hlit.digits
        (not_lt.mp fun hbig => hlong ⟨_, _, _, _, hlit, hbig⟩)
      obtain ⟨-, ds', hds', hnorm, hz, -⟩ := stringToBigInt_ok hr
      refine ⟨r, vm', hr, hnorm, ?_⟩
      rw [hz, forall₂_unique (by omega) hds' hlit.digits]

/-- `-` and `0x` followed by a blank are read as 0, though neither denotes an integer. -/
theorem stringToBigInt_accepts_bare_marks :
    (∃ r vm', stringToBigInt (P := Platform.arm64) ['-'.toNat] VM.zeroed = .ok (some r, vm') ∧
        r.Normalized ∧ r.toInt = 0) ∧
      (∀ z, ¬ StringIntegerLiteral ['-'.toNat] z) ∧
      (∃ r vm', stringToBigInt (P := Platform.arm64) ['0'.toNat, 'x'.toNat, ' '.toNat] VM.zeroed =
          .ok (some r, vm') ∧ r.Normalized ∧ r.toInt = 0) ∧
      ∀ z, ¬ StringIntegerLiteral ['0'.toNat, 'x'.toNat, ' '.toNat] z := by
  have hsign : Literal ['-'.toNat] ⟨['-'.toNat], 10, true⟩ [] [] [] :=
    ⟨by decide, ⟨[], by simp [WhiteSpace], rfl⟩, by simp [WhiteSpace], .nil⟩
  have hradix : Literal ['0'.toNat, 'x'.toNat, ' '.toNat] ⟨['0'.toNat, 'x'.toNat], 16, false⟩ [] []
      [' '.toNat] :=
    ⟨by decide, ⟨[], by simp [WhiteSpace], rfl⟩, by unfold WhiteSpace; decide, .nil⟩
  obtain ⟨h1, h2⟩ := stringToBigInt_empty hsign (Or.inl (by decide))
    (by simp) VM.zeroed_unlimited
  obtain ⟨h3, h4⟩ := stringToBigInt_empty hradix (Or.inr (by simp))
    (by simp) VM.zeroed_unlimited
  exact ⟨h1, h2, h3, h4⟩

end JscAndroid.BigInt.StringToBigInt
