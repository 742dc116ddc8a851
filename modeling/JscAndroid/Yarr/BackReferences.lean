import JscAndroid.Yarr.InputStream

/-!
# Consuming a back-reference

`tryConsumeBackReference` moves the position over the text before it compares, and back when the
texts differ. In Unicode patterns the comparison itself moves the position, when a captured
character of the basic plane meets a surrogate pair; the way back does not undo this.
-/

namespace JscAndroid.Yarr.BackReferences

open Classes ByteCode InputStream

/-! ## Texts -/

section
variable (e : Env)

def codePointAt (p : ℕ) : UChar32 :=
  if e.unicode && e.pairAt p then supplementary (e.unit p) (e.unit (p + 1)) else e.unit p

/-- The character at a position that a captured character is compared with: for one outside the
basic plane it has to be a surrogate pair. -/
def facing (ch : UChar32) (p : ℕ) : Option UChar32 :=
  if isBMP ch then some (codePointAt e p)
  else if e.pairAt p then some (supplementary (e.unit p) (e.unit (p + 1))) else none

/-- Equality, unless case is ignored. -/
def agrees (ch : UChar32) (read : Option UChar32) : Bool :=
  if e.ignoreCase then e.sameCharacter ch read else some ch = read

theorem agrees_eq (ch : UChar32) (read : Option UChar32) :
    agrees e ch read = e.sameCharacter ch read := by
  unfold agrees Env.sameCharacter
  cases e.ignoreCase <;> cases read <;> simp

variable (captured begin size : ℕ)

/-- From the index `i` on, the text at `begin` is the captured one, character by character. -/
def sameText : ℕ → ℕ → Bool
  | 0, _ => true
  | fuel + 1, i =>
    let ch := codePointAt e (captured + i)
    if i < size then
      agrees e ch (facing e ch (begin + i)) && sameText fuel (i + u16Length ch)
    else true

/-- From the index `i` on and before the texts differ, a captured character of the basic plane meets
a surrogate pair. -/
def meetsPair : ℕ → ℕ → Bool
  | 0, _ => false
  | fuel + 1, i =>
    let ch := codePointAt e (captured + i)
    i < size && ((e.unicode && isBMP ch && e.pairAt (begin + i)) ||
      agrees e ch (facing e ch (begin + i)) && meetsPair fuel (i + u16Length ch))
end

/-! ## Reads -/

variable {e : Env} {captured offset pos size i : ℕ}

theorem bind_ok {α β : Type} {x : Except Violation α} {f : α → Except Violation β} {b : β} :
    x >>= f = .ok b ↔ ∃ a, x = .ok a ∧ f a = .ok b := by
  cases x with
  | ok a => exact ⟨fun h => ⟨a, rfl, h⟩, fun ⟨_, h, hf⟩ => Except.ok.inj h ▸ hf⟩
  | error v => exact ⟨nofun, fun ⟨_, h, _⟩ => nomatch h⟩

theorem reread_eq {p : ℕ} (h : p < e.length) : e.reread p = .ok (codePointAt e p) := by
  rw [Env.reread, codePointAt, if_neg (by omega)]
  split_ifs <;> rfl

section
variable (hle : offset ≤ pos) (hlt : pos - offset < e.length)
include hle hlt

theorem readChecked_plain (h : (e.unicode && e.pairAt (pos - offset)) = false) :
    e.readChecked pos offset = .ok (some (codePointAt e (pos - offset)), pos) := by
  rw [Env.readChecked, codePointAt, if_neg (by omega), if_neg (by omega), h]
  rfl

/-- At the end of the input a pair is not decoded; elsewhere its second half is passed over. -/
theorem readChecked_pair (h : (e.unicode && e.pairAt (pos - offset)) = true) :
    e.readChecked pos offset = .ok (if pos = e.length then (none, pos)
      else (some (codePointAt e (pos - offset)), pos + 1)) := by
  rw [Env.readChecked, codePointAt, if_neg (by omega), if_neg (by omega), h, if_pos rfl, if_pos rfl]
  split_ifs <;> rfl

theorem readSurrogatePairChecked_eq :
    e.readSurrogatePairChecked pos offset = .ok (if e.pairAt (pos - offset) then
      some (supplementary (e.unit (pos - offset)) (e.unit (pos - offset + 1))) else none) := by
  rw [Env.readSurrogatePairChecked, if_neg (by omega), if_neg (by omega)]
  split_ifs <;> rfl
end

/-! ## One round -/

section
variable {ch : UChar32} (hoffset : offset ≤ pos) (hi : i < size) (hsize : pos + size ≤ e.length)
include hoffset hi hsize

theorem round_plain (h : (e.unicode && isBMP ch && e.pairAt (pos - offset + i)) = false) :
    e.readForBackReference ch (offset + size - i) (pos + size) =
      .ok (facing e ch (pos - offset + i), u16Length ch, pos + size) := by
  have hp : pos + size - (offset + size - i) = pos - offset + i := by omega
  unfold Env.readForBackReference facing u16Length
  cases hch : isBMP ch with
  | true =>
    rw [hch, Bool.and_true, ← hp] at h
    rw [readChecked_plain (by omega) (by omega) h, hp]
    rfl
  | false =>
    rw [readSurrogatePairChecked_eq (by omega) (by omega), hp]
    rfl

theorem round_pair (h : (e.unicode && isBMP ch && e.pairAt (pos - offset + i)) = true) :
    ∃ read, e.readForBackReference ch (offset + size - i) (pos + size) =
      .ok (if pos + size = e.length then (none, 1, pos + size) else (read, 1, pos + size + 1)) := by
  have hp : pos + size - (offset + size - i) = pos - offset + i := by omega
  simp only [Bool.and_eq_true] at h
  obtain ⟨⟨hunicode, hch⟩, hpair⟩ := h
  rw [Env.readForBackReference,
    readChecked_pair (by omega) (by omega) (by rw [hp, hunicode, hpair]; rfl)]
  refine ⟨some (codePointAt e (pos + size - (offset + size - i))), ?_⟩
  split_ifs <;> rfl
end

theorem readForBackReference_le {ch : UChar32} {p p' units : ℕ} {read : Option UChar32}
    (h : e.readForBackReference ch offset p = .ok (read, units, p')) : p ≤ p' := by
  unfold Env.readForBackReference at h
  split_ifs at h
  · unfold Env.readChecked at h
    split_ifs at h <;> cases h <;> omega
  · unfold Env.readSurrogatePairChecked at h
    split_ifs at h <;> cases h <;> omega

/-! ## The loop -/

theorem rest_bounds {p p' : ℕ} {same matched : Bool} {rest : Except Violation (Bool × ℕ)}
    (hrest : rest = .ok (matched, p') → p ≤ p' + if matched then 0 else size)
    (h : (if same then rest else do
      let pos ← Env.uncheckInput p size
      return (false, pos)) = .ok (matched, p')) : p ≤ p' + if matched then 0 else size := by
  cases same with
  | true => exact hrest h
  | false =>
    obtain ⟨p1, h1, h⟩ := bind_ok.mp h
    obtain ⟨rfl, rfl⟩ := Prod.mk.inj (Except.ok.inj h)
    unfold Env.uncheckInput at h1
    split_ifs at h1
    have := Except.ok.inj h1
    rw [if_neg Bool.false_ne_true]
    omega

/-- The position never falls below where a full way back leads. -/
theorem loop_bounds {fuel p p' : ℕ} {matched : Bool}
    (h : e.backReferenceLoop captured size offset fuel i p = .ok (matched, p')) :
    p ≤ p' + if matched then 0 else size := by
  induction fuel generalizing i p with
  | zero =>
    obtain ⟨rfl, rfl⟩ := Prod.mk.inj (Except.ok.inj h)
    simp
  | succ fuel ih =>
    unfold Env.backReferenceLoop at h
    split_ifs at h with hi
    · obtain ⟨ch, -, h⟩ := bind_ok.mp h
      obtain ⟨⟨read, units, p1⟩, hread, h⟩ := bind_ok.mp h
      exact le_trans (readForBackReference_le hread) (rest_bounds ih h)
    · obtain ⟨rfl, rfl⟩ := Prod.mk.inj (Except.ok.inj h)
      simp

section
variable (hoffset : offset ≤ pos) (hsize : pos + size ≤ e.length)
  (hcaptured : captured + size ≤ e.length)
include hoffset hsize hcaptured

/-- The loop, as long as no captured character meets a surrogate pair. -/
theorem loop_spec (fuel : ℕ) (i : ℕ)
    (h : pos + size < e.length → meetsPair e captured (pos - offset) size fuel i = false) :
    ∃ matched, e.backReferenceLoop captured size offset fuel i (pos + size) =
        .ok (matched, if matched then pos + size else pos) ∧
      (matched = true → sameText e captured (pos - offset) size fuel i = true) := by
  induction fuel generalizing i with
  | zero => exact ⟨true, rfl, fun _ => rfl⟩
  | succ fuel ih =>
    unfold Env.backReferenceLoop sameText
    unfold meetsPair at h
    simp only [agrees_eq] at h ⊢
    by_cases hi : i < size
    swap
    · rw [if_neg hi, if_neg hi]
      exact ⟨true, rfl, fun _ => rfl⟩
    rw [if_pos hi, if_pos hi, reread_eq (by omega)]
    set ch := codePointAt e (captured + i)
    have hback : Env.uncheckInput (pos + size) size = .ok pos := by
      rw [Env.uncheckInput, if_neg (by omega), Nat.add_sub_cancel]
    cases hmeets : e.unicode && isBMP ch && e.pairAt (pos - offset + i) with
    | true =>
      obtain ⟨read, hread⟩ := round_pair hoffset hi hsize hmeets
      have hend : pos + size = e.length := by
        by_contra hne
        have := h (by omega)
        rw [hmeets] at this
        simp [hi] at this
      rw [if_pos hend] at hread
      refine ⟨false, ?_, (absurd · Bool.false_ne_true)⟩
      show (e.readForBackReference ch (offset + size - i) (pos + size) >>= _) = _
      rw [hread]
      show (Env.uncheckInput (pos + size) size >>= _) = _
      rw [hback]
      rfl
    | false =>
      have hread := round_plain hoffset hi hsize hmeets
      show ∃ matched, (e.readForBackReference ch (offset + size - i) (pos + size) >>= _) = _ ∧ _
      rw [hread]
      show ∃ matched, (if e.sameCharacter ch (facing e ch (pos - offset + i)) then _ else _) = _ ∧ _
      cases hsame : e.sameCharacter ch (facing e ch (pos - offset + i)) with
      | true =>
        refine ih (i + u16Length ch) fun hlt => ?_
        have := h hlt
        rw [hmeets, hsame] at this
        simpa [hi] using this
      | false =>
        refine ⟨false, ?_, (absurd · Bool.false_ne_true)⟩
        rw [hback]
        rfl

/-- Once a captured character meets a surrogate pair, the position is not what it should be. -/
theorem loop_leaks (hlt : pos + size < e.length) (fuel : ℕ) (i : ℕ)
    (h : meetsPair e captured (pos - offset) size fuel i = true) (matched : Bool) :
    e.backReferenceLoop captured size offset fuel i (pos + size) ≠
      .ok (matched, if matched then pos + size else pos) := by
  induction fuel generalizing i with
  | zero => cases h
  | succ fuel ih =>
    simp only [meetsPair, agrees_eq] at h
    rw [Bool.and_eq_true, decide_eq_true_iff] at h
    obtain ⟨hi, h⟩ := h
    rw [Env.backReferenceLoop, if_pos hi, reread_eq (by omega)]
    set ch := codePointAt e (captured + i)
    show (e.readForBackReference ch (offset + size - i) (pos + size) >>= _) ≠ _
    cases hmeets : e.unicode && isBMP ch && e.pairAt (pos - offset + i) with
    | true =>
      obtain ⟨read, hread⟩ := round_pair hoffset hi hsize hmeets
      rw [if_neg (by omega)] at hread
      rw [hread]
      intro heq
      have hbounds := rest_bounds loop_bounds heq
      split_ifs at hbounds <;> omega
    | false =>
      rw [round_plain hoffset hi hsize hmeets]
      rw [hmeets, Bool.false_or, Bool.and_eq_true] at h
      show (if e.sameCharacter ch (facing e ch (pos - offset + i)) then _ else _) ≠ _
      rw [if_pos h.1]
      exact ih _ h.2
end

/-! ## Main result -/

theorem checkInput_eq (hlength : e.length < 2 ^ 32) (hpos : pos ≤ e.length)
    (hsize : size ≤ e.length) :
    e.checkInput pos size = if pos + size ≤ e.length then some (pos + size) else none := by
  unfold Env.checkInput u32
  by_cases h : pos + size ≤ e.length
  · rw [Nat.mod_eq_of_lt (by omega), if_pos ⟨h, by omega⟩, if_pos h]
  · rw [if_neg (by omega), if_neg h]

/-- `tryConsumeBackReference` for a capture of a given size. -/
def consume (e : Env) (captured offset size pos : ℕ) : Except Violation (Bool × ℕ) :=
  match e.checkInput pos size with
  | none => .ok (false, pos)
  | some pos => e.backReferenceLoop captured size offset size 0 pos

theorem tryConsumeBackReference_eq {matchBegin matchEnd : ℕ} (hcapture : matchBegin ≤ matchEnd)
    (hend : matchEnd < 2 ^ 32) : e.tryConsumeBackReference matchBegin matchEnd offset pos =
      consume e matchBegin offset (matchEnd - matchBegin) pos := by
  rw [← u32Sub_of_le hcapture hend]
  rfl

theorem consume_eq (hlength : e.length < 2 ^ 32) (hpos : pos ≤ e.length) (hsize : size ≤ e.length) :
    consume e captured offset size pos = if pos + size ≤ e.length then
        e.backReferenceLoop captured size offset size 0 (pos + size) else .ok (false, pos) := by
  rw [consume, checkInput_eq hlength hpos hsize]
  by_cases h : pos + size ≤ e.length
  · rw [if_pos h, if_pos h]
  · rw [if_neg h, if_neg h]

/-- The back-reference is consumed as a whole, and then the texts are the same, or not at all. -/
def AllOrNothing (e : Env) (matchBegin matchEnd offset pos : ℕ) : Prop :=
  ∃ matched, e.tryConsumeBackReference matchBegin matchEnd offset pos =
      .ok (matched, if matched then pos + (matchEnd - matchBegin) else pos) ∧
    (matched = true → sameText e matchBegin (pos - offset) (matchEnd - matchBegin)
      (matchEnd - matchBegin) 0 = true)

/-- **When a back-reference is consumed as a whole or not at all**: unless it ends before the end of
the input and, before the texts differ, a captured character of the basic plane meets a surrogate
pair. -/
theorem tryConsumeBackReference_iff {matchBegin matchEnd : ℕ} (hcapture : matchBegin ≤ matchEnd)
    (hend : matchEnd ≤ e.length) (hlength : e.length < 2 ^ 32) (hpos : pos ≤ e.length)
    (hoffset : offset ≤ pos) : AllOrNothing e matchBegin matchEnd offset pos ↔
      (pos + (matchEnd - matchBegin) < e.length →
        meetsPair e matchBegin (pos - offset) (matchEnd - matchBegin) (matchEnd - matchBegin) 0 =
          false) := by
  rw [AllOrNothing, tryConsumeBackReference_eq hcapture (by omega),
    consume_eq hlength hpos (by omega)]
  by_cases hsize : pos + (matchEnd - matchBegin) ≤ e.length
  · rw [if_pos hsize]
    constructor
    · rintro ⟨matched, h, -⟩ hlt
      rw [← Bool.not_eq_true]
      exact fun hmeets => loop_leaks hoffset hsize (by omega) hlt _ 0 hmeets matched h
    · exact loop_spec hoffset hsize (by omega) _ 0
  · rw [if_neg hsize]
    exact iff_of_true ⟨false, rfl, (absurd · Bool.false_ne_true)⟩ fun h => absurd h (by omega)

/-- The input `a` and a surrogate pair, in a Unicode pattern. -/
def letterAndPair : Env where
  input := [0x61, 0xd834, 0xdf06]
  startOffset := 0
  ignoreCase := false
  multiline := false
  sticky := false
  unicode := true
  dotAll := false
  newlineCharacterClass := ⟨[], [], [], [], ⟨false, false⟩, false⟩
  wordcharCharacterClass := ⟨[], [], [], [], ⟨false, false⟩, false⟩
  canonicalization := ⟨⟨[], []⟩, ⟨[], []⟩⟩

/-- The captured `a` is compared with itself. -/
theorem tryConsumeBackReference_iff_letter : AllOrNothing letterAndPair 0 1 0 0 :=
  (tryConsumeBackReference_iff (e := letterAndPair) (by decide) (by decide)
    (show 3 < 2 ^ 32 by omega) (by decide) (by decide)).mpr fun _ => by decide +kernel

/-- The captured `a` is compared with a surrogate pair: the position moves into the pair. -/
theorem tryConsumeBackReference_moves :
    letterAndPair.tryConsumeBackReference 0 1 0 1 = .ok (false, 2) := by decide +kernel

end JscAndroid.Yarr.BackReferences
