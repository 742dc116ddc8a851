import JscAndroid.Yarr.ByteCode

/-!
# Reading the input

`InputStream` and the terms that only read: assertions, single characters, character classes and
backreferences. The current position is passed explicitly. Where a `RELEASE_ASSERT` of the source
fails, or a code unit is read outside the input, the operation ends with a `Violation`.
-/

namespace JscAndroid.Yarr.InputStream

open Classes Canonicalize ByteCode

/-- The constant members of the interpreter: the input and what it needs of the pattern. -/
structure Env where
  input : List ℕ
  startOffset : ℕ
  ignoreCase : Bool
  multiline : Bool
  sticky : Bool
  unicode : Bool
  dotAll : Bool
  newlineCharacterClass : CharacterClass
  wordcharCharacterClass : CharacterClass
  canonicalization : CanonicalizationTables

/-- What a failed check was about. -/
inductive Violation
  | readChecked
  | readIndex
  | uncheckInput
  | atEnd
  | rewind
  | reread
  | noTerm
  | noContext
  | notReached
  deriving DecidableEq, Repr

/-- The capture slots. -/
abbrev Output := ℕ → ℕ

def isLead (c : ℕ) : Bool := 0xd800 ≤ c ∧ c ≤ 0xdbff

def isTrail (c : ℕ) : Bool := 0xdc00 ≤ c ∧ c ≤ 0xdfff

def isBMP (c : UChar32) : Bool := c < 0x10000

/-- `U16_GET_SUPPLEMENTARY`. -/
def supplementary (lead trail : ℕ) : UChar32 := (lead - 0xd800) * 0x400 + (trail - 0xdc00) + 0x10000

/-- `U16_LENGTH`. -/
def u16Length (c : UChar32) : ℕ := if isBMP c then 1 else 2

def isASCIILower (c : UChar32) : Bool := 0x61 ≤ c ∧ c ≤ 0x7a

def toASCIIUpper (c : UChar32) : UChar32 := if isASCIILower c then c - 0x20 else c

namespace Env

variable (e : Env)

def length : ℕ := e.input.length

def unit (i : ℕ) : ℕ := e.input.getD i 0

/-! ## Positions -/

/-- The new position, when `count` more code units are available. -/
def checkInput (pos count : ℕ) : Option ℕ :=
  if u32 (pos + count) ≤ e.length ∧ pos ≤ u32 (pos + count) then some (u32 (pos + count)) else none

def uncheckInput (pos count : ℕ) : Except Violation ℕ :=
  if pos < count then .error .uncheckInput else .ok (pos - count)

def rewind (pos amount : ℕ) : Except Violation ℕ :=
  if pos < amount then .error .rewind else .ok (pos - amount)

def isAvailableInput (pos offset : ℕ) : Bool :=
  u32 (pos + offset) ≤ e.length ∧ pos ≤ u32 (pos + offset)

/-- `atEnd(negativePositionOffset)`. -/
def atEndBefore (pos offset : ℕ) : Except Violation Bool :=
  if pos < offset then .error .atEnd else .ok (pos - offset = e.length)

/-! ## Reads -/

/-- `read()`: `-1` is `none`. -/
def read (pos : ℕ) : Option UChar32 := if pos < e.length then some (e.unit pos) else none

/-- Whether a surrogate pair starts at `p`. -/
def pairAt (p : ℕ) : Bool :=
  isLead (e.unit p) && decide (p + 1 < e.length) && isTrail (e.unit (p + 1))

/-- `readChecked`: in Unicode patterns a surrogate pair is decoded and the position advanced over
its second half. -/
def readChecked (pos offset : ℕ) : Except Violation (Option UChar32 × ℕ) :=
  if pos < offset then .error .readChecked
  else if e.length ≤ pos - offset then .error .readIndex
  else if e.unicode && e.pairAt (pos - offset) then
    if pos = e.length then .ok (none, pos)
    else .ok (some (supplementary (e.unit (pos - offset)) (e.unit (pos - offset + 1))), pos + 1)
  else .ok (some (e.unit (pos - offset)), pos)

def readSurrogatePairChecked (pos offset : ℕ) : Except Violation (Option UChar32) :=
  if pos < offset then .error .readChecked
  else if e.length ≤ pos - offset then .error .readIndex
  else if e.pairAt (pos - offset) then
    .ok (some (supplementary (e.unit (pos - offset)) (e.unit (pos - offset + 1))))
  else .ok none

def reread (from_ : ℕ) : Except Violation UChar32 :=
  if e.length ≤ from_ then .error .reread
  else if e.unicode && e.pairAt from_ then
    .ok (supplementary (e.unit from_) (e.unit (from_ + 1)))
  else .ok (e.unit from_)

/-! ## Checks of one character -/

def checkCharacter (testChar : UChar32) (offset pos : ℕ) : Except Violation (Bool × ℕ) := do
  let (ch, pos) ← e.readChecked pos offset
  return (ch = some testChar, pos)

def checkSurrogatePair (testChar : UChar32) (offset pos : ℕ) : Except Violation (Bool × ℕ) := do
  let ch ← e.readSurrogatePairChecked pos offset
  return (ch = some testChar, pos)

def checkCasedCharacter (loChar hiChar : UChar32) (offset pos : ℕ) :
    Except Violation (Bool × ℕ) := do
  let (ch, pos) ← e.readChecked pos offset
  return (some loChar = ch || some hiChar = ch, pos)

def checkCharacterClass (characterClass : CharacterClass) (invert : Bool) (offset pos : ℕ) :
    Except Violation (Bool × ℕ) := do
  let (ch, pos) ← e.readChecked pos offset
  match ch with
  | none => return (false, pos)
  | some ch => return (testCharacterClass characterClass ch ^^ invert, pos)

/-- The read of `checkCharacterClassDontAdvanceInputForNonBMP`. -/
def readForCharacterClass (characterClass : CharacterClass) (offset pos : ℕ) :
    Except Violation (Option UChar32 × ℕ) :=
  if characterClass.hasOnlyNonBMPCharacters then
    (e.readSurrogatePairChecked pos offset).map fun ch => (ch, pos)
  else e.readChecked pos offset

def checkCharacterClassDontAdvanceInputForNonBMP (characterClass : CharacterClass)
    (offset pos : ℕ) : Except Violation (Bool × ℕ) := do
  let (ch, pos) ← e.readForCharacterClass characterClass offset pos
  match ch with
  | none => return (false, pos)
  | some ch => return (testCharacterClass characterClass ch, pos)

/-! ## Assertions -/

/-- `testCharacterClass` on the character read at an offset. -/
def testAt (characterClass : CharacterClass) (offset pos : ℕ) : Except Violation (Bool × ℕ) := do
  let (ch, pos) ← e.readChecked pos offset
  return (testRead characterClass ch, pos)

def matchAssertionBOL (inputPosition pos : ℕ) : Except Violation (Bool × ℕ) :=
  if pos = inputPosition then .ok (true, pos)
  else if e.multiline then e.testAt e.newlineCharacterClass (inputPosition + 1) pos
  else .ok (false, pos)

def matchAssertionEOL (inputPosition pos : ℕ) : Except Violation (Bool × ℕ) :=
  if inputPosition ≠ 0 then do
    let atEnd ← e.atEndBefore pos inputPosition
    if atEnd then .ok (true, pos)
    else if e.multiline then e.testAt e.newlineCharacterClass inputPosition pos
    else .ok (false, pos)
  else if pos = e.length then .ok (true, pos)
  else .ok (e.multiline && testRead e.newlineCharacterClass (e.read pos), pos)

/-- Whether the character before the assertion is a word character. -/
def prevIsWordchar (inputPosition pos : ℕ) : Except Violation (Bool × ℕ) :=
  if pos = inputPosition then .ok (false, pos)
  else e.testAt e.wordcharCharacterClass (inputPosition + 1) pos

/-- Whether the character after the assertion is a word character. -/
def readIsWordchar (inputPosition pos : ℕ) : Except Violation (Bool × ℕ) :=
  if inputPosition ≠ 0 then do
    let atEnd ← e.atEndBefore pos inputPosition
    if atEnd then .ok (false, pos) else e.testAt e.wordcharCharacterClass inputPosition pos
  else if pos = e.length then .ok (false, pos)
  else .ok (testRead e.wordcharCharacterClass (e.read pos), pos)

def matchAssertionWordBoundary (invert : Bool) (inputPosition pos : ℕ) :
    Except Violation (Bool × ℕ) := do
  let (prev, pos) ← e.prevIsWordchar inputPosition pos
  let (next, pos) ← e.readIsWordchar inputPosition pos
  return ((prev != next) ^^ invert, pos)

/-! ## Backreferences -/

/-- Whether two characters count as equal in a backreference. -/
def sameCharacter (oldCh : UChar32) (ch : Option UChar32) : Bool :=
  match ch with
  | none => false
  | some ch =>
    oldCh = ch ||
      (e.ignoreCase &&
        if !e.unicode && (isASCII oldCh || isASCII ch) then
          toASCIIUpper oldCh = toASCIIUpper ch
        else
          (e.canonicalization.forMode
            (if e.unicode then .Unicode else .UCS2)).areCanonicallyEquivalent oldCh ch)

/-- The read of one round: the character, and how many code units of the capture it stands for. -/
def readForBackReference (oldCh : UChar32) (offset pos : ℕ) :
    Except Violation (Option UChar32 × ℕ × ℕ) :=
  if isBMP oldCh then (e.readChecked pos offset).map fun (ch, pos) => (ch, 1, pos)
  else (e.readSurrogatePairChecked pos offset).map fun ch => (ch, 2, pos)

/-- The loop of `tryConsumeBackReference`, with at most one round for each code unit. -/
def backReferenceLoop (matchBegin matchSize offset : ℕ) : ℕ → ℕ → ℕ → Except Violation (Bool × ℕ)
  | 0, _, pos => .ok (true, pos)
  | fuel + 1, i, pos =>
    if i < matchSize then do
      let oldCh ← e.reread (matchBegin + i)
      let (ch, units, pos) ← e.readForBackReference oldCh (offset + matchSize - i) pos
      if e.sameCharacter oldCh ch then
        backReferenceLoop matchBegin matchSize offset fuel (i + units) pos
      else do
        let pos ← uncheckInput pos matchSize
        return (false, pos)
    else .ok (true, pos)

def tryConsumeBackReference (matchBegin matchEnd offset pos : ℕ) :
    Except Violation (Bool × ℕ) :=
  let matchSize := u32Sub matchEnd matchBegin
  match e.checkInput pos matchSize with
  | none => .ok (false, pos)
  | some pos => e.backReferenceLoop matchBegin matchSize offset matchSize 0 pos

/-! ## Loops over a quantified character -/

/-- A fixed number of checks, the `k`-th at the `k`-th character. -/
def fixedLoop (check : ℕ → ℕ → Except Violation (Bool × ℕ)) :
    ℕ → ℕ → ℕ → Except Violation (Bool × ℕ)
  | 0, _, pos => return (true, pos)
  | n + 1, matchAmount, pos => do
    let (ok, pos) ← check matchAmount pos
    if ok then fixedLoop check n (matchAmount + 1) pos else return (false, pos)

/-- As many characters as possible, at most `n`; after a failed check the position is what
`restore` makes of the position before it and after it. -/
def greedyLoop (check : ℕ → Except Violation (Bool × ℕ))
    (restore : ℕ → ℕ → Except Violation ℕ) : ℕ → ℕ → ℕ → Except Violation (ℕ × ℕ)
  | 0, matchAmount, pos => return (matchAmount, pos)
  | n + 1, matchAmount, pos =>
    match e.checkInput pos 1 with
    | none => return (matchAmount, pos)
    | some checked => do
      let (ok, read) ← check checked
      if ok then greedyLoop check restore n (matchAmount + 1) read
      else
        let pos ← restore pos read
        return (matchAmount, pos)

/-- `input.setPos(position)`. -/
def backToPosition (pos _read : ℕ) : Except Violation ℕ := .ok pos

/-- `input.uncheckInput(1)`. -/
def backOne (_pos read : ℕ) : Except Violation ℕ := uncheckInput read 1

end Env

end JscAndroid.Yarr.InputStream
