import Mathlib

/-!
# Character classes

A compiled character class keeps its members in four sorted tables, single characters and ranges,
ASCII and the rest. `testCharacterClass` looks only at the two tables the character selects, and
searches a table of more than six entries by bisection.
-/

namespace JscAndroid.Yarr.Classes

/-- A code point (or, in non-Unicode patterns, a code unit). -/
abbrev UChar32 := ℕ

structure CharacterRange where
  begin : UChar32
  end_ : UChar32
  deriving DecidableEq, Repr

/-- `CharacterClassWidths`: the two bits of the source's enumeration. -/
structure CharacterClassWidths where
  hasBMPChars : Bool
  hasNonBMPChars : Bool
  deriving DecidableEq, Repr

def CharacterClassWidths.unknown : CharacterClassWidths := ⟨false, false⟩

structure CharacterClass where
  m_matches : List UChar32
  m_ranges : List CharacterRange
  m_matchesUnicode : List UChar32
  m_rangesUnicode : List CharacterRange
  m_characterWidths : CharacterClassWidths
  m_anyCharacter : Bool
  deriving DecidableEq, Repr

namespace CharacterClass

def hasNonBMPCharacters (c : CharacterClass) : Bool := c.m_characterWidths.hasNonBMPChars

def hasOneCharacterSize (c : CharacterClass) : Bool :=
  c.m_characterWidths = ⟨true, false⟩ || c.m_characterWidths = ⟨false, true⟩

def hasOnlyNonBMPCharacters (c : CharacterClass) : Bool := c.m_characterWidths = ⟨false, true⟩

end CharacterClass

def isASCII (ch : UChar32) : Bool := ch < 0x80

def linearSearchMatches (ch : UChar32) (matches' : List UChar32) : Bool :=
  matches'.any fun m => ch = m

def linearSearchRanges (ch : UChar32) (ranges : List CharacterRange) : Bool :=
  ranges.any fun r => r.begin ≤ ch ∧ ch ≤ r.end_

/-- The loop of `binarySearchMatches`, bounded by the number of entries. -/
def binarySearchMatchesLoop (ch : UChar32) (matches' : List UChar32) : ℕ → ℕ → ℕ → Bool
  | 0, _, _ => false
  | fuel + 1, low, high =>
    if low ≤ high then
      let mid := low + (high - low) / 2
      let m := matches'.getD mid 0
      if ch = m then true
      else if ch < m then
        if mid = low then false else binarySearchMatchesLoop ch matches' fuel low (mid - 1)
      else binarySearchMatchesLoop ch matches' fuel (mid + 1) high
    else false

def binarySearchMatches (ch : UChar32) (matches' : List UChar32) : Bool :=
  binarySearchMatchesLoop ch matches' (matches'.length + 1) 0 (matches'.length - 1)

/-- The loop of `binarySearchRanges`, bounded by the number of entries. -/
def binarySearchRangesLoop (ch : UChar32) (ranges : List CharacterRange) : ℕ → ℕ → ℕ → Bool
  | 0, _, _ => false
  | fuel + 1, low, high =>
    if low ≤ high then
      let mid := low + (high - low) / 2
      let r := ranges.getD mid ⟨0, 0⟩
      if r.begin ≤ ch ∧ ch ≤ r.end_ then true
      else if ch < r.begin then
        if mid = low then false else binarySearchRangesLoop ch ranges fuel low (mid - 1)
      else binarySearchRangesLoop ch ranges fuel (mid + 1) high
    else false

def binarySearchRanges (ch : UChar32) (ranges : List CharacterRange) : Bool :=
  binarySearchRangesLoop ch ranges (ranges.length + 1) 0 (ranges.length - 1)

def thresholdForBinarySearch : ℕ := 6

def searchMatches (ch : UChar32) (matches' : List UChar32) : Bool :=
  if matches'.length > thresholdForBinarySearch then binarySearchMatches ch matches'
  else linearSearchMatches ch matches'

def searchRanges (ch : UChar32) (ranges : List CharacterRange) : Bool :=
  if ranges.length > thresholdForBinarySearch then binarySearchRanges ch ranges
  else linearSearchRanges ch ranges

def testCharacterClass (characterClass : CharacterClass) (ch : UChar32) : Bool :=
  if characterClass.m_anyCharacter then true
  else if isASCII ch then
    searchMatches ch characterClass.m_matches || searchRanges ch characterClass.m_ranges
  else
    searchMatches ch characterClass.m_matchesUnicode ||
      searchRanges ch characterClass.m_rangesUnicode

/-- `testCharacterClass` on what a read returns: `-1` (here `none`) is in no table. -/
def testRead (characterClass : CharacterClass) : Option UChar32 → Bool
  | none => characterClass.m_anyCharacter
  | some ch => testCharacterClass characterClass ch

end JscAndroid.Yarr.Classes
