import JscAndroid.Yarr.Canonicalize

/-!
# Bytecode of regular expressions

The interpreter runs a flat list of terms. Alternatives are linked by relative offsets
(`AlternativeLinks`), groups matched once lie inline between a begin and an end term that know their
distance (`parenthesesWidth`), and every other quantified group is a term that holds the code of its
body. The union of the source's `ByteTerm` is the inductive type below.
-/

namespace JscAndroid.Yarr.ByteCode

open Classes

/-- `unsigned` is 32 bits wide. -/
def UINT_MAX : ℕ := 2 ^ 32 - 1

def quantifyInfinite : ℕ := UINT_MAX
def offsetNoMatch : ℕ := UINT_MAX

/-- `WTF::notFound`, stored in a frame slot. -/
def notFound : ℕ := 2 ^ 64 - 1

def matchLimit : ℕ := 1000000

/-- Reduction to an `unsigned`. -/
def u32 (n : ℕ) : ℕ := n % 2 ^ 32

/-- Subtraction of `unsigned` values. -/
def u32Sub (a b : ℕ) : ℕ := u32 (a + 2 ^ 32 - b)

theorem u32Sub_of_le {a b : ℕ} (h : b ≤ a) (ha : a < 2 ^ 32) : u32Sub a b = a - b := by
  unfold u32Sub u32
  omega

inductive QuantifierType
  | FixedCount
  | Greedy
  | NonGreedy
  deriving DecidableEq, Repr

inductive JSRegExpResult
  | Match
  | NoMatch
  | ErrorHitLimit
  | ErrorNoMemory
  deriving DecidableEq, Repr

/-- The `alternative` member of the union, with the frame slot. -/
structure AlternativeLinks where
  next : ℤ
  end_ : ℕ
  onceThrough : Bool
  frameLocation : ℕ
  deriving DecidableEq, Repr

/-- Where a term reads and which frame slots it owns. -/
structure Location where
  inputPosition : ℕ
  frameLocation : ℕ
  deriving DecidableEq, Repr

/-- Quantifier of a single-character or backreference term. -/
structure Quantity where
  quantityType : QuantifierType
  quantityMaxCount : ℕ
  deriving DecidableEq, Repr

/-- The fields of a parentheses term other than its body. -/
structure ParenthesesInfo where
  subpatternId : ℕ
  capture : Bool
  inputPosition : ℕ
  frameLocation : ℕ
  quantityType : QuantifierType
  quantityMinCount : ℕ
  quantityMaxCount : ℕ
  deriving DecidableEq, Repr

structure ByteDisjunctionOf (τ : Type) where
  terms : List τ
  m_numSubpatterns : ℕ
  m_frameSize : ℕ

inductive ByteTerm
  | bodyAlternativeBegin (alternative : AlternativeLinks)
  | bodyAlternativeDisjunction (alternative : AlternativeLinks)
  | bodyAlternativeEnd (alternative : AlternativeLinks)
  | alternativeBegin (alternative : AlternativeLinks)
  | alternativeDisjunction (alternative : AlternativeLinks)
  | alternativeEnd (alternative : AlternativeLinks)
  | subpatternBegin
  | subpatternEnd
  | assertionBOL (inputPosition : ℕ)
  | assertionEOL (inputPosition : ℕ)
  | assertionWordBoundary (invert : Bool) (inputPosition : ℕ)
  | patternCharacter (patternCharacter : UChar32) (q : Quantity) (at_ : Location)
  | patternCasedCharacter (lo hi : UChar32) (q : Quantity) (at_ : Location)
  | characterClass (characterClass : CharacterClass) (invert : Bool) (q : Quantity) (at_ : Location)
  | backReference (subpatternId : ℕ) (q : Quantity) (at_ : Location)
  | parenthesesSubpattern (info : ParenthesesInfo)
      (parenthesesDisjunction : ByteDisjunctionOf ByteTerm)
  | parenthesesSubpatternOnceBegin (info : ParenthesesInfo) (parenthesesWidth : ℕ)
  | parenthesesSubpatternOnceEnd (info : ParenthesesInfo) (parenthesesWidth : ℕ)
  | parenthesesSubpatternTerminalBegin (info : ParenthesesInfo) (parenthesesWidth : ℕ)
  | parenthesesSubpatternTerminalEnd (info : ParenthesesInfo) (parenthesesWidth : ℕ)
  | parentheticalAssertionBegin (invert : Bool) (frameLocation parenthesesWidth : ℕ)
  | parentheticalAssertionEnd (invert : Bool) (frameLocation parenthesesWidth : ℕ)
  | checkInput (checkInputCount : ℕ)
  | uncheckInput (checkInputCount : ℕ)
  | dotStarEnclosure (m_bol m_eol : Bool)

abbrev ByteDisjunction := ByteDisjunctionOf ByteTerm

end JscAndroid.Yarr.ByteCode
