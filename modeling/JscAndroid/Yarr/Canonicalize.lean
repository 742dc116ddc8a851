import JscAndroid.Yarr.Classes

/-!
# Canonicalization tables

Case-insensitive matching goes through generated tables that split the code points into intervals,
each saying how its members are paired with their canonical equivalents. The tables are a
parameter: one for `CanonicalMode::UCS2`, one for `CanonicalMode::Unicode`.
-/

namespace JscAndroid.Yarr.Canonicalize

open Classes

inductive CanonicalizationType
  | canonicalizeUnique
  | canonicalizeSet
  | canonicalizeRangeLo
  | canonicalizeRangeHi
  | canonicalizeAlternatingAligned
  | canonicalizeAlternatingUnaligned
  deriving DecidableEq, Repr

structure CanonicalizationRange where
  begin : UChar32
  end_ : UChar32
  value : ℕ
  type : CanonicalizationType
  deriving DecidableEq, Repr

inductive CanonicalMode
  | UCS2
  | Unicode
  deriving DecidableEq, Repr

/-- The tables of one mode: `rangeInfo`, and the sets that `CanonicalizeSet` entries point to
(without their terminating zero). -/
structure CanonicalizationTable where
  rangeInfo : List CanonicalizationRange
  characterSetInfo : List (List UChar32)
  deriving DecidableEq, Repr

/-- Both generated tables. -/
structure CanonicalizationTables where
  ucs2 : CanonicalizationTable
  unicode : CanonicalizationTable
  deriving DecidableEq, Repr

def CanonicalizationTables.forMode (t : CanonicalizationTables) :
    CanonicalMode → CanonicalizationTable
  | .UCS2 => t.ucs2
  | .Unicode => t.unicode

namespace CanonicalizationTable

variable (table : CanonicalizationTable)

/-- The interval at an index (a pointer into the table). -/
def range (index : ℕ) : CanonicalizationRange :=
  table.rangeInfo.getD index ⟨0, 0, 0, .canonicalizeUnique⟩

def canonicalCharacterSetInfo (index : ℕ) : List UChar32 := table.characterSetInfo.getD index []

/-- The bisection of `canonicalRangeInfoFor`, bounded by the number of entries; `none` when the
source's loop would run off the table. -/
def canonicalRangeInfoLoop (ch : UChar32) : ℕ → ℕ → ℕ → Option ℕ
  | 0, _, _ => none
  | fuel + 1, info, entries =>
    let candidate := entries / 2
    let candidateInfo := info + candidate
    if ch < (table.range candidateInfo).begin then
      canonicalRangeInfoLoop ch fuel info candidate
    else if ch ≤ (table.range candidateInfo).end_ then some candidateInfo
    else canonicalRangeInfoLoop ch fuel (candidateInfo + 1) (entries - (candidate + 1))

def canonicalRangeInfoFor (ch : UChar32) : Option ℕ :=
  table.canonicalRangeInfoLoop ch (table.rangeInfo.length + 1) 0 table.rangeInfo.length

/-- `getCanonicalPair`: only called for intervals that pair each character with one other. -/
def getCanonicalPair (info : CanonicalizationRange) (ch : UChar32) : UChar32 :=
  match info.type with
  | .canonicalizeRangeLo => ch + info.value
  | .canonicalizeRangeHi => ch - info.value
  | .canonicalizeAlternatingAligned => ch ^^^ 1
  | .canonicalizeAlternatingUnaligned => ((ch - 1) ^^^ 1) + 1
  | .canonicalizeUnique | .canonicalizeSet => 0

def areCanonicallyEquivalent (a b : UChar32) : Bool :=
  match table.canonicalRangeInfoFor a with
  | none => false
  | some index =>
    let info := table.range index
    match info.type with
    | .canonicalizeUnique => a = b
    | .canonicalizeSet => (table.canonicalCharacterSetInfo info.value).any fun c => c = b
    | .canonicalizeRangeLo => a = b || a + info.value = b
    | .canonicalizeRangeHi => a = b || a - info.value = b
    | .canonicalizeAlternatingAligned => a ||| 1 = b ||| 1
    | .canonicalizeAlternatingUnaligned => (a - 1) ||| 1 = (b - 1) ||| 1

end CanonicalizationTable

end JscAndroid.Yarr.Canonicalize
