import JscAndroid.Yarr.Canonicalize

/-!
# Building a character class

`CharacterClassConstructor` collects the characters and ranges of a class in four sorted tables.
In a case-insensitive pattern every character that is put brings its canonical equivalents with it.
-/

namespace JscAndroid.Yarr.ClassConstructor

open Classes Canonicalize

/-! ## Sorted tables -/

/-- `mergeRangesFrom`: the ranges that the changed range `r` now reaches are absorbed by it. -/
def mergeRangesFrom (r : CharacterRange) : List CharacterRange → List CharacterRange
  | [] => [r]
  | next :: rest =>
    if next.begin ≤ r.end_ + 1 then mergeRangesFrom ⟨r.begin, max r.end_ next.end_⟩ rest
    else r :: next :: rest

/-- The linear scan of `addSortedRange`. -/
def insertRange (lo hi : UChar32) : List CharacterRange → List CharacterRange
  | [] => [⟨lo, hi⟩]
  | r :: rest =>
    if hi < r.begin then
      if hi + 1 = r.begin then ⟨lo, r.end_⟩ :: rest else ⟨lo, hi⟩ :: r :: rest
    else if lo ≤ r.end_ + 1 then mergeRangesFrom ⟨min r.begin lo, max r.end_ hi⟩ rest
    else r :: insertRange lo hi rest

/-- What the binary chop of `addSorted` finds: the character itself, its place, or a neighbour to
make a range with (and the table without the neighbours). -/
inductive Chop
  | present
  | place (pos : ℕ)
  | join (matches' : List UChar32) (lo hi : UChar32)

/-- The binary chop of `addSorted`, bounded by the number of entries. -/
def chop (matches' : List UChar32) (ch : UChar32) : ℕ → ℕ → ℕ → Chop
  | 0, pos, _ => .place pos
  | fuel + 1, pos, range =>
    if range = 0 then .place pos
    else
      let index := pos + range / 2
      let m := matches'.getD index 0
      if m = ch then .present
      else if ch < m then
        if m = ch + 1 then
          let rest := matches'.eraseIdx index
          if 0 < index ∧ rest.getD (index - 1) 0 + 1 = ch then
            .join (rest.eraseIdx (index - 1)) (ch - 1) (ch + 1)
          else .join rest ch (ch + 1)
        else chop matches' ch fuel pos (range / 2)
      else if m + 1 = ch then
        let rest := matches'.eraseIdx index
        if index + 1 < rest.length ∧ rest.getD (index + 1) 0 = ch + 1 then
          .join (rest.eraseIdx (index + 1)) (ch - 1) (ch + 1)
        else .join rest (ch - 1) ch
      else chop matches' ch fuel (index + 1) (range - (range / 2 + 1))

/-! ## The constructor -/

structure CharacterClassConstructor where
  m_matches : List UChar32
  m_ranges : List CharacterRange
  m_matchesUnicode : List UChar32
  m_rangesUnicode : List CharacterRange
  m_characterWidths : CharacterClassWidths

/-- A reference to `m_matches` and `m_ranges`, or to `m_matchesUnicode` and `m_rangesUnicode`. -/
inductive Half
  | ascii
  | unicode
  deriving DecidableEq

/-- The table a character belongs to. -/
def halfOf (ch : UChar32) : Half := if isASCII ch then .ascii else .unicode

namespace CharacterClassConstructor

variable (c : CharacterClassConstructor)

def empty : CharacterClassConstructor := ⟨[], [], [], [], .unknown⟩

def matchesOf : Half → List UChar32
  | .ascii => c.m_matches
  | .unicode => c.m_matchesUnicode

def rangesOf : Half → List CharacterRange
  | .ascii => c.m_ranges
  | .unicode => c.m_rangesUnicode

def setMatches (l : List UChar32) : Half → CharacterClassConstructor
  | .ascii => { c with m_matches := l }
  | .unicode => { c with m_matchesUnicode := l }

def setRanges (l : List CharacterRange) : Half → CharacterClassConstructor
  | .ascii => { c with m_ranges := l }
  | .unicode => { c with m_rangesUnicode := l }

def isBMP (ch : UChar32) : Bool := ch < 0x10000

/-- `m_characterWidths |= ...`. -/
def addWidths (bmp nonBMP : Bool) : CharacterClassConstructor :=
  { c with m_characterWidths :=
      ⟨c.m_characterWidths.hasBMPChars || bmp, c.m_characterWidths.hasNonBMPChars || nonBMP⟩ }

def addSortedRange (half : Half) (lo hi : UChar32) : CharacterClassConstructor :=
  let c := c.addWidths (isBMP lo) (!isBMP hi)
  c.setRanges (insertRange lo hi (c.rangesOf half)) half

/-- `addSorted(matches, ch)`: a range made of neighbours goes to the table the character selects,
whatever table it was put in. -/
def addSorted (half : Half) (ch : UChar32) : CharacterClassConstructor :=
  let c := c.addWidths (isBMP ch) (!isBMP ch)
  let matches' := c.matchesOf half
  match chop matches' ch matches'.length 0 matches'.length with
  | .present => c
  | .place pos => c.setMatches (matches'.insertIdx pos ch) half
  | .join rest lo hi => (c.setMatches rest half).addSortedRange (halfOf ch) lo hi

/-- `addSorted(ch)`. -/
def addSortedChar (ch : UChar32) : CharacterClassConstructor := c.addSorted (halfOf ch) ch

end CharacterClassConstructor

/-! ## Putting characters and ranges -/

/-- The constructor's constant members: case sensitivity, the mode and its table. -/
structure Settings where
  m_isCaseInsensitive : Bool
  m_canonicalMode : CanonicalMode
  table : CanonicalizationTable

def isASCIIAlpha (ch : UChar32) : Bool := (0x41 ≤ ch ∧ ch ≤ 0x5a) ∨ (0x61 ≤ ch ∧ ch ≤ 0x7a)

def toASCIIUpper (ch : UChar32) : UChar32 := if 0x61 ≤ ch ∧ ch ≤ 0x7a then ch - 0x20 else ch

def toASCIILower (ch : UChar32) : UChar32 := if 0x41 ≤ ch ∧ ch ≤ 0x5a then ch + 0x20 else ch

namespace CharacterClassConstructor

variable (s : Settings) (c : CharacterClassConstructor)

def putUnicodeIgnoreCase (ch : UChar32) (info : CanonicalizationRange) :
    CharacterClassConstructor :=
  if info.type = .canonicalizeSet then
    (s.table.canonicalCharacterSetInfo info.value).foldl addSortedChar c
  else (c.addSortedChar ch).addSortedChar (CanonicalizationTable.getCanonicalPair info ch)

def putChar (ch : UChar32) : CharacterClassConstructor :=
  if !s.m_isCaseInsensitive then c.addSortedChar ch
  else if s.m_canonicalMode = .UCS2 ∧ isASCII ch then
    if isASCIIAlpha ch then (c.addSorted .ascii (toASCIIUpper ch)).addSorted .ascii
      (toASCIILower ch)
    else c.addSorted .ascii ch
  else
    match s.table.canonicalRangeInfoFor ch with
    | none => c
    | some index =>
      let info := s.table.range index
      if info.type = .canonicalizeUnique then c.addSortedChar ch
      else c.putUnicodeIgnoreCase s ch info

/-- The ASCII part of `putRange`. -/
def putASCIIRange (lo hi : UChar32) : CharacterClassConstructor :=
  let asciiHi := min hi 0x7f
  let c := c.addSortedRange .ascii lo asciiHi
  if s.m_isCaseInsensitive then
    let c := if lo ≤ 0x5a ∧ 0x41 ≤ asciiHi then
        c.addSortedRange .ascii (max lo 0x41 + 0x20) (min asciiHi 0x5a + 0x20)
      else c
    if lo ≤ 0x7a ∧ 0x61 ≤ asciiHi then
      c.addSortedRange .ascii (max lo 0x61 - 0x20) (min asciiHi 0x7a - 0x20)
    else c
  else c

/-- The set loop of `putRange`: its variable is a `UChar`, so an entry is cut to 16 bits, and the
loop ends at the first that is then zero. -/
def putSet (set : List UChar32) : CharacterClassConstructor :=
  ((set.map (· % 0x10000)).takeWhile (· ≠ 0)).foldl (fun c ch => c.addSorted .unicode ch) c

/-- The equivalents of `[lo .. end]`, which lies in one interval of the table. -/
def putInterval (info : CanonicalizationRange) (lo end_ : UChar32) : CharacterClassConstructor :=
  match info.type with
  | .canonicalizeUnique => c
  | .canonicalizeSet => c.putSet (s.table.canonicalCharacterSetInfo info.value)
  | .canonicalizeRangeLo => c.addSortedRange .unicode (lo + info.value) (end_ + info.value)
  | .canonicalizeRangeHi => c.addSortedRange .unicode (lo - info.value) (end_ - info.value)
  | .canonicalizeAlternatingAligned =>
    let c := if lo % 2 = 1 then c.addSortedRange .unicode (lo - 1) (lo - 1) else c
    if end_ % 2 = 0 then c.addSortedRange .unicode (end_ + 1) (end_ + 1) else c
  | .canonicalizeAlternatingUnaligned =>
    let c := if lo % 2 = 0 then c.addSortedRange .unicode (lo - 1) (lo - 1) else c
    if end_ % 2 = 1 then c.addSortedRange .unicode (end_ + 1) (end_ + 1) else c

/-- The loop of `putRange` over the intervals of the table, bounded by their number. -/
def putIntervals : ℕ → ℕ → UChar32 → UChar32 → CharacterClassConstructor → CharacterClassConstructor
  | 0, _, _, _, c => c
  | fuel + 1, index, lo, hi, c =>
    let info := s.table.range index
    let end_ := min info.end_ hi
    let c := c.putInterval s info lo end_
    if hi = end_ then c
    else putIntervals fuel (index + 1) (s.table.range (index + 1)).begin hi c

def putRange (lo hi : UChar32) : CharacterClassConstructor :=
  let c := if isASCII lo then c.putASCIIRange s lo hi else c
  if isASCII hi then c
  else
    let lo := max lo 0x80
    let c := c.addSortedRange .unicode lo hi
    if !s.m_isCaseInsensitive then c
    else
      match s.table.canonicalRangeInfoFor lo with
      | none => c
      | some index => putIntervals s s.table.rangeInfo.length index lo hi c

/-! ## Appending classes -/

def append (other : CharacterClass) : CharacterClassConstructor :=
  let c := other.m_matches.foldl (fun c ch => c.addSorted .ascii ch) c
  let c := other.m_ranges.foldl (fun c r => c.addSortedRange .ascii r.begin r.end_) c
  let c := other.m_matchesUnicode.foldl (fun c ch => c.addSorted .unicode ch) c
  other.m_rangesUnicode.foldl (fun c r => c.addSortedRange .unicode r.begin r.end_) c

def addSortedMatchOrRange (half : Half) (lo hiPlusOne : UChar32) : CharacterClassConstructor :=
  if lo < hiPlusOne then
    if lo + 1 = hiPlusOne then c.addSorted half lo else c.addSortedRange half lo (hiPlusOne - 1)
  else c

/-- The loop of `addSortedInverted`, bounded by the number of entries; the lists are what is left of
`srcMatches` and `srcRanges`. -/
def addSortedInvertedLoop (half : Half) (max : UChar32) : ℕ → List UChar32 → List CharacterRange →
    UChar32 → CharacterClassConstructor → CharacterClassConstructor
  | fuel + 1, m :: srcMatches, [], lo, c =>
    addSortedInvertedLoop half max fuel srcMatches [] (m + 1) (c.addSortedMatchOrRange half lo m)
  | fuel + 1, m :: srcMatches, r :: srcRanges, lo, c =>
    if m < r.begin then
      addSortedInvertedLoop half max fuel srcMatches (r :: srcRanges) (m + 1)
        (c.addSortedMatchOrRange half lo m)
    else
      addSortedInvertedLoop half max fuel (m :: srcMatches) srcRanges (r.end_ + 1)
        (c.addSortedMatchOrRange half lo r.begin)
  | fuel + 1, [], r :: srcRanges, lo, c =>
    addSortedInvertedLoop half max fuel [] srcRanges (r.end_ + 1)
      (c.addSortedMatchOrRange half lo r.begin)
  | _, _, _, lo, c => c.addSortedMatchOrRange half lo (max + 1)

def addSortedInverted (half : Half) (min max : UChar32) (srcMatches : List UChar32)
    (srcRanges : List CharacterRange) : CharacterClassConstructor :=
  addSortedInvertedLoop half max (srcMatches.length + srcRanges.length) srcMatches srcRanges min c

def appendInverted (other : CharacterClass) : CharacterClassConstructor :=
  (c.addSortedInverted .ascii 0 0x7f other.m_matches other.m_ranges).addSortedInverted .unicode
    0x80 0x10ffff other.m_matchesUnicode other.m_rangesUnicode

/-! ## The finished class -/

/-- The loop of `coalesceMatchesAndRanges`. Its `rangesIndex` never moves, so only the first range
`r` takes part; `index` is `matchesIndex`. -/
def coalesceLoop : ℕ → ℕ → List UChar32 → CharacterRange → List CharacterRange →
    List UChar32 × List CharacterRange
  | 0, _, matches', r, rest => (matches', r :: rest)
  | fuel + 1, index, matches', r, rest =>
    if index < matches'.length then
      let index := index + ((matches'.drop index).takeWhile fun m => m + 1 < r.begin).length
      let joinsBegin := index < matches'.length ∧ matches'.getD index 0 + 1 = r.begin
      let r := if joinsBegin then ⟨matches'.getD index 0, r.end_⟩ else r
      let matches' := if joinsBegin then matches'.eraseIdx index else matches'
      let index := index + ((matches'.drop index).takeWhile fun m => m < r.end_ + 1).length
      if index < matches'.length then
        if matches'.getD index 0 = r.end_ + 1 then
          match mergeRangesFrom ⟨r.begin, matches'.getD index 0⟩ rest with
          | r :: rest => coalesceLoop fuel index (matches'.eraseIdx index) r rest
          | [] => (matches'.eraseIdx index, [])
        else coalesceLoop fuel (index + 1) matches' r rest
      else (matches', r :: rest)
    else (matches', r :: rest)

def coalesceMatchesAndRanges (matches' : List UChar32) :
    List CharacterRange → List UChar32 × List CharacterRange
  | [] => (matches', [])
  | r :: rest => coalesceLoop (matches'.length + 1) 0 matches' r rest

/-- `charClass()`: the tables, coalesced. -/
def charClass : CharacterClass :=
  let (matches', ranges) := coalesceMatchesAndRanges c.m_matches c.m_ranges
  let (matchesUnicode, rangesUnicode) :=
    coalesceMatchesAndRanges c.m_matchesUnicode c.m_rangesUnicode
  { m_matches := matches'
    m_ranges := ranges
    m_matchesUnicode := matchesUnicode
    m_rangesUnicode := rangesUnicode
    m_characterWidths := c.m_characterWidths
    m_anyCharacter := matches' = [] ∧ matchesUnicode = [] ∧ ranges = [⟨0, 0x7f⟩] ∧
      rangesUnicode = [⟨0x80, 0x10ffff⟩] }

end CharacterClassConstructor

end JscAndroid.Yarr.ClassConstructor
