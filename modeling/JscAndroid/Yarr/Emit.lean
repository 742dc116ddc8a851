import JscAndroid.Yarr.Compile

/-!
# Compiling to bytecode

`ByteCompiler` walks a pattern with offsets and appends terms to one list. The links between the
alternatives of a group, and the widths of inline groups, are filled in when the group ends.
-/

namespace JscAndroid.Yarr.Emit

open Classes ByteCode Pattern Compile

/-- `ParenthesesStackEntry`. -/
structure ParenthesesStackEntry where
  beginTerm : ℕ
  savedAlternativeIndex : ℕ

/-- The members of `ByteCompiler` that change: the terms of `m_bodyDisjunction`, the current
alternative and the open parentheses. -/
structure ByteCompiler where
  terms : List ByteTerm
  m_currentAlternativeIndex : ℕ
  m_parenthesesStack : List ParenthesesStackEntry

/-- What the compiler uses of the pattern and of the character database. -/
structure Settings where
  ignoreCase : Bool
  toLower : UChar32 → UChar32
  toUpper : UChar32 → UChar32

/-! ## Access to the links of a term -/

def noLinks : AlternativeLinks := ⟨0, 0, false, 0⟩

/-- The `alternative` member of a term. -/
def linksOf : ByteTerm → AlternativeLinks
  | .bodyAlternativeBegin a => a
  | .bodyAlternativeDisjunction a => a
  | .bodyAlternativeEnd a => a
  | .alternativeBegin a => a
  | .alternativeDisjunction a => a
  | .alternativeEnd a => a
  | _ => noLinks

def modifyLinks (f : AlternativeLinks → AlternativeLinks) : ByteTerm → ByteTerm
  | .bodyAlternativeBegin a => .bodyAlternativeBegin (f a)
  | .bodyAlternativeDisjunction a => .bodyAlternativeDisjunction (f a)
  | .bodyAlternativeEnd a => .bodyAlternativeEnd (f a)
  | .alternativeBegin a => .alternativeBegin (f a)
  | .alternativeDisjunction a => .alternativeDisjunction (f a)
  | .alternativeEnd a => .alternativeEnd (f a)
  | t => t

/-- The links of the term at an index. -/
def linksAt (terms : List ByteTerm) (i : ℕ) : AlternativeLinks :=
  (terms[i]?.map linksOf).getD noLinks

/-- The `atom` and flags of the begin term of a group. -/
def parenthesesInfoAt (terms : List ByteTerm) (i : ℕ) : ParenthesesInfo :=
  match terms[i]? with
  | some (.parenthesesSubpatternOnceBegin info _) => info
  | some (.parenthesesSubpatternTerminalBegin info _) => info
  | _ => ⟨0, false, 0, 0, .FixedCount, 1, 1⟩

def invertAt (terms : List ByteTerm) (i : ℕ) : Bool :=
  match terms[i]? with
  | some (.parentheticalAssertionBegin invert _ _) => invert
  | _ => false

namespace ByteCompiler

variable (c : ByteCompiler)

def append (t : ByteTerm) : ByteCompiler := { c with terms := c.terms ++ [t] }

/-- Push an open group, whose first alternative follows its begin term. -/
def openParentheses (begin : ByteTerm) (alternativeFrameLocation : ℕ) : ByteCompiler :=
  { terms := c.terms ++ [begin, .alternativeBegin ⟨0, 0, false, alternativeFrameLocation⟩]
    m_parenthesesStack := ⟨c.terms.length, c.m_currentAlternativeIndex⟩ :: c.m_parenthesesStack
    m_currentAlternativeIndex := c.terms.length + 1 }

def popParenthesesStack : ℕ × ByteCompiler :=
  match c.m_parenthesesStack with
  | [] => (0, c)
  | entry :: rest => (entry.beginTerm,
      { c with m_currentAlternativeIndex := entry.savedAlternativeIndex
               m_parenthesesStack := rest })

/-! ## Links between alternatives -/

/-- The loop of `closeAlternative` and `closeBodyAlternative`: follow the `next` links, setting the
distance to the end. -/
def closeLoop (endIndex frameLocation : ℕ) : ℕ → ℕ → List ByteTerm → ℕ × List ByteTerm
  | 0, beginTerm, terms => (beginTerm, terms)
  | fuel + 1, beginTerm, terms =>
    if (linksAt terms beginTerm).next = 0 then (beginTerm, terms)
    else
      let next := ((beginTerm : ℤ) + (linksAt terms beginTerm).next).toNat
      closeLoop endIndex frameLocation fuel next (terms.modify next (modifyLinks fun a =>
        { a with end_ := endIndex - next, frameLocation := frameLocation }))

def closeAlternative (beginTerm : ℕ) : ByteCompiler :=
  let endIndex := c.terms.length
  let frameLocation := (linksAt c.terms beginTerm).frameLocation
  if (linksAt c.terms beginTerm).next = 0 then { c with terms := c.terms.eraseIdx beginTerm }
  else
    let (last, terms) := closeLoop endIndex frameLocation c.terms.length beginTerm c.terms
    { c with terms := terms.modify last (modifyLinks fun a =>
        { a with next := (beginTerm : ℤ) - last }) ++
          [.alternativeEnd ⟨0, 0, false, frameLocation⟩] }

def closeBodyAlternative : ByteCompiler :=
  let endIndex := c.terms.length
  let frameLocation := (linksAt c.terms 0).frameLocation
  let (last, terms) := closeLoop endIndex frameLocation c.terms.length 0 c.terms
  { c with terms := terms.modify last (modifyLinks fun a => { a with next := -(last : ℤ) }) ++
      [.bodyAlternativeEnd ⟨0, 0, false, frameLocation⟩] }

/-- Append the begin of another alternative, linked from the current one. -/
def startAlternative (t : ByteTerm) : ByteCompiler :=
  { c with
    terms := c.terms.modify c.m_currentAlternativeIndex (modifyLinks fun a =>
      { a with next := (c.terms.length : ℤ) - c.m_currentAlternativeIndex }) ++ [t]
    m_currentAlternativeIndex := c.terms.length }

def alternativeBodyDisjunction (onceThrough : Bool) : ByteCompiler :=
  c.startAlternative (.bodyAlternativeDisjunction ⟨0, 0, onceThrough, 0⟩)

def alternativeDisjunction : ByteCompiler :=
  c.startAlternative (.alternativeDisjunction ⟨0, 0, false, 0⟩)

/-! ## Atoms -/

def atomPatternCharacter (s : Settings) (ch : UChar32) (inputPosition frameLocation : ℕ)
    (q : Quantity) : ByteCompiler :=
  let lo := s.toLower ch
  let hi := s.toUpper ch
  if s.ignoreCase ∧ lo ≠ hi then
    c.append (.patternCasedCharacter lo hi q ⟨inputPosition, frameLocation⟩)
  else c.append (.patternCharacter ch q ⟨inputPosition, frameLocation⟩)

/-- The members of a group's begin term before its quantifier is set. -/
def unquantified (subpatternId : ℕ) (capture : Bool) (inputPosition frameLocation : ℕ) :
    ParenthesesInfo :=
  ⟨subpatternId, capture, inputPosition, frameLocation, .FixedCount, 1, 1⟩

def ParenthesesInfo.quantify (info : ParenthesesInfo) (q : TermQuantity) : ParenthesesInfo :=
  { info with
    quantityType := q.quantityType
    quantityMinCount := q.quantityMinCount
    quantityMaxCount := q.quantityMaxCount }

def atomParenthesesOnceBegin (subpatternId : ℕ) (capture : Bool)
    (inputPosition frameLocation alternativeFrameLocation : ℕ) : ByteCompiler :=
  c.openParentheses (.parenthesesSubpatternOnceBegin
    (unquantified subpatternId capture inputPosition frameLocation) 0) alternativeFrameLocation

def atomParenthesesTerminalBegin (subpatternId : ℕ) (capture : Bool)
    (inputPosition frameLocation alternativeFrameLocation : ℕ) : ByteCompiler :=
  c.openParentheses (.parenthesesSubpatternTerminalBegin
    (unquantified subpatternId capture inputPosition frameLocation) 0) alternativeFrameLocation

/-- `atomParenthesesSubpatternBegin`: a group of its own starts like one matched once. -/
def atomParenthesesSubpatternBegin (subpatternId : ℕ) (capture : Bool)
    (inputPosition frameLocation alternativeFrameLocation : ℕ) : ByteCompiler :=
  c.atomParenthesesOnceBegin subpatternId capture inputPosition frameLocation
    alternativeFrameLocation

def atomParentheticalAssertionBegin (invert : Bool)
    (frameLocation alternativeFrameLocation : ℕ) : ByteCompiler :=
  c.openParentheses (.parentheticalAssertionBegin invert frameLocation 0) alternativeFrameLocation

def atomParentheticalAssertionEnd (frameLocation : ℕ) : ByteCompiler :=
  let (beginTerm, c) := c.popParenthesesStack
  let c := c.closeAlternative (beginTerm + 1)
  let endTerm := c.terms.length
  let invert := invertAt c.terms beginTerm
  { c with terms := (c.terms.modify beginTerm fun
      | .parentheticalAssertionBegin invert loc _ =>
        .parentheticalAssertionBegin invert loc (endTerm - beginTerm)
      | t => t) ++ [.parentheticalAssertionEnd invert frameLocation (endTerm - beginTerm)] }

def atomParenthesesOnceEnd (inputPosition frameLocation : ℕ) (q : TermQuantity) : ByteCompiler :=
  let (beginTerm, c) := c.popParenthesesStack
  let c := c.closeAlternative (beginTerm + 1)
  let endTerm := c.terms.length
  let info := parenthesesInfoAt c.terms beginTerm
  { c with terms := (c.terms.modify beginTerm fun
      | .parenthesesSubpatternOnceBegin info _ =>
        .parenthesesSubpatternOnceBegin (ParenthesesInfo.quantify info q) (endTerm - beginTerm)
      | t => t) ++
      [.parenthesesSubpatternOnceEnd (ParenthesesInfo.quantify
        (unquantified info.subpatternId info.capture inputPosition frameLocation) q)
        (endTerm - beginTerm)] }

def atomParenthesesTerminalEnd (inputPosition frameLocation : ℕ) (q : TermQuantity) :
    ByteCompiler :=
  let (beginTerm, c) := c.popParenthesesStack
  let c := c.closeAlternative (beginTerm + 1)
  let endTerm := c.terms.length
  let info := parenthesesInfoAt c.terms beginTerm
  { c with terms := (c.terms.modify beginTerm fun
      | .parenthesesSubpatternTerminalBegin info _ =>
        .parenthesesSubpatternTerminalBegin (ParenthesesInfo.quantify info q) (endTerm - beginTerm)
      | t => t) ++
      [.parenthesesSubpatternTerminalEnd (ParenthesesInfo.quantify
        (unquantified info.subpatternId info.capture inputPosition frameLocation) q)
        (endTerm - beginTerm)] }

/-- `atomParenthesesSubpatternEnd`: the terms since the begin term become a disjunction. -/
def atomParenthesesSubpatternEnd (lastSubpatternId inputPosition frameLocation : ℕ)
    (q : TermQuantity) (callFrameSize : ℕ) : ByteCompiler :=
  let (beginTerm, c) := c.popParenthesesStack
  let c := c.closeAlternative (beginTerm + 1)
  let info := parenthesesInfoAt c.terms beginTerm
  let body : ByteDisjunction :=
    ⟨[.subpatternBegin] ++ c.terms.drop (beginTerm + 1) ++ [.subpatternEnd],
      lastSubpatternId + 1 - info.subpatternId, callFrameSize⟩
  { c with terms := c.terms.take beginTerm ++ [.parenthesesSubpattern (ParenthesesInfo.quantify
      (unquantified info.subpatternId info.capture inputPosition frameLocation) q) body] }

end ByteCompiler

/-! ## Emission -/

def quantityOf (q : TermQuantity) : Quantity := ⟨q.quantityType, q.quantityMaxCount⟩

/-- How much a lookahead unchecks before its body. -/
def uncheckAmount (positiveInputOffset minimumSize : ℕ) : ℕ := positiveInputOffset - minimumSize

mutual

/-- One term of an alternative, `checked` being `currentCountAlreadyChecked`. -/
def emitTerm (s : Settings) (checked : ℕ) (c : ByteCompiler) :
    PatternTerm → Except ErrorCode ByteCompiler
  | .assertionBOL inputPosition => .ok (c.append (.assertionBOL (checked - inputPosition)))
  | .assertionEOL inputPosition => .ok (c.append (.assertionEOL (checked - inputPosition)))
  | .assertionWordBoundary invert inputPosition =>
    .ok (c.append (.assertionWordBoundary invert (checked - inputPosition)))
  | .patternCharacter ch q l =>
    .ok (c.atomPatternCharacter s ch (checked - l.inputPosition) l.frameLocation (quantityOf q))
  | .characterClass cc invert q l =>
    .ok (c.append (.characterClass (classOf cc) invert (quantityOf q)
      ⟨checked - l.inputPosition, l.frameLocation⟩))
  | .backReference n q l =>
    .ok (c.append (.backReference n (quantityOf q) ⟨checked - l.inputPosition, l.frameLocation⟩))
  | .forwardReference => .ok c
  | .parenthesesSubpattern d q l ⟨alternatives, minimumSize, callFrameSize⟩ =>
    let delegateEndInputOffset := checked - l.inputPosition
    if q.quantityMaxCount = 1 ∧ ¬ d.isCopy then do
      let disjunctionAlreadyCheckedCount := if q.quantityType = .FixedCount then minimumSize else 0
      let alternativeFrameLocation :=
        if q.quantityType = .FixedCount then l.frameLocation else l.frameLocation + 2
      let c := c.atomParenthesesOnceBegin d.subpatternId d.capture
        (disjunctionAlreadyCheckedCount + delegateEndInputOffset) l.frameLocation
        alternativeFrameLocation
      let c ← emitAlternatives s false checked disjunctionAlreadyCheckedCount true c alternatives
      return c.atomParenthesesOnceEnd delegateEndInputOffset l.frameLocation q
    else if d.isTerminal then do
      let c := c.atomParenthesesTerminalBegin d.subpatternId d.capture delegateEndInputOffset
        l.frameLocation (l.frameLocation + 1)
      let c ← emitAlternatives s false checked 0 true c alternatives
      return c.atomParenthesesTerminalEnd delegateEndInputOffset l.frameLocation q
    else do
      let c := c.atomParenthesesSubpatternBegin d.subpatternId d.capture delegateEndInputOffset
        l.frameLocation 0
      let c ← emitAlternatives s false checked 0 true c alternatives
      return c.atomParenthesesSubpatternEnd d.lastSubpatternId delegateEndInputOffset
        l.frameLocation q callFrameSize
  | .parentheticalAssertion invert l ⟨alternatives, minimumSize, _⟩ => do
    let positiveInputOffset := checked - l.inputPosition
    let uncheck := uncheckAmount positiveInputOffset minimumSize
    let c := if uncheck ≠ 0 then c.append (.uncheckInput uncheck) else c
    let c := c.atomParentheticalAssertionBegin invert l.frameLocation (l.frameLocation + 1)
    let c ← emitAlternatives s false (checked - uncheck) (positiveInputOffset - uncheck) true c
      alternatives
    let c := c.atomParentheticalAssertionEnd l.frameLocation
    return if uncheck ≠ 0 then c.append (.checkInput uncheck) else c
  | .dotStarEnclosure bol eol => .ok (c.append (.dotStarEnclosure bol eol))

def emitTerms (s : Settings) (checked : ℕ) (c : ByteCompiler) :
    List PatternTerm → Except ErrorCode ByteCompiler
  | [] => .ok c
  | t :: rest => do
    let c ← emitTerm s checked c t
    emitTerms s checked c rest

/-- `emitDisjunction`, from its first alternative or a later one on. -/
def emitAlternatives (s : Settings) (isBody : Bool) (inputCountAlreadyChecked
    parenthesesInputCountAlreadyChecked : ℕ) (isFirst : Bool) (c : ByteCompiler) :
    List PatternAlternative → Except ErrorCode ByteCompiler
  | [] => .ok c
  | ⟨terms, minimumSize, onceThrough, _, _⟩ :: rest => do
    let c := if isFirst then c
      else if isBody then c.alternativeBodyDisjunction onceThrough else c.alternativeDisjunction
    let countToCheck := minimumSize - parenthesesInputCountAlreadyChecked
    let c := if countToCheck ≠ 0 then c.append (.checkInput countToCheck) else c
    let checked ← checkOffset (inputCountAlreadyChecked + countToCheck)
    let c ← emitTerms s checked c terms
    emitAlternatives s isBody inputCountAlreadyChecked parenthesesInputCountAlreadyChecked false c
      rest
end

/-- `byteCompile`. -/
def byteCompile (s : Settings) (pattern : YarrPattern) : Except ErrorCode ByteDisjunction := do
  let onceThrough := (pattern.m_body.m_alternatives.head?.map (·.m_onceThrough)).getD false
  let c : ByteCompiler := ⟨[.bodyAlternativeBegin ⟨0, 0, onceThrough, 0⟩], 0, []⟩
  let c ← emitAlternatives s true 0 0 true c pattern.m_body.m_alternatives
  return ⟨c.closeBodyAlternative.terms, pattern.m_numSubpatterns, pattern.m_body.m_callFrameSize⟩

end JscAndroid.Yarr.Emit
