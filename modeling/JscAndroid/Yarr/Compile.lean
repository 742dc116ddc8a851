import JscAndroid.Yarr.Pattern

/-!
# Compiling a pattern

The passes of `YarrPattern::compile` after parsing: terminal parentheses, the dot-star enclosure,
the unrolling of `^`, and `setupOffsets`, which places the terms in the input and in the frame.
-/

namespace JscAndroid.Yarr.Compile

open Classes ByteCode Pattern

inductive ErrorCode
  | OffsetTooLarge
  deriving DecidableEq, Repr

/-! ## Terminal parentheses -/

/-- A group that may end the pattern and never be backtracked into. -/
def markTerminal : PatternTerm → PatternTerm
  | .parenthesesSubpattern d q l disjunction =>
    if q.quantityType = .Greedy ∧ q.quantityMinCount = 0 ∧ q.quantityMaxCount = quantifyInfinite ∧
        ¬ d.capture then
      .parenthesesSubpattern { d with isTerminal := true } q l disjunction
    else .parenthesesSubpattern d q l disjunction
  | t => t

def checkForTerminalParentheses (m_numSubpatterns : ℕ) (alternatives : List PatternAlternative) :
    List PatternAlternative :=
  if m_numSubpatterns ≠ 0 then alternatives
  else alternatives.map fun a =>
    match a.m_terms.getLast? with
    | none => a
    | some t => { a with m_terms := a.m_terms.dropLast ++ [markTerminal t] }

/-! ## Dot-star enclosures -/

mutual

/-- `containsCapturingTerms` for one term: it does not look into lookaheads. -/
def containsCapturingTerm : PatternTerm → Bool
  | .parenthesesSubpattern d _ _ ⟨alternatives, _, _⟩ =>
    d.capture || containsCapturingAlternatives alternatives
  | _ => false

def containsCapturingTerms : List PatternTerm → Bool
  | [] => false
  | t :: rest => containsCapturingTerm t || containsCapturingTerms rest

def containsCapturingAlternatives : List PatternAlternative → Bool
  | [] => false
  | ⟨terms, _, _, _, _⟩ :: rest => containsCapturingTerms terms ||
    containsCapturingAlternatives rest
end

/-- Whether the term is `.*`, of the given quantifier type when there is one to check. -/
def isDotStar (dotAll : Bool) (type : Option QuantifierType) : Option PatternTerm → Bool
  | some (.characterClass c _ q _) =>
    c = (if dotAll then .any else .newline) ∧ q.quantityMinCount = 0 ∧
      q.quantityMaxCount = quantifyInfinite ∧ (type = none ∨ type = some q.quantityType)
  | _ => false

def isAssertionBOL : Option PatternTerm → Bool
  | some (.assertionBOL _) => true
  | _ => false

def isAssertionEOL : Option PatternTerm → Bool
  | some (.assertionEOL _) => true
  | _ => false

/-- The parts of `[^].*[?]<expression>.*[$]`: whether the anchors are there, and the expression. -/
def dotStarParts (dotAll : Bool) (terms : List PatternTerm) :
    Option (Bool × Bool × List PatternTerm) :=
  let startsWithBOL := isAssertionBOL terms.head?
  let firstNonAnchor := if startsWithBOL then 1 else 0
  let endsWithEOL := isAssertionEOL terms.getLast?
  let endIndex := terms.length - 1 - if endsWithEOL then 1 else 0
  if 3 ≤ terms.length ∧ isDotStar dotAll none terms[firstNonAnchor]? ∧
      isDotStar dotAll (some .Greedy) terms[endIndex]? ∧ firstNonAnchor + 1 < endIndex then
    some (startsWithBOL, endsWithEOL,
      (terms.drop (firstNonAnchor + 1)).take (endIndex - (firstNonAnchor + 1)))
  else none

/-- `optimizeDotStarWrappedExpressions`: the new alternatives, and whether it applied. -/
def optimizeDotStarWrappedExpressions (dotAll : Bool) (alternatives : List PatternAlternative) :
    List PatternAlternative × Bool :=
  match alternatives with
  | [alternative] =>
    match dotStarParts dotAll alternative.m_terms with
    | some (startsWithBOL, endsWithEOL, expression) =>
      if containsCapturingTerms expression then (alternatives, false)
      else ([{ alternative with
          m_terms := expression ++ [.dotStarEnclosure startsWithBOL endsWithEOL] }], true)
    | none => (alternatives, false)
  | _ => (alternatives, false)

/-! ## Unrolling `^` -/

def setOnceThrough (a : PatternAlternative) : PatternAlternative := { a with m_onceThrough := true }

def optimizeBOL (containsBOL multiline : Bool) (alternatives : List PatternAlternative) :
    List PatternAlternative :=
  if !containsBOL || multiline then alternatives
  else alternatives.map setOnceThrough ++ copyAlternatives true alternatives

/-! ## Offsets -/

/-- A `CheckedUint32` must not have overflowed. -/
def checkOffset (n : ℕ) : Except ErrorCode ℕ :=
  if n < 2 ^ 32 then .ok n else .error .OffsetTooLarge

/-- `YarrStackSpaceForBackTrackInfoAlternative`, for a disjunction with more than one. -/
def alternativeSpace (alternatives : List PatternAlternative) : ℕ :=
  if 1 < alternatives.length then 1 else 0

def characterWidth (unicode : Bool) (ch : UChar32) : ℕ :=
  if unicode then if ch < 0x10000 then 1 else 2 else 1

def classOf : ClassPointer → CharacterClass
  | .newline => ⟨[0xa, 0xd], [], [0x2028, 0x2029], [], ⟨true, false⟩, false⟩
  | .any => ⟨[], [⟨0, 0x7f⟩], [], [⟨0x80, 0x10ffff⟩], ⟨true, true⟩, true⟩
  | .other c => c

/-- The code units that one character of a fixed class term is sure to take. -/
def classWidth (unicode invert : Bool) (c : CharacterClass) : ℕ :=
  if unicode && c.hasOneCharacterSize && !invert && c.hasNonBMPCharacters then 2 else 1

mutual

/-- One round of the loop of `setupAlternativeOffsets`: the term with its offsets, the new
`currentCallFrameSize` and the new `currentInputPosition`. -/
def setupTerm (unicode : Bool) (frame pos : ℕ) :
    PatternTerm → Except ErrorCode (PatternTerm × ℕ × ℕ)
  | .assertionBOL _ => .ok (.assertionBOL pos, frame, pos)
  | .assertionEOL _ => .ok (.assertionEOL pos, frame, pos)
  | .assertionWordBoundary invert _ => .ok (.assertionWordBoundary invert pos, frame, pos)
  | .backReference n q _ => .ok (.backReference n q ⟨pos, frame⟩, frame + 2, pos)
  | .forwardReference => .ok (.forwardReference, frame, pos)
  | .patternCharacter ch q l =>
    if q.quantityType ≠ .FixedCount then
      .ok (.patternCharacter ch q ⟨pos, frame⟩, frame + 2, pos)
    else do
      let newPos ← checkOffset (pos + q.quantityMaxCount * characterWidth unicode ch)
      return (.patternCharacter ch q ⟨pos, l.frameLocation⟩, frame, newPos)
  | .characterClass c invert q l =>
    if q.quantityType ≠ .FixedCount then
      .ok (.characterClass c invert q ⟨pos, frame⟩, frame + 2, pos)
    else do
      let newPos ← checkOffset
        (pos + q.quantityMaxCount * classWidth unicode invert (classOf c))
      if unicode then return (.characterClass c invert q ⟨pos, frame⟩, frame + 2, newPos)
      else return (.characterClass c invert q ⟨pos, l.frameLocation⟩, frame, newPos)
  | .parenthesesSubpattern d q _ ⟨alternatives, _, _⟩ =>
    if q.quantityMaxCount = 1 ∧ ¬ d.isCopy then do
      let (alternatives, minimumSize, callFrameSize) ← setupAlternatives unicode
        (frame + 2 + alternativeSpace alternatives) pos alternatives
      let newPos ← checkOffset (if q.quantityType = .FixedCount then pos + minimumSize else pos)
      return (.parenthesesSubpattern d q ⟨newPos, frame⟩ ⟨alternatives, minimumSize, callFrameSize⟩,
        callFrameSize, newPos)
    else if d.isTerminal then do
      let (alternatives, minimumSize, callFrameSize) ← setupAlternatives unicode
        (frame + 1 + alternativeSpace alternatives) pos alternatives
      return (.parenthesesSubpattern d q ⟨pos, frame⟩ ⟨alternatives, minimumSize, callFrameSize⟩,
        callFrameSize, pos)
    else do
      let (alternatives, minimumSize, callFrameSize) ← setupAlternatives unicode
        (frame + 4 + alternativeSpace alternatives) pos alternatives
      return (.parenthesesSubpattern d q ⟨pos, frame⟩ ⟨alternatives, minimumSize, callFrameSize⟩,
        callFrameSize, pos)
  | .parentheticalAssertion invert _ ⟨alternatives, _, _⟩ => do
    let (alternatives, minimumSize, callFrameSize) ← setupAlternatives unicode
      (frame + 1 + alternativeSpace alternatives) pos alternatives
    return (.parentheticalAssertion invert ⟨pos, frame⟩ ⟨alternatives, minimumSize, callFrameSize⟩,
      callFrameSize, pos)
  | .dotStarEnclosure bol eol => .ok (.dotStarEnclosure bol eol, frame + 1, pos)

/-- `setupAlternativeOffsets`. -/
def setupTerms (unicode : Bool) (frame pos : ℕ) :
    List PatternTerm → Except ErrorCode (List PatternTerm × ℕ × ℕ)
  | [] => .ok ([], frame, pos)
  | t :: rest => do
    let (t, frame, pos) ← setupTerm unicode frame pos t
    let (rest, frame, pos) ← setupTerms unicode frame pos rest
    return (t :: rest, frame, pos)

/-- The loop of `setupDisjunctionOffsets`: the alternatives, the minimum of their sizes and the
maximum of their frames. -/
def setupAlternatives (unicode : Bool) (frame pos : ℕ) :
    List PatternAlternative → Except ErrorCode (List PatternAlternative × ℕ × ℕ)
  | [] => .ok ([], UINT_MAX, 0)
  | ⟨terms, _, onceThrough, startsWithBOL, containsBOL⟩ :: rest => do
    let (terms, callFrameSize, endPos) ← setupTerms unicode frame pos terms
    let (rest, minimumSize, restFrameSize) ← setupAlternatives unicode frame pos rest
    return (⟨terms, endPos - pos, onceThrough, startsWithBOL, containsBOL⟩ :: rest,
      min (endPos - pos) minimumSize, max callFrameSize restFrameSize)
end

/-- `setupOffsets`, for the alternatives of the body. -/
def setupOffsets (unicode : Bool) (alternatives : List PatternAlternative) :
    Except ErrorCode PatternDisjunction := do
  let (alternatives, minimumSize, callFrameSize) ← setupAlternatives unicode 0 0 alternatives
  return ⟨alternatives, minimumSize, callFrameSize⟩

/-! ## The passes in order -/

/-- A compiled pattern. -/
structure YarrPattern where
  flags : Flags
  m_numSubpatterns : ℕ
  m_body : PatternDisjunction

/-- The body after the optimizations. -/
def optimizedBody (p : Constructor) : List PatternAlternative :=
  let alternatives := checkForTerminalParentheses p.m_numSubpatterns
    (p.inner.finished ++ [p.inner.current])
  let (alternatives, enclosed) := optimizeDotStarWrappedExpressions p.flags.dotAll alternatives
  optimizeBOL (p.m_containsBOL && !enclosed) p.flags.multiline alternatives

/-- `compile`, once the parser is done with the constructor. -/
def compile (p : Constructor) : Except ErrorCode YarrPattern := do
  let body ← setupOffsets p.flags.unicode (optimizedBody p)
  return ⟨p.flags, p.m_numSubpatterns, body⟩

end JscAndroid.Yarr.Compile
