import JscAndroid.Yarr.ByteCode
import JscAndroid.Yarr.ClassConstructor

/-!
# Patterns

The tree that `YarrPatternConstructor` builds while the parser reports the atoms, assertions and
quantifiers of a regular expression. The alternative under construction and those around it form a
stack (`Open`), in place of the parent pointers of the source.
-/

namespace JscAndroid.Yarr.Pattern

open Classes Canonicalize ByteCode ClassConstructor

/-! ## The tree -/

/-- A `CharacterClass*`: the two cached classes that `.` stands for, or any other class. -/
inductive ClassPointer
  | newline
  | any
  | other (characterClass : CharacterClass)
  deriving DecidableEq

/-- The quantifier of a term. -/
structure TermQuantity where
  quantityType : QuantifierType
  quantityMinCount : ℕ
  quantityMaxCount : ℕ
  deriving DecidableEq

/-- The quantifier of an atom that was not quantified. -/
def TermQuantity.once : TermQuantity := ⟨.FixedCount, 1, 1⟩

/-- The `parentheses` member of a `PatternTerm`, without its disjunction. -/
structure ParenthesesData where
  subpatternId : ℕ
  lastSubpatternId : ℕ
  capture : Bool
  isCopy : Bool
  isTerminal : Bool
  deriving DecidableEq

structure PatternAlternativeOf (τ : Type) where
  m_terms : List τ
  m_minimumSize : ℕ
  m_onceThrough : Bool
  m_startsWithBOL : Bool
  m_containsBOL : Bool

structure PatternDisjunctionOf (τ : Type) where
  m_alternatives : List (PatternAlternativeOf τ)
  m_minimumSize : ℕ
  m_callFrameSize : ℕ

inductive PatternTerm
  | assertionBOL (inputPosition : ℕ)
  | assertionEOL (inputPosition : ℕ)
  | assertionWordBoundary (invert : Bool) (inputPosition : ℕ)
  | patternCharacter (ch : UChar32) (q : TermQuantity) (at_ : Location)
  | characterClass (characterClass : ClassPointer) (invert : Bool) (q : TermQuantity)
      (at_ : Location)
  | backReference (backReferenceSubpatternId : ℕ) (q : TermQuantity) (at_ : Location)
  | forwardReference
  | parenthesesSubpattern (parentheses : ParenthesesData) (q : TermQuantity) (at_ : Location)
      (disjunction : PatternDisjunctionOf PatternTerm)
  | parentheticalAssertion (invert : Bool) (at_ : Location)
      (disjunction : PatternDisjunctionOf PatternTerm)
  | dotStarEnclosure (bolAnchor eolAnchor : Bool)

abbrev PatternAlternative := PatternAlternativeOf PatternTerm
abbrev PatternDisjunction := PatternDisjunctionOf PatternTerm

/-- `addNewAlternative`. -/
def PatternAlternative.new : PatternAlternative := ⟨[], 0, false, false, false⟩

/-! ## The constructor -/

/-- The flags of a regular expression. -/
structure Flags where
  ignoreCase : Bool
  multiline : Bool
  sticky : Bool
  unicode : Bool
  dotAll : Bool
  deriving DecidableEq

/-- What opened a disjunction: a group, or a lookahead. -/
inductive Opener
  | subpattern (subpatternId : ℕ) (capture : Bool)
  | assertion (subpatternId : ℕ) (invert : Bool)
  deriving DecidableEq

/-- A disjunction under construction: what opened it (nothing for the body), its finished
alternatives and its current one. -/
structure Open where
  opener : Option Opener
  finished : List PatternAlternative
  current : PatternAlternative

/-- The pattern and its constructor: `m_alternative` is the current alternative of the innermost
open disjunction, `outer` are those around it. -/
structure Constructor where
  flags : Flags
  tables : CanonicalizationTables
  inner : Open
  outer : List Open
  m_numSubpatterns : ℕ
  m_containsBOL : Bool
  m_hasCopiedParenSubexpressions : Bool
  m_invertParentheticalAssertion : Bool

namespace Constructor

variable (p : Constructor)

def new (flags : Flags) (tables : CanonicalizationTables) : Constructor :=
  ⟨flags, tables, ⟨none, [], .new⟩, [], 0, false, false, false⟩

def m_alternative : PatternAlternative := p.inner.current

def setAlternative (a : PatternAlternative) : Constructor :=
  { p with inner := { p.inner with current := a } }

/-- `m_alternative->m_terms.append(term)`. -/
def appendTerm (t : PatternTerm) : Constructor :=
  p.setAlternative { p.m_alternative with m_terms := p.m_alternative.m_terms ++ [t] }

def canonicalMode : CanonicalMode := if p.flags.unicode then .Unicode else .UCS2

/-! ### Callbacks of the parser -/

def assertionBOL : Constructor :=
  let p := if p.m_alternative.m_terms = [] ∧ ¬ p.m_invertParentheticalAssertion then
      { p.setAlternative
          { p.m_alternative with m_startsWithBOL := true, m_containsBOL := true } with
        m_containsBOL := true }
    else p
  p.appendTerm (.assertionBOL 0)

def assertionEOL : Constructor := p.appendTerm (.assertionEOL 0)

def assertionWordBoundary (invert : Bool) : Constructor :=
  p.appendTerm (.assertionWordBoundary invert 0)

def atomPatternCharacter (ch : UChar32) : Constructor :=
  if !p.flags.ignoreCase || (isASCII ch && !p.flags.unicode) then
    p.appendTerm (.patternCharacter ch .once ⟨0, 0⟩)
  else
    let table := p.tables.forMode p.canonicalMode
    match table.canonicalRangeInfoFor ch with
    | none => p
    | some index =>
      let info := table.range index
      if info.type = .canonicalizeUnique then p.appendTerm (.patternCharacter ch .once ⟨0, 0⟩)
      else
        let c := CharacterClassConstructor.empty.putUnicodeIgnoreCase
          ⟨p.flags.ignoreCase, p.canonicalMode, table⟩ ch info
        p.appendTerm (.characterClass (.other c.charClass) false .once ⟨0, 0⟩)

def atomParenthesesSubpatternBegin (capture : Bool) : Constructor :=
  { p with
    inner := ⟨some (.subpattern (p.m_numSubpatterns + 1) capture), [], .new⟩
    outer := p.inner :: p.outer
    m_numSubpatterns := if capture then p.m_numSubpatterns + 1 else p.m_numSubpatterns }

def atomParentheticalAssertionBegin (invert : Bool) : Constructor :=
  { p with
    inner := ⟨some (.assertion (p.m_numSubpatterns + 1) invert), [], .new⟩
    outer := p.inner :: p.outer
    m_invertParentheticalAssertion := invert }

/-- The term of a closed disjunction. -/
def closedTerm (opener : Opener) (alternatives : List PatternAlternative) : PatternTerm :=
  match opener with
  | .subpattern subpatternId capture =>
    .parenthesesSubpattern ⟨subpatternId, p.m_numSubpatterns, capture, false, false⟩ .once ⟨0, 0⟩
      ⟨alternatives, 0, 0⟩
  | .assertion _ invert => .parentheticalAssertion invert ⟨0, 0⟩ ⟨alternatives, 0, 0⟩

/-- `atomParenthesesEnd`: the flags of the alternatives bubble up to the one around them. -/
def atomParenthesesEnd : Constructor :=
  match p.inner.opener, p.outer with
  | some opener, parent :: outer =>
    let alternatives := p.inner.finished ++ [p.inner.current]
    let numBOLAnchoredAlts := (alternatives.filter (·.m_startsWithBOL)).length
    let current : PatternAlternative :=
      { parent.current with
        m_terms := parent.current.m_terms ++ [p.closedTerm opener alternatives]
        m_containsBOL := parent.current.m_containsBOL || 0 < numBOLAnchoredAlts
        m_startsWithBOL := parent.current.m_startsWithBOL ||
          (0 < numBOLAnchoredAlts && numBOLAnchoredAlts = alternatives.length) }
    { p with
      inner := { parent with current := current }
      outer := outer
      m_invertParentheticalAssertion := false }
  | _, _ => p

def disjunction : Constructor :=
  { p with inner := ⟨p.inner.opener, p.inner.finished ++ [p.inner.current], .new⟩ }

end Constructor

/-! ## Copies -/

mutual

/-- `copyTerm`: a group or a lookahead gets a disjunction of its own. -/
def copyTerm (filterStartsWithBOL : Bool) : PatternTerm → PatternTerm
  | .parenthesesSubpattern d q l ⟨alternatives, minimumSize, callFrameSize⟩ =>
    .parenthesesSubpattern d q l
      ⟨copyAlternatives filterStartsWithBOL alternatives, minimumSize, callFrameSize⟩
  | .parentheticalAssertion invert l ⟨alternatives, minimumSize, callFrameSize⟩ =>
    .parentheticalAssertion invert l
      ⟨copyAlternatives filterStartsWithBOL alternatives, minimumSize, callFrameSize⟩
  | t => t

/-- The alternatives of `copyDisjunction`; an empty list stands for the null pointer. -/
def copyAlternatives (filterStartsWithBOL : Bool) :
    List PatternAlternative → List PatternAlternative
  | [] => []
  | ⟨terms, _, _, startsWithBOL, _⟩ :: rest =>
    if filterStartsWithBOL && startsWithBOL then copyAlternatives filterStartsWithBOL rest
    else ⟨copyTerms filterStartsWithBOL terms, 0, false, false, false⟩ ::
      copyAlternatives filterStartsWithBOL rest

def copyTerms (filterStartsWithBOL : Bool) : List PatternTerm → List PatternTerm
  | [] => []
  | t :: rest => copyTerm filterStartsWithBOL t :: copyTerms filterStartsWithBOL rest
end

/-- Whether a copy of the term sets `m_hasCopiedParenSubexpressions`. -/
def PatternTerm.hasDisjunction : PatternTerm → Bool
  | .parenthesesSubpattern _ _ _ _ => true
  | .parentheticalAssertion _ _ _ => true
  | _ => false

/-! ## Quantifiers -/

/-- `quantify(minCount, maxCount, type)`. -/
def PatternTerm.quantify (t : PatternTerm) (q : TermQuantity) : PatternTerm :=
  match t with
  | .patternCharacter ch _ l => .patternCharacter ch q l
  | .characterClass cc invert _ l => .characterClass cc invert q l
  | .backReference n _ l => .backReference n q l
  | .parenthesesSubpattern d _ l disjunction => .parenthesesSubpattern d q l disjunction
  | t => t

/-- `parentheses.isCopy = true`, for a group. -/
def PatternTerm.markCopy : PatternTerm → PatternTerm
  | .parenthesesSubpattern d q l disjunction =>
    .parenthesesSubpattern { d with isCopy := true } q l disjunction
  | t => t

def PatternTerm.isParenthesesSubpattern : PatternTerm → Bool
  | .parenthesesSubpattern _ _ _ _ => true
  | _ => false

def PatternTerm.isParentheticalAssertion : PatternTerm → Bool
  | .parentheticalAssertion _ _ _ => true
  | _ => false

def variableType (greedy : Bool) : QuantifierType := if greedy then .Greedy else .NonGreedy

/-- The terms that replace a quantified one. -/
def quantifiedTerms (hasCopied : Bool) (t : PatternTerm) (min max : ℕ) (greedy : Bool) :
    List PatternTerm :=
  if max = 0 then []
  else if t.isParentheticalAssertion then if min = 0 then [] else [t]
  else if min = max then [t.quantify ⟨.FixedCount, min, max⟩]
  else if min = 0 ∨ (t.isParenthesesSubpattern ∧ hasCopied) then
    [t.quantify ⟨variableType greedy, min, max⟩]
  else
    let fixed := t.quantify ⟨.FixedCount, min, min⟩
    [fixed, ((copyTerm false fixed).quantify
      ⟨variableType greedy, 0, if max = quantifyInfinite then max else max - min⟩).markCopy]

/-- Whether quantifying the term copies a disjunction. -/
def quantifyCopies (hasCopied : Bool) (t : PatternTerm) (min max : ℕ) : Bool :=
  max ≠ 0 ∧ ¬ t.isParentheticalAssertion ∧ min ≠ max ∧
    ¬ (min = 0 ∨ (t.isParenthesesSubpattern ∧ hasCopied)) ∧ t.hasDisjunction

namespace Constructor

variable (p : Constructor)

def quantifyAtom (min max : ℕ) (greedy : Bool) : Constructor :=
  match p.m_alternative.m_terms.getLast? with
  | none => p
  | some t =>
    { p.setAlternative { p.m_alternative with
        m_terms := p.m_alternative.m_terms.dropLast ++
          quantifiedTerms p.m_hasCopiedParenSubexpressions t min max greedy } with
      m_hasCopiedParenSubexpressions := p.m_hasCopiedParenSubexpressions ||
        quantifyCopies p.m_hasCopiedParenSubexpressions t min max }

end Constructor

end JscAndroid.Yarr.Pattern
