import JscAndroid.Replace.Substitution

/-!
# `replaceUsingRegExpSearch`

The fast path of `String.prototype.replace` for a regexp and a replacement that is a string, from
StringPrototype.js and StringPrototype.cpp. `RegExp::match` on the string is a function of the
start index. The loops collect ranges of the source and the texts that go between them, which are
spliced at the end. Whether there is memory for a string is up to the caller.
-/

namespace JscAndroid.Replace

/-- How a call fails; a loop that would not end is out of rounds. -/
inductive Failure where
  | typeError (message : String)
  | outOfMemory
  | outOfRounds
deriving DecidableEq

structure StringRange where
  position : ℕ
  length : ℕ

def StringRange.text (source : List ℕ) (range : StringRange) : List ℕ :=
  substring source range.position range.length

/-- `StringImpl::tryCreateUninitialized` and the copying that follows. -/
def tryCreate (allocatable : List ℕ → Bool) (text : List ℕ) : Except Failure (List ℕ) :=
  if allocatable text then .ok text else .error .outOfMemory

/-- The only range of a splice. -/
def singleRange (source : List ℕ) (range : StringRange) : List ℕ :=
  if range.position ≤ 0 && range.length ≥ source.length then source
  else substring source (max 0 range.position) (min source.length range.length)

def jsSpliceSubstrings (allocatable : List ℕ → Bool) (source : List ℕ) :
    List StringRange → Except Failure (List ℕ)
  | [range] => .ok (singleRange source range)
  | substringRanges =>
    if (substringRanges.map StringRange.length).sum = 0 then .ok []
    else tryCreate allocatable (substringRanges.flatMap (StringRange.text source))

/-- The loop over the ranges and the separators. -/
def interleave (source : List ℕ) : List StringRange → List (List ℕ) → List ℕ
  | [], separators => separators.flatten
  | ranges, [] => ranges.flatMap (StringRange.text source)
  | range :: ranges, separator :: separators =>
    range.text source ++ (separator ++ interleave source ranges separators)

def jsSpliceSubstringsWithSeparators (allocatable : List ℕ → Bool) (source : List ℕ) :
    List StringRange → List (List ℕ) → Except Failure (List ℕ)
  | [range], [] => .ok (singleRange source range)
  | [left, right], [separator] =>
    tryCreate allocatable (left.text source ++ (separator ++ right.text source))
  | substringRanges, separators =>
    if (substringRanges.map StringRange.length).sum + (separators.map List.length).sum = 0 then
      .ok []
    else tryCreate allocatable (interleave source substringRanges separators)

/-- The variables of the loops. -/
structure SearchState where
  lastIndex : ℕ := 0
  startPosition : ℕ := 0
  sourceRanges : List StringRange := []
  replacements : List (List ℕ) := []

/-- The loop of `removeUsingRegExpSearch` and that of `replaceUsingRegExpSearch`, with a bound on
the rounds; they differ in what they do with a match. -/
def searchLoop (onMatch : SearchState → MatchResult → Except Failure SearchState) (global : Bool)
    (sourceLen : ℕ) (matcher : ℕ → Option MatchResult) :
    ℕ → SearchState → Except Failure SearchState
  | 0, _ => .error .outOfRounds
  | fuel + 1, state =>
    match matcher state.startPosition with
    | none => .ok state
    | some result => do
      let state ← onMatch state result
      let startPosition := if result.empty then result.stop + 1 else result.stop
      let state := { state with lastIndex := result.stop, startPosition }
      if result.empty && startPosition > sourceLen then .ok state
      else if global then searchLoop onMatch global sourceLen matcher fuel state
      else .ok state

/-- What is left of the source at the end. -/
def SearchState.withTail (state : SearchState) (sourceLen : ℕ) : List StringRange :=
  if state.lastIndex < sourceLen then
    state.sourceRanges ++ [⟨state.lastIndex, sourceLen - state.lastIndex⟩]
  else state.sourceRanges

def removeMatch (state : SearchState) (result : MatchResult) : Except Failure SearchState :=
  .ok (if state.lastIndex < result.start then
    { state with
      sourceRanges := state.sourceRanges ++ [⟨state.lastIndex, result.start - state.lastIndex⟩] }
  else state)

def removeUsingRegExpSearch (allocatable : List ℕ → Bool) (source : List ℕ)
    (matcher : ℕ → Option MatchResult) : Except Failure (List ℕ) := do
  let state ← searchLoop removeMatch true source.length matcher (source.length + 2) {}
  if state.lastIndex = 0 then return source
  jsSpliceSubstrings allocatable source (state.withTail source.length)

/-- The text for one match; it is built in a `StringBuilder`. -/
def replacementOf (allocatable : List ℕ → Bool) (source : List ℕ) (regExp : RegExp)
    (replacementString : List ℕ) (result : MatchResult) : Except Failure (List ℕ) :=
  if replacementString.length ≠ 0 then
    match substituteBackreferences replacementString source result regExp with
    | none => .error .outOfRounds
    | some text => tryCreate allocatable text
  else .ok []

def replaceMatch (allocatable : List ℕ → Bool) (source : List ℕ) (regExp : RegExp)
    (replacementString : List ℕ) (state : SearchState) (result : MatchResult) :
    Except Failure SearchState :=
  if state.lastIndex < result.start || replacementString.length ≠ 0 then do
    let replacement ← replacementOf allocatable source regExp replacementString result
    return { state with
      sourceRanges := state.sourceRanges ++ [⟨state.lastIndex, result.start - state.lastIndex⟩]
      replacements := state.replacements ++ [replacement] }
  else .ok state

structure RegExpObject where
  regExp : RegExp
  lastIndex : ℤ
  lastIndexIsWritable : Bool

def ReadonlyPropertyWriteError : String := "Attempted to assign to readonly property."

def RegExpObject.setLastIndex (regExpObject : RegExpObject) (lastIndex : ℕ) :
    Except Failure RegExpObject :=
  if regExpObject.lastIndexIsWritable then .ok { regExpObject with lastIndex }
  else .error (.typeError ReadonlyPropertyWriteError)

/-- `replaceUsingRegExpSearch` for a replacement that is a string: the result, and the regexp with
its `lastIndex`. -/
def replaceUsingRegExpSearch (allocatable : List ℕ → Bool) (source : List ℕ)
    (matcher : ℕ → Option MatchResult) (regExpObject : RegExpObject)
    (replacementString : List ℕ) : Except Failure (List ℕ) × RegExpObject :=
  let regExp := regExpObject.regExp
  match if regExp.global then regExpObject.setLastIndex 0 else .ok regExpObject with
  | .error failure => (.error failure, regExpObject)
  | .ok regExpObject =>
    if regExp.global && replacementString.length = 0 then
      (removeUsingRegExpSearch allocatable source matcher, regExpObject)
    else
      (do
        let state ← searchLoop (replaceMatch allocatable source regExp replacementString)
          regExp.global source.length matcher (source.length + 2) {}
        if state.lastIndex = 0 && state.replacements.isEmpty then return source
        jsSpliceSubstringsWithSeparators allocatable source (state.withTail source.length)
          state.replacements, regExpObject)

/-! ## The builtin -/

/-- What the builtin asks of its argument: whether it is a `RegExpObject`, whether the properties
are the original ones, and whether `lastIndex` is a number. -/
structure SearchValue where
  isRegExpObject : Bool
  replacerIsOriginal : Bool
  execIsOriginal : Bool
  globalIsOriginal : Bool
  unicodeIsOriginal : Bool
  lastIndexIsNumber : Bool

def hasObservableSideEffectsForStringReplace (regexp : SearchValue) : Bool :=
  if !regexp.isRegExpObject then true
  else if !regexp.replacerIsOriginal then true
  else if !regexp.execIsOriginal then true
  else if !regexp.globalIsOriginal then true
  else if !regexp.unicodeIsOriginal then true
  else !regexp.lastIndexIsNumber

/-- `String.prototype.replace` for an argument that has a replacer, where `slow` is what the call of
the replacer gives. -/
def replace (search : SearchValue) (slow : Except Failure (List ℕ)) (allocatable : List ℕ → Bool)
    (source : List ℕ) (matcher : ℕ → Option MatchResult) (regExpObject : RegExpObject)
    (replacementString : List ℕ) : Except Failure (List ℕ) :=
  if !hasObservableSideEffectsForStringReplace search then
    (replaceUsingRegExpSearch allocatable source matcher regExpObject replacementString).1
  else slow

end JscAndroid.Replace
