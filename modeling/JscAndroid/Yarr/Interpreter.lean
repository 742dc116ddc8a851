import JscAndroid.Yarr.InputStream

/-!
# The interpreter

`matchDisjunction` runs the terms of a `ByteDisjunction` forwards (`matchAgain`) and backwards
(`backtrack`). Backtracking information lives in the frame of a `DisjunctionContext`; a quantified
group keeps a list of contexts, one for each iteration, and re-enters its body through a nested
call.

The jumps of the source become a step function, and loops and nested calls take a fuel argument:
`outOfFuel` says that it was too small, and is not an outcome of the program.
-/

namespace JscAndroid.Yarr.Interpreter

open Classes ByteCode InputStream

/-! ## Contexts and frames -/

mutual

/-- `DisjunctionContext`: where a run of a disjunction stands. -/
inductive DisjunctionContext
  | mk (term matchBegin matchEnd : ℕ) (frame : ℕ → Slot)

/-- One word of a frame: a number, or the head of a list of contexts. -/
inductive Slot
  | word (n : ℕ)
  | contexts (lastContext : List ParenthesesDisjunctionContext)

/-- `ParenthesesDisjunctionContext`: one iteration of a group, with the captures it replaced. -/
inductive ParenthesesDisjunctionContext
  | mk (subpatternBackup : ℕ → ℕ) (context : DisjunctionContext)
end

abbrev Frame := ℕ → Slot

namespace DisjunctionContext

def term : DisjunctionContext → ℕ | mk t _ _ _ => t
def matchBegin : DisjunctionContext → ℕ | mk _ b _ _ => b
def matchEnd : DisjunctionContext → ℕ | mk _ _ e _ => e
def frame : DisjunctionContext → Frame | mk _ _ _ f => f

def setTerm (c : DisjunctionContext) (t : ℕ) : DisjunctionContext :=
  mk t c.matchBegin c.matchEnd c.frame
def setMatchBegin (c : DisjunctionContext) (b : ℕ) : DisjunctionContext :=
  mk c.term b c.matchEnd c.frame
def setMatchEnd (c : DisjunctionContext) (e : ℕ) : DisjunctionContext :=
  mk c.term c.matchBegin e c.frame
def setFrame (c : DisjunctionContext) (f : Frame) : DisjunctionContext :=
  mk c.term c.matchBegin c.matchEnd f

end DisjunctionContext

namespace Frame

def word (f : Frame) (i : ℕ) : ℕ :=
  match f i with
  | .word n => n
  | .contexts _ => 0

def contexts (f : Frame) (i : ℕ) : List ParenthesesDisjunctionContext :=
  match f i with
  | .word _ => []
  | .contexts l => l

def set (f : Frame) (i : ℕ) (x : Slot) : Frame := Function.update f i x

def setWord (f : Frame) (i n : ℕ) : Frame := f.set i (.word n)

end Frame

/-! The `begin` and `matchAmount` members of the `BackTrackInfo` structures. -/

def Frame.begin (f : Frame) (loc : ℕ) : ℕ := f.word loc
def Frame.matchAmount (f : Frame) (loc : ℕ) : ℕ := f.word (loc + 1)
def Frame.setBegin (f : Frame) (loc n : ℕ) : Frame := f.setWord loc n
def Frame.setMatchAmount (f : Frame) (loc n : ℕ) : Frame := f.setWord (loc + 1) n

/-! ## State -/

/-- What the terms read and write: the position and the capture slots. -/
structure Snapshot where
  pos : ℕ
  output : Output

structure State extends Snapshot where
  remainingMatchCount : ℕ

def State.withOutput (s : State) (output : Output) : State := { s with output := output }

def State.withPos (s : State) (pos : ℕ) : State := { s with pos := pos }

/-- Why a run has no result. -/
inductive Stop
  | outOfFuel
  | violation (v : Violation)
  deriving DecidableEq, Repr

def lift {α : Type} (x : Except Violation α) : Except Stop α := x.mapError .violation

/-- Oracles of the interpreter beside its constant members: whether the stack allows a call at a
nesting depth, and what freshly allocated frames hold. -/
structure Machine extends Env where
  isSafeToRecurse : ℕ → Bool
  uninitialized : DisjunctionContext

/-! ## Captures -/

/-- `output[i] = value`. -/
def setOutput (output : Output) (i value : ℕ) : Output := Function.update output i value

/-- The slots of the `count` groups from `firstSubpatternId` on. -/
def inRange (firstSubpatternId count i : ℕ) : Prop :=
  firstSubpatternId * 2 ≤ i ∧ i < firstSubpatternId * 2 + count * 2

instance (a b c : ℕ) : Decidable (inRange a b c) := by unfold inRange; infer_instance

/-- The save of the constructor of `ParenthesesDisjunctionContext`. -/
def saveOutput (firstSubpatternId : ℕ) (output : Output) : ℕ → ℕ :=
  fun i => output (firstSubpatternId * 2 + i)

/-- The reset of the constructor of `ParenthesesDisjunctionContext`. -/
def clearOutput (firstSubpatternId count : ℕ) (output : Output) : Output :=
  fun i => if inRange firstSubpatternId count i then offsetNoMatch else output i

def restoreOutput (firstSubpatternId count : ℕ) (backup : ℕ → ℕ) (output : Output) : Output :=
  fun i => if inRange firstSubpatternId count i then backup (i - firstSubpatternId * 2)
    else output i

/-! ## Terms that only read -/

/-- `PatternCharacterOnce` and `PatternCharacterFixed`. -/
def matchPatternCharacterFixed (e : Env) (ch : UChar32) (count inputPosition pos : ℕ) :
    Except Violation (Bool × ℕ) :=
  if e.unicode && !isBMP ch then
    Env.fixedLoop (fun k => e.checkSurrogatePair ch (u32Sub inputPosition (2 * k))) count 0 pos
  else do
    let (ok, read) ← Env.fixedLoop (fun k => e.checkCharacter ch (u32Sub inputPosition k))
      count 0 pos
    return (ok, if ok then read else pos)

/-- `PatternCasedCharacterOnce` and `PatternCasedCharacterFixed`. -/
def matchPatternCasedCharacterFixed (e : Env) (lo hi : UChar32) (count inputPosition pos : ℕ) :
    Except Violation (Bool × ℕ) := do
  let (ok, read) ← Env.fixedLoop (fun k => e.checkCasedCharacter lo hi (u32Sub inputPosition k))
    count 0 pos
  return (ok, if e.unicode && !ok then pos else read)

/-- The check of a fixed character class at its `k`-th character. -/
def checkFixedCharacterClass (e : Env) (cc : CharacterClass) (invert : Bool)
    (inputPosition k : ℕ) : ℕ → Except Violation (Bool × ℕ) :=
  if !e.unicode || invert then e.checkCharacterClass cc invert (u32Sub inputPosition k)
  else e.checkCharacterClassDontAdvanceInputForNonBMP cc
    (u32Sub inputPosition (k * if cc.hasOnlyNonBMPCharacters then 2 else 1))

/-- `matchCharacterClass` for a fixed count. -/
def matchCharacterClassFixed (e : Env) (cc : CharacterClass) (invert : Bool)
    (count inputPosition pos : ℕ) : Except Violation (Bool × ℕ) := do
  let (ok, read) ← Env.fixedLoop (checkFixedCharacterClass e cc invert inputPosition) count 0 pos
  return (ok, if e.unicode && !ok then pos else read)

/-- `matchBackReference` for a fixed count. -/
def matchBackReferenceFixed (e : Env) (matchBegin matchEnd count inputPosition pos : ℕ) :
    Except Violation (Bool × ℕ) := do
  let (ok, read) ← Env.fixedLoop
    (fun _ => e.tryConsumeBackReference matchBegin matchEnd inputPosition) count 0 pos
  return (ok, if ok then read else pos)

/-- `matchBackReference` for a greedy quantifier: as many copies of the capture as possible, at
most `n`. -/
def matchBackReferenceGreedy (e : Env) (matchBegin matchEnd inputPosition : ℕ) :
    ℕ → ℕ → ℕ → Except Violation (ℕ × ℕ)
  | 0, matchAmount, pos => .ok (matchAmount, pos)
  | n + 1, matchAmount, pos => do
    let (ok, pos) ← e.tryConsumeBackReference matchBegin matchEnd inputPosition pos
    if ok then matchBackReferenceGreedy e matchBegin matchEnd inputPosition n (matchAmount + 1) pos
    else return (matchAmount, pos)

/-- The forward step of a term that reads the input: whether it matched, the frame and the new
position. -/
def matchLeaf (e : Env) (output : Output) (f : Frame) (pos : ℕ) :
    ByteTerm → Except Violation (Bool × Frame × ℕ)
  | .assertionBOL inputPosition => do
    let (ok, pos) ← e.matchAssertionBOL inputPosition pos
    return (ok, f, pos)
  | .assertionEOL inputPosition => do
    let (ok, pos) ← e.matchAssertionEOL inputPosition pos
    return (ok, f, pos)
  | .assertionWordBoundary invert inputPosition => do
    let (ok, pos) ← e.matchAssertionWordBoundary invert inputPosition pos
    return (ok, f, pos)
  | .patternCharacter ch q l =>
    match q.quantityType with
    | .FixedCount => do
      let (ok, pos) ← matchPatternCharacterFixed e ch q.quantityMaxCount l.inputPosition pos
      return (ok, f, pos)
    | .Greedy => do
      let (matchAmount, pos) ← e.greedyLoop (e.checkCharacter ch (l.inputPosition + 1))
        Env.backToPosition q.quantityMaxCount 0 pos
      return (true, f.setMatchAmount l.frameLocation matchAmount, pos)
    | .NonGreedy =>
      .ok (true, (f.setBegin l.frameLocation pos).setMatchAmount l.frameLocation 0, pos)
  | .patternCasedCharacter lo hi q l =>
    match q.quantityType with
    | .FixedCount => do
      let (ok, pos) ← matchPatternCasedCharacterFixed e lo hi q.quantityMaxCount l.inputPosition pos
      return (ok, f, pos)
    | .Greedy => do
      let (matchAmount, pos) ← e.greedyLoop (e.checkCasedCharacter lo hi (l.inputPosition + 1))
        Env.backOne q.quantityMaxCount 0 pos
      return (true, f.setMatchAmount l.frameLocation matchAmount, pos)
    | .NonGreedy => .ok (true, f.setMatchAmount l.frameLocation 0, pos)
  | .characterClass cc invert q l =>
    match q.quantityType with
    | .FixedCount => do
      let (ok, read) ← matchCharacterClassFixed e cc invert q.quantityMaxCount l.inputPosition pos
      return (ok, if e.unicode then f.setBegin l.frameLocation pos else f, read)
    | .Greedy => do
      let (matchAmount, read) ← e.greedyLoop
        (e.checkCharacterClass cc invert (l.inputPosition + 1))
        Env.backToPosition q.quantityMaxCount 0 pos
      return (true, (f.setBegin l.frameLocation pos).setMatchAmount l.frameLocation matchAmount,
        read)
    | .NonGreedy =>
      .ok (true, (f.setBegin l.frameLocation pos).setMatchAmount l.frameLocation 0, pos)
  | .backReference subpatternId q l =>
    let matchBegin := output (subpatternId * 2)
    let matchEnd := output (subpatternId * 2 + 1)
    if matchEnd = offsetNoMatch ∨ matchBegin = offsetNoMatch ∨ matchBegin = matchEnd then
      .ok (true, f, pos)
    else
      match q.quantityType with
      | .FixedCount => do
        let (ok, read) ← matchBackReferenceFixed e matchBegin matchEnd q.quantityMaxCount
          l.inputPosition pos
        return (ok, f.setBegin l.frameLocation pos, read)
      | .Greedy => do
        let (matchAmount, pos) ← matchBackReferenceGreedy e matchBegin matchEnd l.inputPosition
          q.quantityMaxCount 0 pos
        return (true, f.setMatchAmount l.frameLocation matchAmount, pos)
      | .NonGreedy =>
        .ok (true, (f.setBegin l.frameLocation pos).setMatchAmount l.frameLocation 0, pos)
  | .checkInput count =>
    match e.checkInput pos count with
    | some pos => .ok (true, f, pos)
    | none => .ok (false, f, pos)
  | .uncheckInput count => do
    let pos ← Env.uncheckInput pos count
    return (true, f, pos)
  | _ => .error .notReached

/-- One more character of a non-greedy term, or back to `giveUp`. -/
def nonGreedyMore (e : Env) (check : ℕ → Except Violation (Bool × ℕ))
    (giveUp : ℕ → ℕ → Except Violation ℕ) (max : ℕ) (f : Frame) (loc pos : ℕ) :
    Except Violation (Bool × Frame × ℕ) :=
  let matchAmount := f.matchAmount loc
  match (if matchAmount < max then e.checkInput pos 1 else none) with
  | none => do
    let pos ← giveUp matchAmount pos
    return (false, f, pos)
  | some checked => do
    let (ok, read) ← check checked
    if ok then return (true, f.setMatchAmount loc (matchAmount + 1), read)
    else do
      let pos ← giveUp (matchAmount + 1) read
      return (false, f.setMatchAmount loc (matchAmount + 1), pos)

/-- `input.setPos(backTrack->begin)`. -/
def giveUpToBegin (begin _matchAmount _pos : ℕ) : Except Violation ℕ := .ok begin

/-- `input.uncheckInput(backTrack->matchAmount)`. -/
def giveUpByAmount (matchAmount pos : ℕ) : Except Violation ℕ := Env.uncheckInput pos matchAmount

/-- The loop by which a Unicode class rematches one character less. -/
def rematchLoop (e : Env) (check : ℕ → Except Violation (Bool × ℕ)) :
    ℕ → ℕ → Except Violation ℕ
  | 0, pos => .ok pos
  | n + 1, pos =>
    match e.checkInput pos 1 with
    | none => .ok pos
    | some checked => do
      let (ok, read) ← check checked
      if ok then rematchLoop e check n read else Env.uncheckInput read 1

/-- The position of a greedy character class after giving up one character, `matchAmount` being
left. -/
def backCharacterClass (e : Env) (cc : CharacterClass) (invert : Bool)
    (inputPosition begin matchAmount pos : ℕ) : Except Violation ℕ :=
  if e.unicode then
    rematchLoop e (e.checkCharacterClass cc invert (inputPosition + 1)) matchAmount begin
  else Env.uncheckInput pos 1

/-- Give up one of the characters of a greedy term. -/
def greedyLess (back : ℕ → ℕ → Except Violation ℕ) (f : Frame) (loc pos : ℕ) :
    Except Violation (Bool × Frame × ℕ) :=
  if f.matchAmount loc ≠ 0 then do
    let pos ← back (f.matchAmount loc - 1) pos
    return (true, f.setMatchAmount loc (f.matchAmount loc - 1), pos)
  else .ok (false, f, pos)

/-- The backward step of a term that reads the input. -/
def backtrackLeaf (e : Env) (output : Output) (f : Frame) (pos : ℕ) :
    ByteTerm → Except Violation (Bool × Frame × ℕ)
  | .assertionBOL _ => .ok (false, f, pos)
  | .assertionEOL _ => .ok (false, f, pos)
  | .assertionWordBoundary _ _ => .ok (false, f, pos)
  | .patternCharacter ch q l =>
    match q.quantityType with
    | .FixedCount => .ok (false, f, pos)
    | .Greedy => greedyLess (fun _ pos => Env.uncheckInput pos (u16Length ch)) f l.frameLocation pos
    | .NonGreedy =>
      nonGreedyMore e (e.checkCharacter ch (l.inputPosition + 1))
        (giveUpToBegin (f.begin l.frameLocation)) q.quantityMaxCount f l.frameLocation pos
  | .patternCasedCharacter lo hi q l =>
    match q.quantityType with
    | .FixedCount => .ok (false, f, pos)
    | .Greedy => greedyLess (fun _ pos => Env.uncheckInput pos 1) f l.frameLocation pos
    | .NonGreedy =>
      nonGreedyMore e (e.checkCasedCharacter lo hi (l.inputPosition + 1)) giveUpByAmount
        q.quantityMaxCount f l.frameLocation pos
  | .characterClass cc invert q l =>
    match q.quantityType with
    | .FixedCount => .ok (false, f, if e.unicode then f.begin l.frameLocation else pos)
    | .Greedy =>
      greedyLess (backCharacterClass e cc invert l.inputPosition (f.begin l.frameLocation)) f
        l.frameLocation pos
    | .NonGreedy =>
      nonGreedyMore e (e.checkCharacterClass cc invert (l.inputPosition + 1))
        (giveUpToBegin (f.begin l.frameLocation)) q.quantityMaxCount f l.frameLocation pos
  | .backReference subpatternId q l =>
    let matchBegin := output (subpatternId * 2)
    let matchEnd := output (subpatternId * 2 + 1)
    if matchBegin = offsetNoMatch ∨ matchBegin = matchEnd then .ok (false, f, pos)
    else
      match q.quantityType with
      | .FixedCount => .ok (false, f, f.begin l.frameLocation)
      | .Greedy =>
        greedyLess (fun _ pos => Env.rewind pos (u32Sub matchEnd matchBegin)) f l.frameLocation pos
      | .NonGreedy =>
        if f.matchAmount l.frameLocation < q.quantityMaxCount then do
          let (ok, read) ← e.tryConsumeBackReference matchBegin matchEnd l.inputPosition pos
          if ok then
            return (true, f.setMatchAmount l.frameLocation (f.matchAmount l.frameLocation + 1),
              read)
          else return (false, f, f.begin l.frameLocation)
        else .ok (false, f, f.begin l.frameLocation)
  | .checkInput count => do
    let pos ← Env.uncheckInput pos count
    return (false, f, pos)
  | .uncheckInput count => .ok (false, f, (e.checkInput pos count).getD pos)
  | _ => .error .notReached

/-! ## Quantified groups -/

/-- A nested call of `matchDisjunction`, `btrack` telling whether the body is re-entered. -/
abbrev Call := ByteDisjunction → DisjunctionContext → Bool → State →
  Except Stop (JSRegExpResult × DisjunctionContext × State)

/-- `BackTrackInfoParentheses`. -/
structure BackTrackInfoParentheses where
  begin : ℕ
  matchAmount : ℕ
  lastContext : List ParenthesesDisjunctionContext

def readBackTrackInfoParentheses (f : Frame) (loc : ℕ) : BackTrackInfoParentheses :=
  ⟨f.word loc, f.word (loc + 1), f.contexts (loc + 2)⟩

def writeBackTrackInfoParentheses (f : Frame) (loc : ℕ) (b : BackTrackInfoParentheses) : Frame :=
  ((f.setWord loc b.begin).setWord (loc + 1) b.matchAmount).set (loc + 2) (.contexts b.lastContext)

namespace BackTrackInfoParentheses

def appendParenthesesDisjunctionContext (b : BackTrackInfoParentheses)
    (context : ParenthesesDisjunctionContext) : BackTrackInfoParentheses :=
  { b with lastContext := context :: b.lastContext, matchAmount := b.matchAmount + 1 }

/-- `popParenthesesDisjunctionContext`, after its two assertions. -/
def popParenthesesDisjunctionContext (b : BackTrackInfoParentheses) : BackTrackInfoParentheses :=
  { b with lastContext := b.lastContext.tail, matchAmount := b.matchAmount - 1 }

/-- The body of the last iteration has moved on to another context. -/
def setLastContext (b : BackTrackInfoParentheses) (context : ParenthesesDisjunctionContext) :
    BackTrackInfoParentheses :=
  { b with lastContext := context :: b.lastContext.tail }

end BackTrackInfoParentheses

namespace ParenthesesDisjunctionContext

def subpatternBackup : ParenthesesDisjunctionContext → ℕ → ℕ | mk b _ => b
def getDisjunctionContext : ParenthesesDisjunctionContext → DisjunctionContext | mk _ c => c

end ParenthesesDisjunctionContext

/-- What a group's code leaves: its result, its backtracking information and the state. -/
abbrev GroupResult := JSRegExpResult × BackTrackInfoParentheses × State

section
variable (m : Machine) (call : Call) (info : ParenthesesInfo) (body : ByteDisjunction)

/-- `allocParenthesesDisjunctionContext`: the captures of the group are saved and reset. -/
def allocParenthesesDisjunctionContext (s : State) : ParenthesesDisjunctionContext × State :=
  (.mk (saveOutput info.subpatternId s.output) (m.uninitialized.setTerm 0),
    s.withOutput (clearOutput info.subpatternId body.m_numSubpatterns s.output))

def resetMatches (context : ParenthesesDisjunctionContext) (s : State) : State :=
  s.withOutput (restoreOutput info.subpatternId body.m_numSubpatterns context.subpatternBackup
    s.output)

def recordParenthesesMatch (context : ParenthesesDisjunctionContext) (s : State) : State :=
  if info.capture then
    s.withOutput (setOutput
      (setOutput s.output (info.subpatternId * 2)
        (u32Sub context.getDisjunctionContext.matchBegin info.inputPosition))
      (info.subpatternId * 2 + 1)
      (u32Sub context.getDisjunctionContext.matchEnd info.inputPosition))
  else s

/-- The capture of the last iteration, if there is one. -/
def recordLast (b : BackTrackInfoParentheses) (s : State) : State :=
  match b.lastContext with
  | [] => s
  | context :: _ => recordParenthesesMatch info context s

/-- The loop of `matchNonZeroDisjunction`: re-enter the body while its match is empty. -/
def matchNonZeroLoop : ℕ → DisjunctionContext → State →
    Except Stop (JSRegExpResult × DisjunctionContext × State)
  | 0, _, _ => .error .outOfFuel
  | fuel + 1, context, s =>
    if context.matchBegin = context.matchEnd then do
      let (result, context, s) ← call body context true s
      if result = .Match then matchNonZeroLoop fuel context s else return (result, context, s)
    else return (.Match, context, s)

def matchNonZeroDisjunction (fuel : ℕ) (context : DisjunctionContext) (btrack : Bool) (s : State) :
    Except Stop (JSRegExpResult × DisjunctionContext × State) := do
  let (result, context, s) ← call body context btrack s
  if result = .Match then matchNonZeroLoop call body fuel context s else return (result, context, s)

def parenthesesDoBacktrack : ℕ → BackTrackInfoParentheses → State → Except Stop GroupResult
  | 0, _, _ => .error .outOfFuel
  | fuel + 1, b, s =>
    if b.matchAmount = 0 then return (.NoMatch, b, s)
    else
      match b.lastContext with
      | [] => .error (.violation .noContext)
      | context :: _ => do
        let (result, c, s) ← call body context.getDisjunctionContext true s
        if result = .Match then
          return (.Match, b.setLastContext (.mk context.subpatternBackup c), s)
        else
          let s := resetMatches info body context s
          let b := b.popParenthesesDisjunctionContext
          if result ≠ .NoMatch then return (result, b, s)
          else parenthesesDoBacktrack fuel b s

/-- Add iterations until there are `count` of them, going back to the last one where the next
cannot be matched: the first loop of `matchParentheses`, and the loop of `backtrackParentheses` for
a fixed count. -/
def fixedIterations (count : ℕ) : ℕ → BackTrackInfoParentheses → State → Except Stop GroupResult
  | 0, _, _ => .error .outOfFuel
  | fuel + 1, b, s =>
    if b.matchAmount < count then do
      let (context, s) := allocParenthesesDisjunctionContext m info body s
      let (result, c, s) ← call body context.getDisjunctionContext false s
      if result = .Match then
        fixedIterations count fuel
          (b.appendParenthesesDisjunctionContext (.mk context.subpatternBackup c)) s
      else
        let s := resetMatches info body context s
        if result ≠ .NoMatch then return (result, b, s)
        else do
          let (result, b, s) ← parenthesesDoBacktrack call info body (fuel + 1) b s
          if result ≠ .Match then return (result, b, s)
          else fixedIterations count fuel b s
    else return (.Match, b, s)

/-- Add non-empty iterations while there are fewer than `max` and the body matches. -/
def greedyIterations (max : ℕ) : ℕ → BackTrackInfoParentheses → State → Except Stop GroupResult
  | 0, _, _ => .error .outOfFuel
  | fuel + 1, b, s =>
    if b.matchAmount < max then do
      let (context, s) := allocParenthesesDisjunctionContext m info body s
      let (result, c, s) ← matchNonZeroDisjunction call body (fuel + 1)
        context.getDisjunctionContext false s
      if result = .Match then
        greedyIterations max fuel
          (b.appendParenthesesDisjunctionContext (.mk context.subpatternBackup c)) s
      else
        let s := resetMatches info body context s
        if result ≠ .NoMatch then return (result, b, s) else return (.Match, b, s)
    else return (.Match, b, s)

/-- Drop all iterations, undoing their captures. -/
def dropIterations : List ParenthesesDisjunctionContext → State → State
  | [], s => s
  | context :: rest, s => dropIterations rest (resetMatches info body context s)

/-- The second loop of a non-greedy `backtrackParentheses`: re-enter the last iteration, dropping
it when it has no other match. -/
def nonGreedyBacktrack : ℕ → BackTrackInfoParentheses → State → Except Stop GroupResult
  | 0, _, _ => .error .outOfFuel
  | fuel + 1, b, s =>
    if b.matchAmount = 0 then return (.NoMatch, b, s)
    else
      match b.lastContext with
      | [] => .error (.violation .noContext)
      | context :: _ => do
        let (result, c, s) ← matchNonZeroDisjunction call body (fuel + 1)
          context.getDisjunctionContext true s
        if result = .Match then
          let b := b.setLastContext (.mk context.subpatternBackup c)
          return (.Match, b, recordLast info b s)
        else
          let s := resetMatches info body context s
          let b := b.popParenthesesDisjunctionContext
          if result ≠ .NoMatch then return (result, b, s)
          else nonGreedyBacktrack fuel b s

/-- The minimum part of `matchParentheses`: `recordParenthesesMatch` follows only where there is
one. -/
def minimumIterations (fuel : ℕ) (b : BackTrackInfoParentheses) (s : State) :
    Except Stop GroupResult :=
  if info.quantityMinCount = 0 then .ok (.Match, b, s)
  else do
    let (result, b, s) ← fixedIterations m call info body info.quantityMinCount fuel b s
    if result = .Match then return (.Match, b, recordLast info b s) else return (result, b, s)

def matchParentheses (fuel : ℕ) (s : State) : Except Stop GroupResult := do
  let (result, b, s) ← minimumIterations m call info body fuel ⟨s.pos, 0, []⟩ s
  if result = .Match then
    match info.quantityType with
    | .FixedCount => return (.Match, b, s)
    | .Greedy => do
      let (result, b, s) ← greedyIterations m call info body info.quantityMaxCount fuel b s
      if result = .Match then return (.Match, b, recordLast info b s) else return (result, b, s)
    | .NonGreedy => return (.Match, b, s)
  else return (result, b, s)

/-- `backtrackParentheses` for a greedy quantifier, once the last iteration was re-entered. -/
def greedyReentered (fuel : ℕ) (context : ParenthesesDisjunctionContext)
    (b : BackTrackInfoParentheses) (result : JSRegExpResult) (c : DisjunctionContext) (s : State) :
    Except Stop GroupResult :=
  if result = .Match then do
    let (result, b, s) ← greedyIterations m call info body info.quantityMaxCount fuel
      (b.setLastContext (.mk context.subpatternBackup c)) s
    if result = .Match then return (.Match, b, recordLast info b s) else return (result, b, s)
  else
    let s := resetMatches info body context s
    let b := b.popParenthesesDisjunctionContext
    if b.matchAmount < info.quantityMinCount then
      let s := dropIterations info body b.lastContext s
      .ok (result, ⟨b.begin, 0, []⟩, s.withPos b.begin)
    else if result ≠ .NoMatch then .ok (result, b, s)
    else .ok (.Match, b, recordLast info b s)

def backtrackParentheses (fuel : ℕ) (b : BackTrackInfoParentheses) (s : State) :
    Except Stop GroupResult :=
  match info.quantityType with
  | .FixedCount => do
    let (result, b, s) ← parenthesesDoBacktrack call info body fuel b s
    if result = .Match then do
      let (result, b, s) ← fixedIterations m call info body info.quantityMaxCount fuel b s
      if result = .Match then return (.Match, b, recordLast info b s) else return (result, b, s)
    else return (result, b, s)
  | .Greedy =>
    if b.matchAmount = 0 then .ok (.NoMatch, b, s)
    else
      match b.lastContext with
      | [] => .error (.violation .noContext)
      | context :: _ => do
        let (result, c, s) ← matchNonZeroDisjunction call body fuel
          context.getDisjunctionContext true s
        greedyReentered m call info body fuel context b result c s
  | .NonGreedy =>
    if b.matchAmount < info.quantityMaxCount then do
      let (context, s) := allocParenthesesDisjunctionContext m info body s
      let (result, c, s) ← matchNonZeroDisjunction call body fuel
        context.getDisjunctionContext false s
      if result = .Match then
        let b := b.appendParenthesesDisjunctionContext (.mk context.subpatternBackup c)
        return (.Match, b, recordLast info b s)
      else
        let s := resetMatches info body context s
        if result ≠ .NoMatch then return (result, b, s)
        else nonGreedyBacktrack call info body fuel b s
    else nonGreedyBacktrack call info body fuel b s
end

/-! ## The dot-star enclosure -/

/-- The first loop of `matchDotStarEnclosure`: back to the start of the line, but not beyond
`startOffset`. -/
def lineBegin (e : Env) : ℕ → Except Violation ℕ
  | 0 => do
    let ch ← e.reread 0
    return if testCharacterClass e.newlineCharacterClass ch then 1 else 0
  | n + 1 => do
    let ch ← e.reread (n + 1)
    if testCharacterClass e.newlineCharacterClass ch then return n + 2
    else if n + 1 = e.startOffset then return n + 1
    else lineBegin e n

/-- The second loop: on to the end of the line, with `n` code units left. -/
def lineEnd (e : Env) : ℕ → ℕ → Except Violation ℕ
  | 0, matchEnd => .ok matchEnd
  | n + 1, matchEnd => do
    let ch ← e.reread matchEnd
    if testCharacterClass e.newlineCharacterClass ch then return matchEnd
    else lineEnd e n (matchEnd + 1)

/-- `matchDotStarEnclosure`: the widened match, if its anchors hold. -/
def matchDotStarEnclosure (e : Env) (m_bol m_eol : Bool) (matchBegin pos : ℕ) :
    Except Violation (Option (ℕ × ℕ)) :=
  if e.dotAll then .ok (some (e.startOffset, e.length))
  else do
    let matchBegin ← if matchBegin > e.startOffset then lineBegin e (matchBegin - 1)
      else .ok matchBegin
    let matchEnd ← lineEnd e (e.length - pos) pos
    if ((matchBegin ≠ 0 ∧ m_bol) ∨ (matchEnd ≠ e.length ∧ m_eol)) ∧ ¬ e.multiline then
      return none
    else return some (matchBegin, matchEnd)

/-! ## Steps -/

/-- The two labels of `matchDisjunction`. -/
inductive Direction
  | matchAgain
  | backtrack
  deriving DecidableEq, Repr

structure Config where
  direction : Direction
  context : DisjunctionContext
  state : State

inductive Next
  | goto (config : Config)
  | done (result : JSRegExpResult) (context : DisjunctionContext) (state : State)

/-- `MATCH_NEXT()`. -/
def matchNext (c : DisjunctionContext) (s : State) : Except Stop Next :=
  .ok (.goto ⟨.matchAgain, c.setTerm (c.term + 1), s⟩)

/-- `BACKTRACK()`. -/
def backtrackFrom (c : DisjunctionContext) (s : State) : Except Stop Next :=
  if c.term = 0 then .error (.violation .noTerm)
  else .ok (.goto ⟨.backtrack, c.setTerm (c.term - 1), s⟩)

/-- `MATCH_NEXT()` or `BACKTRACK()`. -/
def matchNextIf (matched : Bool) (c : DisjunctionContext) (s : State) : Except Stop Next :=
  if matched then matchNext c s else backtrackFrom c s

/-- The two slots of a group. -/
def setCaptureBegin (info : ParenthesesInfo) (s : State) : State :=
  if info.capture then
    s.withOutput (setOutput s.output (info.subpatternId * 2) (u32Sub s.pos info.inputPosition))
  else s

def setCaptureEnd (info : ParenthesesInfo) (s : State) : State :=
  if info.capture then
    s.withOutput (setOutput s.output (info.subpatternId * 2 + 1) (u32Sub s.pos info.inputPosition))
  else s

def resetCapture (info : ParenthesesInfo) (s : State) : State :=
  if info.capture then
    s.withOutput (setOutput (setOutput s.output (info.subpatternId * 2) offsetNoMatch)
      (info.subpatternId * 2 + 1) offsetNoMatch)
  else s

/-- What follows the code of a quantified group. -/
def afterGroup (loc : ℕ) (c : DisjunctionContext) :
    GroupResult → Except Stop Next
  | (result, b, s) =>
    let c := c.setFrame (writeBackTrackInfoParentheses c.frame loc b)
    match result with
    | .Match => matchNext c s
    | .NoMatch => backtrackFrom c s
    | result => .ok (.done result c s)

section
variable (m : Machine) (call : Call) (fuel : ℕ) (disjunction : ByteDisjunction)

/-- The `switch` after `matchAgain`. -/
def matchAgain (c : DisjunctionContext) (s : State) : ByteTerm → Except Stop Next
  | .subpatternBegin => matchNext c s
  | .subpatternEnd => .ok (.done .Match (c.setMatchEnd s.pos) s)
  | .bodyAlternativeBegin _ => matchNext c s
  | .bodyAlternativeDisjunction _ => .ok (.done .Match (c.setMatchEnd s.pos) s)
  | .bodyAlternativeEnd _ => .ok (.done .Match (c.setMatchEnd s.pos) s)
  | .alternativeBegin _ => matchNext c s
  | .alternativeDisjunction a =>
    matchNext ((c.setFrame (c.frame.setWord a.frameLocation a.end_)).setTerm (c.term + a.end_)) s
  | .alternativeEnd a =>
    matchNext ((c.setFrame (c.frame.setWord a.frameLocation a.end_)).setTerm (c.term + a.end_)) s
  | .parenthesesSubpattern info body => do
    let result ← matchParentheses m call info body fuel s
    afterGroup info.frameLocation c result
  | .parenthesesSubpatternOnceBegin info width =>
    match info.quantityType with
    | .Greedy =>
      matchNext (c.setFrame (c.frame.setBegin info.frameLocation s.pos)) (setCaptureBegin info s)
    | .NonGreedy =>
      matchNext ((c.setFrame (c.frame.setBegin info.frameLocation notFound)).setTerm
        (c.term + width)) s
    | .FixedCount => matchNext c (setCaptureBegin info s)
  | .parenthesesSubpatternOnceEnd info _ =>
    matchNextIf (info.quantityType = .FixedCount || c.frame.begin info.frameLocation ≠ s.pos) c
      (setCaptureEnd info s)
  | .parenthesesSubpatternTerminalBegin info _ =>
    matchNext (c.setFrame (c.frame.setBegin info.frameLocation s.pos)) s
  | .parenthesesSubpatternTerminalEnd info width =>
    if c.frame.begin info.frameLocation = s.pos then backtrackFrom c s
    else matchNext (c.setTerm (c.term - (width + 1))) s
  | .parentheticalAssertionBegin _ loc _ => matchNext (c.setFrame (c.frame.setBegin loc s.pos)) s
  | .parentheticalAssertionEnd invert loc width =>
    let s := s.withPos (c.frame.begin loc)
    if invert then backtrackFrom (c.setTerm (c.term - width)) s else matchNext c s
  | .dotStarEnclosure m_bol m_eol => do
    match ← lift (matchDotStarEnclosure m.toEnv m_bol m_eol c.matchBegin s.pos) with
    | some (matchBegin, matchEnd) =>
      .ok (.done .Match ((c.setMatchBegin matchBegin).setMatchEnd matchEnd) s)
    | none => backtrackFrom c s
  | t => do
    let (ok, f, pos) ← lift (matchLeaf m.toEnv s.output c.frame s.pos t)
    matchNextIf ok (c.setFrame f) (s.withPos pos)

/-- The links of a body alternative. -/
def bodyAlternative : Option ByteTerm → Option AlternativeLinks
  | some (.bodyAlternativeBegin a) => some a
  | some (.bodyAlternativeDisjunction a) => some a
  | _ => none

/-- The next body alternative, or all of them again one position further on. -/
def nextBodyAlternative (a : AlternativeLinks) (c : DisjunctionContext) (s : State) :
    Except Stop Next :=
  let c := c.setTerm ((c.term : ℤ) + a.next).toNat
  if a.next > 0 then matchNext c s
  else if s.pos = m.length ∨ m.sticky then .ok (.done .NoMatch c s)
  else
    let s := s.withPos (s.pos + 1)
    let c := c.setMatchBegin s.pos
    match bodyAlternative disjunction.terms[c.term]? with
    | none => .error (.violation .noTerm)
    | some first =>
      if first.onceThrough then matchNext (c.setTerm ((c.term : ℤ) + first.next).toNat) s
      else matchNext c s

/-- The `switch` after `backtrack`. -/
def backtrack (c : DisjunctionContext) (s : State) : ByteTerm → Except Stop Next
  | .subpatternBegin => .ok (.done .NoMatch c s)
  | .subpatternEnd => .error (.violation .notReached)
  | .bodyAlternativeBegin a => nextBodyAlternative m disjunction a c s
  | .bodyAlternativeDisjunction a => nextBodyAlternative m disjunction a c s
  | .bodyAlternativeEnd _ => .error (.violation .notReached)
  | .alternativeBegin a =>
    let c := c.setTerm ((c.term : ℤ) + a.next).toNat
    if a.next > 0 then matchNext c s else backtrackFrom c s
  | .alternativeDisjunction a =>
    let c := c.setTerm ((c.term : ℤ) + a.next).toNat
    if a.next > 0 then matchNext c s else backtrackFrom c s
  | .alternativeEnd a => backtrackFrom (c.setTerm (c.term - c.frame.word a.frameLocation)) s
  | .parenthesesSubpattern info body => do
    let result ← backtrackParentheses m call info body fuel
      (readBackTrackInfoParentheses c.frame info.frameLocation) s
    afterGroup info.frameLocation c result
  | .parenthesesSubpatternOnceBegin info width =>
    let s := resetCapture info s
    match info.quantityType with
    | .Greedy =>
      matchNext ((c.setFrame (c.frame.setBegin info.frameLocation notFound)).setTerm
        (c.term + width)) s
    | _ => backtrackFrom c s
  | .parenthesesSubpatternOnceEnd info width =>
    if c.frame.begin info.frameLocation = notFound then
      match info.quantityType with
      | .Greedy => backtrackFrom (c.setTerm (c.term - width)) s
      | .NonGreedy =>
        matchNext ((c.setFrame (c.frame.setBegin info.frameLocation s.pos)).setTerm
          (c.term - width)) (setCaptureBegin info s)
      | .FixedCount => backtrackFrom c s
    else backtrackFrom c s
  | .parenthesesSubpatternTerminalBegin _ width => matchNext (c.setTerm (c.term + width)) s
  | .parenthesesSubpatternTerminalEnd _ _ => .error (.violation .notReached)
  | .parentheticalAssertionBegin invert _ width =>
    if invert then matchNext (c.setTerm (c.term + width)) s else backtrackFrom c s
  | .parentheticalAssertionEnd _ loc width =>
    backtrackFrom (c.setTerm (c.term - width)) (s.withPos (c.frame.begin loc))
  | .dotStarEnclosure _ _ => .error (.violation .notReached)
  | t => do
    let (ok, f, pos) ← lift (backtrackLeaf m.toEnv s.output c.frame s.pos t)
    matchNextIf ok (c.setFrame f) (s.withPos pos)

def step (config : Config) : Except Stop Next :=
  match disjunction.terms[config.context.term]? with
  | none => .error (.violation .noTerm)
  | some t =>
    match config.direction with
    | .matchAgain => matchAgain m call fuel config.context config.state t
    | .backtrack => backtrack m call fuel disjunction config.context config.state t

/-- Steps until the disjunction returns. -/
def run : ℕ → Config → Except Stop (JSRegExpResult × DisjunctionContext × State)
  | 0, _ => .error .outOfFuel
  | n + 1, config => do
    match ← step m call fuel disjunction config with
    | .goto config => run n config
    | .done result context state => return (result, context, state)
end

/-! ## Calls -/

/-- Where a call of `matchDisjunction` starts. -/
def entry (context : DisjunctionContext) (btrack : Bool) (s : State) : Except Stop Config :=
  if btrack then
    if context.term = 0 then .error (.violation .noTerm)
    else .ok ⟨.backtrack, context.setTerm (context.term - 1), s⟩
  else .ok ⟨.matchAgain, (context.setMatchBegin s.pos).setTerm 0, s⟩

/-- `matchDisjunction`, at a nesting depth. -/
def matchDisjunction (m : Machine) : ℕ → ℕ → Call
  | 0, _, _, _, _, _ => .error .outOfFuel
  | fuel + 1, depth, disjunction, context, btrack, s =>
    if !m.isSafeToRecurse depth then .ok (.ErrorNoMemory, context, s)
    else
      let s := { s with remainingMatchCount := u32Sub s.remainingMatchCount 1 }
      if s.remainingMatchCount = 0 then .ok (.ErrorHitLimit, context, s)
      else do
        let config ← entry context btrack s
        run m (matchDisjunction m fuel (depth + 1)) fuel disjunction fuel config

/-- The outcome of `interpret`: the returned position and the capture slots. -/
structure Outcome where
  result : JSRegExpResult
  output : Output

/-- Reset the start slot of every group. -/
def resetOutput (numSubpatterns : ℕ) (output : Output) : Output :=
  fun i => if i % 2 = 0 ∧ i / 2 < numSubpatterns + 1 then offsetNoMatch else output i

/-- `interpret()`: on a match, slots `0` and `1` hold its range. -/
def interpret (m : Machine) (body : ByteDisjunction) (output : Output) (fuel : ℕ) :
    Except Stop Outcome :=
  if !m.isAvailableInput m.startOffset 0 then .ok ⟨.NoMatch, output⟩
  else do
    let (result, context, s) ← matchDisjunction m fuel 0 body m.uninitialized false
      ⟨⟨m.startOffset, resetOutput body.m_numSubpatterns output⟩, matchLimit⟩
    if result = .Match then
      return ⟨.Match, setOutput (setOutput s.output 0 context.matchBegin) 1 context.matchEnd⟩
    else return ⟨result, s.output⟩

end JscAndroid.Yarr.Interpreter
