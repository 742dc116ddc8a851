import JscAndroid.Backtrack.Resumption
import JscAndroid.Yarr.Interpreter

/-!
# Quantified groups as resumable searches

What a quantified group does when it is entered and every time it is backtracked into, as a `Res`
over the position and the capture slots. The stack of contexts of the interpreter is gone: what an
iteration keeps in its context is here in the resumption.
-/

namespace JscAndroid.Yarr.Searches

open Backtrack.Resumption ByteCode InputStream Interpreter

/-- How a search ends without a result. -/
inductive Halt
  | noMemory
  | violation (v : Violation)
  | undefined

abbrev Search := Res Halt Snapshot

/-- Go on after an operation that may violate a check. -/
def after {α : Type} (x : Except Violation α) (f : α → Search) : Search :=
  match x with
  | .ok a => f a
  | .error v => .stop (.violation v)

/-- The same captures at another position. -/
def moveTo (s : Snapshot) (pos : ℕ) : Snapshot := ⟨pos, s.output⟩

@[simp] theorem moveTo_pos (s : Snapshot) (p : ℕ) : (moveTo s p).pos = p := rfl

/-- The same position with other captures. -/
def withOutput (s : Snapshot) (output : Output) : Snapshot := ⟨s.pos, output⟩

/-! ## Quantified groups -/

section
variable (info : ParenthesesInfo) (numSubpatterns : ℕ) (body : Snapshot → Search)

/-- The state in which an iteration enters the body: the captures of the group are reset. -/
def cleared (s : Snapshot) : Snapshot :=
  withOutput s (clearOutput info.subpatternId numSubpatterns s.output)

/-- The state after an iteration that was entered in `s` is undone in `t`. -/
def undone (s t : Snapshot) : Snapshot :=
  withOutput t (restoreOutput info.subpatternId numSubpatterns
    (saveOutput info.subpatternId s.output) t.output)

/-- Record the capture of the last iteration, given by its range. -/
def recorded (last : Option (ℕ × ℕ)) (s : Snapshot) : Snapshot :=
  match last with
  | none => s
  | some (begin, end_) =>
    if info.capture then
      withOutput s (setOutput
        (setOutput s.output (info.subpatternId * 2) (u32Sub begin info.inputPosition))
        (info.subpatternId * 2 + 1) (u32Sub end_ info.inputPosition))
    else s

/-- `matchNonZeroDisjunction`: only matches that do not end where the iteration began. -/
def nonZero (begin : ℕ) (r : Search) : Search := r.wrap id (fun t => t.pos ≠ begin) .fail

/-- One iteration as it stands on the stack: the state before it, where it ended, and the way back
into the body. -/
structure Iteration where
  entered : Snapshot
  matchEnd : ℕ
  resume : Snapshot → Search

/-- The range of the last iteration. -/
def lastRange : List Iteration → Option (ℕ × ℕ)
  | [] => none
  | i :: _ => some (i.entered.pos, i.matchEnd)

/-- `n` iterations and then `leaf`, which gets the stack of iterations; `below` is the way back
into the iterations before. -/
def fixedSearch (leaf : List Iteration → Snapshot → (Snapshot → Search) → Search) :
    ℕ → List Iteration → Snapshot → (Snapshot → Search) → Search
  | 0, stack, s, below => leaf stack s below
  | n + 1, stack, s, below =>
    (body (cleared info numSubpatterns s)).handle
      (fun s1 resume below1 => fixedSearch leaf n (⟨s, s1.pos, resume⟩ :: stack) s1 below1)
      fun t => below (undone info numSubpatterns s t)

/-- At most `n` further iterations, as many as possible first. -/
def greedySearch : ℕ → Option (ℕ × ℕ) → Snapshot → (Snapshot → Search) → Search
  | 0, last, s, below => .ok (recorded info last s) below
  | n + 1, last, s, below =>
    (nonZero s.pos (body (cleared info numSubpatterns s))).handle
      (fun s1 _ below1 => greedySearch n (some (s.pos, s1.pos)) s1 below1)
      fun t => .ok (recorded info last (undone info numSubpatterns s t)) below

/-- The way back into a stack of iterations of a greedy group whose number may not fall: only the
last iteration is entered again, and when it fails all of them are dropped. -/
def greedyBelow (begin : Snapshot) (n : ℕ) : List Iteration → Snapshot → Search
  | [], t => .fail t
  | i :: _, t =>
    (nonZero i.entered.pos (i.resume t)).handle
      (fun s1 _ below1 => greedySearch info numSubpatterns body n (some (i.entered.pos, s1.pos)) s1
        below1)
      fun t1 => .fail (moveTo (undone info numSubpatterns begin t1) begin.pos)

/-- At most `n` further iterations, as few as possible first. -/
def nonGreedySearch : ℕ → Option (ℕ × ℕ) → Snapshot → (Snapshot → Search) → Search
  | 0, last, s, below => .ok (recorded info last s) below
  | n + 1, last, s, below =>
    .ok (recorded info last s) fun t =>
      (nonZero t.pos (body (cleared info numSubpatterns t))).handle
        (fun s1 _ below1 => nonGreedySearch n (some (t.pos, s1.pos)) s1 below1)
        fun t1 => below (undone info numSubpatterns t t1)

/-- The way back into a stack of iterations of a non-greedy group: the last is entered again, when
it fails the one before it, and so on; after a success up to `n` plus the number of dropped
iterations may follow. -/
def nonGreedyBelow : ℕ → List Iteration → Snapshot → Search
  | _, [], t => .fail t
  | n, i :: stack, t =>
    (nonZero i.entered.pos (i.resume t)).handle
      (fun s1 _ below1 => nonGreedySearch info numSubpatterns body n (some (i.entered.pos, s1.pos))
        s1 below1)
      fun t1 => nonGreedyBelow (n + 1) stack (undone info numSubpatterns i.entered t1)

/-- What follows the minimum number of iterations of a group entered in `begin`. -/
def groupLeaf (begin : Snapshot) (stack : List Iteration) (s : Snapshot)
    (below : Snapshot → Search) : Search :=
  let more := info.quantityMaxCount - info.quantityMinCount
  match info.quantityType with
  | .FixedCount => .ok (recorded info (lastRange stack) s) below
  | .Greedy =>
    greedySearch info numSubpatterns body more (lastRange stack)
      (recorded info (lastRange stack) s) (greedyBelow info numSubpatterns body begin more stack)
  | .NonGreedy =>
    nonGreedySearch info numSubpatterns body more (lastRange stack) s
      (nonGreedyBelow info numSubpatterns body more stack)

/-- A quantified group around a body. -/
def groupSearch (s : Snapshot) : Search :=
  fixedSearch info numSubpatterns body (groupLeaf info numSubpatterns body s)
    info.quantityMinCount [] s .fail
end

end JscAndroid.Yarr.Searches
