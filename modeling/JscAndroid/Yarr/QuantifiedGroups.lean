import JscAndroid.Yarr.RepeatMatcher
import JscAndroid.Yarr.Emit

/-!
# Which quantifiers of a group enumerate the matches of the specification

For bounds `{0,max}` and `{n}` the matches that `matchParentheses` and the calls of
`backtrackParentheses` after it report are those of RepeatMatcher. With a minimum between zero and
the maximum, which groups get when the pattern copies them, only the last iteration of the minimum
is ever entered again, and matches are lost.
-/

namespace JscAndroid.Yarr.QuantifiedGroups

open Filter List
open Backtrack.Resumption Classes ByteCode InputStream Interpreter Searches Refinement Captures
open Groups RepeatMatcher Pattern Compile Emit

variable {min : ℕ} {s : Snapshot} {context : DisjunctionContext} {btrack : Bool}

/-! ## Statement -/

/-- The members of a group's term once it is quantified. -/
def quantified (info : ParenthesesInfo) (min max : ℕ) (greedy : Bool) : ParenthesesInfo :=
  { info with
    quantityType := if min = max then .FixedCount else variableType greedy
    quantityMinCount := min
    quantityMaxCount := max }

/-- The upper bound that the bounds of a quantifier stand for. -/
def upperBound (min max : ℕ) : ℕ∞ := if max = quantifyInfinite ∧ min ≠ max then ⊤ else max

/-- Calls on the body find the results of a matcher one after another, when the group is entered;
the body reads the captures in `Y` at most. -/
def Finds (m : Machine) (depth : ℕ) (Y : Set ℕ) (info : ParenthesesInfo) (body : ByteDisjunction)
    (E : Halt → Prop) (μ : Matcher m.length) : Prop :=
  ∃ search, Runs (nested m depth) body search ∧
    BodyFinds ∅ Y info body.m_numSubpatterns E search μ

/-- From the state `s`, the matches of the group are those of RepeatMatcher: with enough fuel the
sequence of calls ends, and what it reported agrees with the specification. -/
def GroupEnumerates (m : Machine) (depth : ℕ) (info : ParenthesesInfo) (body : ByteDisjunction)
    (E : Halt → Prop) (μ : Matcher m.length) (min max : ℕ) (greedy : Bool) (s : Snapshot) : Prop :=
  let term := quantified info min max greedy
  ∃ cost, ∀ c, ∃ found last,
    Settles (fun n => allMatches m depth term body n ⟨s, c⟩) (.ok (found, last)) ∧
    FindsAll E cost c (repeatMatcher term body.m_numSubpatterns (groupMatcher term μ) greedy min
      (upperBound min max) s) found last

/-- Every group with these bounds does, whatever its body and the state in which it is entered. -/
def AllGroupsEnumerate (min max : ℕ) (greedy : Bool) : Prop :=
  ∀ (m : Machine) (depth : ℕ) (Y : Set ℕ) (info : ParenthesesInfo) (body : ByteDisjunction)
    (E : Halt → Prop) (μ : Matcher m.length) (s : Snapshot), m.length ≤ UINT_MAX →
    (info.capture = true → 0 < body.m_numSubpatterns) → (∀ e, E e → e = .noMemory) →
    Finds m depth Y info body E μ → Entered info.inputPosition m.length Y s →
    GroupEnumerates m depth info body E μ min max greedy s

/-! ## Bounds that work -/

section
variable {m : Machine} {depth : ℕ} {info : ParenthesesInfo} {body : ByteDisjunction}

theorem allMatches_eq (c : ℕ) (s : Snapshot) :
    (fun n => allMatches m depth info body n ⟨s, c⟩) = fun n =>
      matchParentheses m (nested m depth n) info body n ⟨s, c⟩ >>=
        collect m (nested m depth) info body .all n := rfl

theorem ownId_subset (hcapture : info.capture = true → 0 < body.m_numSubpatterns) :
    ownId info ⊆ groupIds info body.m_numSubpatterns := by
  rintro n ⟨hc, rfl⟩
  have := hcapture hc
  exact ⟨le_rfl, by omega⟩

theorem upperBound_eq {max : ℕ} {len : ℕ} (hlen : len ≤ UINT_MAX) (hbounds : min = 0 ∨ min = max)
    (count : ℕ) (μ : Matcher len) (greedy : Bool) (s : Snapshot) :
    repeatMatcher info count μ greedy min (upperBound min max) s =
      repeatMatcher info count μ greedy min (max : ℕ) s := by
  unfold upperBound
  split_ifs with h
  · obtain ⟨rfl, hne⟩ := h
    obtain rfl : min = 0 := hbounds.resolve_right hne
    rw [repeatMatcher_top info count μ greedy quantifyInfinite]
    have : quantifyInfinite = UINT_MAX := rfl
    omega
  · rfl

/-- A group with bounds `{0,max}` or `{n}` finds the results of RepeatMatcher. -/
theorem groupEnumerates_of_bounds {E : Halt → Prop} {μ : Matcher m.length} {max : ℕ} {Y : Set ℕ}
    (hle : min ≤ max) (hbounds : min = 0 ∨ min = max) (greedy : Bool) (s : Snapshot)
    (hlen : m.length ≤ UINT_MAX) (hcapture : info.capture = true → 0 < body.m_numSubpatterns)
    (hE : ∀ e, E e → e = .noMemory) (hbody : Finds m depth Y info body E μ)
    (hs : Entered info.inputPosition m.length Y s) :
    GroupEnumerates m depth info body E μ min max greedy s := by
  obtain ⟨search, hruns, hfinds⟩ := hbody
  set info' := quantified info min max greedy with hinfo'
  have hfixed : info'.quantityType = .FixedCount → min = max := by
    intro h
    by_contra hne
    rw [hinfo'] at h
    unfold quantified variableType at h
    split_ifs at h
  have htype : info'.quantityType = .FixedCount ∨ (min = 0 ∧
      info'.quantityType = if greedy then .Greedy else .NonGreedy) := by
    by_cases heq : min = max
    · exact Or.inl (if_pos heq)
    · exact Or.inr ⟨hbounds.resolve_right heq, if_neg heq⟩
  have hown : ownId info' ⊆ groupIds info' body.m_numSubpatterns := ownId_subset hcapture
  have henum := enumerates_group hlen hown hfinds greedy htype hfixed hs (AgreeOff.refl ∅ s)
  refine ⟨(groupSearch info' body.m_numSubpatterns search s).cost, fun c => ?_⟩
  obtain ⟨found, last, hsettles, hall⟩ :=
    collect_settles hE (implements_group hruns hle hfixed s c) henum .all
  refine ⟨found, last, ?_, ?_⟩
  · exact hsettles
  · rwa [upperBound_eq hlen hbounds]
end

/-! ## A body that tells the other bounds apart

`(?:a|)` in front of `b` matches the first letter of `ab` or nothing. The `b` is checked before the
group is entered, so that positions count from 1. When the letter was taken first, every later
iteration of the minimum is empty, and the other match of the first one is lost. -/

section
/-- The input `ab`. -/
def twoLetters : Machine where
  input := [0x61, 0x62]
  startOffset := 0
  ignoreCase := false
  multiline := false
  sticky := false
  unicode := false
  dotAll := false
  newlineCharacterClass := ⟨[0xa, 0xd], [], [0x2028, 0x2029], [], ⟨true, false⟩, false⟩
  wordcharCharacterClass := ⟨[], [], [], [], ⟨false, false⟩, false⟩
  canonicalization := ⟨⟨[], []⟩, ⟨[], []⟩⟩
  isSafeToRecurse := fun _ => true
  uninitialized := .mk 0 0 0 fun _ => .word 0

/-- The code of `(?:a|)` in front of a character. -/
def optionalLetterBody : ByteDisjunction where
  terms :=
    [.subpatternBegin, .alternativeBegin ⟨3, 0, false, 4⟩, .checkInput 1,
      .patternCharacter 0x61 ⟨.FixedCount, 1⟩ ⟨2, 0⟩, .alternativeDisjunction ⟨-3, 1, false, 4⟩,
      .alternativeEnd ⟨0, 0, false, 4⟩, .subpatternEnd]
  m_numSubpatterns := 0
  m_frameSize := 5

/-- The group of `(?:a|)` in front of a character. -/
def optionalLetterInfo : ParenthesesInfo := ⟨1, false, 1, 0, .FixedCount, 1, 1⟩

/-- The empty match of the second alternative. -/
def emptyMatch (t : Snapshot) : Search := .ok t fun t' => .tick (.fail t')

/-- A call on the body that is entered again after it took the letter. -/
def letterAgain (t : Snapshot) : Search :=
  .tick (after (Env.uncheckInput t.pos 1) fun pos => emptyMatch (moveTo t pos))

/-- A call on the body: at the start the letter comes first, at the end of the input there is only
the empty match. The group is never entered in front of the character that is checked. -/
def letterSearch (s : Snapshot) : Search :=
  if s.pos = 0 then .stop .undefined
  else .tick (if s.pos = 1 then .ok (moveTo s 2) letterAgain else emptyMatch s)

theorem letterSearch_end (hs : 1 < s.pos) : letterSearch s = .tick (emptyMatch s) := by
  rw [letterSearch, if_neg (by omega), if_neg (by omega)]

theorem letterSearch_start (hs : s.pos = 1) :
    letterSearch s = .tick (.ok (moveTo s 2) letterAgain) := by
  rw [letterSearch, if_neg (by omega), if_pos hs]

theorem letterAgain_eq {t : Snapshot} (ht : t.pos = 2) :
    letterAgain t = .tick (emptyMatch (moveTo t 1)) := by
  rw [letterAgain, ht]
  rfl

/-! ### Running the body -/

theorem settles_of_add {α : Type} (k : ℕ) {x : Timed α} {v : Except Stop α}
    (h : ∀ n, x (n + k) = v) : Settles x v := by
  refine eventually_atTop.mpr ⟨k, fun n hn => ?_⟩
  rw [← Nat.sub_add_cancel hn]
  exact h (n - k)

theorem nested_succ {m : Machine} {depth c : ℕ} (hsafe : m.isSafeToRecurse depth = true)
    (d : ByteDisjunction) (context : DisjunctionContext) (btrack : Bool) (s : Snapshot) (n : ℕ) :
    nested m depth (n + 1) d context btrack ⟨s, c⟩ =
      if u32Sub c 1 = 0 then .ok (.ErrorHitLimit, context, ⟨s, u32Sub c 1⟩)
      else entry context btrack ⟨s, u32Sub c 1⟩ >>= run m (nested m (depth + 1) n) n d n := by
  show (if (!m.isSafeToRecurse depth) = true then _ else _) = _
  rw [hsafe, if_neg (by simp)]
  rfl

/-- A call on the body, from what it does within the match limit. -/
theorem implements_call {r : Search} {begin c : ℕ}
    (h : u32Sub c 1 ≠ 0 → Implements (reenter (nested twoLetters 1) optionalLetterBody)
      (Spans begin) r (u32Sub c 1) fun n => nested twoLetters 1 n optionalLetterBody context
        btrack ⟨s, c⟩) :
    Implements (reenter (nested twoLetters 1) optionalLetterBody) (Spans begin) (.tick r) c
      fun n => nested twoLetters 1 n optionalLetterBody context btrack ⟨s, c⟩ :=
  ⟨fun h0 => ⟨context, _, settles_of_add 1 fun _ => (nested_succ rfl ..).trans (if_pos h0)⟩, h⟩

theorem settles_of_run {c : ℕ} (hc : u32Sub c 1 ≠ 0) {v : Except Stop (Result DisjunctionContext)}
    (h : ∀ n, entry context btrack ⟨s, u32Sub c 1⟩ >>=
      run twoLetters (nested twoLetters 2 (n + 7)) (n + 7) optionalLetterBody (n + 7) = v) :
    Settles (fun n => nested twoLetters 1 n optionalLetterBody context btrack ⟨s, c⟩) v :=
  settles_of_add 8 fun n => ((nested_succ rfl ..).trans (if_neg hc)).trans (h n)

/-- The code after the second alternative was entered, when the frame records which one it was. -/
theorem implements_emptyMatch {t : Snapshot} {begin c : ℕ} (f : Frame)
    (h : Settles (fun n => nested twoLetters 1 n optionalLetterBody context btrack ⟨s, c⟩)
      (.ok (.Match, .mk 6 begin t.pos (f.setWord 4 0), ⟨t, u32Sub c 1⟩))) :
    Implements (reenter (nested twoLetters 1) optionalLetterBody) (Spans begin) (emptyMatch t)
      (u32Sub c 1) fun n => nested twoLetters 1 n optionalLetterBody context btrack ⟨s, c⟩ := by
  refine ⟨_, h, ⟨rfl, rfl⟩, fun _ t' c' => implements_call fun hc => ?_⟩
  refine ⟨.mk 0 begin t.pos (f.setWord 4 0), settles_of_run hc fun n => ?_⟩
  rfl

/-- **Calls on the body** carry out its search. -/
theorem runs_letterSearch : Runs (nested twoLetters 1) optionalLetterBody letterSearch := by
  rintro ⟨term, matchBegin, matchEnd, f⟩ s c
  unfold letterSearch
  split_ifs with hzero hs
  · trivial
  · refine implements_call fun hc => ?_
    obtain ⟨pos, output⟩ := s
    obtain rfl : pos = 1 := hs
    refine ⟨.mk 6 1 2 (Frame.setWord f 4 1), settles_of_run hc fun n => ?_, ⟨rfl, rfl⟩,
      fun _ t c' => implements_call fun hc' => ?_⟩
    · rfl
    · -- back through the letter to the second alternative
      obtain ⟨pos, output'⟩ := t
      cases pos with
      | zero =>
        exact settles_of_run hc' fun n => rfl
      | succ pos =>
        exact implements_emptyMatch (Frame.setWord f 4 1) (settles_of_run hc' fun n => rfl)
  · refine implements_call fun hc => implements_emptyMatch f (settles_of_run hc fun n => ?_)
    have hnone : twoLetters.toEnv.checkInput s.pos 1 = none := by
      rw [Env.checkInput, u32, if_neg]
      rintro ⟨h1, h2⟩
      have : twoLetters.toEnv.length = 2 := rfl
      omega
    have hstep : ∀ call fuel, step twoLetters call fuel optionalLetterBody
        ⟨.matchAgain, .mk 2 s.pos matchEnd f, ⟨s, u32Sub c 1⟩⟩ =
          .ok (.goto ⟨.backtrack, .mk 1 s.pos matchEnd f, ⟨s, u32Sub c 1⟩⟩) := by
      intro call fuel
      show (lift (matchLeaf twoLetters.toEnv s.output f s.pos (.checkInput 1)) >>= _) = _
      simp only [matchLeaf, hnone]
      rfl
    show (step twoLetters _ _ optionalLetterBody
      ⟨.matchAgain, .mk 2 s.pos matchEnd f, ⟨s, u32Sub c 1⟩⟩ >>= _) = _
    rw [hstep]
    rfl

/-- What the body matches. -/
def letterMatcher : Matcher twoLetters.length where
  results x := if x.pos = 1 then [moveTo x 2, x] else [x]
  advances := by
    intro s y hy
    split_ifs at hy with hs
    · rcases mem_pair.mp hy with rfl | rfl
      · exact Or.inr ⟨by rw [hs, moveTo_pos]; exact Nat.one_lt_two, le_rfl⟩
      · exact Or.inl rfl
    · exact Or.inl (congrArg _ (mem_singleton.mp hy))

theorem finds_letterMatcher :
    Finds twoLetters 1 ∅ optionalLetterInfo optionalLetterBody (fun _ => False) letterMatcher := by
  have hown : ∅ ∪ ownId optionalLetterInfo = ∅ := by
    simp [ownId, optionalLetterInfo]
  refine ⟨letterSearch, runs_letterSearch, fun s s' hentered _ hss' => ⟨?_, fun _ _ _ h => h.elim⟩⟩
  rw [hown] at hss' ⊢
  have hend : ∀ x t, AgreeOff ∅ s x → AgreeOff ∅ x t →
      AgreeOff (∅ ∪ groupIds optionalLetterInfo optionalLetterBody.m_numSubpatterns) s t :=
    fun x t hx ht => (hx.trans ht).mono (Set.empty_subset _)
  have hchecked : 1 ≤ s.pos := hentered.checked
  have hpos := hss'.pos
  by_cases hs : s.pos = 1
  · rw [letterSearch_start (by omega),
      show letterMatcher.results s = [moveTo s 2, s] from if_pos hs]
    refine ⟨moveTo s 2, [s], rfl, hss'.moveTo 2, fun t ht => ?_⟩
    rw [letterAgain_eq ht.pos.symm]
    have hback : AgreeOff ∅ s (moveTo t 1) :=
      ⟨hs, fun n hn => (hss'.captures n hn).trans (ht.captures n hn)⟩
    exact ⟨s, [], rfl, hback, fun t' ht' => ⟨rfl, hend _ t' hback ht'⟩⟩
  · rw [letterSearch_end (by omega), show letterMatcher.results s = [s] from if_neg hs]
    exact ⟨s, [], rfl, hss', fun t ht => ⟨rfl, hend s' t hss' ht⟩⟩

/-- The state in which the group is entered first. -/
def letterStart : Snapshot := ⟨1, fun _ => offsetNoMatch⟩

theorem entered_letterStart : Entered 1 twoLetters.length ∅ letterStart :=
  ⟨le_rfl, by decide, fun _ h => h.elim⟩

/-! ### What the group reports -/

variable (info : ParenthesesInfo)

theorem cleared_zero (s : Snapshot) : cleared info 0 s = s := by
  unfold cleared withOutput clearOutput
  have hout : (fun i => if inRange info.subpatternId 0 i then offsetNoMatch else s.output i) =
      s.output := funext fun i => if_neg (by unfold inRange; omega)
  rw [hout]

theorem undone_zero (s t : Snapshot) : undone info 0 s t = t := by
  unfold undone withOutput restoreOutput
  have hout : (fun i => if inRange info.subpatternId 0 i then
      saveOutput info.subpatternId s.output (i - info.subpatternId * 2) else t.output i) =
      t.output := funext fun i => if_neg (by unfold inRange; omega)
  rw [hout]

variable {info} in
theorem recorded_noncapturing (hcapture : info.capture = false) (last : Option (ℕ × ℕ))
    (s : Snapshot) : recorded info last s = s := by
  cases last with
  | none => rfl
  | some r => exact if_neg (by rw [hcapture]; decide)

/-- An iteration at the end of the input. -/
def emptyIteration (s : Snapshot) : Iteration := ⟨s, s.pos, fun t => .tick (.fail t)⟩

theorem fixedSearch_end (leaf : List Iteration → Snapshot → (Snapshot → Search) → Search) (n : ℕ)
    (stack : List Iteration) (hs : 1 < s.pos) (below : Snapshot → Search) :
    ∃ below', (fixedSearch info 0 letterSearch leaf n stack s below).found =
        (leaf (List.replicate n (emptyIteration s) ++ stack) s below').found ∧
      (fixedSearch info 0 letterSearch leaf n stack s below).cost =
        n + (leaf (List.replicate n (emptyIteration s) ++ stack) s below').cost := by
  induction n generalizing stack below with
  | zero => exact ⟨below, rfl, (zero_add _).symm⟩
  | succ n ih =>
    have hstep : ∃ below1, fixedSearch info 0 letterSearch leaf (n + 1) stack s below =
        .tick (fixedSearch info 0 letterSearch leaf n (emptyIteration s :: stack) s below1) := by
      refine ⟨fun t => .tick (below (undone info 0 s t)), ?_⟩
      show Res.handle _ _ (letterSearch (cleared info 0 s)) = _
      rw [cleared_zero, letterSearch_end hs]
      rfl
    obtain ⟨below1, hstep⟩ := hstep
    obtain ⟨below', hfound, hcost⟩ := ih (emptyIteration s :: stack) below1
    have hstack : replicate (n + 1) (emptyIteration s) ++ stack =
        replicate n (emptyIteration s) ++ emptyIteration s :: stack := by
      rw [replicate_succ', append_assoc]
      rfl
    refine ⟨below', ?_, ?_⟩
    · rwa [hstep, hstack]
    · rw [hstep, hstack]
      show Res.cost _ + 1 = _
      omega

/-- The first iteration, when it is entered again: its other match is empty. -/
def TookLetter (i : Iteration) : Prop :=
  ∀ t, t.pos = 2 → nonZero i.entered.pos (i.resume t) = .tick (.tick (.fail (moveTo t 1)))

theorem tookLetter_letterAgain (hs : s.pos = 1) : TookLetter ⟨s, 2, letterAgain⟩ := by
  intro t ht
  show nonZero s.pos (letterAgain t) = _
  rw [letterAgain_eq ht, hs]
  rfl

/-- Beyond the minimum there is no iteration at the end of the input. -/
theorem nonZero_end (hs : 1 < s.pos) :
    nonZero s.pos (letterSearch (cleared info 0 s)) = .tick (.tick (.fail s)) := by
  rw [cleared_zero, letterSearch_end hs]
  show Res.tick (if decide (s.pos ≠ s.pos) = true then _ else _) = _
  rw [if_neg (by simp)]
  rfl

variable {i : Iteration} (hi : TookLetter i) (hcapture : info.capture = false)
include hi

theorem greedyBelow_fails (begin : Snapshot) (k n : ℕ) {t : Snapshot} (ht : t.pos = 2) :
    (greedyBelow info 0 letterSearch begin k
      (List.replicate n (emptyIteration s) ++ [i]) t).found = some [] ∧
    (greedyBelow info 0 letterSearch begin k
      (List.replicate n (emptyIteration s) ++ [i]) t).cost ≤ 2 := by
  cases n with
  | zero =>
    show (Res.handle _ _ (nonZero i.entered.pos (i.resume t))).found = _ ∧
      (Res.handle _ _ (nonZero i.entered.pos (i.resume t))).cost ≤ 2
    rw [hi t ht]
    exact ⟨rfl, le_refl 2⟩
  | succ n => exact ⟨rfl, Nat.le_succ 1⟩

theorem nonGreedyBelow_fails (k n : ℕ) {t : Snapshot} (ht : t.pos = 2) :
    (nonGreedyBelow info 0 letterSearch k
      (List.replicate n (emptyIteration s) ++ [i]) t).found = some [] ∧
    (nonGreedyBelow info 0 letterSearch k
      (List.replicate n (emptyIteration s) ++ [i]) t).cost ≤ n + 2 := by
  induction n generalizing k t with
  | zero =>
    show (Res.handle _ _ (nonZero i.entered.pos (i.resume t))).found = _ ∧
      (Res.handle _ _ (nonZero i.entered.pos (i.resume t))).cost ≤ 0 + 2
    rw [hi t ht]
    exact ⟨rfl, le_refl 2⟩
  | succ n ih =>
    have hstep : nonGreedyBelow info 0 letterSearch k
        (replicate (n + 1) (emptyIteration s) ++ [i]) t =
        .tick (nonGreedyBelow info 0 letterSearch (k + 1)
          (replicate n (emptyIteration s) ++ [i]) (undone info 0 s t)) := rfl
    rw [hstep, undone_zero]
    obtain ⟨hfound, hcost⟩ := ih (k + 1) ht
    exact ⟨hfound, by show Res.cost _ + 1 ≤ _; omega⟩

include hcapture

/-- What follows the minimum: the letter is found, and nothing else. -/
theorem groupLeaf_found (more : ℕ)
    (hmore : info.quantityMaxCount - info.quantityMinCount = more + 1)
    (htype : info.quantityType ≠ .FixedCount) (begin : Snapshot) (n : ℕ) (hs : s.pos = 2)
    (below : Snapshot → Search) :
    (groupLeaf info 0 letterSearch begin (List.replicate n (emptyIteration s) ++ [i]) s
      below).found = some [s] ∧
    (groupLeaf info 0 letterSearch begin (List.replicate n (emptyIteration s) ++ [i]) s
      below).cost ≤ n + 4 := by
  have hs0 : 1 < s.pos := by omega
  simp only [groupLeaf, hmore, recorded_noncapturing hcapture]
  cases htype' : info.quantityType with
  | FixedCount => exact absurd htype' htype
  | Greedy =>
    obtain ⟨hfound, hcost⟩ := greedyBelow_fails info hi begin (more + 1) n hs
    have hstep : ∀ last below, greedySearch info 0 letterSearch (more + 1) last s below =
        .tick (.tick (.ok s below)) := by
      intro last below
      rw [greedySearch, nonZero_end info hs0]
      show Res.tick (Res.tick (Res.ok (recorded info last (undone info 0 s s)) below)) = _
      rw [recorded_noncapturing hcapture, undone_zero]
    simp only [hstep]
    refine ⟨?_, ?_⟩
    · show (Res.found _).map _ = _
      rw [hfound]
      rfl
    · show Res.cost (greedyBelow _ _ _ _ _ _ _) + 1 + 1 ≤ _
      omega
  | NonGreedy =>
    obtain ⟨hfound, hcost⟩ := nonGreedyBelow_fails info hi (more + 1) n hs
    have hstep : ∀ last below, ∃ again,
        nonGreedySearch info 0 letterSearch (more + 1) last s below = .ok s again ∧
          again s = .tick (.tick (below s)) := by
      intro last below
      rw [nonGreedySearch, recorded_noncapturing hcapture]
      refine ⟨_, rfl, ?_⟩
      rw [nonZero_end info hs0]
      show Res.tick (Res.tick (below (undone info 0 s s))) = _
      rw [undone_zero]
    obtain ⟨again, hsearch, hagain⟩ := hstep
      (lastRange (replicate n (emptyIteration s) ++ [i]))
      (nonGreedyBelow info 0 letterSearch (more + 1) (replicate n (emptyIteration s) ++ [i]))
    simp only [hsearch]
    refine ⟨?_, ?_⟩
    · show (Res.found (again s)).map _ = _
      rw [hagain]
      show (Res.found (nonGreedyBelow _ _ _ _ _ _)).map _ = _
      rw [hfound]
      rfl
    · show Res.cost (again s) ≤ _
      rw [hagain]
      show Res.cost (nonGreedyBelow _ _ _ _ _ _) + 1 + 1 ≤ _
      omega

omit hi in
/-- **The group** `(?:a|)` with a minimum below its maximum finds the letter only. -/
theorem groupSearch_found (hmin : info.quantityMinCount = min + 1)
    (hmax : info.quantityMinCount < info.quantityMaxCount) (htype : info.quantityType ≠ .FixedCount)
    (hs : s.pos = 1) : (groupSearch info 0 letterSearch s).found = some [moveTo s 2] ∧
      (groupSearch info 0 letterSearch s).cost ≤ 2 * min + 5 := by
  have hstep : ∃ below, groupSearch info 0 letterSearch s =
      .tick (fixedSearch info 0 letterSearch (groupLeaf info 0 letterSearch s) min
        [⟨s, 2, letterAgain⟩] (moveTo s 2) below) := by
    rw [groupSearch, hmin]
    show ∃ below, Res.handle _ _ (letterSearch (cleared info 0 s)) = _
    rw [cleared_zero, letterSearch_start hs]
    exact ⟨_, rfl⟩
  obtain ⟨below, hstep⟩ := hstep
  obtain ⟨below', hfound, hcost⟩ := fixedSearch_end info
    (groupLeaf info 0 letterSearch s) min [⟨s, 2, letterAgain⟩] (s := moveTo s 2) (by simp) below
  obtain ⟨hfound', hcost'⟩ := groupLeaf_found info (tookLetter_letterAgain hs) hcapture
    (info.quantityMaxCount - info.quantityMinCount - 1) (by omega) htype s min
    (s := moveTo s 2) rfl below'
  rw [hstep]
  refine ⟨?_, ?_⟩
  · show Res.found (fixedSearch _ _ _ _ _ _ _ _) = _
    rw [hfound, hfound']
  · show Res.cost (fixedSearch _ _ _ _ _ _ _ _) + 1 ≤ _
    omega

omit hi hcapture in
/-- RepeatMatcher always has a result for the body, which can match nothing. -/
theorem repeatMatcher_ne_nil (greedy : Bool) (min : ℕ) (max : ℕ∞) (x : Snapshot) :
    repeatMatcher info 0 (groupMatcher info letterMatcher) greedy min max x ≠ [] := by
  induction min generalizing max x with
  | zero =>
    rw [repeatMatcher_eq]
    split_ifs <;> simp_all
  | succ min ih =>
    rw [repeatMatcher_eq]
    by_cases h : max = 0
    · rw [if_pos h]
      simp
    · have hself : cleared info 0 x ∈ letterMatcher.results (cleared info 0 x) := by
        show _ ∈ if (cleared info 0 x).pos = 1 then _ else _
        split_ifs <;> simp
      rw [if_neg h, iterations_groupMatcher]
      intro hnil
      have hempty := flatMap_eq_nil_iff.mp hnil _ hself
      exact ih _ _ hempty

omit hi hcapture in
/-- From the start, it has a result for each of the two matches of the first iteration. -/
theorem two_le_length_repeatMatcher (greedy : Bool) (hmin : min ≠ 0) {max : ℕ∞} (hmax : max ≠ 0)
    {x : Snapshot} (hx : x.pos = 1) :
    2 ≤ (repeatMatcher info 0 (groupMatcher info letterMatcher) greedy min max x).length := by
  have hresults : letterMatcher.results (cleared info 0 x) = [moveTo x 2, x] := by
    rw [cleared_zero]
    exact if_pos hx
  rw [repeatMatcher_eq, if_neg hmax, if_pos hmin, iterations_groupMatcher, hresults]
  simp only [flatMap_cons, hmin, false_and, if_false, length_append]
  have h1 := length_pos_of_ne_nil (repeatMatcher_ne_nil info greedy (min - 1)
    (max - 1) (recorded info (some (x.pos, (moveTo x 2).pos)) (moveTo x 2)))
  have h2 := length_pos_of_ne_nil (repeatMatcher_ne_nil info greedy (min - 1)
    (max - 1) (recorded info (some (x.pos, x.pos)) x))
  omega
end

/-- The regular expression `(?:x){1,2}(?:a|){1,2}ab`: the quantifier of the first group copies it,
so that the second one keeps its bounds. -/
def afterCopy : Constructor :=
  ((((((((((Constructor.new ⟨false, false, false, false, false⟩ ⟨⟨[], []⟩, ⟨[], []⟩⟩)
    |>.atomParenthesesSubpatternBegin false)
    |>.atomPatternCharacter 0x78)
    |>.atomParenthesesEnd).quantifyAtom 1 2 true)
    |>.atomParenthesesSubpatternBegin false)
    |>.atomPatternCharacter 0x61)
    |>.disjunction).atomParenthesesEnd.quantifyAtom 1 2 true)
    |>.atomPatternCharacter 0x61).atomPatternCharacter 0x62

/-- The result of matching a regular expression at the start of an input. -/
def matchResult (p : Constructor) (input : List ℕ) (fuel : ℕ) : Option JSRegExpResult :=
  match compile p with
  | .error _ => none
  | .ok pattern =>
    match byteCompile ⟨false, id, id⟩ pattern with
    | .error _ => none
    | .ok body =>
      match interpret { twoLetters with input := input } body (fun _ => 0) fuel with
      | .error _ => none
      | .ok outcome => some outcome.result

/-- With a minimum between zero and the maximum a match of `(?:a|)` is lost. -/
theorem not_allGroupsEnumerate {max : ℕ} (hmin : min ≠ 0) (hlt : min < max)
    (hlimit : min < matchLimit) (greedy : Bool) : ¬ AllGroupsEnumerate min max greedy := by
  intro hall
  set s := letterStart
  obtain ⟨cost, hgroup⟩ := hall twoLetters 1 ∅ optionalLetterInfo optionalLetterBody
    (fun _ => False) letterMatcher s (by decide) nofun (fun _ h => h.elim) finds_letterMatcher
    entered_letterStart
  set term := quantified optionalLetterInfo min max greedy with hterm
  have htype : term.quantityType ≠ .FixedCount := by
    show (if min = max then QuantifierType.FixedCount else variableType greedy) ≠ _
    rw [if_neg (by omega)]
    cases greedy <;> decide
  obtain ⟨hfound, hcost⟩ := groupSearch_found term rfl
    (show min = min - 1 + 1 by omega) hlt htype (show s.pos = 1 from rfl)
  -- within the match limit the calls report one match
  obtain ⟨found, last, hsettles, hfinds⟩ := hgroup (2 ^ 32 - 1)
  have hone : Settles (fun n => allMatches twoLetters 1 term optionalLetterBody n ⟨s, 2 ^ 32 - 1⟩)
      (.ok ([moveTo s 2], .NoMatch)) := by
    have hruns : GroupImplements twoLetters (nested twoLetters 1) term optionalLetterBody
        (groupSearch term 0 letterSearch s) (2 ^ 32 - 1)
        fun n => matchParentheses twoLetters (nested twoLetters 1 n) term optionalLetterBody n
          ⟨s, 2 ^ 32 - 1⟩ :=
      implements_group runs_letterSearch hlt.le (fun h => absurd h htype) s (2 ^ 32 - 1)
    refine collect_found hruns hfound ?_ (by decide) .all
    unfold matchLimit at hlimit
    omega
  obtain ⟨n, hn, hn'⟩ := (hsettles.and hone).exists
  rw [hn] at hn'
  obtain ⟨rfl, rfl⟩ : found = [moveTo s 2] ∧ last = .NoMatch := by simpa using hn'
  -- the specification has at least two
  have hlength := (hfinds.complete rfl).length_eq
  have htwo := two_le_length_repeatMatcher term greedy hmin
    (show upperBound min max ≠ 0 by
      unfold upperBound
      split_ifs
      · simp
      · simp only [ne_eq, Nat.cast_eq_zero]; omega) (show s.pos = 1 from rfl)
  have : optionalLetterBody.m_numSubpatterns = 0 := rfl
  rw [this] at hlength
  simp only [length_singleton] at hlength
  omega

end JscAndroid.Yarr.QuantifiedGroups
