import JscAndroid.Replace.RegExpSearch
import JscAndroid.Unicode.Encodings

/-!
# `RegExp.prototype[@@replace]`, and how the fast path follows it

The specification collects all matches first and puts the result together then. The code does the
same if an empty match advances the start in the same way and the first match is looked for at the
same index: it always advances by one code unit, and it never reads `lastIndex`.
-/

namespace JscAndroid.Replace

open Unicode.Encodings (IsLead IsTrail)
open List Option

variable {advance : ℕ → ℕ} {results : List MatchResult} {ranges : List StringRange}
variable {separators : List (List ℕ)}

/-! ## The specification -/

/-- `ToLength`. -/
def toLength (n : ℤ) : ℕ := min n.toNat (2 ^ 53 - 1)

/-- There is a surrogate pair at this index. -/
def PairAt (s : List ℕ) (i : ℕ) : Prop := ∃ l t, s[i]? = some l ∧ s[i + 1]? = some t ∧
  IsLead l ∧ IsTrail t

/-- The code point at this index takes two code units. -/
def isPairAt (s : List ℕ) (i : ℕ) : Bool :=
  match s[i]?, s[i + 1]? with
  | some l, some t => IsLead l ∧ IsTrail t
  | _, _ => false

/-- `AdvanceStringIndex`. -/
def advanceStringIndex (s : List ℕ) (i : ℕ) (unicode : Bool) : ℕ :=
  if unicode && isPairAt s i then i + 2 else i + 1

/-- `Set(R, "lastIndex", lastIndex, true)`: it gives the new `lastIndex`. -/
def setLastIndexOrThrow (rx : RegExpObject) (lastIndex : ℕ) : Except Failure ℕ :=
  if rx.lastIndexIsWritable then .ok lastIndex
  else .error (.typeError ReadonlyPropertyWriteError)

/-- What `RegExpBuiltinExec` finds. -/
def builtinMatch (s : List ℕ) (reg : RegExp) (matcher : ℕ → Option MatchResult) (lastIndex : ℕ) :
    Option MatchResult :=
  let start := if reg.global || reg.sticky then lastIndex else 0
  if start > s.length then none else matcher start

/-- `RegExpBuiltinExec`: the match, and the new `lastIndex`. -/
def regExpBuiltinExec (s : List ℕ) (rx : RegExpObject) (matcher : ℕ → Option MatchResult)
    (lastIndex : ℕ) : Except Failure (Option MatchResult × ℕ) := do
  let result := builtinMatch s rx.regExp matcher lastIndex
  if rx.regExp.global || rx.regExp.sticky then
    return (result, ← setLastIndexOrThrow rx (result.elim 0 MatchResult.stop))
  else return (result, lastIndex)

/-- The loop that collects the results, with a bound on the rounds. -/
def collectResults (s : List ℕ) (rx : RegExpObject) (matcher : ℕ → Option MatchResult) :
    ℕ → ℕ → Except Failure (List MatchResult)
  | 0, _ => .error .outOfRounds
  | fuel + 1, lastIndex => do
    match ← regExpBuiltinExec s rx matcher lastIndex with
    | (none, _) => return []
    | (some result, lastIndex) =>
      if !rx.regExp.global then return [result]
      else
        let lastIndex ← if result.start = result.stop then
            setLastIndexOrThrow rx (advanceStringIndex s lastIndex rx.regExp.unicode)
          else pure lastIndex
        return result :: (← collectResults s rx matcher fuel lastIndex)

/-- One result is added to what is accumulated; the second component is `nextSourcePosition`. -/
def accumulate (s : List ℕ) (reg : RegExp) (replaceValue : List ℕ) (acc : List ℕ × ℕ)
    (result : MatchResult) : List ℕ × ℕ :=
  let position := min result.start s.length
  let replacement := getSubstitution (substitutionOf s reg result) replaceValue
  if position ≥ acc.2 then
    (acc.1 ++ substring s acc.2 (position - acc.2) ++ replacement,
      position + (result.stop - result.start))
  else acc

/-- `RegExp.prototype[@@replace]` for a string. -/
def regExpPrototypeReplace (s : List ℕ) (matcher : ℕ → Option MatchResult) (rx : RegExpObject)
    (replaceValue : List ℕ) : Except Failure (List ℕ) := do
  let lastIndex ← if rx.regExp.global then setLastIndexOrThrow rx 0
    else pure (toLength rx.lastIndex)
  let results ← collectResults s rx matcher (s.length + 2) lastIndex
  let acc := results.foldl (accumulate s rx.regExp replaceValue) ([], 0)
  return acc.1 ++ s.drop acc.2

/-- A matcher for a regexp and a string, as `RegExp::match` is one. -/
structure Matches (s : List ℕ) (reg : RegExp) (matcher : ℕ → Option MatchResult) : Prop where
  names : reg.NamesGroups
  fits : ∀ {i result}, matcher i = some result → i ≤ s.length → result.Fits reg s
  le_start : ∀ {i result}, matcher i = some result → i ≤ s.length → i ≤ result.start
  sticky : ∀ {i result}, matcher i = some result → i ≤ s.length → reg.sticky = true →
    result.start = i

/-! ## The matches of a run -/

/-- The matches from an index on, where `next` is the index after a match. -/
def matchesFrom (next : MatchResult → ℕ) (matcher : ℕ → Option MatchResult) (length : ℕ) :
    ℕ → ℕ → Option (List MatchResult)
  | 0, _ => none
  | fuel + 1, i =>
    if i > length then some []
    else
      match matcher i with
      | none => some []
      | some result => (matchesFrom next matcher length fuel (next result)).map (result :: ·)

/-- The index after a match, if an empty one advances by `advance`. -/
def nextIndex (advance : ℕ → ℕ) (result : MatchResult) : ℕ :=
  if result.start = result.stop then advance result.stop else result.stop

section
variable {s : List ℕ} {reg : RegExp} {matcher : ℕ → Option MatchResult}

theorem matchesFrom_isSome (h : Matches s reg matcher) (hadvance : ∀ i, i < advance i) {fuel i : ℕ}
    (hfuel : s.length + 1 < fuel + i) (hpos : 0 < fuel) :
    ∃ results, matchesFrom (nextIndex advance) matcher s.length fuel i = some results := by
  induction fuel generalizing i with
  | zero => omega
  | succ fuel ih =>
    unfold matchesFrom
    by_cases hi : i > s.length
    · exact ⟨[], if_pos hi⟩
    rw [if_neg hi]
    cases hmatch : matcher i with
    | none => exact ⟨[], rfl⟩
    | some result =>
      have hlt : i < nextIndex advance result := by
        have hle := h.le_start hmatch (not_lt.mp hi)
        have hstop := (h.fits hmatch (not_lt.mp hi)).start_le
        unfold nextIndex
        split_ifs with hempty
        · exact (hle.trans hstop).trans_lt (hadvance _)
        · omega
      obtain ⟨results, hresults⟩ := ih (i := nextIndex advance result) (by omega) (by omega)
      refine ⟨result :: results, ?_⟩
      dsimp only
      rw [hresults, map_some]

/-- Another way to advance gives the same run if it advances in the same way behind its matches. -/
theorem matchesFrom_congr {next next' : MatchResult → ℕ} {length fuel i : ℕ}
    (hresults : matchesFrom next matcher length fuel i = some results)
    (h : ∀ result ∈ results, next result = next' result) :
    matchesFrom next' matcher length fuel i = some results := by
  induction fuel generalizing i results with
  | zero => cases hresults
  | succ fuel ih =>
    unfold matchesFrom at hresults ⊢
    split_ifs at hresults ⊢ with hi
    · exact hresults
    cases hmatch : matcher i with
    | none =>
      rwa [hmatch] at hresults
    | some result =>
      rw [hmatch] at hresults
      obtain ⟨tail, htail, rfl⟩ := map_eq_some_iff.mp hresults
      rw [forall_mem_cons] at h
      rw [h.1] at htail
      dsimp only
      rw [ih htail h.2, map_some]

/-- The matches stand one after the other. -/
def Ordered (s : List ℕ) (reg : RegExp) : ℕ → List MatchResult → Prop
  | _, [] => True
  | i, result :: results =>
    i ≤ result.start ∧ result.Fits reg s ∧ Ordered s reg result.stop results

theorem Ordered.mono {i j : ℕ} (h : Ordered s reg j results) (hij : i ≤ j) :
    Ordered s reg i results := by
  cases results with
  | nil => trivial
  | cons result results => exact ⟨hij.trans h.1, h.2⟩

theorem ordered_matchesFrom (h : Matches s reg matcher) (hadvance : ∀ i, i < advance i) {fuel i : ℕ}
    (hresults : matchesFrom (nextIndex advance) matcher s.length fuel i = some results) :
    Ordered s reg i results := by
  induction fuel generalizing i results with
  | zero => cases hresults
  | succ fuel ih =>
    unfold matchesFrom at hresults
    split_ifs at hresults with hi
    · obtain rfl := some.inj hresults
      trivial
    cases hmatch : matcher i with
    | none =>
      rw [hmatch] at hresults
      obtain rfl := some.inj hresults
      trivial
    | some result =>
      rw [hmatch] at hresults
      obtain ⟨tail, htail, rfl⟩ := map_eq_some_iff.mp hresults
      refine ⟨h.le_start hmatch (not_lt.mp hi), h.fits hmatch (not_lt.mp hi), (ih htail).mono ?_⟩
      unfold nextIndex
      split_ifs
      · exact (hadvance _).le
      · exact le_rfl
end

/-! ## The text of a run -/

/-- The source from an index on, with the matches replaced. -/
def assemble (s : List ℕ) (replacement : MatchResult → List ℕ) : ℕ → List MatchResult → List ℕ
  | i, [] => s.drop i
  | i, result :: results =>
    substring s i (result.start - i) ++ (replacement result ++
      assemble s replacement result.stop results)

section
variable {s : List ℕ} {reg : RegExp} {matcher : ℕ → Option MatchResult}

theorem foldl_accumulate (replaceValue : List ℕ) {i : ℕ} (h : Ordered s reg i results)
    (acc : List ℕ) : (results.foldl (accumulate s reg replaceValue) (acc, i)).1 ++
      s.drop (results.foldl (accumulate s reg replaceValue) (acc, i)).2 =
    acc ++ assemble s (fun result => getSubstitution (substitutionOf s reg result) replaceValue) i
      results := by
  induction results generalizing i acc with
  | nil => rfl
  | cons result results ih =>
    obtain ⟨hle, hfits, hrest⟩ := h
    have hstart := hfits.start_le
    have hstop := hfits.stop_le
    have hstep : accumulate s reg replaceValue (acc, i) result =
        (acc ++ substring s i (result.start - i) ++
          getSubstitution (substitutionOf s reg result) replaceValue, result.stop) := by
      rw [accumulate, min_eq_left (hstart.trans hstop), if_pos hle, Nat.add_sub_cancel' hstart]
    rw [foldl_cons, hstep, ih hrest, assemble]
    simp only [append_assoc]

theorem collectResults_global {rx : RegExpObject} (hglobal : rx.regExp.global = true)
    (hwritable : rx.lastIndexIsWritable = true) {fuel i : ℕ}
    (hresults : matchesFrom (nextIndex (advanceStringIndex s · rx.regExp.unicode)) matcher s.length
      fuel i = some results) : collectResults s rx matcher fuel i = .ok results := by
  induction fuel generalizing i results with
  | zero => cases hresults
  | succ fuel ih =>
    unfold matchesFrom at hresults
    simp only [collectResults, regExpBuiltinExec, builtinMatch, setLastIndexOrThrow, hglobal,
      hwritable, Bool.true_or, if_true]
    split_ifs at hresults with hi
    · rw [if_pos hi, ← some.inj hresults]
      rfl
    rw [if_neg hi]
    cases hmatch : matcher i with
    | none =>
      rw [hmatch] at hresults
      rw [← some.inj hresults]
      rfl
    | some result =>
      rw [hmatch] at hresults
      obtain ⟨tail, htail, rfl⟩ := map_eq_some_iff.mp hresults
      have hrest := ih htail
      unfold nextIndex at hrest
      show (if result.start = result.stop then _ else _) = _
      split_ifs at hrest ⊢
      · exact congrArg (· >>= fun tail => .ok (result :: tail)) hrest
      · exact congrArg (· >>= fun tail => .ok (result :: tail)) hrest

theorem lt_advanceStringIndex (s : List ℕ) (unicode : Bool) (i : ℕ) :
    i < advanceStringIndex s i unicode := by
  unfold advanceStringIndex
  split_ifs <;> omega
end

/-! ## The text of the code -/

section
variable {allocatable : List ℕ → Bool} {source : List ℕ}

/-- The result is this text, or there is no memory for some text. -/
def IsOrNoMemory {α : Type} (allocatable : List ℕ → Bool) (outcome : Except Failure α)
    (good : α → Prop) : Prop :=
  (∃ a, outcome = .ok a ∧ good a) ∨
    outcome = .error .outOfMemory ∧ ∃ text, allocatable text = false

theorem isOrNoMemory_tryCreate (text : List ℕ) :
    IsOrNoMemory allocatable (tryCreate allocatable text) (· = text) := by
  unfold tryCreate
  cases h : allocatable text with
  | true => exact .inl ⟨text, rfl, rfl⟩
  | false => exact .inr ⟨rfl, text, h⟩

theorem text_of_length_eq_zero {range : StringRange} (h : range.length = 0) :
    range.text source = [] := by
  rw [StringRange.text, substring, h, take_zero]

theorem singleRange_eq (range : StringRange) : singleRange source range = range.text source := by
  unfold singleRange StringRange.text substring
  split_ifs with h
  · simp only [Bool.and_eq_true, decide_eq_true_eq, nonpos_iff_eq_zero] at h
    rw [h.1, drop_zero, take_of_length_le h.2]
  · rw [max_eq_right (Nat.zero_le _)]
    rcases le_total source.length range.length with hle | hle
    · rw [take_of_length_le (by rw [length_drop]; omega),
        take_of_length_le (by rw [length_drop]; omega)]
    · rw [min_eq_right hle]

theorem interleave_nil_right (ranges : List StringRange) :
    interleave source ranges [] = ranges.flatMap (StringRange.text source) := by
  cases ranges <;> rfl

theorem flatMap_text_eq_nil (h : (ranges.map StringRange.length).sum = 0) :
    ranges.flatMap (StringRange.text source) = [] := by
  rw [flatMap_eq_nil_iff]
  intro range hrange
  refine text_of_length_eq_zero ?_
  exact sum_eq_zero_iff.mp h _ (mem_map_of_mem hrange)

theorem interleave_eq_nil
    (h : (ranges.map StringRange.length).sum + (separators.map List.length).sum = 0) :
    interleave source ranges separators = [] := by
  fun_induction interleave source ranges separators with
  | case1 separators =>
    rw [flatten_eq_nil_iff]
    intro separator hseparator
    have := sum_eq_zero_iff.mp (Nat.add_eq_zero_iff.mp h).2 _ (mem_map_of_mem hseparator)
    exact length_eq_zero_iff.mp this
  | case2 ranges => exact flatMap_text_eq_nil (Nat.add_eq_zero_iff.mp h).1
  | case3 range ranges separator separators ih =>
    simp only [map_cons, sum_cons] at h
    have hseparator : separator = [] := length_eq_zero_iff.mp (by omega)
    rw [text_of_length_eq_zero (by omega), hseparator, ih (by omega)]
    rfl

theorem isOrNoMemory_splice (ranges : List StringRange) :
    IsOrNoMemory allocatable (jsSpliceSubstrings allocatable source ranges)
      (· = ranges.flatMap (StringRange.text source)) := by
  unfold jsSpliceSubstrings
  split
  · refine .inl ⟨_, rfl, ?_⟩
    rw [singleRange_eq, flatMap_singleton]
  · split_ifs with hsum
    · exact .inl ⟨[], rfl, (flatMap_text_eq_nil hsum).symm⟩
    · exact isOrNoMemory_tryCreate _

theorem isOrNoMemory_spliceWithSeparators (ranges : List StringRange) (separators : List (List ℕ)) :
    IsOrNoMemory allocatable (jsSpliceSubstringsWithSeparators allocatable source ranges separators)
      (· = interleave source ranges separators) := by
  unfold jsSpliceSubstringsWithSeparators
  split
  · refine .inl ⟨_, rfl, ?_⟩
    rw [singleRange_eq, interleave_nil_right, flatMap_singleton]
  · rename_i left right separator
    have : IsOrNoMemory allocatable _ _ :=
      isOrNoMemory_tryCreate (left.text source ++ (separator ++ right.text source))
    simpa [interleave] using this
  · split_ifs with hsum
    · exact .inl ⟨[], rfl, (interleave_eq_nil hsum).symm⟩
    · exact isOrNoMemory_tryCreate _

theorem interleave_append (h : ranges.length = separators.length) (ranges' : List StringRange)
    (separators' : List (List ℕ)) :
    interleave source (ranges ++ ranges') (separators ++ separators') =
      interleave source ranges separators ++ interleave source ranges' separators' := by
  induction ranges generalizing separators with
  | nil =>
    rw [length_nil, eq_comm, length_eq_zero_iff] at h
    rw [h]
    rfl
  | cons range ranges ih =>
    rcases separators with _ | ⟨separator, separators⟩
    · cases h
    rw [cons_append, cons_append, interleave, interleave, ih (by simpa using h)]
    simp only [append_assoc]

/-! ## The loops of the code -/

/-- The text that the ranges and the replacements of a state stand for. -/
def SearchState.text (source : List ℕ) (state : SearchState) : List ℕ :=
  interleave source state.sourceRanges state.replacements

/-- What a loop does with a match: the text before the match and its replacement are appended. -/
def Appends (allocatable : List ℕ → Bool) (source : List ℕ) (good : SearchState → Prop)
    (replacement : MatchResult → List ℕ) (reg : RegExp)
    (onMatch : SearchState → MatchResult → Except Failure SearchState) : Prop :=
  ∀ state result startPosition, good state → state.lastIndex ≤ result.start →
    result.Fits reg source → IsOrNoMemory allocatable (onMatch state result) fun state' =>
      good { state' with lastIndex := result.stop, startPosition } ∧
        state'.text source = state.text source ++
          (substring source state.lastIndex (result.start - state.lastIndex) ++ replacement result)

variable {reg : RegExp} {matcher : ℕ → Option MatchResult} {good : SearchState → Prop}
  {replacement : MatchResult → List ℕ}
  {onMatch : SearchState → MatchResult → Except Failure SearchState}

section
variable (happends : Appends allocatable source good replacement reg onMatch)
  (h : Matches source reg matcher)
include happends h

/-- **The loop of a global regexp**, which goes over the matches of a run. -/
theorem searchLoop_global {fuel : ℕ} {state : SearchState}
    (hresults : matchesFrom (nextIndex (· + 1)) matcher source.length fuel state.startPosition =
      some results) (hgood : good state) (hlast : state.lastIndex ≤ state.startPosition)
    (hstart : state.startPosition ≤ source.length) :
    IsOrNoMemory allocatable (searchLoop onMatch true source.length matcher fuel state)
      fun state' => good state' ∧ state'.text source ++ source.drop state'.lastIndex =
        state.text source ++ assemble source replacement state.lastIndex results := by
  induction fuel generalizing state results with
  | zero => cases hresults
  | succ fuel ih =>
    rw [matchesFrom, if_neg (not_lt.mpr hstart)] at hresults
    unfold searchLoop
    cases hmatch : matcher state.startPosition with
    | none =>
      rw [hmatch] at hresults
      obtain rfl := some.inj hresults
      exact .inl ⟨state, rfl, hgood, rfl⟩
    | some result =>
      rw [hmatch] at hresults
      obtain ⟨tail, htail, rfl⟩ := map_eq_some_iff.mp hresults
      have hfits := h.fits hmatch hstart
      have hle := h.le_start hmatch hstart
      have hnext : (if result.empty then result.stop + 1 else result.stop) =
          nextIndex (· + 1) result := by
        simp only [nextIndex, MatchResult.empty, decide_eq_true_eq]
      have hstop := hfits.stop_le
      rcases happends state result (nextIndex (· + 1) result) hgood (hlast.trans hle) hfits with
        ⟨state', hstate', hgood', htext⟩ | ⟨herror, hmemory⟩
      swap
      · refine .inr ⟨?_, hmemory⟩
        dsimp only
        rw [herror]
        rfl
      dsimp only
      rw [hstate', hnext]
      have hassemble : state.text source ++
          assemble source replacement state.lastIndex (result :: tail) =
          state'.text source ++ assemble source replacement result.stop tail := by
        rw [htext, assemble]
        simp only [append_assoc]
      rw [hassemble]
      by_cases hend : nextIndex (· + 1) result > source.length
      · -- only an empty match at the end goes beyond it
        have hempty : result.empty = true := by
          by_contra hnot
          rw [← hnext, if_neg hnot] at hend
          omega
        have htail' : tail = [] := by
          cases fuel with
          | zero => cases htail
          | succ fuel =>
            rw [matchesFrom, if_pos hend] at htail
            exact (some.inj htail).symm
        rw [hempty, decide_eq_true hend, htail']
        exact .inl ⟨_, rfl, hgood', rfl⟩
      · rw [decide_eq_false hend, Bool.and_false]
        refine ih htail hgood' ?_ (not_lt.mp hend)
        dsimp only
        rw [← hnext]
        split_ifs <;> omega

/-- **The single round of another regexp.** -/
theorem searchLoop_once (fuel : ℕ) {state : SearchState} (hgood : good state)
    (hlast : state.lastIndex ≤ state.startPosition) (hstart : state.startPosition ≤ source.length) :
    IsOrNoMemory allocatable (searchLoop onMatch false source.length matcher (fuel + 1) state)
      fun state' => good state' ∧ state'.text source ++ source.drop state'.lastIndex =
        state.text source ++ assemble source replacement state.lastIndex
          (matcher state.startPosition).toList := by
  unfold searchLoop
  cases hmatch : matcher state.startPosition with
  | none => exact .inl ⟨state, rfl, hgood, rfl⟩
  | some result =>
    have hfits := h.fits hmatch hstart
    have hle := h.le_start hmatch hstart
    rcases happends state result (if result.empty then result.stop + 1 else result.stop) hgood
      (hlast.trans hle) hfits with ⟨state', hstate', hgood', htext⟩ | ⟨herror, hmemory⟩
    swap
    · refine .inr ⟨?_, hmemory⟩
      dsimp only
      rw [herror]
      rfl
    refine .inl ⟨⟨result.stop, if result.empty then result.stop + 1 else result.stop,
      state'.sourceRanges, state'.replacements⟩, ?_, hgood', ?_⟩
    · dsimp only
      rw [hstate']
      exact ite_self _
    · change state'.text source ++ source.drop result.stop = _
      rw [htext]
      simp only [append_assoc]
      rfl
end

/-! ## What the loops do with a match -/

/-- The texts that go in place of the matches. -/
def replacementText (source : List ℕ) (reg : RegExp) (replacementString : List ℕ)
    (result : MatchResult) : List ℕ :=
  getSubstitution (substitutionOf source reg result) replacementString

theorem substring_eq_nil {i j : ℕ} (h : ¬ i < j) : substring source i (j - i) = [] := by
  rw [substring, Nat.sub_eq_zero_of_le (not_lt.mp h), take_zero]

/-- A state of the loop that removes the matches. -/
def Removing (state : SearchState) : Prop :=
  state.replacements = [] ∧ (state.lastIndex = 0 → state.sourceRanges = [])

theorem appends_removeMatch (reg : RegExp) :
    Appends allocatable source Removing (replacementText source reg []) reg removeMatch := by
  rintro ⟨lastIndex, start, ranges, replacements⟩ result startPosition ⟨hnone, hranges⟩ hle hfits
  have hstart := hfits.start_le
  subst hnone
  have hempty : replacementText source reg [] result = [] := rfl
  refine .inl ⟨_, rfl, ?_⟩
  rw [hempty, append_nil]
  by_cases hlt : lastIndex < result.start
  · rw [if_pos hlt]
    refine ⟨⟨rfl, fun hzero => absurd hzero (show result.stop ≠ 0 by omega)⟩, ?_⟩
    unfold SearchState.text
    rw [interleave_nil_right, interleave_nil_right, flatMap_append, flatMap_singleton]
    rfl
  · rw [if_neg hlt, substring_eq_nil hlt, append_nil]
    exact ⟨⟨rfl, fun hzero => hranges (by dsimp only at hzero; omega)⟩, rfl⟩

/-- A state of the loop that replaces the matches. -/
def Replacing (state : SearchState) : Prop :=
  state.sourceRanges.length = state.replacements.length

theorem isOrNoMemory_replacementOf (hreg : reg.NamesGroups) {result : MatchResult}
    (hfits : result.Fits reg source) (replacementString : List ℕ) :
    IsOrNoMemory allocatable (replacementOf allocatable source reg replacementString result)
      (· = replacementText source reg replacementString result) := by
  rw [replacementOf, substituteBackreferences_eq hreg hfits]
  split_ifs with hlength
  · exact isOrNoMemory_tryCreate _
  · rw [not_not, length_eq_zero_iff] at hlength
    rw [hlength]
    exact .inl ⟨[], rfl, rfl⟩

theorem appends_replaceMatch (hreg : reg.NamesGroups) (replacementString : List ℕ) :
    Appends allocatable source Replacing (replacementText source reg replacementString) reg
      (replaceMatch allocatable source reg replacementString) := by
  rintro ⟨lastIndex, start, ranges, replacements⟩ result startPosition hgood hle hfits
  unfold Replacing at hgood
  unfold replaceMatch
  by_cases hcond : (decide (lastIndex < result.start) || decide (replacementString.length ≠ 0)) =
      true
  · rw [if_pos hcond]
    rcases isOrNoMemory_replacementOf hreg hfits replacementString with
      ⟨text, htext, heq⟩ | ⟨herror, hmemory⟩
    swap
    · refine .inr ⟨?_, hmemory⟩
      rw [herror]
      rfl
    rw [htext]
    refine .inl ⟨_, rfl, ?_, ?_⟩
    · simp [Replacing, hgood]
    · unfold SearchState.text
      rw [interleave_append hgood, heq]
      simp [interleave, StringRange.text]
  · rw [if_neg hcond]
    simp only [Bool.or_eq_true, decide_eq_true_eq, not_or, not_not, length_eq_zero_iff] at hcond
    refine .inl ⟨_, rfl, hgood, ?_⟩
    rw [substring_eq_nil hcond.1, hcond.2]
    exact (append_nil _).symm

/-! ## The whole call -/

theorem IsOrNoMemory.bind {α β : Type} {outcome : Except Failure α} {good : α → Prop}
    {f : α → Except Failure β} {good' : β → Prop} (h : IsOrNoMemory allocatable outcome good)
    (hf : ∀ a, good a → IsOrNoMemory allocatable (f a) good') :
    IsOrNoMemory allocatable (outcome >>= f) good' := by
  rcases h with ⟨a, rfl, ha⟩ | ⟨rfl, hmemory⟩
  · exact hf a ha
  · exact .inr ⟨rfl, hmemory⟩

theorem IsOrNoMemory.of_eq {text text' : List ℕ} {outcome : Except Failure (List ℕ)}
    (h : IsOrNoMemory allocatable outcome (· = text)) (heq : text = text') :
    IsOrNoMemory allocatable outcome (· = text') :=
  heq ▸ h

theorem text_tail {i : ℕ} : StringRange.text source ⟨i, source.length - i⟩ = source.drop i := by
  rw [StringRange.text, substring, take_of_length_le (by rw [length_drop])]

theorem removeUsingRegExpSearch_text (h : Matches source reg matcher)
    (hresults : matchesFrom (nextIndex (· + 1)) matcher source.length (source.length + 2) 0 =
      some results) : IsOrNoMemory allocatable (removeUsingRegExpSearch allocatable source matcher)
      (· = assemble source (replacementText source reg []) 0 results) := by
  refine (searchLoop_global (appends_removeMatch reg) h hresults ⟨rfl, fun _ => rfl⟩
    le_rfl (Nat.zero_le _)).bind ?_
  rintro ⟨lastIndex, start, ranges, replacements⟩ ⟨⟨hnone, hranges⟩, htext⟩
  subst hnone
  rw [SearchState.text, interleave_nil_right] at htext
  split_ifs with hzero
  · rw [hranges hzero, hzero] at htext
    exact .inl ⟨source, rfl, htext⟩
  · refine (isOrNoMemory_splice _).of_eq ?_
    refine Eq.trans ?_ htext
    unfold SearchState.withTail
    split_ifs with hlt
    · rw [flatMap_append, flatMap_singleton, text_tail]
    · rw [drop_eq_nil_of_le (not_lt.mp hlt), append_nil]

/-- The matches that the code replaces. -/
def codeMatches (source : List ℕ) (reg : RegExp) (matcher : ℕ → Option MatchResult) :
    Option (List MatchResult) :=
  if reg.global then matchesFrom (nextIndex (· + 1)) matcher source.length (source.length + 2) 0
  else some (matcher 0).toList

/-- **The code puts together the text** for the matches that it finds. -/
theorem replaceUsingRegExpSearch_text {rx : RegExpObject} (h : Matches source rx.regExp matcher)
    (hwritable : rx.regExp.global = true → rx.lastIndexIsWritable = true)
    (hresults : codeMatches source rx.regExp matcher = some results)
    (replacementString : List ℕ) : IsOrNoMemory allocatable
      (replaceUsingRegExpSearch allocatable source matcher rx replacementString).1
      (· = assemble source (replacementText source rx.regExp replacementString) 0 results) := by
  obtain ⟨rx', hset⟩ : ∃ rx',
      (if rx.regExp.global then rx.setLastIndex 0 else .ok rx) = .ok rx' := by
    unfold RegExpObject.setLastIndex
    split_ifs with hglobal hnot
    · exact ⟨_, rfl⟩
    · exact absurd (hwritable hglobal) hnot
    · exact ⟨_, rfl⟩
  simp only [replaceUsingRegExpSearch, hset]
  generalize rx.regExp = reg at h hresults
  by_cases hremove : (reg.global && decide (replacementString.length = 0)) = true
  · rw [if_pos hremove]
    simp only [Bool.and_eq_true, decide_eq_true_eq, length_eq_zero_iff] at hremove
    rw [codeMatches, if_pos hremove.1] at hresults
    rw [hremove.2]
    exact removeUsingRegExpSearch_text h hresults
  rw [if_neg hremove]
  have hloop : IsOrNoMemory allocatable
      (searchLoop (replaceMatch allocatable source reg replacementString) reg.global source.length
        matcher (source.length + 2) {})
      fun state => Replacing state ∧ state.text source ++ source.drop state.lastIndex =
        assemble source (replacementText source reg replacementString) 0 results := by
    have happends : Appends allocatable source _ _ _ _ :=
      appends_replaceMatch h.names replacementString
    unfold codeMatches at hresults
    cases hglobal : reg.global with
    | true =>
      rw [hglobal] at hresults
      exact searchLoop_global happends h hresults rfl le_rfl (Nat.zero_le _)
    | false =>
      rw [hglobal] at hresults
      obtain rfl := some.inj hresults
      exact searchLoop_once happends h _ rfl le_rfl (Nat.zero_le _)
  refine hloop.bind ?_
  rintro ⟨lastIndex, start, ranges, replacements⟩ ⟨hgood, htext⟩
  unfold Replacing at hgood
  unfold SearchState.text at htext
  split_ifs with hnothing
  · simp only [Bool.and_eq_true, decide_eq_true_eq, List.isEmpty_iff] at hnothing
    obtain ⟨rfl, rfl⟩ := hnothing
    rw [length_nil, length_eq_zero_iff] at hgood
    rw [hgood] at htext
    exact .inl ⟨source, rfl, htext⟩
  · refine (isOrNoMemory_spliceWithSeparators _ _).of_eq ?_
    refine Eq.trans ?_ htext
    unfold SearchState.withTail
    split_ifs with hlt
    · have happend : interleave source _ (replacements ++ []) = _ :=
        interleave_append hgood [⟨lastIndex, source.length - lastIndex⟩] []
      rw [append_nil] at happend
      rw [happend, interleave_nil_right, flatMap_singleton, text_tail]
    · rw [drop_eq_nil_of_le (not_lt.mp hlt), append_nil]
end

end JscAndroid.Replace
