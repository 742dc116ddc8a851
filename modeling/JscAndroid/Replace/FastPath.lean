import JscAndroid.Replace.Specification

/-!
# Where the fast path follows the specification

For a string and a regexp with its `lastIndex`, the fast path gives what the specification gives for
every matcher and every replacement exactly if a regexp that is sticky and not global has a
`lastIndex` that is 0 and can be written, and a string that a global Unicode regexp goes over has no
surrogate pairs.
-/

namespace JscAndroid.Replace

open Option
open Unicode.Encodings (IsLead IsTrail)

variable {results : List MatchResult} {next : MatchResult → ℕ}

section
variable {s : List ℕ} {rx : RegExpObject} {reg : RegExp} {matcher : ℕ → Option MatchResult}

/-- The matches that the specification replaces. -/
def specMatches (s : List ℕ) (rx : RegExpObject) (matcher : ℕ → Option MatchResult) :
    Option (List MatchResult) :=
  if rx.regExp.global then
    matchesFrom (nextIndex (advanceStringIndex s · rx.regExp.unicode)) matcher s.length
      (s.length + 2) 0
  else some (builtinMatch s rx.regExp matcher (toLength rx.lastIndex)).toList

theorem isPairAt_iff {i : ℕ} : isPairAt s i = true ↔ PairAt s i := by
  unfold isPairAt PairAt
  cases hl : s[i]? with
  | none => simp
  | some l =>
    cases ht : s[i + 1]? with
    | none => simp
    | some t => simp

/-- The specification sets `lastIndex` only where that is possible. -/
def Settable (rx : RegExpObject) : Prop :=
  (rx.regExp.global || rx.regExp.sticky) = true → rx.lastIndexIsWritable = true

theorem ordered_builtinMatch (h : Matches s reg matcher) (lastIndex : ℕ) :
    Ordered s reg 0 (builtinMatch s reg matcher lastIndex).toList := by
  unfold builtinMatch
  dsimp only
  generalize (if reg.global || reg.sticky then lastIndex else 0) = start
  split_ifs with hlong
  · trivial
  cases hmatch : matcher start with
  | none => trivial
  | some result => exact ⟨Nat.zero_le _, h.fits hmatch (not_lt.mp hlong), trivial⟩

/-- **The specification puts together the text** for the matches that it finds. -/
theorem regExpPrototypeReplace_eq (h : Matches s rx.regExp matcher) (hset : Settable rx)
    (replaceValue : List ℕ) : ∃ results, specMatches s rx matcher = some results ∧
      regExpPrototypeReplace s matcher rx replaceValue =
        .ok (assemble s (replacementText s rx.regExp replaceValue) 0 results) := by
  suffices hcollect : ∃ results start, specMatches s rx matcher = some results ∧
      Ordered s rx.regExp 0 results ∧ (if rx.regExp.global then setLastIndexOrThrow rx 0
        else pure (toLength rx.lastIndex)) = .ok start ∧
          collectResults s rx matcher (s.length + 2) start = .ok results by
    obtain ⟨results, start, hresults, hordered, hstart, hcollect⟩ := hcollect
    refine ⟨results, hresults, ?_⟩
    have htext : assemble s (replacementText s rx.regExp replaceValue) 0 results = _ :=
      (foldl_accumulate replaceValue hordered []).symm
    have hrest : regExpPrototypeReplace s matcher rx replaceValue =
        (collectResults s rx matcher (s.length + 2) start >>= fun results => .ok
          (let acc := results.foldl (accumulate s rx.regExp replaceValue) ([], 0)
          acc.1 ++ s.drop acc.2)) := by
      unfold regExpPrototypeReplace
      split_ifs at hstart ⊢ <;> exact congrArg (· >>= _) hstart
    rw [htext, hrest, hcollect]
    rfl
  unfold specMatches
  cases hglobal : rx.regExp.global with
  | true =>
    have hwritable := hset (by rw [hglobal]; rfl)
    have hfuel : s.length + 1 < s.length + 2 + 0 := by omega
    obtain ⟨results, hresults⟩ := matchesFrom_isSome h
      (lt_advanceStringIndex s rx.regExp.unicode) hfuel (by omega)
    refine ⟨results, 0, hresults, ordered_matchesFrom h (lt_advanceStringIndex s _) hresults, ?_,
      collectResults_global hglobal hwritable hresults⟩
    rw [if_pos rfl, setLastIndexOrThrow, if_pos hwritable]
  | false =>
    refine ⟨_, _, rfl, ordered_builtinMatch h _, rfl, ?_⟩
    have hexec : ∃ next, regExpBuiltinExec s rx matcher (toLength rx.lastIndex) =
        .ok (builtinMatch s rx.regExp matcher (toLength rx.lastIndex), next) := by
      unfold regExpBuiltinExec setLastIndexOrThrow
      split_ifs with huses hwritable
      · exact ⟨_, rfl⟩
      · exact absurd (hset huses) hwritable
      · exact ⟨_, rfl⟩
    obtain ⟨next, hexec⟩ := hexec
    rw [collectResults, hexec]
    cases builtinMatch s rx.regExp matcher (toLength rx.lastIndex) with
    | none => rfl
    | some result =>
      rw [hglobal]
      rfl

/-- The specification throws where it cannot set `lastIndex`. -/
theorem regExpPrototypeReplace_throws (h : ¬ Settable rx) (replaceValue : List ℕ) :
    regExpPrototypeReplace s matcher rx replaceValue =
      .error (.typeError ReadonlyPropertyWriteError) := by
  rw [Settable, Classical.not_imp, Bool.not_eq_true] at h
  have hthrow (n : ℕ) : setLastIndexOrThrow rx n =
      .error (.typeError ReadonlyPropertyWriteError) := by
    rw [setLastIndexOrThrow, h.2]
    rfl
  have hexec (n : ℕ) : regExpBuiltinExec s rx matcher n =
      .error (.typeError ReadonlyPropertyWriteError) := by
    rw [regExpBuiltinExec, if_pos h.1, hthrow]
    rfl
  unfold regExpPrototypeReplace
  split_ifs
  · rw [hthrow]
    rfl
  · show (collectResults s rx matcher (s.length + 1 + 1) _ >>= _) = _
    rw [collectResults, hexec]
    rfl

/-- The fast path gives what the specification gives, unless there is no memory for some text. -/
def Follows (s : List ℕ) (matcher : ℕ → Option MatchResult) (rx : RegExpObject)
    (replacement : List ℕ) : Prop :=
  regExpPrototypeReplace s matcher rx replacement ≠ .error .outOfRounds ∧
    ∀ search slow allocatable, hasObservableSideEffectsForStringReplace search = false →
      replace search slow allocatable s matcher rx replacement =
          regExpPrototypeReplace s matcher rx replacement ∨
        replace search slow allocatable s matcher rx replacement = .error .outOfMemory ∧
          ∃ text, allocatable text = false

/-- The fast path and the specification find the same matches. -/
theorem follows_of_matches (h : Matches s rx.regExp matcher) (hset : Settable rx)
    (hsame : codeMatches s rx.regExp matcher = specMatches s rx matcher) (replacement : List ℕ) :
    Follows s matcher rx replacement := by
  obtain ⟨results, hresults, hspec⟩ := regExpPrototypeReplace_eq h hset replacement
  rw [Follows, hspec]
  refine ⟨nofun, fun search slow allocatable hfast => ?_⟩
  rw [replace, hfast]
  refine (replaceUsingRegExpSearch_text h (fun hglobal => hset (by rw [hglobal]; rfl))
    (hsame.trans hresults) replacement).imp_left ?_
  rintro ⟨text, htext, rfl⟩
  exact htext

/-- A global regexp whose `lastIndex` cannot be written: both throw. -/
theorem follows_of_readonly (hglobal : rx.regExp.global = true)
    (hreadonly : rx.lastIndexIsWritable = false) (replacement : List ℕ) :
    Follows s matcher rx replacement := by
  have hnot : ¬ Settable rx := fun h => by
    rw [h (by rw [hglobal]; rfl)] at hreadonly
    cases hreadonly
  rw [Follows, regExpPrototypeReplace_throws hnot]
  refine ⟨nofun, fun search slow allocatable hfast => .inl ?_⟩
  unfold replace replaceUsingRegExpSearch RegExpObject.setLastIndex
  dsimp only
  rw [hfast, hglobal, hreadonly]
  rfl

/-- What the fast path gives if there is memory for all texts. -/
theorem text_of_follows (h : Matches s rx.regExp matcher)
    (hwritable : rx.regExp.global = true → rx.lastIndexIsWritable = true)
    {replacement : List ℕ} (hfollows : Follows s matcher rx replacement)
    (hcode : codeMatches s rx.regExp matcher = some results) :
    regExpPrototypeReplace s matcher rx replacement =
      .ok (assemble s (replacementText s rx.regExp replacement) 0 results) := by
  have hreplace := hfollows.2 ⟨true, true, true, true, true, true⟩ (.error .outOfMemory)
    (fun _ => true) rfl
  have htext : IsOrNoMemory (fun _ => true) _ _ :=
    replaceUsingRegExpSearch_text h hwritable hcode replacement
  rcases htext with ⟨text, heq, rfl⟩ | ⟨-, t, ht⟩
  swap
  · cases ht
  rcases hreplace with heq' | ⟨-, t, ht⟩
  swap
  · cases ht
  exact heq'.symm.trans heq

theorem assemble_eq_of_follows (h : Matches s rx.regExp matcher) (hset : Settable rx)
    {replacement : List ℕ} (hfollows : Follows s matcher rx replacement)
    {results' : List MatchResult} (hcode : codeMatches s rx.regExp matcher = some results)
    (hspec : specMatches s rx matcher = some results') :
    assemble s (replacementText s rx.regExp replacement) 0 results =
      assemble s (replacementText s rx.regExp replacement) 0 results' := by
  obtain ⟨results'', hresults'', hout⟩ := regExpPrototypeReplace_eq h hset replacement
  obtain rfl := some.inj (hspec.symm.trans hresults'')
  have htext := text_of_follows h (fun hglobal => hset (by rw [hglobal]; rfl)) hfollows hcode
  exact Except.ok.inj (htext.symm.trans hout)

/-! ## The two differences -/

/-- The fast path starts where the specification does, and advances as it does. -/
structure SafeInput (s : List ℕ) (rx : RegExpObject) : Prop where
  unicode : rx.regExp.global = true → rx.regExp.unicode = true → rx.lastIndexIsWritable = true →
    ∀ i, ¬ PairAt s i
  sticky : rx.regExp.global = false → rx.regExp.sticky = true →
    rx.lastIndexIsWritable = true ∧ toLength rx.lastIndex = 0

/-- The same for the run of one matcher: no empty match of the run stands before a surrogate pair,
and there is no match at 0 nor at `lastIndex` if they are different. -/
structure SafeMatcher (s : List ℕ) (rx : RegExpObject) (matcher : ℕ → Option MatchResult) :
    Prop where
  unicode : rx.regExp.global = true → rx.regExp.unicode = true → rx.lastIndexIsWritable = true →
    ∀ results, codeMatches s rx.regExp matcher = some results → ∀ result ∈ results,
      result.start = result.stop → ¬ PairAt s result.stop
  sticky : rx.regExp.global = false → rx.regExp.sticky = true → rx.lastIndexIsWritable = true ∧
    (toLength rx.lastIndex = 0 ∨ matcher 0 = none ∧
      (s.length < toLength rx.lastIndex ∨ matcher (toLength rx.lastIndex) = none))

theorem SafeInput.safeMatcher (h : SafeInput s rx)
    (matcher : ℕ → Option MatchResult) : SafeMatcher s rx matcher :=
  ⟨fun hglobal hunicode hwritable _ _ _ _ _ => h.unicode hglobal hunicode hwritable _,
    fun hglobal hsticky => (h.sticky hglobal hsticky).imp_right .inl⟩

theorem codeMatches_eq_specMatches (h : Matches s rx.regExp matcher)
    (hwritable : rx.regExp.global = true → rx.lastIndexIsWritable = true)
    (hsafe : SafeMatcher s rx matcher) :
    codeMatches s rx.regExp matcher = specMatches s rx matcher := by
  have hunicode := hsafe.unicode
  unfold codeMatches specMatches at *
  cases hglobal : rx.regExp.global with
  | true =>
    have hfuel : s.length + 1 < s.length + 2 + 0 := by omega
    obtain ⟨results, hresults⟩ := matchesFrom_isSome h Nat.lt_succ_self hfuel (by omega)
    refine hresults.trans (matchesFrom_congr hresults fun result hmem => ?_).symm
    unfold nextIndex
    split_ifs with hempty
    · unfold advanceStringIndex
      dsimp only
      rw [if_neg]
      rw [Bool.and_eq_true, isPairAt_iff]
      refine fun hpair => hunicode hglobal hpair.1 (hwritable hglobal) results ?_ result hmem hempty
        hpair.2
      rwa [if_pos hglobal]
    · rfl
  | false =>
    rw [builtinMatch, hglobal]
    cases hsticky : rx.regExp.sticky with
    | false => simp
    | true =>
      rcases (hsafe.sticky hglobal hsticky).2 with hzero | ⟨hnone, hlong | hnone'⟩
      · simp [hzero]
      · simp [hnone, hlong]
      · simp [hnone, hnone']

/-- A match without text before it, and without captures. -/
def plainMatch (reg : RegExp) (start stop : ℕ) : MatchResult :=
  ⟨start, stop, List.replicate reg.numSubpatterns none⟩

theorem nextIndex_plainMatch (advance : ℕ → ℕ) (reg : RegExp) (i : ℕ) :
    nextIndex advance (plainMatch reg i i) = advance i :=
  if_pos rfl

theorem fits_plainMatch {i j : ℕ} (hij : i ≤ j) (hj : j ≤ s.length) :
    (plainMatch reg i j).Fits reg s :=
  ⟨hij, hj, List.length_replicate⟩

theorem replacementText_plain (result : MatchResult) :
    replacementText s reg [0x58] result = [0x58] :=
  rfl

/-- The matcher that finds nothing but an empty match at the start. -/
def matchAtStart (reg : RegExp) (i : ℕ) : Option MatchResult :=
  if i = 0 then some (plainMatch reg 0 0) else none

theorem matches_matchAtStart (hnames : reg.NamesGroups) : Matches s reg (matchAtStart reg) := by
  have hsome : ∀ {i result}, matchAtStart reg i = some result →
      i = 0 ∧ result = plainMatch reg 0 0 := by
    intro i result h
    unfold matchAtStart at h
    split_ifs at h with hi
    exact ⟨hi, (some.inj h).symm⟩
  refine ⟨hnames, fun h _ => ?_, fun h _ => ?_, fun h _ _ => ?_⟩
  · rw [(hsome h).2]
    exact fits_plainMatch le_rfl (Nat.zero_le _)
  · rw [(hsome h).1]
    exact Nat.zero_le _
  · rw [(hsome h).1, (hsome h).2]
    rfl

section
variable (hnames : rx.regExp.NamesGroups) (h : ∀ matcher, Matches s rx.regExp matcher →
  ∀ replacement, Follows s matcher rx replacement)
include hnames h

theorem sticky_of_follows (hglobal : rx.regExp.global = false)
    (hsticky : rx.regExp.sticky = true) :
    rx.lastIndexIsWritable = true ∧ toLength rx.lastIndex = 0 := by
  have hmatches := matches_matchAtStart (s := s) hnames
  have hfollows := h _ hmatches [0x58]
  have hcode : codeMatches s rx.regExp (matchAtStart rx.regExp) =
      some [plainMatch rx.regExp 0 0] := by
    rw [codeMatches, hglobal]
    rfl
  have hset : Settable rx := by
    by_contra hnot
    have htext := text_of_follows hmatches (fun h => by rw [hglobal] at h; cases h) hfollows hcode
    rw [regExpPrototypeReplace_throws hnot] at htext
    cases htext
  refine ⟨hset (by rw [hsticky, Bool.or_true]), ?_⟩
  by_contra hne
  have hspec : specMatches s rx (matchAtStart rx.regExp) = some [] := by
    rw [specMatches, builtinMatch, hglobal, hsticky]
    simp [matchAtStart, hne]
  have heq := assemble_eq_of_follows hmatches hset hfollows hcode hspec
  have hlength := congrArg List.length heq
  simp [assemble, replacementText_plain, plainMatch, substring] at hlength

/-- The matcher that goes to an index, and finds two empty matches there. -/
def matchTwice (reg : RegExp) (p i : ℕ) : Option MatchResult :=
  if i < p then some (plainMatch reg i p)
  else if i ≤ p + 1 then some (plainMatch reg i i) else none

omit hnames h in
theorem matches_matchTwice (hnames : reg.NamesGroups) {p : ℕ} (hp : p + 1 ≤ s.length) :
    Matches s reg (matchTwice reg p) := by
  have hsome : ∀ {i result}, matchTwice reg p i = some result →
      ∃ j, result = plainMatch reg i j ∧ i ≤ j ∧ j ≤ p + 1 := by
    intro i result h
    unfold matchTwice at h
    split_ifs at h with hlt hle
    · exact ⟨p, (some.inj h).symm, hlt.le, Nat.le_succ p⟩
    · exact ⟨i, (some.inj h).symm, le_rfl, hle⟩
  refine ⟨hnames, fun h _ => ?_, fun h _ => ?_, fun h _ _ => ?_⟩
  · obtain ⟨j, rfl, hij, hj⟩ := hsome h
    exact fits_plainMatch hij (hj.trans hp)
  · obtain ⟨j, rfl, -, -⟩ := hsome h
    exact le_rfl
  · obtain ⟨j, rfl, -, -⟩ := hsome h
    rfl

omit hnames h in
theorem matchesFrom_of_none {length fuel i : ℕ} (h : matcher i = none) :
    matchesFrom next matcher length (fuel + 1) i = some [] := by
  rw [matchesFrom, h, ite_self]

omit hnames h in
theorem matchesFrom_of_some {length fuel i : ℕ} {result : MatchResult} (hi : i ≤ length)
    (h : matcher i = some result)
    (htail : matchesFrom next matcher length fuel (next result) = some results) :
    matchesFrom next matcher length (fuel + 1) i = some (result :: results) := by
  rw [matchesFrom, if_neg (not_lt.mpr hi), h]
  dsimp only
  rw [htail, map_some]

/-- With the match that goes to the index, if there is one. -/
def afterFirst (reg : RegExp) (p : ℕ) (results : List MatchResult) : List MatchResult :=
  if p = 0 then results else plainMatch reg 0 p :: results

omit hnames h in
theorem matchesFrom_matchTwice {advance : ℕ → ℕ} {p : ℕ} (hp : p + 1 < s.length)
    (htail : ∀ fuel, matchesFrom (nextIndex advance) (matchTwice reg p) s.length (fuel + 3) p =
      some results) : matchesFrom (nextIndex advance) (matchTwice reg p) s.length (s.length + 2) 0 =
      some (afterFirst reg p results) := by
  obtain ⟨n, hn⟩ : ∃ n, s.length = n + 2 := ⟨s.length - 2, by omega⟩
  unfold afterFirst
  split_ifs with hzero
  · have := htail (n + 1)
    rw [hzero] at this ⊢
    rwa [show s.length + 2 = n + 1 + 3 by omega]
  · have hfirst : matchTwice reg p 0 = some (plainMatch reg 0 p) := if_pos (by omega)
    have hnext : nextIndex advance (plainMatch reg 0 p) = p := if_neg fun h => hzero h.symm
    rw [show s.length + 2 = n + 3 + 1 by omega]
    refine matchesFrom_of_some (Nat.zero_le _) hfirst ?_
    rw [hnext]
    exact htail n

theorem unicode_of_follows (hglobal : rx.regExp.global = true)
    (hunicode : rx.regExp.unicode = true) (hwritable : rx.lastIndexIsWritable = true) (p : ℕ) :
    ¬ PairAt s p := by
  intro hpair
  set reg := rx.regExp with hreg
  have hp : p + 1 < s.length := by
    obtain ⟨l, t, -, ht, -⟩ := hpair
    exact (getElem?_eq_some_iff.mp ht).1
  have hmatches := matches_matchTwice hnames hp.le
  have hat : matchTwice reg p p = some (plainMatch reg p p) := by
    rw [matchTwice, if_neg (lt_irrefl p), if_pos (Nat.le_succ p)]
  have hafter : matchTwice reg p (p + 1) = some (plainMatch reg (p + 1) (p + 1)) := by
    rw [matchTwice, if_neg (by omega), if_pos le_rfl]
  have hend : matchTwice reg p (p + 2) = none := by
    rw [matchTwice, if_neg (by omega), if_neg (by omega)]
  have hcode : codeMatches s reg (matchTwice reg p) =
      some (afterFirst reg p [plainMatch reg p p, plainMatch reg (p + 1) (p + 1)]) := by
    rw [codeMatches, if_pos hglobal]
    refine matchesFrom_matchTwice hp fun fuel => ?_
    refine matchesFrom_of_some (by omega) hat ?_
    rw [nextIndex_plainMatch]
    refine matchesFrom_of_some hp.le hafter ?_
    rw [nextIndex_plainMatch]
    exact matchesFrom_of_none hend
  have hspec : specMatches s rx (matchTwice reg p) =
      some (afterFirst reg p [plainMatch reg p p]) := by
    rw [specMatches, if_pos hglobal]
    refine matchesFrom_matchTwice hp fun fuel => ?_
    refine matchesFrom_of_some (by omega) hat ?_
    have hadvance : advanceStringIndex s p reg.unicode = p + 2 := by
      rw [advanceStringIndex, hunicode, isPairAt_iff.mpr hpair]
      rfl
    rw [nextIndex_plainMatch, hadvance]
    exact matchesFrom_of_none hend
  have heq := assemble_eq_of_follows hmatches (fun _ => hwritable) (h _ hmatches [0x58]) hcode hspec
  have hlength := congrArg List.length heq
  unfold afterFirst at hlength
  split_ifs at hlength with hzero
  · simp [assemble, replacementText_plain, plainMatch, substring] at hlength
    omega
  · simp [assemble, replacementText_plain, plainMatch, substring] at hlength
    omega
end

/-- **The fast path follows the specification** for a matcher whose run is safe, and for every
matcher exactly if the input is safe. -/
theorem fastPath_follows_iff (s : List ℕ) (rx : RegExpObject) (hnames : rx.regExp.NamesGroups) :
    (∀ matcher, Matches s rx.regExp matcher → SafeMatcher s rx matcher →
      ∀ replacement, Follows s matcher rx replacement) ∧
    ((∀ matcher, Matches s rx.regExp matcher → ∀ replacement, Follows s matcher rx replacement) ↔
      SafeInput s rx) := by
  have hsafe : ∀ matcher, Matches s rx.regExp matcher → SafeMatcher s rx matcher →
      ∀ replacement, Follows s matcher rx replacement := by
    intro matcher hmatches hmatcher replacement
    by_cases hreadonly : rx.regExp.global = true ∧ rx.lastIndexIsWritable = false
    · exact follows_of_readonly hreadonly.1 hreadonly.2 replacement
    have hwritable : rx.regExp.global = true → rx.lastIndexIsWritable = true :=
      fun hglobal => by simpa [hglobal] using hreadonly
    refine follows_of_matches hmatches (fun huses => ?_)
      (codeMatches_eq_specMatches hmatches hwritable hmatcher) replacement
    cases hglobal : rx.regExp.global with
    | true => exact hwritable hglobal
    | false => exact (hmatcher.sticky hglobal (by simpa [hglobal] using huses)).1
  refine ⟨hsafe, fun h => ⟨?_, ?_⟩, fun h matcher hmatches => ?_⟩
  · exact fun hglobal hunicode => unicode_of_follows hnames h hglobal hunicode
  · exact sticky_of_follows hnames h
  · exact hsafe matcher hmatches (h.safeMatcher matcher)
end

/-- A global Unicode regexp with two groups, one of which has a name, on a string without surrogate
pairs. -/
theorem fastPath_follows_example :
    Follows [0x61, 0x62] (matchAtStart ⟨true, false, true, 2, [([0x6E], 2)]⟩)
      ⟨⟨true, false, true, 2, [([0x6E], 2)]⟩, 7, true⟩ [0x24, 0x26, 0x24, 0x3C, 0x6E, 0x3E] := by
  have hnames : RegExp.NamesGroups ⟨true, false, true, 2, [([0x6E], 2)]⟩ := by
    unfold RegExp.NamesGroups
    decide
  refine (fastPath_follows_iff [0x61, 0x62] ⟨⟨true, false, true, 2, [([0x6E], 2)]⟩, 7, true⟩
    hnames).2.mpr ⟨?_, ?_⟩ _ (matches_matchAtStart hnames) _
  · rintro - - - i ⟨l, t, hl, -, hlead, -⟩
    have hmem : l ∈ [0x61, 0x62] := List.mem_of_getElem? hl
    unfold IsLead at hlead
    simp only [List.mem_cons, List.not_mem_nil, or_false] at hmem
    omega
  · intro h
    cases h

/-- **Three inputs on which the fast path is wrong**: an empty Unicode regexp on a surrogate pair, a
sticky regexp for the letter `a` with a `lastIndex` of 1 on "ba", and a frozen one on "a". -/
theorem fastPath_splits_pairs_and_ignores_lastIndex :
    (replaceUsingRegExpSearch (fun _ => true) [0xD83D, 0xDE00] (fun i => some ⟨i, i, []⟩)
        ⟨⟨true, false, true, 0, []⟩, 0, true⟩ [0x2D]).1 =
          .ok [0x2D, 0xD83D, 0x2D, 0xDE00, 0x2D] ∧
      regExpPrototypeReplace [0xD83D, 0xDE00] (fun i => some ⟨i, i, []⟩)
        ⟨⟨true, false, true, 0, []⟩, 0, true⟩ [0x2D] = .ok [0x2D, 0xD83D, 0xDE00, 0x2D] ∧
      (replaceUsingRegExpSearch (fun _ => true) [0x62, 0x61]
        (fun i => if i = 1 then some ⟨1, 2, []⟩ else none)
        ⟨⟨false, true, false, 0, []⟩, 1, true⟩ [0x58]).1 = .ok [0x62, 0x61] ∧
      regExpPrototypeReplace [0x62, 0x61] (fun i => if i = 1 then some ⟨1, 2, []⟩ else none)
        ⟨⟨false, true, false, 0, []⟩, 1, true⟩ [0x58] = .ok [0x62, 0x58] ∧
      (replaceUsingRegExpSearch (fun _ => true) [0x61]
        (fun i => if i = 0 then some ⟨0, 1, []⟩ else none)
        ⟨⟨false, true, false, 0, []⟩, 0, false⟩ [0x58]).1 = .ok [0x58] ∧
      regExpPrototypeReplace [0x61] (fun i => if i = 0 then some ⟨0, 1, []⟩ else none)
        ⟨⟨false, true, false, 0, []⟩, 0, false⟩ [0x58] =
          .error (.typeError ReadonlyPropertyWriteError) :=
  ⟨rfl, by decide, rfl, by decide, rfl, rfl⟩

end JscAndroid.Replace
