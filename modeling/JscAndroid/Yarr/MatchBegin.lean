import JscAndroid.Yarr.BackReferences
import JscAndroid.Yarr.QuantifiedGroups

/-!
# Where a match begins

When no body alternative matches, all of them are tried again one code unit further on, also in
Unicode patterns: the next attempt then starts at the second half of a surrogate pair, and a first
term that accepts a lone trail surrogate matches there. The search is a sequence of such attempts.
-/

namespace JscAndroid.Yarr.MatchBegin

open Classes ByteCode InputStream Interpreter QuantifiedGroups Pattern Compile Emit
open BackReferences (bind_ok)

variable {ch : UChar32} {t : ByteTerm} {a : AlternativeLinks}

/-- Between the two halves of a surrogate pair. -/
def Inside (e : Env) (p : ℕ) : Prop := 0 < p ∧ e.pairAt (p - 1) = true

instance (e : Env) (p : ℕ) : Decidable (Inside e p) := by unfold Inside; infer_instance

/-! ## Attempts -/

section
variable (m : Machine) (call : Call) (fuel : ℕ) (body : ByteDisjunction)

/-- The last alternative has failed: all of them are tried again. -/
def StartsAgain (config : Config) : Prop :=
  config.direction = .backtrack ∧
    ∃ a, bodyAlternative body.terms[config.context.term]? = some a ∧ a.next ≤ 0

/-- An attempt leads from its start to a configuration. -/
inductive Attempt (start : Config) : Config → Prop
  | start : Attempt start start
  | step {config next : Config} (h : Attempt start config) (hsame : ¬ StartsAgain body config)
      (hstep : step m call fuel body config = .ok (.goto next)) : Attempt start next

/-- A search makes an attempt from a configuration. -/
inductive Search (first : Config) : Config → Prop
  | first : Search first first
  | again {start config next : Config} (h : Search first start)
      (hattempt : Attempt m call fuel body start config) (hagain : StartsAgain body config)
      (hstep : step m call fuel body config = .ok (.goto next)) : Search first next

/-- No attempt that the search makes at the second half of a pair finds a match there. -/
def FailsInside (first : Config) : Prop :=
  ∀ start config context s, Search m call fuel body first start →
    Inside m.toEnv start.context.matchBegin → Attempt m call fuel body start config →
    step m call fuel body config = .ok (.done .Match context s) →
    context.matchBegin ≠ start.context.matchBegin
end

/-! ## The dot-star enclosure -/

section
variable {e : Env} {p : ℕ}

/-- No line terminator is a supplementary character. -/
def PlainNewlines (e : Env) : Prop :=
  ∀ ch, isBMP ch = false → testCharacterClass e.newlineCharacterClass ch = false

theorem not_inside_of_newline (hunicode : e.unicode = true) (hplain : PlainNewlines e)
    (hread : e.reread p = .ok ch) (hch : testCharacterClass e.newlineCharacterClass ch = true) :
    ¬ Inside e (p + 1) := by
  rintro ⟨-, hpair⟩
  rw [Nat.add_sub_cancel] at hpair
  rw [Env.reread, hunicode, hpair] at hread
  split_ifs at hread with h1 h2
  · injection hread with hread
    have hbmp : isBMP ch = false := by
      rw [← hread]
      exact decide_eq_false (not_lt.mpr (Nat.le_add_left _ _))
    rw [hplain ch hbmp] at hch
    cases hch
  · exact h2 rfl

/-- The first loop stops after a line terminator, or at an end of the search. -/
theorem not_inside_of_lineBegin {b : ℕ} (hunicode : e.unicode = true) (hplain : PlainNewlines e)
    (hstart : ¬ Inside e e.startOffset) : ∀ p, lineBegin e p = .ok b → ¬ Inside e b
  | 0, h => by
    obtain ⟨ch, hread, h⟩ := bind_ok.mp h
    injection h with h
    rw [← h]
    split_ifs with hch
    · exact not_inside_of_newline hunicode hplain hread hch
    · rintro ⟨hlt, -⟩
      exact absurd hlt (lt_irrefl 0)
  | p + 1, h => by
    obtain ⟨ch, hread, h⟩ := bind_ok.mp h
    split_ifs at h with hch hstop
    · injection h with h
      rw [← h]
      exact not_inside_of_newline hunicode hplain hread hch
    · injection h with h
      rw [← h, hstop]
      exact hstart
    · exact not_inside_of_lineBegin hunicode hplain hstart p h

theorem not_inside_of_dotStar {bol eol : Bool} {pos b b' last : ℕ} (hunicode : e.unicode = true)
    (hplain : PlainNewlines e) (hstart : ¬ Inside e e.startOffset)
    (h : matchDotStarEnclosure e bol eol b pos = .ok (some (b', last))) :
    b' = b ∨ ¬ Inside e b' := by
  unfold matchDotStarEnclosure at h
  by_cases hall : e.dotAll = true
  · rw [if_pos hall] at h
    cases h
    exact .inr hstart
  · have hrest : ∀ begin, (do
        let matchEnd ← lineEnd e (e.length - pos) pos
        if ((begin ≠ 0 ∧ bol) ∨ (matchEnd ≠ e.length ∧ eol)) ∧ ¬ e.multiline then return none
        else return some (begin, matchEnd)) = Except.ok (ε := Violation) (some (b', last)) →
        begin = b' := by
      intro begin h
      obtain ⟨matchEnd, -, h⟩ := bind_ok.mp h
      split_ifs at h
      · cases h
      · cases h
        rfl
    split_ifs at h with hgt
    · obtain ⟨begin, hbegin, h⟩ := bind_ok.mp h
      rw [← hrest begin h]
      exact .inr (not_inside_of_lineBegin hunicode hplain hstart _ hbegin)
    · exact .inl (hrest b h).symm
end

/-! ## Steps that leave the begin of the match alone -/

/-- After the step of an attempt at `b` the match begins at `b`; when it is reported it may begin
elsewhere, but not inside a pair. -/
def Keeps (e : Env) (b : ℕ) : Except Stop Next → Prop
  | .ok (.goto config) => config.context.matchBegin = b
  | .ok (.done _ context _) => context.matchBegin = b ∨ ¬ Inside e context.matchBegin
  | .error _ => True

section
variable {e : Env} {b : ℕ} {c : DisjunctionContext} {s : State}

theorem keeps_matchNext (h : c.matchBegin = b) : Keeps e b (matchNext c s) := h

theorem keeps_backtrackFrom (h : c.matchBegin = b) : Keeps e b (backtrackFrom c s) := by
  unfold backtrackFrom
  split_ifs
  · trivial
  · exact h

theorem keeps_matchNextIf {ok : Bool} (h : c.matchBegin = b) : Keeps e b (matchNextIf ok c s) := by
  cases ok
  · exact keeps_backtrackFrom h
  · exact keeps_matchNext h

theorem keeps_bind {α : Type} {x : Except Stop α} {f : α → Except Stop Next}
    (h : ∀ a, Keeps e b (f a)) : Keeps e b (x >>= f) := by
  cases x with
  | error => trivial
  | ok a => exact h a

theorem keeps_afterGroup {loc : ℕ} {r : GroupResult} (h : c.matchBegin = b) :
    Keeps e b (afterGroup loc c r) := by
  obtain ⟨result, info, s⟩ := r
  cases result with
  | Match => exact keeps_matchNext h
  | NoMatch => exact keeps_backtrackFrom h
  | _ => exact .inl h

variable {m : Machine} {call : Call} {fuel : ℕ} {body : ByteDisjunction}

theorem keeps_matchAgain (ht : ∀ bol eol, t ≠ .dotStarEnclosure bol eol) :
    Keeps e c.matchBegin (matchAgain m call fuel c s t) := by
  cases t with
  | dotStarEnclosure bol eol => exact absurd rfl (ht bol eol)
  | subpatternEnd | bodyAlternativeDisjunction | bodyAlternativeEnd => exact .inl rfl
  | subpatternBegin | bodyAlternativeBegin | alternativeBegin | alternativeDisjunction
  | alternativeEnd | parenthesesSubpatternTerminalBegin | parentheticalAssertionBegin => rfl
  | parenthesesSubpattern => exact keeps_bind fun r => keeps_afterGroup rfl
  | parenthesesSubpatternOnceBegin info width =>
    simp only [matchAgain]
    split <;> rfl
  | parenthesesSubpatternOnceEnd => exact keeps_matchNextIf rfl
  | parenthesesSubpatternTerminalEnd =>
    simp only [matchAgain]
    split_ifs
    · exact keeps_backtrackFrom rfl
    · rfl
  | parentheticalAssertionEnd =>
    simp only [matchAgain]
    split_ifs
    · exact keeps_backtrackFrom rfl
    · rfl
  | _ => exact keeps_bind fun r => keeps_matchNextIf rfl

theorem keeps_backtrack (ht : bodyAlternative (some t) = none) :
    Keeps e c.matchBegin (backtrack m call fuel body c s t) := by
  cases t with
  | bodyAlternativeBegin | bodyAlternativeDisjunction => cases ht
  | subpatternBegin => exact .inl rfl
  | parenthesesSubpatternTerminalBegin => rfl
  | subpatternEnd | bodyAlternativeEnd | parenthesesSubpatternTerminalEnd | dotStarEnclosure =>
    trivial
  | alternativeBegin | alternativeDisjunction =>
    simp only [backtrack]
    split_ifs
    · rfl
    · exact keeps_backtrackFrom rfl
  | alternativeEnd | parentheticalAssertionEnd => exact keeps_backtrackFrom rfl
  | parenthesesSubpattern => exact keeps_bind fun r => keeps_afterGroup rfl
  | parenthesesSubpatternOnceBegin =>
    simp only [backtrack]
    split
    · rfl
    · exact keeps_backtrackFrom rfl
  | parenthesesSubpatternOnceEnd =>
    simp only [backtrack]
    split_ifs
    · split
      · exact keeps_backtrackFrom rfl
      · rfl
      · exact keeps_backtrackFrom rfl
    · exact keeps_backtrackFrom rfl
  | parentheticalAssertionBegin =>
    simp only [backtrack]
    split_ifs
    · rfl
    · exact keeps_backtrackFrom rfl
  | _ => exact keeps_bind fun r => keeps_matchNextIf rfl

theorem backtrack_alternative (ha : bodyAlternative (some t) = some a) :
    backtrack m call fuel body c s t = nextBodyAlternative m body a c s := by
  cases t with
  | bodyAlternativeBegin | bodyAlternativeDisjunction =>
    injection ha with ha
    rw [ha]
    rfl
  | _ => cases ha

/-- **Within an attempt** the begin of the match stays. -/
theorem keeps_step (hunicode : m.unicode = true) (hplain : PlainNewlines m.toEnv)
    (hstart : ¬ Inside m.toEnv m.startOffset) {config : Config} {r : Except Stop Next}
    (h : step m call fuel body config = r)
    (hsame : ∀ next, r = .ok (.goto next) → ¬ StartsAgain body config) :
    Keeps m.toEnv config.context.matchBegin r := by
  obtain ⟨direction, c, s⟩ := config
  subst h
  unfold step at hsame ⊢
  cases ht : body.terms[c.term]? with
  | none => trivial
  | some t =>
    cases direction with
    | matchAgain =>
      by_cases hdot : ∃ bol eol, t = .dotStarEnclosure bol eol
      · obtain ⟨bol, eol, rfl⟩ := hdot
        simp only [matchAgain]
        cases hresult : matchDotStarEnclosure m.toEnv bol eol c.matchBegin s.pos with
        | error => trivial
        | ok found =>
          cases found with
          | none => exact keeps_backtrackFrom rfl
          | some range => exact not_inside_of_dotStar hunicode hplain hstart hresult
      · exact keeps_matchAgain fun bol eol h => hdot ⟨bol, eol, h⟩
    | backtrack =>
      cases ha : bodyAlternative (some t) with
      | none => exact keeps_backtrack ha
      | some a =>
        simp only [ht, backtrack_alternative ha] at hsame ⊢
        unfold nextBodyAlternative at hsame ⊢
        split_ifs at hsame ⊢ with hnext hstop
        · exact keeps_matchNext rfl
        · exact .inl rfl
        · -- the next attempt
          have hagain : StartsAgain body ⟨.backtrack, c, s⟩ := ⟨rfl, a, ht ▸ ha, not_lt.mp hnext⟩
          revert hsame
          dsimp only
          split
          · exact fun _ => trivial
          · split_ifs <;> exact fun hsame => absurd hagain (hsame _ rfl)
end

/-! ## The search -/

section
variable {m : Machine} {call : Call} {fuel n : ℕ} {body : ByteDisjunction}
variable {first start config : Config} {context : DisjunctionContext} {s : State}
variable {result : JSRegExpResult × DisjunctionContext × State}

theorem run_of_step {next : Config} (hstep : step m call fuel body config = .ok (.goto next))
    (h : run m call fuel body n config = .ok result) :
    ∃ n, run m call fuel body n next = .ok result := by
  cases n with
  | zero => cases h
  | succ n =>
    rw [run, hstep] at h
    exact ⟨n, h⟩

theorem Attempt.run_eq (h : Attempt m call fuel body start config)
    (hrun : ∃ n, run m call fuel body n start = .ok result) :
    ∃ n, run m call fuel body n config = .ok result := by
  induction h with
  | start => exact hrun
  | step _ _ hstep ih =>
    obtain ⟨n, hn⟩ := ih
    exact run_of_step hstep hn

theorem Search.run_eq (h : Search m call fuel body first start)
    (hrun : ∃ n, run m call fuel body n first = .ok result) :
    ∃ n, run m call fuel body n start = .ok result := by
  induction h with
  | first => exact hrun
  | again _ hattempt _ hstep ih =>
    obtain ⟨n, hn⟩ := hattempt.run_eq ih
    exact run_of_step hstep hn

/-- **A run that matches** ends with an attempt of the search. -/
theorem exists_attempt : ∀ (n : ℕ) (start config : Config), Search m call fuel body first start →
    Attempt m call fuel body start config →
    run m call fuel body n config = .ok (.Match, context, s) →
    ∃ start config, Search m call fuel body first start ∧
      Attempt m call fuel body start config ∧
      step m call fuel body config = .ok (.done .Match context s)
  | 0, _, _, _, _, h => nomatch h
  | n + 1, start, config, hsearch, hattempt, h => by
    cases hstep : step m call fuel body config with
    | error => rw [run, hstep] at h; cases h
    | ok next =>
      rw [run, hstep] at h
      cases next with
      | goto next =>
        by_cases hagain : StartsAgain body config
        · exact exists_attempt n next next (.again hsearch hattempt hagain hstep) .start h
        · exact exists_attempt n start next hsearch (.step hattempt hagain hstep) h
      | done result context' s' =>
        cases h
        exact ⟨start, config, hsearch, hattempt, hstep⟩

section
variable (hunicode : m.unicode = true) (hplain : PlainNewlines m.toEnv)
variable (hstart : ¬ Inside m.toEnv m.startOffset)
include hunicode hplain hstart

theorem Attempt.begin_eq (h : Attempt m call fuel body start config) :
    config.context.matchBegin = start.context.matchBegin := by
  induction h with
  | start => rfl
  | step _ hsame hstep ih =>
    have hkeeps := keeps_step hunicode hplain hstart hstep fun _ _ => hsame
    exact hkeeps.trans ih

theorem run_inside_iff
    (h : run m call fuel body n first = .ok (.Match, context, s)) :
    ¬ Inside m.toEnv context.matchBegin ↔ FailsInside m call fuel body first := by
  constructor
  · intro hnot start config context' s' hsearch hin hattempt hstep heq
    obtain ⟨k, hk⟩ := hattempt.run_eq (hsearch.run_eq ⟨n, h⟩)
    cases k with
    | zero => cases hk
    | succ k =>
      rw [run, hstep] at hk
      cases hk
      exact hnot (heq ▸ hin)
  · intro hfails hin
    obtain ⟨start, config, hsearch, hattempt, hstep⟩ := exists_attempt n first first .first .start h
    have hkeeps := keeps_step hunicode hplain hstart hstep nofun
    have hbegin := hkeeps.resolve_right (not_not.mpr hin)
    rw [hattempt.begin_eq hunicode hplain hstart] at hbegin
    exact hfails start config context s hsearch (hbegin ▸ hin) hattempt hstep hbegin
end

/-- A sticky search makes one attempt. -/
theorem Search.eq_first (hsticky : m.sticky = true) (h : Search m call fuel body first start) :
    start = first := by
  cases h with
  | first => rfl
  | @again start config next _ _ hagain hstep =>
    obtain ⟨hdirection, a, ha, hle⟩ := hagain
    obtain ⟨direction, c, s⟩ := config
    obtain rfl : direction = .backtrack := hdirection
    unfold step at hstep
    cases ht : body.terms[c.term]? with
    | none => rw [ht] at hstep; cases hstep
    | some t =>
      rw [ht] at hstep ha
      dsimp only at hstep
      rw [backtrack_alternative ha, nextBodyAlternative, if_neg (not_lt.mpr hle),
        if_pos (.inr hsticky)] at hstep
      cases hstep
end

/-! ## Main result -/

/-- Where `interpret` starts. -/
def firstConfig (m : Machine) (body : ByteDisjunction) (output : Output) : Config :=
  ⟨.matchAgain, (m.uninitialized.setMatchBegin m.startOffset).setTerm 0,
    ⟨⟨m.startOffset, resetOutput body.m_numSubpatterns output⟩, u32Sub matchLimit 1⟩⟩

/-- The code of a regular expression. -/
def compiled (p : Constructor) : Option ByteDisjunction :=
  match compile p with
  | .error _ => none
  | .ok pattern => (byteCompile ⟨false, id, id⟩ pattern).toOption

/-- A Unicode pattern of one character. -/
def unicodeCharacter (ch : UChar32) : Constructor :=
  (Constructor.new ⟨false, false, false, true, false⟩ ⟨⟨[], []⟩, ⟨[], []⟩⟩).atomPatternCharacter ch

/-- A surrogate pair and a letter. -/
def pairAndLetter : Machine := { twoLetters with input := [0xd834, 0xdf06, 0x61], unicode := true }

/-- The code of `/a/u`. -/
def letterCode : ByteDisjunction where
  terms := [.bodyAlternativeBegin ⟨0, 0, false, 0⟩, .checkInput 1,
    .patternCharacter 0x61 ⟨.FixedCount, 1⟩ ⟨1, 0⟩, .bodyAlternativeEnd ⟨0, 0, false, 0⟩]
  m_numSubpatterns := 0
  m_frameSize := 0

theorem plainNewlines_pairAndLetter : PlainNewlines pairAndLetter.toEnv := by
  intro ch hch
  have hge : ¬ ch < 0x10000 := of_decide_eq_false hch
  have hascii : isASCII ch = false := decide_eq_false fun h => hge (lt_trans h (by decide))
  have h1 : ch ≠ 0x2028 := by rintro rfl; exact hge (by decide)
  have h2 : ch ≠ 0x2029 := by rintro rfl; exact hge (by decide)
  simp [testCharacterClass, hascii, searchMatches, searchRanges, linearSearchMatches,
    linearSearchRanges, pairAndLetter, twoLetters, thresholdForBinarySearch, h1, h2]

end JscAndroid.Yarr.MatchBegin
