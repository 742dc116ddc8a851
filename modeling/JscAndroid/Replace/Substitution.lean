import Mathlib

/-!
# The replacement of one match

`substituteBackreferences` of StringPrototype.cpp, for a search with a regexp, and the operation
`GetSubstitution` of the specification. The code looks for the next `$` and copies what stands
between two of them; the specification goes through the template from left to right.
-/

namespace JscAndroid.Replace

open List Option

variable {x : ℕ} {text : List ℕ}

/-! ## The code -/

/-- What the search and the replacement read of a `RegExp`. -/
structure RegExp where
  global : Bool
  sticky : Bool
  unicode : Bool
  numSubpatterns : ℕ
  captureGroupNames : List (List ℕ × ℕ)

/-- `MatchResult` with its `ovector`: a capture is none if its start is -1. -/
structure MatchResult where
  start : ℕ
  stop : ℕ
  captures : List (Option (ℕ × ℕ))
deriving DecidableEq

def MatchResult.empty (m : MatchResult) : Bool := m.start = m.stop

/-- Start and end of a capture in the `ovector`. -/
def MatchResult.capture (m : MatchResult) (i : ℕ) : Option (ℕ × ℕ) := m.captures.getD (i - 1) none

def RegExp.hasNamedCaptures (reg : RegExp) : Bool := !reg.captureGroupNames.isEmpty

def RegExp.subpatternForName (reg : RegExp) (name : List ℕ) : ℕ :=
  (reg.captureGroupNames.lookup name).getD 0

def isASCIIDigit (c : ℕ) : Bool := '0'.toNat ≤ c && c ≤ '9'.toNat

def substring (text : List ℕ) (start length : ℕ) : List ℕ := (text.drop start).take length

def find (text : List ℕ) (c start : ℕ) : Option ℕ :=
  ((text.drop start).findIdx? (· = c)).map (start + ·)

/-- What the loop does at a `$`: it ends, takes `$$`, goes on without a change, or takes the text of
a back reference. -/
inductive Reference where
  | stop
  | dollar
  | none
  | text (backref : Option (ℕ × ℕ)) (advance : ℕ)

/-- A reference of one or two digits, of which the first one is given. -/
def digitReference (numSubpatterns digit : ℕ) (next : Option ℕ) : Option (ℕ × ℕ) :=
  let backrefIndex := digit - '0'.toNat
  if backrefIndex > numSubpatterns then none
  else
    let (backrefIndex, advance) :=
      match next with
      | some ref =>
        if isASCIIDigit ref then
          let twoDigits := 10 * backrefIndex + ref - '0'.toNat
          if twoDigits > numSubpatterns then (twoDigits / 10, 0) else (twoDigits, 1)
        else (backrefIndex, 0)
      | none => (backrefIndex, 0)
    if backrefIndex = 0 then none else some (backrefIndex, advance)

def referenceAt (replacement source : List ℕ) (m : MatchResult) (reg : RegExp) (i : ℕ) :
    Reference :=
  match replacement[i + 1]? with
  | none => .stop
  | some ref =>
    if ref = '$'.toNat then .dollar
    else if ref = '&'.toNat then .text (some (m.start, m.stop - m.start)) 0
    else if ref = 0x60 then .text (some (0, m.start)) 0
    else if ref = 0x27 then .text (some (m.stop, source.length - m.stop)) 0
    else if ref = '<'.toNat then
      if !reg.hasNamedCaptures then .none
      else
        match find replacement '>'.toNat (i + 2) with
        | none => .none
        | some closingBracket =>
          let nameLength := closingBracket - i - 2
          let backrefIndex := reg.subpatternForName (substring replacement (i + 2) nameLength)
          if backrefIndex = 0 || backrefIndex > reg.numSubpatterns then
            .text (some (0, 0)) (nameLength + 1)
          else
            .text ((m.capture backrefIndex).map fun (start, stop) => (start, stop - start))
              (nameLength + 1)
    else if isASCIIDigit ref then
      match digitReference reg.numSubpatterns ref replacement[i + 2]? with
      | none => .none
      | some (backrefIndex, advance) =>
        .text ((m.capture backrefIndex).map fun (start, stop) => (start, stop - start)) advance
    else .none

/-- The loop of `substituteBackreferencesSlow`, with a bound on the rounds: the result so far and
the offset of what is not yet copied. -/
def substituteLoop (replacement source : List ℕ) (m : MatchResult) (reg : RegExp) :
    ℕ → ℕ → ℕ → List ℕ → Option (List ℕ × ℕ)
  | 0, _, _, _ => none
  | fuel + 1, i, offset, result =>
    match referenceAt replacement source m reg i with
    | .stop => some (result, offset)
    | .dollar =>
      let result := result ++ substring replacement offset (i + 1 - offset)
      match find replacement '$'.toNat (i + 2) with
      | none => some (result, i + 2)
      | some j => substituteLoop replacement source m reg fuel j (i + 2) result
    | .none =>
      match find replacement '$'.toNat (i + 1) with
      | none => some (result, offset)
      | some j => substituteLoop replacement source m reg fuel j offset result
    | .text backref advance =>
      let result := result ++ substring replacement offset (i - offset) ++
        backref.elim [] fun (start, length) => substring source start length
      match find replacement '$'.toNat (i + 2 + advance) with
      | none => some (result, i + 2 + advance)
      | some j => substituteLoop replacement source m reg fuel j (i + 2 + advance) result

def substituteBackreferences (replacement source : List ℕ) (m : MatchResult) (reg : RegExp) :
    Option (List ℕ) :=
  match find replacement '$'.toNat 0 with
  | none => some replacement
  | some i =>
    (substituteLoop replacement source m reg replacement.length i 0 []).map
      fun (result, offset) => result ++ replacement.drop offset

/-! ## The specification -/

/-- The arguments of `GetSubstitution` apart from the template. -/
structure Substitution where
  matched : List ℕ
  str : List ℕ
  position : ℕ
  captures : List (Option (List ℕ))
  namedCaptures : Option (List ℕ → Option (List ℕ))

namespace Substitution

variable (σ : Substitution)

/-- The number of digits and the index of a reference by digits: two digits that are beyond the
captures count as one digit and a character that stands for itself. -/
def digits (x : ℕ) (t : List ℕ) : ℕ × ℕ :=
  match t with
  | y :: _ =>
    if isASCIIDigit y && 10 * (x - '0'.toNat) + (y - '0'.toNat) ≤ σ.captures.length then
      (2, 10 * (x - '0'.toNat) + (y - '0'.toNat))
    else (1, x - '0'.toNat)
  | [] => (1, x - '0'.toNat)

/-- What a `$` before this remainder of the template stands for, and how many characters of the
remainder belong to it. -/
def refAfterDollar : List ℕ → List ℕ × ℕ
  | [] => (['$'.toNat], 0)
  | x :: t =>
    if x = '$'.toNat then (['$'.toNat], 1)
    else if x = 0x60 then (σ.str.take σ.position, 1)
    else if x = '&'.toNat then (σ.matched, 1)
    else if x = 0x27 then (σ.str.drop (σ.position + σ.matched.length), 1)
    else if isASCIIDigit x then
      let (digitCount, index) := σ.digits x t
      if 1 ≤ index ∧ index ≤ σ.captures.length then
        ((σ.captures.getD (index - 1) none).getD [], digitCount)
      else ('$'.toNat :: (x :: t).take digitCount, digitCount)
    else if x = '<'.toNat then
      match σ.namedCaptures, t.findIdx? (· = '>'.toNat) with
      | some groups, some n => ((groups (t.take n)).getD [], n + 2)
      | _, _ => (['$'.toNat, '<'.toNat], 1)
    else (['$'.toNat], 0)

/-- The expansion of the template behind this many characters. -/
def expand : ℕ → List ℕ → List ℕ
  | _, [] => []
  | skip + 1, _ :: t => expand skip t
  | 0, c :: t =>
    if c = '$'.toNat then (σ.refAfterDollar t).1 ++ expand (σ.refAfterDollar t).2 t
    else c :: expand 0 t

end Substitution

/-- `GetSubstitution`. -/
def getSubstitution (σ : Substitution) (template : List ℕ) : List ℕ := σ.expand 0 template

/-! ## References -/

/-- The text of a capture. -/
def captureText (source : List ℕ) (capture : ℕ × ℕ) : List ℕ :=
  substring source capture.1 (capture.2 - capture.1)

/-- The arguments of `GetSubstitution` for a match. -/
def substitutionOf (source : List ℕ) (reg : RegExp) (m : MatchResult) : Substitution where
  matched := substring source m.start (m.stop - m.start)
  str := source
  position := m.start
  captures := m.captures.map (Option.map (captureText source))
  namedCaptures :=
    if reg.hasNamedCaptures then
      some fun name => (reg.captureGroupNames.lookup name).bind fun i =>
        (m.capture i).map (captureText source)
    else none

/-- The names of a regexp belong to its groups. -/
def RegExp.NamesGroups (reg : RegExp) : Prop :=
  ∀ entry ∈ reg.captureGroupNames, 1 ≤ entry.2 ∧ entry.2 ≤ reg.numSubpatterns

/-- A match of this regexp in this string. -/
structure MatchResult.Fits (m : MatchResult) (reg : RegExp) (source : List ℕ) : Prop where
  start_le : m.start ≤ m.stop
  stop_le : m.stop ≤ source.length
  captures_length : m.captures.length = reg.numSubpatterns

/-- The code and the specification take the same reference before `t`. -/
def Reference.Agrees (source : List ℕ) (σ : Substitution) (t : List ℕ) : Reference → Prop
  | .stop => t = []
  | .dollar => σ.refAfterDollar t = (['$'.toNat], 1) ∧ t ≠ []
  | .none => ∃ n, σ.refAfterDollar t = ('$'.toNat :: t.take n, n) ∧ '$'.toNat ∉ t.take n
  | .text backref advance =>
    σ.refAfterDollar t = (backref.elim [] fun (start, length) => substring source start length,
      advance + 1) ∧ advance + 1 ≤ t.length

theorem isASCIIDigit_iff {c : ℕ} : isASCIIDigit c = true ↔ 48 ≤ c ∧ c ≤ 57 := by
  have h0 : '0'.toNat = 48 := rfl
  have h9 : '9'.toNat = 57 := rfl
  simp [isASCIIDigit]

section
variable {source : List ℕ} {reg : RegExp} {m : MatchResult}

theorem length_captures_substitutionOf (hm : m.Fits reg source) :
    (substitutionOf source reg m).captures.length = reg.numSubpatterns := by
  rw [substitutionOf, length_map, hm.captures_length]

theorem getD_captures_substitutionOf (i : ℕ) :
    ((substitutionOf source reg m).captures.getD (i - 1) none).getD [] =
      ((m.capture i).map fun (start, stop) => (start, stop - start)).elim []
        fun (start, length) => substring source start length := by
  have hmap : (substitutionOf source reg m).captures.getD (i - 1) none =
      (m.capture i).map (captureText source) := by
    simp only [substitutionOf, MatchResult.capture, getD_eq_getElem?_getD, getElem?_map]
    cases m.captures[i - 1]? <;> rfl
  rw [hmap]
  cases m.capture i <;> rfl

section
variable (hx : isASCIIDigit x = true) (σ : Substitution) (t : List ℕ)
include hx

theorem refAfterDollar_digit : σ.refAfterDollar (x :: t) =
      if 1 ≤ (σ.digits x t).2 ∧ (σ.digits x t).2 ≤ σ.captures.length then
        ((σ.captures.getD ((σ.digits x t).2 - 1) none).getD [], (σ.digits x t).1)
      else ('$'.toNat :: (x :: t).take (σ.digits x t).1, (σ.digits x t).1) := by
  have hdollar : '$'.toNat = 36 := rfl
  have hand : '&'.toNat = 38 := rfl
  have hdigit := isASCIIDigit_iff.mp hx
  rw [Substitution.refAfterDollar, if_neg (by omega), if_neg (by omega), if_neg (by omega),
    if_neg (by omega), if_pos hx]

omit hx in
/-- The code takes one or two digits as the specification does. -/
theorem digitReference_eq : digitReference σ.captures.length x t.head? =
      if 1 ≤ (σ.digits x t).2 ∧ (σ.digits x t).2 ≤ σ.captures.length then
        some ((σ.digits x t).2, (σ.digits x t).1 - 1) else none := by
  have h0 : '0'.toNat = 48 := rfl
  unfold digitReference Substitution.digits
  rw [h0]
  rcases t with _ | ⟨y, t⟩
  · dsimp only [head?_nil]
    split_ifs <;> first | rfl | omega
  · dsimp only [head?_cons]
    by_cases hy : isASCIIDigit y = true
    swap
    · simp only [hy, Bool.false_eq_true, if_false, Bool.false_and]
      split_ifs <;> first | rfl | omega
    have hy' := isASCIIDigit_iff.mp hy
    have hten : 10 * (x - 48) + y - 48 = 10 * (x - 48) + (y - 48) := by omega
    have hdiv : (10 * (x - 48) + (y - 48)) / 10 = x - 48 := by omega
    simp only [hy, hten, hdiv, Bool.true_and, decide_eq_true_eq]
    have hle : x - 48 ≤ 10 * (x - 48) + (y - 48) := by omega
    generalize 10 * (x - 48) + (y - 48) = two at hle
    by_cases htwo : two ≤ σ.captures.length
    · split_ifs <;> first | rfl | omega
    · split_ifs <;> first | rfl | omega

theorem digits_fst : 1 ≤ (σ.digits x t).1 ∧ (σ.digits x t).1 ≤ (x :: t).length ∧
    '$'.toNat ∉ (x :: t).take (σ.digits x t).1 := by
  have hne : ∀ y, isASCIIDigit y = true → '$'.toNat ≠ y := by
    rintro y hy rfl
    exact absurd hy (by decide)
  unfold Substitution.digits
  rcases t with _ | ⟨y, t⟩
  · simpa using hne x hx
  · dsimp only
    split_ifs with hcond
    · rw [Bool.and_eq_true] at hcond
      simpa using ⟨hne x hx, hne y hcond.1⟩
    · simpa using hne x hx

theorem digitReference_agrees (hm : m.Fits reg source) :
    Reference.Agrees source (substitutionOf source reg m) (x :: t)
      (match digitReference reg.numSubpatterns x t.head? with
      | none => .none
      | some (backrefIndex, advance) =>
        .text ((m.capture backrefIndex).map fun (start, stop) => (start, stop - start))
          advance) := by
  obtain ⟨hpos, hle, hnot⟩ := digits_fst hx (substitutionOf source reg m) t
  have hspec := refAfterDollar_digit hx (substitutionOf source reg m) t
  rw [← length_captures_substitutionOf hm, digitReference_eq]
  split_ifs at hspec ⊢ with hindex
  · refine ⟨?_, by omega⟩
    rw [hspec, getD_captures_substitutionOf, Nat.sub_add_cancel hpos]
  · exact ⟨_, hspec, hnot⟩
end

theorem mem_of_lookup {names : List (List ℕ × ℕ)} {name : List ℕ} {i : ℕ}
    (h : names.lookup name = some i) : (name, i) ∈ names := by
  induction names with
  | nil => cases h
  | cons entry names ih =>
    rw [lookup_cons] at h
    by_cases heq : (name == entry.1) = true
    · rw [heq] at h
      obtain rfl := some.inj h
      rw [beq_iff_eq] at heq
      rw [heq]
      exact mem_cons_self
    · rw [Bool.eq_false_iff.mpr heq] at h
      exact mem_cons_of_mem _ (ih h)

/-- The code's reference by name, for what stands behind the `<`. -/
def nameReference (reg : RegExp) (m : MatchResult) (t : List ℕ) : Reference :=
  if !reg.hasNamedCaptures then .none
  else
    match t.findIdx? (· = '>'.toNat) with
    | none => .none
    | some n =>
      if reg.subpatternForName (t.take n) = 0 ||
          reg.subpatternForName (t.take n) > reg.numSubpatterns then
        .text (some (0, 0)) (n + 1)
      else
        .text ((m.capture (reg.subpatternForName (t.take n))).map
          fun (start, stop) => (start, stop - start)) (n + 1)

theorem nameReference_agrees (hreg : reg.NamesGroups) (t : List ℕ) :
    (nameReference reg m t).Agrees source (substitutionOf source reg m) ('<'.toNat :: t) := by
  have hspec : (substitutionOf source reg m).refAfterDollar ('<'.toNat :: t) =
      match (substitutionOf source reg m).namedCaptures, t.findIdx? (· = '>'.toNat) with
      | some groups, some n => ((groups (t.take n)).getD [], n + 2)
      | _, _ => (['$'.toNat, '<'.toNat], 1) := rfl
  have hliteral : (substitutionOf source reg m).refAfterDollar ('<'.toNat :: t) =
      (['$'.toNat, '<'.toNat], 1) →
      Reference.Agrees source (substitutionOf source reg m) ('<'.toNat :: t) .none :=
    fun h => ⟨1, h, by simp⟩
  unfold nameReference
  by_cases hnamed : reg.hasNamedCaptures = true
  swap
  · rw [if_pos (by simpa using hnamed)]
    refine hliteral ?_
    rw [hspec]
    simp [substitutionOf, hnamed]
  rw [if_neg (by simpa using hnamed)]
  have hgroups : (substitutionOf source reg m).namedCaptures =
      some fun name => (reg.captureGroupNames.lookup name).bind fun i =>
        (m.capture i).map (captureText source) := if_pos hnamed
  rw [hgroups] at hspec
  cases hfind : t.findIdx? (· = '>'.toNat) with
  | none =>
    refine hliteral ?_
    rw [hspec, hfind]
  | some n =>
    rw [hfind] at hspec
    dsimp only at hspec ⊢
    have hlt : n < t.length := by
      obtain ⟨h, -⟩ := findIdx?_eq_some_iff_getElem.mp hfind
      exact h
    unfold RegExp.subpatternForName
    cases hlookup : reg.captureGroupNames.lookup (t.take n) with
    | none =>
      rw [hlookup] at hspec
      refine ⟨?_, by simp only [length_cons]; omega⟩
      rw [hspec]
      rfl
    | some i =>
      rw [hlookup] at hspec
      have hi := hreg _ (mem_of_lookup hlookup)
      simp only [getD_some]
      rw [if_neg (by simp only [Bool.or_eq_true, decide_eq_true_eq]; omega)]
      refine ⟨?_, by simp only [length_cons]; omega⟩
      rw [hspec, bind_some]
      cases m.capture i <;> rfl

/-- **At every `$` the code takes the reference of the specification.** -/
theorem referenceAt_agrees (hreg : reg.NamesGroups) (hm : m.Fits reg source)
    {replacement t : List ℕ}
    {i : ℕ} (hdrop : replacement.drop (i + 1) = t) :
    (referenceAt replacement source m reg i).Agrees source (substitutionOf source reg m) t := by
  have hget : replacement[i + 1]? = t.head? := by rw [← hdrop, head?_drop]
  rw [referenceAt, hget]
  rcases t with _ | ⟨x, t⟩
  · exact rfl
  have hdrop' : replacement.drop (i + 2) = t := by
    rw [← drop_drop (i := 1), hdrop]
    rfl
  have hnext : replacement[i + 2]? = t.head? := by rw [← hdrop', head?_drop]
  rw [hnext]
  dsimp only [head?_cons]
  by_cases hdollar : x = '$'.toNat
  · rw [hdollar]
    exact ⟨rfl, cons_ne_nil _ _⟩
  rw [if_neg hdollar]
  by_cases hand : x = '&'.toNat
  · rw [hand]
    exact ⟨rfl, Nat.succ_le_succ (Nat.zero_le _)⟩
  rw [if_neg hand]
  by_cases hbefore : x = 0x60
  · rw [hbefore]
    exact ⟨rfl, Nat.succ_le_succ (Nat.zero_le _)⟩
  rw [if_neg hbefore]
  by_cases hafter : x = 0x27
  · rw [hafter]
    refine ⟨?_, Nat.succ_le_succ (Nat.zero_le _)⟩
    have hstart := hm.start_le
    have hstop := hm.stop_le
    have hend : m.start + (substring source m.start (m.stop - m.start)).length = m.stop := by
      rw [substring, length_take, length_drop]
      omega
    change (source.drop (m.start + (substring source m.start (m.stop - m.start)).length), 1) = _
    have htail : source.drop m.stop = substring source m.stop (source.length - m.stop) := by
      rw [substring, take_of_length_le (by rw [length_drop])]
    rw [hend, htail]
    rfl
  rw [if_neg hafter]
  by_cases hname : x = '<'.toNat
  · rw [hname]
    have hagrees : (nameReference reg m t).Agrees source _ _ := nameReference_agrees hreg t
    have hfind : find replacement '>'.toNat (i + 2) =
        (t.findIdx? (· = '>'.toNat)).map (i + 2 + ·) := by
      rw [find, hdrop']
    rw [hfind]
    unfold nameReference at hagrees
    cases hindex : t.findIdx? (· = '>'.toNat) with
    | none =>
      rwa [hindex] at hagrees
    | some n =>
      rw [hindex] at hagrees
      dsimp only [map_some]
      rwa [show i + 2 + n - i - 2 = n by omega, substring, hdrop']
  rw [if_neg hname]
  by_cases hdigit : isASCIIDigit x = true
  · rw [if_pos hdigit]
    exact digitReference_agrees hdigit t hm
  rw [if_neg hdigit]
  refine ⟨0, ?_, by simp⟩
  rw [Substitution.refAfterDollar, if_neg hdollar, if_neg hbefore, if_neg hand, if_neg hafter,
    if_neg hdigit, if_neg hname]
  rfl
end

/-! ## The whole template -/

section
variable {σ : Substitution}

theorem expand_skip (σ : Substitution) (n : ℕ) (t : List ℕ) :
    σ.expand n t = σ.expand 0 (t.drop n) := by
  induction t generalizing n with
  | nil => simp [Substitution.expand]
  | cons c t ih =>
    cases n with
    | zero => rfl
    | succ n => exact ih n

theorem expand_append_of_notMem {u : List ℕ} (hu : '$'.toNat ∉ u) (t : List ℕ) :
    σ.expand 0 (u ++ t) = u ++ σ.expand 0 t := by
  induction u with
  | nil => rfl
  | cons c u ih =>
    rw [mem_cons, not_or] at hu
    rw [cons_append, Substitution.expand, if_neg fun h => hu.1 h.symm, ih hu.2]
    rfl

theorem expand_of_notMem {t : List ℕ} (ht : '$'.toNat ∉ t) : σ.expand 0 t = t := by
  have h := expand_append_of_notMem (σ := σ) ht []
  rwa [append_nil, show σ.expand 0 [] = [] from rfl, append_nil] at h

theorem expand_dollar (t : List ℕ) : σ.expand 0 ('$'.toNat :: t) =
    (σ.refAfterDollar t).1 ++ σ.expand 0 (t.drop (σ.refAfterDollar t).2) := by
  rw [Substitution.expand, if_pos rfl, expand_skip]

theorem find_eq_none {c start : ℕ} (h : find text c start = none) : c ∉ text.drop start := by
  rw [find, map_eq_none_iff, findIdx?_eq_none_iff] at h
  intro hmem
  simpa using h c hmem

theorem find_eq_some {c start j : ℕ} (h : find text c start = some j) :
    start ≤ j ∧ c ∉ substring text start (j - start) ∧
      text.drop start = substring text start (j - start) ++ text.drop j ∧
      ∃ t, text.drop j = c :: t := by
  obtain ⟨n, hn, rfl⟩ := map_eq_some_iff.mp h
  obtain ⟨hlt, heq, hbefore⟩ := findIdx?_eq_some_iff_getElem.mp hn
  rw [Nat.add_sub_cancel_left, ← drop_drop]
  refine ⟨Nat.le_add_right _ _, ?_, (take_append_drop n _).symm, ?_⟩
  · intro hmem
    unfold substring at hmem
    obtain ⟨k, hk, hget⟩ := mem_iff_getElem.mp hmem
    rw [getElem_take] at hget
    rw [length_take] at hk
    have := hbefore k (by omega)
    rw [hget] at this
    simp at this
  · refine ⟨(text.drop start).drop (n + 1), ?_⟩
    rw [drop_eq_getElem_cons hlt, of_decide_eq_true heq]

theorem substring_append_drop {start stop : ℕ} (h : start ≤ stop) :
    substring text start (stop - start) ++ text.drop stop = text.drop start := by
  have hdrop : text.drop stop = (text.drop start).drop (stop - start) := by
    rw [drop_drop, Nat.add_sub_cancel' h]
  rw [hdrop]
  exact take_append_drop _ _

theorem substring_append_substring {start middle stop : ℕ} (h : start ≤ middle)
    (h' : middle ≤ stop) :
    substring text start (middle - start) ++
      substring text middle (stop - middle) = substring text start (stop - start) := by
  unfold substring
  rw [show text.drop middle = (text.drop start).drop (middle - start) by
    rw [drop_drop, Nat.add_sub_cancel' h], show stop - start = middle - start + (stop - middle) by
    omega, take_add]

variable {source : List ℕ} {reg : RegExp} {m : MatchResult} {replacement : List ℕ}

/-- What the loop has at its end, as a text. -/
def EndsWith (state : Option (List ℕ × ℕ)) (replacement text : List ℕ) : Prop :=
  ∃ result offset, state = some (result, offset) ∧ result ++ replacement.drop offset = text

theorem EndsWith.of_eq {state : Option (List ℕ × ℕ)} {text' : List ℕ}
    (h : EndsWith state replacement text) (heq : text = text') : EndsWith state replacement text' :=
  heq ▸ h

/-- **The loop**: what is copied so far, what is not yet copied, and the expansion of the rest. -/
theorem substituteLoop_endsWith (hreg : reg.NamesGroups) (hm : m.Fits reg source)
    {fuel i offset : ℕ}
    {result t : List ℕ} (hdrop : replacement.drop i = '$'.toNat :: t) (hoffset : offset ≤ i)
    (hfuel : replacement.length - i ≤ fuel) :
    EndsWith (substituteLoop replacement source m reg fuel i offset result) replacement
      (result ++ substring replacement offset (i - offset) ++
        (substitutionOf source reg m).expand 0 (replacement.drop i)) := by
  induction fuel generalizing i offset result t with
  | zero =>
    have := congrArg length hdrop
    rw [length_drop, length_cons] at this
    omega
  | succ fuel ih =>
    have hdrop' : replacement.drop (i + 1) = t := by
      rw [← drop_drop, hdrop]
      rfl
    -- the search for the next `$` behind a reference
    have hnext : ∀ k result, i < k → EndsWith
        (match find replacement '$'.toNat k with
        | none => some (result, k)
        | some j => substituteLoop replacement source m reg fuel j k result) replacement
        (result ++ (substitutionOf source reg m).expand 0 (replacement.drop k)) := by
      intro k result hk
      cases hfind : find replacement '$'.toNat k with
      | none =>
        refine ⟨result, k, rfl, ?_⟩
        rw [expand_of_notMem (find_eq_none hfind)]
      | some j =>
        obtain ⟨hle, hnot, heq, t', ht'⟩ := find_eq_some hfind
        have : EndsWith (substituteLoop _ _ _ _ _ _ _ result) _ _ := ih ht' hle (by omega)
        rwa [append_assoc, ← expand_append_of_notMem hnot, ← heq] at this
    have hagrees := referenceAt_agrees hreg hm hdrop'
    rw [substituteLoop, hdrop, expand_dollar]
    cases href : referenceAt replacement source m reg i with
    | stop =>
      rw [href] at hagrees
      obtain rfl : t = [] := hagrees
      refine ⟨result, offset, rfl, ?_⟩
      rw [← substring_append_drop hoffset, hdrop, append_assoc]
      rfl
    | dollar =>
      rw [href] at hagrees
      have hspec := hagrees.1
      have hcopied : substring replacement offset (i + 1 - offset) =
          substring replacement offset (i - offset) ++ ['$'.toNat] := by
        rw [← substring_append_substring hoffset (Nat.le_add_right i 1), Nat.add_sub_cancel_left]
        congr 1
        rw [substring, hdrop]
        rfl
      refine (hnext (i + 2) _ (by omega)).of_eq ?_
      rw [hspec, hcopied, ← hdrop', drop_drop]
      simp only [append_assoc]
    | none =>
      rw [href] at hagrees
      obtain ⟨n, hspec, hnot⟩ := hagrees
      -- the `$` stands for itself, as do the characters of the reference
      have hexpand : ('$'.toNat :: t.take n) ++
          (substitutionOf source reg m).expand 0 (t.drop n) =
          '$'.toNat :: (substitutionOf source reg m).expand 0 t := by
        rw [cons_append, ← expand_append_of_notMem hnot, take_append_drop]
      rw [hspec, hexpand]
      cases hfind : find replacement '$'.toNat (i + 1) with
      | none =>
        refine ⟨result, offset, rfl, ?_⟩
        have hnone := find_eq_none hfind
        rw [hdrop'] at hnone
        rw [expand_of_notMem hnone, ← substring_append_drop hoffset, hdrop, append_assoc]
      | some j =>
        obtain ⟨hle, hnot', heq, t', ht'⟩ := find_eq_some hfind
        have : EndsWith (substituteLoop _ _ _ _ _ _ _ result) _ _ :=
          ih ht' (hoffset.trans (by omega)) (by omega)
        refine this.of_eq ?_
        have hcopied : substring replacement i (j - i) =
            '$'.toNat :: substring replacement (i + 1) (j - (i + 1)) := by
          rw [← substring_append_substring (Nat.le_add_right i 1) hle, Nat.add_sub_cancel_left,
            substring, hdrop]
          rfl
        rw [← hdrop', heq, expand_append_of_notMem hnot',
          ← substring_append_substring hoffset (show i ≤ j by omega), hcopied]
        simp only [append_assoc, cons_append]
    | text backref advance =>
      rw [href] at hagrees
      have hspec := hagrees.1
      refine (hnext (i + 2 + advance) _ (by omega)).of_eq ?_
      rw [hspec, ← hdrop', drop_drop, show i + 1 + (advance + 1) = i + 2 + advance by omega,
        append_assoc]

/-- **The substitution of a match** is the one of the specification. -/
theorem substituteBackreferences_eq (hreg : reg.NamesGroups) (hm : m.Fits reg source)
    (replacement : List ℕ) : substituteBackreferences replacement source m reg =
      some (getSubstitution (substitutionOf source reg m) replacement) := by
  unfold substituteBackreferences getSubstitution
  cases hfind : find replacement '$'.toNat 0 with
  | none =>
    have hnone := find_eq_none hfind
    rw [drop_zero] at hnone
    rw [expand_of_notMem hnone]
  | some i =>
    obtain ⟨-, hnot, heq, t, ht⟩ := find_eq_some hfind
    obtain ⟨result, offset, hloop, htext⟩ := substituteLoop_endsWith hreg hm ht
      (Nat.zero_le i) (Nat.sub_le _ _)
    dsimp only
    rw [hloop, map_some, htext, nil_append, ← expand_append_of_notMem hnot, ← heq]
    rfl
end

/-! ## Without a regexp -/

/-- What a null `reg` is for `substituteBackreferences`, by `referenceAt_noGroups`. -/
def RegExp.noGroups : RegExp := ⟨false, false, false, 0, []⟩

/-- What the loop does at a `$` if `reg` is null. -/
def referenceWithoutRegExp (replacement source : List ℕ) (m : MatchResult) (i : ℕ) : Reference :=
  match replacement[i + 1]? with
  | none => .stop
  | some ref =>
    if ref = '$'.toNat then .dollar
    else if ref = '&'.toNat then .text (some (m.start, m.stop - m.start)) 0
    else if ref = 0x60 then .text (some (0, m.start)) 0
    else if ref = 0x27 then .text (some (m.stop, source.length - m.stop)) 0
    else .none

theorem digitReference_zero (digit : ℕ) (next : Option ℕ) : digitReference 0 digit next = none := by
  have h0 : '0'.toNat = 48 := rfl
  unfold digitReference
  rcases next with _ | y
  · dsimp only
    split_ifs <;> first | rfl | omega
  · dsimp only
    split_ifs with _ hy <;> try rw [isASCIIDigit_iff] at hy
    all_goals first | rfl | omega

theorem referenceAt_noGroups (replacement source : List ℕ) (m : MatchResult) (i : ℕ) :
    referenceAt replacement source m .noGroups i =
      referenceWithoutRegExp replacement source m i := by
  unfold referenceAt referenceWithoutRegExp
  cases replacement[i + 1]? with
  | none => rfl
  | some ref =>
    dsimp only [RegExp.noGroups]
    rw [digitReference_zero]
    simp [RegExp.hasNamedCaptures]

/-- **Templates expand as `GetSubstitution`**, with a regexp or without one. -/
theorem substituteBackreferences_exact (reg : Option RegExp) (source : List ℕ) (m : MatchResult)
    (hreg : ∀ r ∈ reg, r.NamesGroups) (hm : m.Fits (reg.getD .noGroups) source)
    (replacement : List ℕ) :
    substituteBackreferences replacement source m (reg.getD .noGroups) =
        some (getSubstitution (substitutionOf source (reg.getD .noGroups) m) replacement) ∧
      (reg = none → ∀ i, referenceAt replacement source m (reg.getD .noGroups) i =
        referenceWithoutRegExp replacement source m i) := by
  refine ⟨substituteBackreferences_eq ?_ hm replacement, ?_⟩
  · cases reg with
    | none => simp [RegExp.NamesGroups, RegExp.noGroups]
    | some r => exact hreg r rfl
  · rintro rfl i
    exact referenceAt_noGroups _ _ _ _

/-- `$$1$&$1` for the match `b` of `abc`. -/
theorem substituteBackreferences_dollars :
    getSubstitution (substitutionOf [97, 98, 99] .noGroups ⟨1, 2, []⟩)
      [36, 36, 49, 36, 38, 36, 49] = [36, 49, 98, 36, 49] :=
  (some.inj ((substituteBackreferences_exact none [97, 98, 99] ⟨1, 2, []⟩ (by simp)
    ⟨by decide, by decide, rfl⟩ _).1.symm.trans (by decide)))

end JscAndroid.Replace
