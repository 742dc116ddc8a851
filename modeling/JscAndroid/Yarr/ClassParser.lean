import JscAndroid.Yarr.Classes

/-!
# The ranges of a character class

`CharacterClassParserDelegate` turns the atoms of a character class into calls on the delegate that
builds the class. It holds back one character, since a hyphen after it may make it the start of a
range. Along a derivation of the grammar the calls are those of its ranges, one after the other, up
to the first range that is an error (`Derives.continues`).
-/

namespace JscAndroid.Yarr.ClassParser

open Classes

/-! ## The delegate -/

inductive BuiltInCharacterClassID
  | DigitClassID
  | SpaceClassID
  | WordClassID
  | DotClassID
  /-- An identifier from `BaseUnicodePropertyID` on. -/
  | UnicodePropertyID (index : ℕ)
  deriving DecidableEq

/-- The errors that are raised here. -/
inductive ErrorCode
  | CharacterClassRangeOutOfOrder
  | CharacterClassRangeInvalid
  deriving DecidableEq

/-- A call on the delegate that builds the class. -/
inductive DelegateCall
  | atomCharacterClassBegin (invert : Bool)
  | atomCharacterClassAtom (ch : UChar32)
  | atomCharacterClassRange (begin end_ : UChar32)
  | atomCharacterClassBuiltIn (classID : BuiltInCharacterClassID) (invert : Bool)
  | atomCharacterClassEnd
  deriving DecidableEq

inductive CharacterClassConstructionState
  | Empty
  | CachedCharacter
  | CachedCharacterHyphen
  | AfterCharacterClass
  | AfterCharacterClassHyphen
  deriving DecidableEq

structure CharacterClassParserDelegate where
  /-- The calls made so far. -/
  m_delegate : List DelegateCall := []
  m_errorCode : Option ErrorCode := none
  m_isUnicode : Bool
  m_state : CharacterClassConstructionState := .Empty
  m_character : UChar32 := 0

def hyphenMinus : UChar32 := 45

namespace CharacterClassParserDelegate

variable (d : CharacterClassParserDelegate)

def report (call : DelegateCall) : CharacterClassParserDelegate :=
  { d with m_delegate := d.m_delegate ++ [call] }

def begin (invert : Bool) : CharacterClassParserDelegate :=
  d.report (.atomCharacterClassBegin invert)

def atomPatternCharacter (ch : UChar32) (hyphenIsRange : Bool) : CharacterClassParserDelegate :=
  match d.m_state with
  | .AfterCharacterClass =>
    if hyphenIsRange ∧ ch = hyphenMinus then
      { d.report (.atomCharacterClassAtom hyphenMinus) with m_state := .AfterCharacterClassHyphen }
    else { d with m_character := ch, m_state := .CachedCharacter }
  | .Empty => { d with m_character := ch, m_state := .CachedCharacter }
  | .CachedCharacter =>
    if hyphenIsRange ∧ ch = hyphenMinus then { d with m_state := .CachedCharacterHyphen }
    else { d.report (.atomCharacterClassAtom d.m_character) with m_character := ch }
  | .CachedCharacterHyphen =>
    if ch < d.m_character then { d with m_errorCode := some .CharacterClassRangeOutOfOrder }
    else { d.report (.atomCharacterClassRange d.m_character ch) with m_state := .Empty }
  | .AfterCharacterClassHyphen =>
    if d.m_isUnicode then { d with m_errorCode := some .CharacterClassRangeInvalid }
    else { d.report (.atomCharacterClassAtom ch) with m_state := .Empty }

variable (classID : BuiltInCharacterClassID) (invert : Bool)

/-- The end of the first three cases of `atomBuiltInCharacterClass`. -/
def addBuiltIn : CharacterClassParserDelegate :=
  { d.report (.atomCharacterClassBuiltIn classID invert) with m_state := .AfterCharacterClass }

/-- The end of the two cases after a hyphen. -/
def addBuiltInAfterHyphen : CharacterClassParserDelegate :=
  if d.m_isUnicode then { d with m_errorCode := some .CharacterClassRangeInvalid }
  else { d.report (.atomCharacterClassBuiltIn classID invert) with m_state := .Empty }

def atomBuiltInCharacterClass : CharacterClassParserDelegate :=
  match d.m_state with
  | .CachedCharacter =>
    (d.report (.atomCharacterClassAtom d.m_character)).addBuiltIn classID invert
  | .Empty | .AfterCharacterClass => d.addBuiltIn classID invert
  | .CachedCharacterHyphen =>
    ((d.report (.atomCharacterClassAtom d.m_character)).report
      (.atomCharacterClassAtom hyphenMinus)).addBuiltInAfterHyphen classID invert
  | .AfterCharacterClassHyphen => d.addBuiltInAfterHyphen classID invert

def end_ : CharacterClassParserDelegate :=
  match d.m_state with
  | .CachedCharacter =>
    (d.report (.atomCharacterClassAtom d.m_character)).report .atomCharacterClassEnd
  | .CachedCharacterHyphen =>
    ((d.report (.atomCharacterClassAtom d.m_character)).report
      (.atomCharacterClassAtom hyphenMinus)).report .atomCharacterClassEnd
  | _ => d.report .atomCharacterClassEnd

end CharacterClassParserDelegate

open CharacterClassParserDelegate

/-- An atom of a class: a character, as it is or escaped, or a built-in class. -/
inductive ClassAtom
  | character (ch : UChar32) (escaped : Bool)
  | builtIn (classID : BuiltInCharacterClassID) (invert : Bool)
  deriving DecidableEq

/-- What `parseCharacterClass` calls for an atom. -/
def feed (d : CharacterClassParserDelegate) : ClassAtom → CharacterClassParserDelegate
  | .character ch escaped => d.atomPatternCharacter ch !escaped
  | .builtIn classID invert => d.atomBuiltInCharacterClass classID invert

/-- The loop of `parseCharacterClass`, up to the bracket that ends the class. -/
def parseAtoms : CharacterClassParserDelegate → List ClassAtom → CharacterClassParserDelegate
  | d, [] => d.end_
  | d, atom :: atoms =>
    if (feed d atom).m_errorCode.isSome then feed d atom else parseAtoms (feed d atom) atoms

def parseCharacterClass (isUnicode invert : Bool) (atoms : List ClassAtom) :
    CharacterClassParserDelegate :=
  parseAtoms (begin { m_isUnicode := isUnicode } invert) atoms

/-! ## The grammar -/

/-- The hyphen that is not escaped. -/
def hyphen : ClassAtom := .character hyphenMinus false

inductive Nonterminal
  | ClassRanges
  | NonemptyClassRanges
  | NonemptyClassRangesNoDash

inductive ClassRange
  | single (atom : ClassAtom)
  | range (first last : ClassAtom)

/-- The productions of the three nonterminals, with the ranges that a derivation finds. -/
inductive Derives : Nonterminal → List ClassAtom → List ClassRange → Prop
  | empty : Derives .ClassRanges [] []
  | nonempty {atoms ranges} (h : Derives .NonemptyClassRanges atoms ranges) :
    Derives .ClassRanges atoms ranges
  | atom (a) : Derives .NonemptyClassRanges [a] [.single a]
  | cons (a) {atoms ranges} (h : Derives .NonemptyClassRangesNoDash atoms ranges) :
    Derives .NonemptyClassRanges (a :: atoms) (.single a :: ranges)
  | range (a b) {atoms ranges} (h : Derives .ClassRanges atoms ranges) :
    Derives .NonemptyClassRanges (a :: hyphen :: b :: atoms) (.range a b :: ranges)
  | atomNoDash (a) : Derives .NonemptyClassRangesNoDash [a] [.single a]
  | consNoDash {a atoms ranges} (ha : a ≠ hyphen)
    (h : Derives .NonemptyClassRangesNoDash atoms ranges) :
    Derives .NonemptyClassRangesNoDash (a :: atoms) (.single a :: ranges)
  | rangeNoDash {a} (b) {atoms ranges} (ha : a ≠ hyphen) (h : Derives .ClassRanges atoms ranges) :
    Derives .NonemptyClassRangesNoDash (a :: hyphen :: b :: atoms) (.range a b :: ranges)

/-- The early errors: a range out of order, and in a Unicode pattern a class as an endpoint. -/
def ClassRange.isError (isUnicode : Bool) : ClassRange → Bool
  | .single _ => false
  | .range (.character lo _) (.character hi _) => hi < lo
  | .range _ _ => isUnicode

theorem derives_nonempty (a : ClassAtom) (atoms : List ClassAtom) :
    (∃ ranges, Derives .NonemptyClassRanges (a :: atoms) ranges) ∧
      (a ≠ hyphen ∨ atoms = [] → ∃ ranges, Derives .NonemptyClassRangesNoDash (a :: atoms)
        ranges) := by
  induction hn : atoms.length using Nat.strong_induction_on generalizing a atoms with
  | _ n ih =>
    match atoms with
    | [] => exact ⟨⟨_, .atom a⟩, fun _ => ⟨_, .atomNoDash a⟩⟩
    | b :: rest =>
      have hlength : rest.length < n := by
        rw [← hn]
        exact Nat.lt_succ_self _
      by_cases hb : b ≠ hyphen ∨ rest = []
      · obtain ⟨ranges, h⟩ := (ih _ hlength b rest rfl).2 hb
        exact ⟨⟨_, .cons a h⟩, fun ha => ⟨_, .consNoDash (ha.resolve_right (by simp)) h⟩⟩
      · obtain ⟨rfl, hrest⟩ := not_or.mp hb |>.imp_left not_not.mp
        obtain ⟨c, rest, rfl⟩ := List.exists_cons_of_ne_nil hrest
        obtain ⟨ranges, h⟩ : ∃ ranges, Derives .ClassRanges rest ranges := by
          match rest with
          | [] => exact ⟨_, .empty⟩
          | d :: rest =>
            obtain ⟨ranges, h⟩ := (ih rest.length (by simp at hlength; omega) d rest rfl).1
            exact ⟨ranges, .nonempty h⟩
        exact ⟨⟨_, .range a c h⟩, fun ha => ⟨_, .rangeNoDash c (ha.resolve_right (by simp)) h⟩⟩

theorem derives_classRanges (atoms : List ClassAtom) :
    ∃ ranges, Derives .ClassRanges atoms ranges := by
  cases atoms with
  | nil => exact ⟨_, .empty⟩
  | cons a atoms =>
    obtain ⟨ranges, h⟩ := (derives_nonempty a atoms).1
    exact ⟨ranges, .nonempty h⟩

/-! ## The calls of a range -/

def ClassAtom.calls : ClassAtom → List DelegateCall
  | .character ch _ => [.atomCharacterClassAtom ch]
  | .builtIn classID invert => [.atomCharacterClassBuiltIn classID invert]

def ClassRange.calls : ClassRange → List DelegateCall
  | .single a => a.calls
  | .range (.character lo _) (.character hi _) => [.atomCharacterClassRange lo hi]
  | .range a b => a.calls ++ .atomCharacterClassAtom hyphenMinus :: b.calls

variable {d d' : CharacterClassParserDelegate} {a : ClassAtom} {isUnicode : Bool}
variable {atoms : List ClassAtom} {ranges : List ClassRange}

/-- The calls that are made or held back. -/
def total (d : CharacterClassParserDelegate) : List DelegateCall :=
  match d.m_state with
  | .CachedCharacter => d.m_delegate ++ [.atomCharacterClassAtom d.m_character]
  | .CachedCharacterHyphen => d.m_delegate ++
    [.atomCharacterClassAtom d.m_character, .atomCharacterClassAtom hyphenMinus]
  | _ => d.m_delegate

theorem end_calls (d : CharacterClassParserDelegate) :
    d.end_.m_delegate = total d ++ [.atomCharacterClassEnd] ∧
      d.end_.m_errorCode = d.m_errorCode := by
  unfold end_ total
  cases d.m_state <;> simp [report]

/-- The states in which the atoms that a nonterminal derives are read. -/
def Ready (d : CharacterClassParserDelegate) : Nonterminal → Prop
  | .NonemptyClassRangesNoDash => d.m_state = .CachedCharacter ∨ d.m_state = .AfterCharacterClass
  | _ => d.m_state = .Empty

/-- The atom does not end a range. -/
def Starts (d : CharacterClassParserDelegate) (a : ClassAtom) : Prop :=
  d.m_state = .Empty ∨ Ready d .NonemptyClassRangesNoDash ∧ a ≠ hyphen

/-- The atom `a` has been read since `d`, and may be the start of a range. -/
structure Reads (d : CharacterClassParserDelegate) (a : ClassAtom)
    (d' : CharacterClassParserDelegate) : Prop where
  errorCode : d'.m_errorCode = none
  isUnicode : d'.m_isUnicode = d.m_isUnicode
  made : match a with
    | .character ch _ =>
      d'.m_state = .CachedCharacter ∧ d'.m_character = ch ∧ d'.m_delegate = total d
    | .builtIn _ _ => d'.m_state = .AfterCharacterClass ∧ d'.m_delegate = total d ++ a.calls

theorem total_of_reads (h : Reads d a d') : total d' = total d ++ a.calls := by
  have hmade := h.made
  unfold total
  cases a with
  | character ch escaped => rw [hmade.1, hmade.2.1, hmade.2.2]; rfl
  | builtIn classID invert => rw [hmade.1, hmade.2]; rfl

theorem ready_of_reads (h : Reads d a d') : Ready d' .NonemptyClassRangesNoDash := by
  have hmade := h.made
  cases a with
  | character ch escaped => exact Or.inl hmade.1
  | builtIn classID invert => exact Or.inr hmade.1

theorem reads_feed (herror : d.m_errorCode = none) (h : Starts d a) : Reads d a (feed d a) := by
  rcases h with hstate | ⟨hstate | hstate, ha⟩
  · cases a <;> constructor <;>
      simp [feed, atomPatternCharacter, atomBuiltInCharacterClass, addBuiltIn, report,
        total, hstate,
        herror, ClassAtom.calls]
  all_goals
    cases a with
    | character ch escaped =>
      have hne : ¬ (escaped = false ∧ ch = hyphenMinus) := by
        rintro ⟨rfl, rfl⟩
        exact ha rfl
      constructor <;> simp [feed, atomPatternCharacter, hstate, hne, report, total, herror]
    | builtIn classID invert =>
      constructor <;>
        simp [feed, atomBuiltInCharacterClass, addBuiltIn, hstate, report, total, herror,
          ClassAtom.calls]

/-- A hyphen after an atom is held back with it, or reported after a class. -/
theorem feed_hyphen (h : Ready d .NonemptyClassRangesNoDash) :
    (feed d hyphen).m_errorCode = d.m_errorCode ∧ total (feed d hyphen) = total d ++
      hyphen.calls := by
  rcases h with h | h <;>
    simp [feed, hyphen, atomPatternCharacter, h, total, report, ClassAtom.calls]

theorem feed_last (h : Reads d a d') (b : ClassAtom) {d'' : CharacterClassParserDelegate}
    (hd : d'' = feed (feed d' hyphen) b) :
    if (ClassRange.range a b).isError d.m_isUnicode then d''.m_errorCode ≠ none
    else d''.m_errorCode = none ∧ d''.m_isUnicode = d.m_isUnicode ∧ d''.m_state = .Empty ∧
      d''.m_delegate = total d ++ (ClassRange.range a b).calls := by
  have hmade := h.made
  have herror := h.errorCode
  have hunicode := h.isUnicode
  cases a with
  | character lo escaped =>
    obtain ⟨hstate, hch, hcalls⟩ := hmade
    have hhyphen : feed d' hyphen = { d' with m_state := .CachedCharacterHyphen } := by
      simp [feed, hyphen, atomPatternCharacter, hstate]
    rw [hd, hhyphen]
    cases b with
    | character hi escaped' =>
      by_cases hlt : hi < lo <;>
        simp [feed, atomPatternCharacter, ClassRange.isError, hch, hlt, report, herror, hunicode,
          hcalls, ClassRange.calls]
    | builtIn classID invert =>
      cases hu : d.m_isUnicode <;>
        simp [feed, atomBuiltInCharacterClass, addBuiltInAfterHyphen, ClassRange.isError, hch,
          hunicode, hu, report, herror, hcalls, ClassRange.calls, ClassAtom.calls]
  | builtIn classID invert =>
    obtain ⟨hstate, hcalls⟩ := hmade
    have hhyphen : feed d' hyphen = { d'.report (.atomCharacterClassAtom hyphenMinus) with
        m_state := .AfterCharacterClassHyphen } := by
      simp [feed, hyphen, atomPatternCharacter, hstate]
    rw [hd, hhyphen]
    cases b <;> cases hu : d.m_isUnicode <;>
      simp [feed, atomPatternCharacter, atomBuiltInCharacterClass, addBuiltInAfterHyphen,
        ClassRange.isError, hunicode, hu, report, herror, hcalls, ClassRange.calls, ClassAtom.calls]

/-! ## Runs -/

/-- What becomes of the ranges of a derivation: an error, or their calls. -/
def Outcome (isUnicode : Bool) (calls : List DelegateCall) (ranges : List ClassRange)
    (result : CharacterClassParserDelegate) : Prop :=
  if ranges.any (ClassRange.isError isUnicode) then result.m_errorCode ≠ none
  else result.m_errorCode = none ∧
    result.m_delegate = calls ++ ranges.flatMap ClassRange.calls ++ [.atomCharacterClassEnd]

/-- The atoms that follow have the outcome of the ranges. -/
def Continues (nonterminal : Nonterminal) (atoms : List ClassAtom) (ranges : List ClassRange) :
    Prop :=
  ∀ d, d.m_errorCode = none → Ready d nonterminal →
    Outcome d.m_isUnicode (total d) ranges (parseAtoms d atoms)

theorem outcome_end (herror : d.m_errorCode = none) :
    Outcome isUnicode (total d) [] (parseAtoms d []) := by
  refine ⟨(end_calls d).2.trans herror, ?_⟩
  rw [parseAtoms, (end_calls d).1]
  simp

theorem outcome_single {calls : List DelegateCall}
    (h : Outcome isUnicode (calls ++ a.calls) ranges d) :
    Outcome isUnicode calls (.single a :: ranges) d := by
  unfold Outcome at h ⊢
  simpa [ClassRange.isError, ClassRange.calls] using h

theorem parseAtoms_cons (h : (feed d a).m_errorCode = none) :
    parseAtoms d (a :: atoms) = parseAtoms (feed d a) atoms := by
  simp [parseAtoms, h]

theorem outcome_cons (herror : d.m_errorCode = none) (h : Starts d a)
    (hrest : Continues .NonemptyClassRangesNoDash atoms ranges) :
    Outcome d.m_isUnicode (total d) (.single a :: ranges) (parseAtoms d (a :: atoms)) := by
  have hreads := reads_feed herror h
  rw [parseAtoms_cons hreads.errorCode]
  refine outcome_single ?_
  rw [← total_of_reads hreads, ← hreads.isUnicode]
  exact hrest _ hreads.errorCode (ready_of_reads hreads)

theorem outcome_range (herror : d.m_errorCode = none) (h : Starts d a) (b : ClassAtom)
    (hrest : Continues .ClassRanges atoms ranges) :
    Outcome d.m_isUnicode (total d) (.range a b :: ranges)
      (parseAtoms d (a :: hyphen :: b :: atoms)) := by
  have hreads := reads_feed herror h
  have hhyphen := (feed_hyphen (ready_of_reads hreads)).1.trans hreads.errorCode
  rw [parseAtoms_cons hreads.errorCode, parseAtoms_cons hhyphen]
  have hlast := feed_last hreads b rfl
  by_cases hbad : (ClassRange.range a b).isError d.m_isUnicode = true
  · rw [if_pos hbad] at hlast
    rwa [Outcome, if_pos (by simp [hbad]), parseAtoms, if_pos (Option.isSome_iff_ne_none.mpr hlast)]
  · rw [if_neg hbad] at hlast
    obtain ⟨hnone, hunicode, hstate, hcalls⟩ := hlast
    have houtcome := hrest _ hnone hstate
    rw [parseAtoms_cons hnone]
    unfold total at houtcome
    unfold Outcome at houtcome ⊢
    rw [hstate, hcalls, hunicode] at houtcome
    simpa [hbad] using houtcome

/-- **The run along a derivation**, from any state in which its nonterminal may be read. -/
theorem Derives.continues {nonterminal : Nonterminal} (h : Derives nonterminal atoms ranges) :
    Continues nonterminal atoms ranges := by
  have hnil : Continues .NonemptyClassRangesNoDash [] [] := fun d herror _ => outcome_end herror
  induction h with
  | empty => exact fun d herror _ => outcome_end herror
  | nonempty h ih => exact ih
  | atom a => exact fun d herror hready => outcome_cons herror (.inl hready) hnil
  | cons a h ih => exact fun d herror hready => outcome_cons herror (.inl hready) ih
  | range a b h ih => exact fun d herror hready => outcome_range herror (.inl hready) b ih
  | atomNoDash a =>
    intro d herror hready
    by_cases ha : a = hyphen
    · -- the hyphen in front of the closing bracket
      obtain ⟨hnone, htotal⟩ := feed_hyphen hready
      rw [ha, parseAtoms_cons (hnone.trans herror)]
      refine outcome_single ?_
      rw [← htotal]
      exact outcome_end (hnone.trans herror)
    · exact outcome_cons herror (.inr ⟨hready, ha⟩) hnil
  | consNoDash ha h ih => exact fun d herror hready => outcome_cons herror (.inr ⟨hready, ha⟩) ih
  | rangeNoDash b ha h ih =>
    exact fun d herror hready => outcome_range herror (.inr ⟨hready, ha⟩) b ih

/-! ## The characters -/

section
variable (builtIn : BuiltInCharacterClassID → Set UChar32)

/-- The characters of a built-in class, or the others. -/
def builtInCharacters (classID : BuiltInCharacterClassID) (invert : Bool) : Set UChar32 :=
  if invert then (builtIn classID)ᶜ else builtIn classID

def DelegateCall.characters : DelegateCall → Set UChar32
  | .atomCharacterClassAtom ch => {ch}
  | .atomCharacterClassRange begin end_ => Set.Icc begin end_
  | .atomCharacterClassBuiltIn classID invert => builtInCharacters builtIn classID invert
  | _ => ∅

/-- The class that calls describe. -/
def describedClass : List DelegateCall → Set UChar32
  | .atomCharacterClassBegin true :: calls => {c | ∃ call ∈ calls, c ∈ call.characters builtIn}ᶜ
  | calls => {c | ∃ call ∈ calls, c ∈ call.characters builtIn}

def ClassAtom.characters : ClassAtom → Set UChar32
  | .character ch _ => {ch}
  | .builtIn classID invert => builtInCharacters builtIn classID invert

/-- `CharacterRangeOrUnion`: a range with a class as an endpoint is a union. -/
def ClassRange.characters : ClassRange → Set UChar32
  | .single a => a.characters builtIn
  | .range (.character lo _) (.character hi _) => Set.Icc lo hi
  | .range a b => a.characters builtIn ∪ b.characters builtIn ∪ {hyphenMinus}

/-- The class that the ranges between the brackets stand for. -/
def specifiedClass (invert : Bool) (ranges : List ClassRange) : Set UChar32 :=
  if invert then {c | ∃ r ∈ ranges, c ∈ r.characters builtIn}ᶜ
  else {c | ∃ r ∈ ranges, c ∈ r.characters builtIn}

theorem mem_calls_iff (r : ClassRange) (c : UChar32) :
    (∃ call ∈ r.calls, c ∈ call.characters builtIn) ↔ c ∈ r.characters builtIn := by
  rcases r with (a | a) | ⟨a | a, b | b⟩ <;>
    simp [ClassRange.calls, ClassAtom.calls, DelegateCall.characters, ClassRange.characters,
      ClassAtom.characters, or_assoc, or_left_comm, or_comm]

theorem describedClass_calls (invert : Bool) (ranges : List ClassRange) :
    describedClass builtIn (.atomCharacterClassBegin invert :: (ranges.flatMap ClassRange.calls ++
      [.atomCharacterClassEnd])) = specifiedClass builtIn invert ranges := by
  have hunion : ∀ c, (∃ call ∈ ranges.flatMap ClassRange.calls, c ∈ call.characters builtIn) ↔
      ∃ r ∈ ranges, c ∈ r.characters builtIn := by
    intro c
    simp only [List.mem_flatMap, ← mem_calls_iff]
    constructor
    · rintro ⟨call, ⟨r, hr, hcall⟩, hc⟩
      exact ⟨r, hr, call, hcall, hc⟩
    · rintro ⟨r, hr, call, hcall, hc⟩
      exact ⟨call, ⟨r, hr, hcall⟩, hc⟩
  cases invert <;> ext c <;>
    simp [describedClass, specifiedClass, DelegateCall.characters, ← hunion]
end

/-- **Character classes follow the grammar.** Every sequence of atoms has a derivation, and for any
derivation an error is raised if one of its ranges is one; if not, the calls on the delegate denote
the class of the ranges, whatever the built-in classes are. -/
theorem characterClass_follows_grammar (isUnicode invert : Bool) (atoms : List ClassAtom) :
    (∃ ranges, Derives .ClassRanges atoms ranges) ∧ ∀ ranges, Derives .ClassRanges atoms ranges →
      ((parseCharacterClass isUnicode invert atoms).m_errorCode ≠ none ↔
        ∃ r ∈ ranges, r.isError isUnicode = true) ∧
      ((∀ r ∈ ranges, r.isError isUnicode = false) → ∀ builtIn,
        describedClass builtIn (parseCharacterClass isUnicode invert atoms).m_delegate =
          specifiedClass builtIn invert ranges) := by
  refine ⟨derives_classRanges atoms, fun ranges h => ?_⟩
  have houtcome := h.continues (begin { m_isUnicode := isUnicode } invert) rfl rfl
  change Outcome isUnicode [.atomCharacterClassBegin invert] ranges
    (parseCharacterClass isUnicode invert atoms) at houtcome
  unfold Outcome at houtcome
  by_cases hbad : ranges.any (ClassRange.isError isUnicode) = true
  · rw [if_pos hbad] at houtcome
    rw [List.any_eq_true] at hbad
    refine ⟨iff_of_true houtcome hbad, fun hgood => ?_⟩
    obtain ⟨r, hr, herror⟩ := hbad
    rw [hgood r hr] at herror
    cases herror
  · rw [if_neg hbad] at houtcome
    rw [List.any_eq_true] at hbad
    refine ⟨iff_of_false (not_not.mpr houtcome.1) hbad, fun _ builtIn => ?_⟩
    rw [houtcome.2]
    exact describedClass_calls builtIn invert ranges

end JscAndroid.Yarr.ClassParser
