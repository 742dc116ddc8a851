import JscAndroid.Yarr.Coalescing

/-!
# Which characters a constructed class has

The calls of a `CharacterClassConstructor`, in any order and number, keep the four tables sorted
(`Sound`, `run_sound`). In a case-sensitive pattern each call adds to the table of a character just
the characters that it names (`Adds`), hence the finished class has just the characters of the
calls.
-/

namespace JscAndroid.Yarr.ClassTables

open Classes Canonicalize ClassConstructor SortedTables Coalescing List
open ClassConstructor.CharacterClassConstructor

variable {c : CharacterClassConstructor} {half : Half} {lo hi ch x : UChar32}
variable {ms : List UChar32} {rs : List CharacterRange} {s : Settings}

/-! ## The two halves -/

def Has (c : CharacterClassConstructor) (half : Half) (x : UChar32) : Prop :=
  x ∈ c.matchesOf half ∨ Covers (c.rangesOf half) x

structure Sound (c : CharacterClassConstructor) : Prop where
  sparse : ∀ half, Sparse (c.matchesOf half)
  separate : ∀ half, Separate (c.rangesOf half)

theorem sound_empty : Sound empty :=
  ⟨fun half => by cases half <;> exact List.Pairwise.nil, fun half => by cases half <;> exact .nil⟩

theorem matchesOf_setMatches (l : List UChar32) (half h : Half) :
    (c.setMatches l half).matchesOf h = if h = half then l else c.matchesOf h := by
  cases half <;> cases h <;> rfl

theorem rangesOf_setMatches (l : List UChar32) (half h : Half) :
    (c.setMatches l half).rangesOf h = c.rangesOf h := by
  cases half <;> cases h <;> rfl

theorem matchesOf_setRanges (l : List CharacterRange) (half h : Half) :
    (c.setRanges l half).matchesOf h = c.matchesOf h := by
  cases half <;> cases h <;> rfl

theorem rangesOf_setRanges (l : List CharacterRange) (half h : Half) :
    (c.setRanges l half).rangesOf h = if h = half then l else c.rangesOf h := by
  cases half <;> cases h <;> rfl

theorem sound_addWidths (hc : Sound c) (bmp nonBMP : Bool) : Sound (c.addWidths bmp nonBMP) :=
  ⟨fun h => by have := hc.sparse h; cases h <;> exact this,
    fun h => by have := hc.separate h; cases h <;> exact this⟩

theorem has_addWidths (bmp nonBMP : Bool) (h : Half) (x : UChar32) :
    Has (c.addWidths bmp nonBMP) h x ↔ Has c h x := by
  cases h <;> exact Iff.rfl

/-- What a step adds to each half of sound tables. -/
structure Adds (c c' : CharacterClassConstructor) (A : Half → UChar32 → Prop) : Prop where
  sound : Sound c → Sound c'
  has : Sound c → ∀ h x, Has c' h x ↔ Has c h x ∨ A h x

section
variable {c' c'' : CharacterClassConstructor} {A B : Half → UChar32 → Prop}

theorem Adds.nothing : Adds c c fun _ _ => False :=
  ⟨fun h => h, fun _ _ _ => (or_false _).symm ▸ Iff.rfl⟩

theorem Adds.trans (h : Adds c c' A) (h' : Adds c' c'' B) :
    Adds c c'' fun half x => A half x ∨ B half x :=
  ⟨fun hc => h'.sound (h.sound hc), fun hc half x => by
    rw [h'.has (h.sound hc), h.has hc, or_assoc]⟩

theorem Adds.congr (h : Adds c c' A) (hAB : ∀ half x, A half x ↔ B half x) : Adds c c' B :=
  ⟨h.sound, fun hc half x => by rw [h.has hc, hAB]⟩

theorem adds_foldl {α : Type} {f : CharacterClassConstructor → α → CharacterClassConstructor}
    {A : α → Half → UChar32 → Prop} : ∀ {l : List α} (c : CharacterClassConstructor),
    (∀ a ∈ l, ∀ c, Adds c (f c a) (A a)) → Adds c (l.foldl f c) fun half x => ∃ a ∈ l, A a half x
  | [], c, _ => Adds.nothing.congr fun _ _ => by simp
  | a :: l, c, h => by
    refine ((h a (mem_cons_self ..) c).trans
      (adds_foldl (f c a) fun b hb => h b (mem_cons_of_mem _ hb))).congr fun half x => ?_
    simp only [mem_cons, exists_eq_or_imp]
end

/-! ## Characters and ranges -/

theorem addSortedRange_adds (c : CharacterClassConstructor) (half : Half) (hlh : lo ≤ hi) :
    Adds c (c.addSortedRange half lo hi) fun h x => h = half ∧ lo ≤ x ∧ x ≤ hi := by
  unfold addSortedRange
  refine ⟨fun hc => ⟨fun h => ?_, fun h => ?_⟩, fun hc h x => ?_⟩
  all_goals have hc' := sound_addWidths hc (isBMP lo) !isBMP hi
  · rw [matchesOf_setRanges]
    exact hc'.sparse h
  · rw [rangesOf_setRanges]
    split_ifs
    · exact (insertRange_spec hlh (hc'.separate half)).1
    · exact hc'.separate h
  · rw [← has_addWidths (c := c) (isBMP lo) (!isBMP hi)]
    unfold Has
    rw [matchesOf_setRanges, rangesOf_setRanges, or_assoc]
    refine or_congr_right ?_
    split_ifs with hh
    · rw [hh, (insertRange_spec hlh (hc'.separate half)).2.2, or_comm]
      simp
    · simp [hh]

/-- A character is looked for and kept in the matches of `half`, but a range that it makes with its
neighbours goes where the character belongs. -/
theorem addSorted_sound (hc : Sound c) : Sound (c.addSorted half ch) ∧
    (half = halfOf ch → ∀ h x, Has (c.addSorted half ch) h x ↔ Has c h x ∨ h = half ∧ x = ch) := by
  simp only [addSorted, ← has_addWidths (c := c) (isBMP ch) (!isBMP ch)]
  generalize hcw : c.addWidths (isBMP ch) (!isBMP ch) = c'
  replace hc : Sound c' := hcw ▸ sound_addWidths hc _ _
  have htells : Tells (c'.matchesOf half) ch _ := chop_spec (hc.sparse half) _ le_rfl
    (by rw [zero_add]; exact Arith.Bisection.Bracket.start)
  revert htells
  cases chop (c'.matchesOf half) ch (c'.matchesOf half).length 0 (c'.matchesOf half).length with
  | present =>
    refine fun htells => ⟨hc, fun _ h x => ⟨Or.inl, ?_⟩⟩
    rintro (hx | ⟨rfl, rfl⟩)
    · exact hx
    · exact Or.inl htells
  | place pos =>
    rintro ⟨hsparse, hmem⟩
    refine ⟨⟨fun h => ?_, fun h => ?_⟩, fun _ h x => ?_⟩
    · rw [matchesOf_setMatches]
      split_ifs
      · exact hsparse
      · exact hc.sparse h
    · rw [rangesOf_setMatches]
      exact hc.separate h
    · unfold Has
      rw [matchesOf_setMatches, rangesOf_setMatches]
      split_ifs with hh
      · rw [hmem, hh]
        tauto
      · simp [hh]
  | join rest low high =>
    rintro ⟨hsub, hle, hmem⟩
    have hsound : Sound (c'.setMatches rest half) := by
      refine ⟨fun h => ?_, fun h => (rangesOf_setMatches rest half h).symm ▸ hc.separate h⟩
      rw [matchesOf_setMatches]
      split_ifs
      · exact (hc.sparse half).sublist hsub
      · exact hc.sparse h
    have hadds := addSortedRange_adds (c'.setMatches rest half) (halfOf ch) hle
    refine ⟨hadds.sound hsound, fun hhalf h x => ?_⟩
    rw [hadds.has hsound, ← hhalf]
    unfold Has
    rw [matchesOf_setMatches, rangesOf_setMatches]
    split_ifs with hh
    · subst hh
      have := hmem x
      tauto
    · simp [hh]

theorem addSorted_adds (c : CharacterClassConstructor) (h : halfOf ch = half) :
    Adds c (c.addSorted half ch) fun h x => h = half ∧ x = ch :=
  ⟨fun hc => (addSorted_sound hc).1, fun hc => (addSorted_sound hc).2 h.symm⟩

/-! ## Argument classes -/

/-- Tables in increasing order, of characters from `lo` to `hi`: disjoint, with no match inside a
range. Ranges may touch one another and matches. -/
structure Ordered (lo hi : UChar32) (ms : List UChar32) (rs : List CharacterRange) : Prop where
  increasing : ms.Pairwise (· < ·)
  le : ∀ r ∈ rs, r.begin ≤ r.end_
  disjoint : rs.Pairwise fun r q => r.end_ < q.begin
  notCovered : ∀ m ∈ ms, ¬ Covers rs m
  bounds : ∀ x, x ∈ ms ∨ Covers rs x → lo ≤ x ∧ x ≤ hi

/-- The tables of a class: ASCII characters in one half, the other code points in the other. -/
structure OrderedTables (other : CharacterClass) : Prop where
  ascii : Ordered 0 0x7f other.m_matches other.m_ranges
  unicode : Ordered 0x80 0x10ffff other.m_matchesUnicode other.m_rangesUnicode

/-- A character belongs to a class if it is in the tables that it selects. -/
def Belongs (other : CharacterClass) (ch : UChar32) : Prop :=
  if isASCII ch then ch ∈ other.m_matches ∨ Covers other.m_ranges ch
  else ch ∈ other.m_matchesUnicode ∨ Covers other.m_rangesUnicode ch

theorem isASCII_iff : isASCII x = true ↔ x ≤ 0x7f := by
  rw [isASCII, decide_eq_true_iff]
  exact Nat.lt_succ_iff

theorem halfOf_ascii (h : x ≤ 0x7f) : halfOf x = .ascii := if_pos (isASCII_iff.mpr h)

theorem halfOf_unicode (h : 0x80 ≤ x) : halfOf x = .unicode :=
  if_neg (mt isASCII_iff.mp (Nat.not_le.mpr h))

/-- What is between the entries of a table. -/
def Gap (lo hi : UChar32) (ms : List UChar32) (rs : List CharacterRange) (x : UChar32) : Prop :=
  lo ≤ x ∧ x ≤ hi ∧ ¬ (x ∈ ms ∨ Covers rs x)

theorem Ordered.tail_match {m : UChar32} (h : Ordered lo hi (m :: ms) rs)
    (hm : ∀ y, Covers rs y → m < y) : Ordered (m + 1) hi ms rs ∧ m ≤ hi ∧
      ∀ x, Gap lo hi (m :: ms) rs x ↔ lo ≤ x ∧ x < m ∨ Gap (m + 1) hi ms rs x := by
  obtain ⟨hlt, hinc⟩ := pairwise_cons.mp h.increasing
  have hb := h.bounds m (Or.inl (mem_cons_self ..))
  have hgt : ∀ y, y ∈ ms ∨ Covers rs y → m < y := fun y hy => hy.elim (hlt y) (hm y)
  refine ⟨⟨hinc, h.le, h.disjoint, fun a ha => h.notCovered a (mem_cons_of_mem _ ha),
    fun y hy => ⟨hgt y hy, (h.bounds y (hy.imp_left (mem_cons_of_mem _))).2⟩⟩, hb.2,
    fun x => ?_⟩
  unfold Gap
  grind

theorem Ordered.tail_range {r : CharacterRange} (h : Ordered lo hi ms (r :: rs))
    (hm : ∀ m ∈ ms, r.end_ < m) : Ordered (r.end_ + 1) hi ms rs ∧ r.begin ≤ hi ∧
      ∀ x, Gap lo hi ms (r :: rs) x ↔ lo ≤ x ∧ x < r.begin ∨ Gap (r.end_ + 1) hi ms rs x := by
  obtain ⟨hlt, hdis⟩ := pairwise_cons.mp h.disjoint
  have hr := h.le r (mem_cons_self ..)
  have hb := h.bounds r.begin (Or.inr ⟨r, mem_cons_self .., le_rfl, hr⟩)
  have hgt : ∀ y, y ∈ ms ∨ Covers rs y → r.end_ < y := by
    rintro y (hy | ⟨q, hq, h1, -⟩)
    · exact hm y hy
    · exact lt_of_lt_of_le (hlt q hq) h1
  refine ⟨⟨h.increasing, fun q hq => h.le q (mem_cons_of_mem _ hq), hdis,
    fun a ha hc => h.notCovered a ha (covers_cons.mpr (Or.inr hc)),
    fun y hy => ⟨hgt y hy, (h.bounds y (hy.imp_right fun hc => covers_cons.mpr (Or.inr hc))).2⟩⟩,
    hb.2, fun x => ?_⟩
  unfold Gap
  rw [covers_cons]
  grind

section
variable {max : UChar32} (hhalf : ∀ x, lo ≤ x → x ≤ max → halfOf x = half)
include hhalf

theorem addSortedMatchOrRange_adds (c : CharacterClassConstructor) {hiPlusOne : UChar32}
    (hmax : hiPlusOne ≤ max + 1) : Adds c (c.addSortedMatchOrRange half lo hiPlusOne)
      fun h x => h = half ∧ lo ≤ x ∧ x < hiPlusOne := by
  unfold addSortedMatchOrRange
  split_ifs with hlt hone
  · exact (addSorted_adds c (hhalf lo le_rfl (by lia))).congr fun h x => by grind
  · exact (addSortedRange_adds c half (by lia)).congr fun h x => by grind
  · exact Adds.nothing.congr fun h x => by grind
end

theorem addSortedInvertedLoop_adds {max : UChar32} : ∀ (fuel : ℕ) {ms : List UChar32}
    {rs : List CharacterRange} {lo : UChar32} (c : CharacterClassConstructor),
    ms.length + rs.length ≤ fuel → Ordered lo max ms rs →
    (∀ x, lo ≤ x → x ≤ max → halfOf x = half) →
    Adds c (addSortedInvertedLoop half max fuel ms rs lo c)
      fun h x => h = half ∧ Gap lo max ms rs x := by
  intro fuel
  induction fuel with
  | zero =>
    intro ms rs lo c hf hord hhalf
    have hms : ms = [] := length_eq_zero_iff.mp (by omega)
    have hrs : rs = [] := length_eq_zero_iff.mp (by omega)
    subst hms hrs
    refine (addSortedMatchOrRange_adds hhalf c le_rfl).congr fun h x => ?_
    simp [Gap]
  | succ fuel ih =>
    intro ms rs lo c hf hord hhalf
    -- what is left after the smallest match, or after the smallest range
    have hmatch : ∀ {m ms}, ms.length + rs.length ≤ fuel → Ordered lo max (m :: ms) rs →
        (∀ y, Covers rs y → m < y) →
        Adds c (addSortedInvertedLoop half max fuel ms rs (m + 1)
          (c.addSortedMatchOrRange half lo m))
          fun h x => h = half ∧ Gap lo max (m :: ms) rs x := by
      intro m ms hf hord hm
      obtain ⟨hord', hmax, hgap⟩ := hord.tail_match hm
      have hlo := (hord.bounds m (Or.inl (mem_cons_self ..))).1
      refine ((addSortedMatchOrRange_adds hhalf c (by lia)).trans
        (ih _ hf hord' fun x h1 h2 => hhalf x (by lia) h2)).congr fun h x => ?_
      rw [hgap, ← and_or_left]
    have hrange : ∀ {r rs}, ms.length + rs.length ≤ fuel → Ordered lo max ms (r :: rs) →
        (∀ m ∈ ms, r.end_ < m) →
        Adds c (addSortedInvertedLoop half max fuel ms rs (r.end_ + 1)
          (c.addSortedMatchOrRange half lo r.begin))
          fun h x => h = half ∧ Gap lo max ms (r :: rs) x := by
      intro r rs hf hord hm
      obtain ⟨hord', hmax, hgap⟩ := hord.tail_range hm
      have hr := hord.le r (mem_cons_self ..)
      have hlo := (hord.bounds r.begin (Or.inr ⟨r, mem_cons_self .., le_rfl, hr⟩)).1
      refine ((addSortedMatchOrRange_adds hhalf c (by lia)).trans
        (ih _ hf hord' fun x h1 h2 => hhalf x (by lia) h2)).congr fun h x => ?_
      rw [hgap, ← and_or_left]
    match ms, rs with
    | [], [] =>
      refine (addSortedMatchOrRange_adds hhalf c le_rfl).congr fun h x => ?_
      simp [Gap]
    | m :: ms, [] => exact hmatch (by simpa using hf) hord (by simp)
    | [], r :: rs => exact hrange (by simpa using hf) hord (by simp)
    | m :: ms, r :: rs =>
      obtain ⟨hlt, -⟩ := pairwise_cons.mp hord.increasing
      obtain ⟨hdis, -⟩ := pairwise_cons.mp hord.disjoint
      have hr := hord.le r (mem_cons_self ..)
      simp only [length_cons] at hf
      rw [addSortedInvertedLoop]
      split_ifs with hfirst
      · refine hmatch (by simp only [length_cons]; omega) hord ?_
        rintro y ⟨q, hq, h1, -⟩
        rcases mem_cons.mp hq with rfl | hq
        · lia
        · have := hdis q hq
          lia
      · refine hrange (by simp only [length_cons]; omega) hord fun a ha => ?_
        have hm : r.end_ < m := by
          by_contra hle
          exact hord.notCovered m (mem_cons_self ..)
            ⟨r, mem_cons_self .., by lia, by lia⟩
        rcases mem_cons.mp ha with rfl | ha
        · exact hm
        · exact lt_trans hm (hlt a ha)

/-! ## The calls -/

inductive Call
  | putChar (ch : UChar32)
  | putRange (lo hi : UChar32)
  | append (other : CharacterClass)
  | appendInverted (other : CharacterClass)

variable {calls : List Call}

namespace Call

def apply (s : Settings) (c : CharacterClassConstructor) : Call → CharacterClassConstructor
  | .putChar ch => c.putChar s ch
  | .putRange lo hi => c.putRange s lo hi
  | .append other => c.append other
  | .appendInverted other => c.appendInverted other

/-- What the callers keep to. -/
def Valid : Call → Prop
  | .putChar _ => True
  | .putRange lo hi => lo ≤ hi
  | .append other | .appendInverted other => OrderedTables other

/-- The characters a call stands for; to invert a class is to take the other code points. -/
def Puts : Call → UChar32 → Prop
  | .putChar ch, x => x = ch
  | .putRange lo hi, x => lo ≤ x ∧ x ≤ hi
  | .append other, x => Belongs other x
  | .appendInverted other, x => x ≤ 0x10ffff ∧ ¬ Belongs other x

end Call

/-- A constructor after some calls. -/
def run (s : Settings) (calls : List Call) : CharacterClassConstructor :=
  calls.foldl (Call.apply s) empty

section
variable {s : Settings}

theorem putRange_adds (hs : s.m_isCaseInsensitive = false) (c : CharacterClassConstructor)
    (hlh : lo ≤ hi) : Adds c (c.putRange s lo hi) fun h x => h = halfOf x ∧ lo ≤ x ∧ x ≤ hi := by
  have hascii : ∀ c : CharacterClassConstructor,
      Adds c (if isASCII lo then c.putASCIIRange s lo hi else c)
        fun h x => h = .ascii ∧ lo ≤ x ∧ x ≤ min hi 0x7f := by
    intro c
    rw [putASCIIRange, isASCII, hs]
    by_cases hlo : lo < 0x80
    · rw [if_pos (decide_eq_true hlo)]
      exact addSortedRange_adds c .ascii (by grind)
    · rw [if_neg (by simpa using hlo)]
      exact Adds.nothing.congr fun h x => by grind
  rw [putRange, hs]
  by_cases hhi : isASCII hi
  · rw [if_pos hhi]
    unfold isASCII at hhi
    refine (hascii c).congr fun h x => ?_
    have := halfOf_ascii (x := x)
    grind
  · rw [if_neg hhi]
    unfold isASCII at hhi
    refine ((hascii c).trans (addSortedRange_adds _ .unicode (by grind))).congr fun h x => ?_
    have := halfOf_ascii (x := x)
    have := halfOf_unicode (x := x)
    grind

theorem putChar_adds (hs : s.m_isCaseInsensitive = false) (c : CharacterClassConstructor)
    (ch : UChar32) : Adds c (c.putChar s ch) fun h x => h = halfOf x ∧ x = ch := by
  rw [putChar, hs]
  refine (addSorted_adds c rfl).congr fun h x => ?_
  constructor
  · rintro ⟨rfl, rfl⟩
    exact ⟨rfl, rfl⟩
  · rintro ⟨rfl, rfl⟩
    exact ⟨rfl, rfl⟩
end

section
variable {other : CharacterClass} (h : OrderedTables other)
include h

theorem belongs_iff (half : Half) (x : UChar32) : half = halfOf x ∧ Belongs other x ↔
    half = .ascii ∧ (x ∈ other.m_matches ∨ Covers other.m_ranges x) ∨
      half = .unicode ∧ (x ∈ other.m_matchesUnicode ∨ Covers other.m_rangesUnicode x) := by
  have h1 := h.ascii.bounds x
  have h2 := h.unicode.bounds x
  unfold Belongs
  by_cases hx : x ≤ 0x7f
  · rw [halfOf_ascii hx, if_pos (isASCII_iff.mpr hx)]
    grind
  · rw [halfOf_unicode (by lia), if_neg (mt isASCII_iff.mp hx)]
    grind

theorem append_adds (c : CharacterClassConstructor) :
    Adds c (c.append other) fun half x => half = halfOf x ∧ Belongs other x := by
  have hmatches : ∀ {ms : List UChar32} {half}, (∀ m ∈ ms, halfOf m = half) → ∀ c,
      Adds c (ms.foldl (fun c ch => c.addSorted half ch) c) fun h x => h = half ∧ x ∈ ms := by
    intro ms half hms c
    refine (adds_foldl (A := fun m h x => h = half ∧ x = m) c
      fun m hm c => addSorted_adds c (hms m hm)).congr fun h x => ?_
    grind
  have hranges : ∀ {rs : List CharacterRange} {half}, (∀ r ∈ rs, r.begin ≤ r.end_) → ∀ c,
      Adds c (rs.foldl (fun c r => c.addSortedRange half r.begin r.end_) c)
        fun h x => h = half ∧ Covers rs x := by
    intro rs half hrs c
    refine (adds_foldl (A := fun r h x => h = half ∧ r.begin ≤ x ∧ x ≤ r.end_) c
      fun r hr c => addSortedRange_adds c half (hrs r hr)).congr fun h x => ?_
    unfold Covers
    grind
  refine (((hmatches (fun m hm => halfOf_ascii (h.ascii.bounds m (Or.inl hm)).2) c).trans
    (hranges h.ascii.le _)).trans ((hmatches (fun m hm =>
    halfOf_unicode (h.unicode.bounds m (Or.inl hm)).1) _).trans (hranges h.unicode.le _))).congr ?_
  intro half x
  rw [belongs_iff h, and_or_left, and_or_left]

theorem appendInverted_adds (c : CharacterClassConstructor) : Adds c (c.appendInverted other)
    fun half x => half = halfOf x ∧ x ≤ 0x10ffff ∧ ¬ Belongs other x := by
  refine ((addSortedInvertedLoop_adds _ c le_rfl h.ascii fun x _ hx => halfOf_ascii hx).trans
    (addSortedInvertedLoop_adds _ _ le_rfl h.unicode fun x hx _ => halfOf_unicode hx)).congr ?_
  intro half x
  unfold Gap Belongs
  by_cases hx : x ≤ 0x7f
  · rw [halfOf_ascii hx, if_pos (isASCII_iff.mpr hx)]
    grind
  · rw [halfOf_unicode (by lia), if_neg (mt isASCII_iff.mp hx)]
    grind
end

section
variable (hs : s.m_isCaseInsensitive = false) (h : ∀ call ∈ calls, call.Valid)
include hs h

theorem run_adds :
    Adds empty (run s calls) fun half x => half = halfOf x ∧ ∃ call ∈ calls, call.Puts x := by
  refine (adds_foldl (A := fun call half x => half = halfOf x ∧ call.Puts x) empty
    fun call hcall c => ?_).congr fun half x => by grind
  have hvalid := h call hcall
  cases call with
  | putChar ch => exact putChar_adds hs c ch
  | putRange lo hi => exact putRange_adds hs c hvalid
  | append other => exact append_adds hvalid c
  | appendInverted other => exact appendInverted_adds hvalid c

theorem run_has (half : Half)
    (x : UChar32) : Has (run s calls) half x ↔ half = halfOf x ∧ ∃ call ∈ calls, call.Puts x := by
  have hempty : ¬ Has empty half x := by
    cases half <;> simp [Has, empty, matchesOf, rangesOf]
  rw [(run_adds hs h).has sound_empty, or_iff_right hempty]
end

/-! ## The finished class -/

theorem charClass_sound (hc : Sound c) :
    Sparse c.charClass.m_matches ∧ Separate c.charClass.m_ranges ∧
      Sparse c.charClass.m_matchesUnicode ∧ Separate c.charClass.m_rangesUnicode ∧
      ∀ x, Belongs c.charClass x ↔ Has c (halfOf x) x := by
  obtain ⟨h1, h2, h3⟩ := coalesce_spec (hc.sparse .ascii) (hc.separate .ascii)
  obtain ⟨h4, h5, h6⟩ := coalesce_spec (hc.sparse .unicode) (hc.separate .unicode)
  refine ⟨h1, h2, h4, h5, fun x => ?_⟩
  unfold Belongs
  by_cases hx : x ≤ 0x7f
  · rw [halfOf_ascii hx, if_pos (isASCII_iff.mpr hx)]
    exact h3 x
  · rw [halfOf_unicode (Nat.lt_of_not_le hx), if_neg (mt isASCII_iff.mp hx)]
    exact h6 x

theorem anyCharacter_iff : c.charClass.m_anyCharacter = true ↔
    c.charClass.m_matches = [] ∧ c.charClass.m_matchesUnicode = [] ∧
      c.charClass.m_ranges = [⟨0, 0x7f⟩] ∧ c.charClass.m_rangesUnicode = [⟨0x80, 0x10ffff⟩] :=
  decide_eq_true_iff

theorem belongs_of_anyCharacter (h : c.charClass.m_anyCharacter = true) (hx : x ≤ 0x10ffff) :
    Belongs c.charClass x := by
  obtain ⟨-, -, h1, h2⟩ := anyCharacter_iff.mp h
  rw [Belongs, isASCII, h1, h2]
  split_ifs with hascii
  · exact Or.inr ⟨_, mem_singleton_self _, Nat.zero_le x, by dsimp only; grind⟩
  · exact Or.inr ⟨_, mem_singleton_self _, by dsimp only; grind, hx⟩

/-- The searches of `testCharacterClass` tell whether a character belongs to the class. -/
theorem testCharacterClass_iff (hc : Sound c) (hx : x ≤ 0x10ffff) :
    testCharacterClass c.charClass x = true ↔ Has c (halfOf x) x := by
  obtain ⟨h1, h2, h3, h4, h5⟩ := charClass_sound hc
  rw [← h5]
  unfold testCharacterClass
  by_cases hany : c.charClass.m_anyCharacter = true
  · rw [if_pos hany]
    exact iff_of_true rfl (belongs_of_anyCharacter hany hx)
  · unfold Belongs
    split_ifs
    · rw [Bool.or_eq_true, searchMatches_iff h1.increasing, searchRanges_iff h2]
    · rw [Bool.or_eq_true, searchMatches_iff h3.increasing, searchRanges_iff h4]

/-- **A case-sensitive class has just the characters of the calls**, and sorted tables. -/
theorem charClass_has_union_of_calls {s : Settings} (hs : s.m_isCaseInsensitive = false)
    (calls : List Call) (hcalls : ∀ call ∈ calls, call.Valid) : let cls := (run s calls).charClass
    (Separate cls.m_ranges ∧ Separate cls.m_rangesUnicode) ∧
      (cls.m_matches.Pairwise (· < ·) ∧ cls.m_matchesUnicode.Pairwise (· < ·)) ∧
      ∀ ch ≤ 0x10ffff, testCharacterClass cls ch = true ↔ ∃ call ∈ calls, call.Puts ch := by
  have hsound := (run_adds hs hcalls).sound sound_empty
  obtain ⟨h1, h2, h3, h4, -⟩ := charClass_sound hsound
  refine ⟨⟨h2, h4⟩, ⟨h1.increasing, h3.increasing⟩, fun ch hch => ?_⟩
  rw [testCharacterClass_iff hsound hch, run_has hs hcalls]
  simp only [true_and]

/-- A case-sensitive constructor. -/
def caseSensitive : Settings := ⟨false, .UCS2, ⟨[], []⟩⟩

/-- The class of `\d`. -/
def digits : CharacterClass := ⟨[], [⟨0x30, 0x39⟩], [], [], ⟨true, false⟩, false⟩

theorem orderedTables_digits : OrderedTables digits := by
  refine ⟨⟨.nil, ?_, pairwise_singleton .., by simp [digits], fun x hx => ?_⟩,
    ⟨.nil, by simp [digits], .nil, by simp [digits], by simp [digits]⟩⟩
  · simp [digits]
  · simp only [digits, not_mem_nil, covers_cons, not_covers_nil] at hx
    lia

theorem charClass_has_union_of_calls_word :
    (∀ call ∈ [Call.putChar 0x62, .putRange 0x61 0xe9, .append digits], call.Valid) ∧
      ∀ ch ≤ 0x10ffff, testCharacterClass (run caseSensitive [.putChar 0x62, .putRange 0x61 0xe9,
        .append digits]).charClass ch = true ↔
        ∃ call ∈ [Call.putChar 0x62, .putRange 0x61 0xe9, .append digits], call.Puts ch := by
  have hvalid : ∀ call ∈ [Call.putChar 0x62, .putRange 0x61 0xe9, .append digits], call.Valid := by
    intro call hcall
    simp only [mem_cons, not_mem_nil, or_false] at hcall
    rcases hcall with rfl | rfl | rfl
    · trivial
    · exact (by decide : 0x61 ≤ 0xe9)
    · exact orderedTables_digits
  exact ⟨hvalid, (charClass_has_union_of_calls rfl _ hvalid).2.2⟩

/-! ## Case-insensitive calls -/

/-- The intervals of a table follow one another without gaps. -/
structure Contiguous (table : CanonicalizationTable) : Prop where
  le : ∀ i < table.rangeInfo.length, (table.range i).begin ≤ (table.range i).end_
  next : ∀ i, i + 1 < table.rangeInfo.length →
    (table.range (i + 1)).begin = (table.range i).end_ + 1

section
variable {s : Settings}

theorem sound_addSortedRange (hc : Sound c) (hlh : lo ≤ hi) (half : Half) :
    Sound (c.addSortedRange half lo hi) :=
  (addSortedRange_adds c half hlh).sound hc

theorem sound_foldl {α : Type} {f : CharacterClassConstructor → α → CharacterClassConstructor} :
    ∀ {l : List α} {c : CharacterClassConstructor}, (∀ a ∈ l, ∀ c, Sound c → Sound (f c a)) →
      Sound c → Sound (l.foldl f c)
  | [], _, _, hc => hc
  | a :: l, c, h, hc => sound_foldl (l := l) (fun b hb => h b (mem_cons_of_mem _ hb))
      (h a (mem_cons_self ..) c hc)

theorem sound_putChar (hc : Sound c) (ch : UChar32) : Sound (c.putChar s ch) := by
  have hadd : ∀ {c half ch}, Sound c → Sound (c.addSorted half ch) := fun hc =>
    (addSorted_sound hc).1
  unfold putChar putUnicodeIgnoreCase
  split_ifs
  · exact hadd hc
  · exact hadd (hadd hc)
  · exact hadd hc
  · split
    · exact hc
    · dsimp only
      split_ifs
      · exact hadd hc
      · exact sound_foldl (fun _ _ _ hc => hadd hc) hc
      · exact hadd (hadd hc)

theorem sound_putInterval (hc : Sound c) (info : CanonicalizationRange) (h : lo ≤ hi) :
    Sound (c.putInterval s info lo hi) := by
  unfold putInterval
  split
  · exact hc
  · exact sound_foldl (fun _ _ _ hc => (addSorted_sound hc).1) hc
  · exact sound_addSortedRange hc (by lia) _
  · exact sound_addSortedRange hc (by lia) _
  all_goals
    split_ifs
    all_goals repeat refine sound_addSortedRange ?_ le_rfl _
    all_goals exact hc

theorem canonicalRangeInfoLoop_le {table : CanonicalizationTable} : ∀ (fuel info entries : ℕ)
    {index : ℕ}, table.canonicalRangeInfoLoop ch fuel info entries = some index →
    ch ≤ (table.range index).end_
  | 0, _, _, _, h => by simp [CanonicalizationTable.canonicalRangeInfoLoop] at h
  | fuel + 1, info, entries, index, h => by
    rw [CanonicalizationTable.canonicalRangeInfoLoop] at h
    split_ifs at h with _ hle
    · exact canonicalRangeInfoLoop_le fuel _ _ h
    · obtain rfl := Option.some.inj h
      exact hle
    · exact canonicalRangeInfoLoop_le fuel _ _ h

theorem sound_putIntervals (ht : Contiguous s.table) : ∀ (fuel : ℕ) {index : ℕ} {lo : UChar32}
    {c : CharacterClassConstructor}, Sound c → lo ≤ hi →
    (index < s.table.rangeInfo.length → lo ≤ (s.table.range index).end_) →
    Sound (putIntervals s fuel index lo hi c)
  | 0, _, _, _, hc, _, _ => hc
  | fuel + 1, index, lo, c, hc, hlh, hle => by
    rw [putIntervals]
    by_cases hindex : index < s.table.rangeInfo.length
    · have hput := sound_putInterval (s := s) hc (s.table.range index)
        (show lo ≤ min (s.table.range index).end_ hi by have := hle hindex; lia)
      split_ifs with hend
      · exact hput
      · by_cases hnext : index + 1 < s.table.rangeInfo.length
        · have h1 := ht.next index hnext
          exact sound_putIntervals ht fuel hput (by lia) fun _ => ht.le _ hnext
        · have hdefault : (s.table.range (index + 1)).begin = 0 := by
            rw [CanonicalizationTable.range, getD_eq_default _ _ (by omega)]
          exact sound_putIntervals ht fuel hput (by lia) fun h => absurd h hnext
    · -- past the table nothing is put
      have hdefault : ∀ i, index ≤ i → s.table.range i = ⟨0, 0, 0, .canonicalizeUnique⟩ :=
        fun i hi => getD_eq_default _ _ (by omega)
      have hsame : c.putInterval s (s.table.range index) lo
          (min (s.table.range index).end_ hi) = c := by
        rw [hdefault index le_rfl]
        rfl
      rw [hsame]
      split_ifs
      · exact hc
      · rw [hdefault (index + 1) (by omega)]
        exact sound_putIntervals ht fuel hc (Nat.zero_le _) fun h => absurd h (by omega)

theorem sound_putRange (ht : s.m_isCaseInsensitive = true → Contiguous s.table) (hc : Sound c)
    (hlh : lo ≤ hi) : Sound (c.putRange s lo hi) := by
  have hascii : Sound (if isASCII lo then c.putASCIIRange s lo hi else c) := by
    unfold putASCIIRange
    dsimp only
    split_ifs with hlo
    all_goals try have := isASCII_iff.mp hlo
    all_goals repeat refine sound_addSortedRange ?_ (by lia) _
    all_goals exact hc
  unfold putRange
  dsimp only
  revert hascii
  generalize (if isASCII lo then c.putASCIIRange s lo hi else c) = c'
  intro hascii
  split_ifs with hhi hs
  · exact hascii
  · have := mt isASCII_iff.mpr hhi
    exact sound_addSortedRange hascii (by lia) _
  · have := mt isASCII_iff.mpr hhi
    have hput : Sound (c'.addSortedRange .unicode (max lo 0x80) hi) :=
      sound_addSortedRange hascii (by lia) .unicode
    split
    · exact hput
    · next index hindex =>
        exact sound_putIntervals (ht (by simpa using hs)) _ hput (by lia)
          fun _ => canonicalRangeInfoLoop_le _ _ _ hindex

/-- **Whatever the calls, the tables stay sorted.** -/
theorem run_sound (ht : s.m_isCaseInsensitive = true → Contiguous s.table)
    (h : ∀ call ∈ calls, call.Valid) : Sound (run s calls) := by
  refine sound_foldl (fun call hcall c hc => ?_) sound_empty
  have hvalid := h call hcall
  cases call with
  | putChar ch => exact sound_putChar hc ch
  | putRange lo hi => exact sound_putRange ht hc hvalid
  | append other => exact (append_adds hvalid c).sound hc
  | appendInverted other => exact (appendInverted_adds hvalid c).sound hc
end

/-! ## Completeness -/

/-- Sorted tables that have every character from `lo` to `hi` and no other, with no match inside or
next to a range, are one range. -/
theorem full_of_complete (hms : Sparse ms) (hrs : Separate rs) (hcomplete : Complete ms rs)
    (lo hi : UChar32) (hlt : lo < hi) (h : ∀ x, (x ∈ ms ∨ Covers rs x) ↔ lo ≤ x ∧ x ≤ hi) :
    ms = [] ∧ rs = [⟨lo, hi⟩] := by
  -- the match `m` and its successor cannot both be there
  have hnext : ∀ m ∈ ms, ¬ (m + 1 ∈ ms ∨ Covers rs (m + 1)) := by
    rintro m hm (hm' | ⟨q, hq, h1, h2⟩)
    · rcases hms.apart_of_ne hm hm' (by lia) with h | h <;> lia
    · rcases hcomplete m hm q hq with h | h <;> lia
  have hlo : Covers rs lo :=
    ((h lo).mpr ⟨le_rfl, hlt.le⟩).resolve_left fun hm => hnext lo hm ((h _).mpr ⟨by lia, by lia⟩)
  obtain ⟨r, hr, h1, h2⟩ := hlo
  have hbegin := (h r.begin).mp (Or.inr ⟨r, hr, le_rfl, hrs.le r hr⟩)
  have hend := (h r.end_).mp (Or.inr ⟨r, hr, hrs.le r hr, le_rfl⟩)
  have hhi : r.end_ = hi := by
    by_contra hne
    rcases (h (r.end_ + 1)).mpr ⟨by lia, by lia⟩ with hm | ⟨q, hq, h3, h4⟩
    · rcases hcomplete _ hm r hr with h | h <;> lia
    · have hqr : r ≠ q := by
        rintro rfl
        lia
      rcases hrs.apart_of_ne hr hq hqr with h | h <;> lia
  obtain rfl : r = ⟨lo, hi⟩ := by
    cases r
    simp only [CharacterRange.mk.injEq] at *
    exact ⟨by lia, hhi⟩
  have hall : ∀ q ∈ rs, q = ⟨lo, hi⟩ := by
    intro q hq
    by_contra hne
    have h3 := (h q.begin).mp (Or.inr ⟨q, hq, le_rfl, hrs.le q hq⟩)
    rcases hrs.apart_of_ne hr hq (Ne.symm hne) with h | h
    · lia
    · have := hrs.le q hq
      lia
  constructor
  · refine eq_nil_iff_forall_not_mem.mpr fun m hm => ?_
    have h3 := (h m).mp (Or.inl hm)
    rcases hcomplete m hm _ hr with h | h <;> (dsimp only at h; lia)
  · match rs, hr, hall, hrs with
    | [q], _, hall, _ => rw [hall q (mem_singleton_self q)]
    | q :: p :: rs, _, hall, hrs =>
      have := (separate_cons.mp hrs).2.1 p (mem_cons_self ..)
      rw [hall q (mem_cons_self ..), hall p (by simp)] at this
      lia

/-- The arguments are code points. -/
def Call.CodePoints : Call → Prop
  | .putChar ch => ch ≤ 0x10ffff
  | .putRange _ hi => hi ≤ 0x10ffff
  | .append _ | .appendInverted _ => True

theorem Call.le_of_puts {call : Call} (hvalid : call.Valid) (h : call.CodePoints)
    (hx : call.Puts x) : x ≤ 0x10ffff := by
  cases call with
  | putChar ch => exact le_of_eq_of_le hx h
  | putRange lo hi => exact le_trans hx.2 h
  | append other =>
    change (if isASCII x = true then _ else _) at hx
    split_ifs at hx
    · exact le_trans (hvalid.ascii.bounds x hx).2 (by decide)
    · exact (hvalid.unicode.bounds x hx).2
  | appendInverted other => exact hx.1

/-- No match of the class lies inside or next to a range of its half. -/
def CompleteTables (cls : CharacterClass) : Prop :=
  Complete cls.m_matches cls.m_ranges ∧ Complete cls.m_matchesUnicode cls.m_rangesUnicode

theorem completeTables_iff (hc : Sound c) : CompleteTables c.charClass ↔
    ∀ half, Coalescible (c.matchesOf half) (c.rangesOf half) := by
  have h1 := complete_iff (hc.sparse .ascii) (hc.separate .ascii)
  have h2 := complete_iff (hc.sparse .unicode) (hc.separate .unicode)
  constructor
  · rintro ⟨ha, hu⟩ half
    cases half with
    | ascii => exact h1.mp ha
    | unicode => exact h2.mp hu
  · intro h
    exact ⟨h1.mpr (h .ascii), h2.mpr (h .unicode)⟩

/-- Every entry is a code point, in the half that it selects. -/
def WellPlaced (c : CharacterClassConstructor) : Prop :=
  ∀ half x, Has c half x → half = halfOf x ∧ x ≤ 0x10ffff

theorem wellPlaced_run (hs : s.m_isCaseInsensitive = false) (hcalls : ∀ call ∈ calls, call.Valid)
    (hcode : ∀ call ∈ calls, call.CodePoints) : WellPlaced (run s calls) := by
  intro half x hx
  obtain ⟨hhalf, call, hcall, hputs⟩ := (run_has hs hcalls half x).mp hx
  exact ⟨hhalf, Call.le_of_puts (hcalls call hcall) (hcode call hcall) hputs⟩

theorem anyCharacter_of_complete (hc : Sound c) (hplaced : WellPlaced c)
    (hcomplete : CompleteTables c.charClass)
    (hall : ∀ ch ≤ 0x10ffff, testCharacterClass c.charClass ch = true) :
    c.charClass.m_anyCharacter = true := by
  have hhas : ∀ half x, Has c half x ↔ half = halfOf x ∧ x ≤ 0x10ffff := by
    refine fun half x => ⟨hplaced half x, ?_⟩
    rintro ⟨rfl, hx⟩
    exact (testCharacterClass_iff hc hx).mp (hall x hx)
  obtain ⟨h1, h2, h3⟩ := coalesce_spec (hc.sparse .ascii) (hc.separate .ascii)
  obtain ⟨h4, h5, h6⟩ := coalesce_spec (hc.sparse .unicode) (hc.separate .unicode)
  obtain ⟨a1, a2⟩ := full_of_complete h1 h2 hcomplete.1 0 0x7f (by decide) fun x => by
      rw [h3]
      refine (hhas .ascii x).trans ?_
      have := halfOf_ascii (x := x)
      have := halfOf_unicode (x := x)
      grind
  obtain ⟨u1, u2⟩ := full_of_complete h4 h5 hcomplete.2 0x80 0x10ffff (by decide)
    fun x => by
      rw [h6]
      refine (hhas .unicode x).trans ?_
      have := halfOf_ascii (x := x)
      have := halfOf_unicode (x := x)
      grind
  exact anyCharacter_iff.mpr ⟨a1, u1, a2, u2⟩

/-- **When coalescing is complete**: if and only if no match lies inside a range before, nor next to
one that the first range of its table does not reach. If so, and if all entries are code points in
their own half, as they are in a case-sensitive class of code points, then `m_anyCharacter` tells
whether the class has every code point. -/
theorem charClass_complete_iff {s : Settings}
    (ht : s.m_isCaseInsensitive = true → Contiguous s.table) (calls : List Call)
    (hcalls : ∀ call ∈ calls, call.Valid) : (CompleteTables (run s calls).charClass ↔
        ∀ half, Coalescible ((run s calls).matchesOf half) ((run s calls).rangesOf half)) ∧
      (s.m_isCaseInsensitive = false → (∀ call ∈ calls, call.CodePoints) →
        WellPlaced (run s calls)) ∧ (WellPlaced (run s calls) →
        (∀ half, Coalescible ((run s calls).matchesOf half) ((run s calls).rangesOf half)) →
        ((run s calls).charClass.m_anyCharacter = true ↔
          ∀ ch ≤ 0x10ffff, testCharacterClass (run s calls).charClass ch = true)) := by
  have hsound := run_sound ht hcalls
  refine ⟨completeTables_iff hsound, fun hs hcode => wellPlaced_run hs hcalls hcode,
    fun hplaced hcoalescible => ⟨fun hany ch _ => ?_, ?_⟩⟩
  · rw [testCharacterClass, if_pos hany]
  · exact anyCharacter_of_complete hsound hplaced ((completeTables_iff hsound).mpr hcoalescible)

/-- The letter after a range is coalesced with it. -/
theorem charClass_complete_iff_neighbour :
    CompleteTables (run caseSensitive [.putRange 0x61 0x63, .putChar 0x64]).charClass ∧
      ¬ ∀ ch ≤ 0x10ffff,
        testCharacterClass (run caseSensitive [.putRange 0x61 0x63, .putChar 0x64]).charClass ch =
          true := by
  have hcalls : ∀ call ∈ [Call.putRange 0x61 0x63, .putChar 0x64],
      call.Valid ∧ call.CodePoints := by
    intro call hcall
    simp only [mem_cons, not_mem_nil, or_false] at hcall
    rcases hcall with rfl | rfl
    · exact ⟨(by decide : 0x61 ≤ 0x63), (by decide : 0x63 ≤ 0x10ffff)⟩
    · exact ⟨trivial, (by decide : 0x64 ≤ 0x10ffff)⟩
  obtain ⟨hcomplete, hplaced, hany⟩ := charClass_complete_iff
    (s := caseSensitive) (fun h => absurd h Bool.false_ne_true) _ fun call h => (hcalls call h).1
  have hcoalescible : ∀ half,
      Coalescible ((run caseSensitive [.putRange 0x61 0x63, .putChar 0x64]).matchesOf half)
        ((run caseSensitive [.putRange 0x61 0x63, .putChar 0x64]).rangesOf half) := by
    rintro (_ | _)
    · exact ⟨by unfold Covers; decide, fun _ _ _ h => absurd h not_mem_nil⟩
    · trivial
  refine ⟨hcomplete.mpr hcoalescible, fun hall => ?_⟩
  have := (hany (hplaced rfl fun call h => (hcalls call h).2) hcoalescible).mpr hall
  exact absurd this (by decide)

/-- A match inside a range stays, and the class is not recognised as one of all code points; a match
next to the second range stays, too. -/
theorem charClass_leaves_matches :
    (∃ cls, (run caseSensitive [.putChar 5, .putRange 0 0x7f, .putRange 0x80 0x10ffff]).charClass
        = cls ∧ 5 ∈ cls.m_matches ∧ ⟨0, 0x7f⟩ ∈ cls.m_ranges ∧ cls.m_anyCharacter = false ∧
        ∀ ch ≤ 0x10ffff, testCharacterClass cls ch = true) ∧
      ∃ cls, (run caseSensitive [.putRange 0x61 0x62, .putRange 0x70 0x71, .putChar 0x72]).charClass
        = cls ∧ 0x72 ∈ cls.m_matches ∧ ⟨0x70, 0x71⟩ ∈ cls.m_ranges := by
  refine ⟨⟨⟨[5], [⟨0, 0x7f⟩], [], [⟨0x80, 0x10ffff⟩], ⟨true, true⟩, false⟩, by decide, by decide,
    by decide, rfl, fun ch hch => ?_⟩, _, rfl, by decide, by decide⟩
  rw [testCharacterClass, if_neg (by decide)]
  split_ifs with hascii
  · rw [Bool.or_eq_true, searchRanges_iff (separate_cons.mpr ⟨by decide, by simp, .nil⟩)]
    exact Or.inr ⟨_, mem_singleton_self _, Nat.zero_le ch, isASCII_iff.mp hascii⟩
  · rw [Bool.or_eq_true, searchRanges_iff (separate_cons.mpr ⟨by decide, by simp, .nil⟩)]
    refine Or.inr ⟨_, mem_singleton_self _, ?_, hch⟩
    have := mt isASCII_iff.mpr hascii
    lia

end JscAndroid.Yarr.ClassTables
