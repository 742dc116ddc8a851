import JscAndroid.Arith.Bisection
import JscAndroid.Yarr.ClassConstructor

/-!
# The sorted tables of a class

The tables of a constructor are kept sparse: no two matches are neighbours, and no two ranges touch.
What each step on them does is stated through the characters they hold: `insertRange` adds a range
(`insertRange_spec`), the binary chop of `addSorted` adds one character and may turn neighbours into
a range (`chop_spec`). On such tables `testCharacterClass` finds just the characters that are there.
-/

namespace JscAndroid.Yarr.SortedTables

open Arith.Bisection Classes ClassConstructor ClassConstructor.CharacterClassConstructor List

variable {ms : List UChar32} {rs : List CharacterRange} {ch : UChar32}

/-- In increasing order, without neighbours. -/
def Sparse (ms : List UChar32) : Prop := ms.Pairwise fun a b => a + 1 < b

theorem Sparse.increasing (h : Sparse ms) : ms.Pairwise (· < ·) :=
  h.imp fun hab => lt_trans (Nat.lt_succ_self _) hab

/-- Nonempty ranges in increasing order that neither overlap nor touch. -/
structure Separate (rs : List CharacterRange) : Prop where
  le : ∀ r ∈ rs, r.begin ≤ r.end_
  apart : rs.Pairwise fun r q => r.end_ + 1 < q.begin

def Covers (rs : List CharacterRange) (ch : UChar32) : Prop :=
  ∃ r ∈ rs, r.begin ≤ ch ∧ ch ≤ r.end_

@[simp] theorem not_covers_nil (ch : UChar32) : ¬ Covers [] ch := by
  rintro ⟨r, hr, -⟩
  cases hr

@[simp] theorem covers_cons {r : CharacterRange} :
    Covers (r :: rs) ch ↔ (r.begin ≤ ch ∧ ch ≤ r.end_) ∨ Covers rs ch := by
  constructor
  · rintro ⟨q, hq, h⟩
    rcases mem_cons.mp hq with rfl | hq
    · exact Or.inl h
    · exact Or.inr ⟨q, hq, h⟩
  · rintro (h | ⟨q, hq, h⟩)
    · exact ⟨r, mem_cons_self .., h⟩
    · exact ⟨q, mem_cons_of_mem _ hq, h⟩

theorem Separate.nil : Separate [] := ⟨by simp, .nil⟩

theorem separate_cons {r : CharacterRange} : Separate (r :: rs) ↔
      r.begin ≤ r.end_ ∧ (∀ q ∈ rs, r.end_ + 1 < q.begin) ∧ Separate rs := by
  constructor
  · intro h
    obtain ⟨h1, h2⟩ := pairwise_cons.mp h.apart
    exact ⟨h.le r (mem_cons_self ..), h1,
      fun q hq => h.le q (mem_cons_of_mem _ hq), h2⟩
  · rintro ⟨h1, h2, h3⟩
    refine ⟨fun q hq => ?_, pairwise_cons.mpr ⟨h2, h3.apart⟩⟩
    rcases mem_cons.mp hq with rfl | hq
    · exact h1
    · exact h3.le q hq

theorem pairwise_or {α : Type} {R : α → α → Prop} {l : List α} (h : l.Pairwise R) {a b : α}
    (ha : a ∈ l) (hb : b ∈ l) (hne : a ≠ b) : R a b ∨ R b a := by
  have : Std.Symm fun a b => R a b ∨ R b a := ⟨fun _ _ h => h.symm⟩
  have hall : l.Pairwise fun a b => R a b ∨ R b a := h.imp Or.inl
  exact hall.forall ha hb hne

theorem Separate.apart_of_ne (h : Separate rs) {p q : CharacterRange} (hp : p ∈ rs) (hq : q ∈ rs)
    (hne : p ≠ q) : p.end_ + 1 < q.begin ∨ q.end_ + 1 < p.begin :=
  pairwise_or h.apart hp hq hne

theorem Sparse.apart_of_ne (h : Sparse ms) {a b : UChar32} (ha : a ∈ ms) (hb : b ∈ ms)
    (hne : a ≠ b) :
    a + 1 < b ∨ b + 1 < a :=
  pairwise_or h ha hb hne

/-! ## Adding a range -/

theorem mergeRangesFrom_spec : ∀ {rest : List CharacterRange} {r : CharacterRange},
    r.begin ≤ r.end_ → Separate rest → (∀ q ∈ rest, r.begin ≤ q.begin) →
    Separate (mergeRangesFrom r rest) ∧ (∀ q ∈ mergeRangesFrom r rest, r.begin ≤ q.begin) ∧
      ∀ ch, Covers (mergeRangesFrom r rest) ch ↔ (r.begin ≤ ch ∧ ch ≤ r.end_) ∨ Covers rest ch
  | [], r, hr, _, _ => by
    rw [mergeRangesFrom]
    refine ⟨separate_cons.mpr ⟨hr, by simp, .nil⟩, by simp, fun ch => ?_⟩
    rw [covers_cons]
  | next :: rest, r, hr, hsep, hle => by
    obtain ⟨h1, h2, h3⟩ := separate_cons.mp hsep
    have hnext := hle next (mem_cons_self ..)
    rw [mergeRangesFrom]
    by_cases hjoin : next.begin ≤ r.end_ + 1
    · rw [if_pos hjoin]
      obtain ⟨i1, i2, i3⟩ := mergeRangesFrom_spec
        (r := ⟨r.begin, max r.end_ next.end_⟩) (show r.begin ≤ max r.end_ next.end_ by lia) h3
        (fun q hq => hle q (mem_cons_of_mem _ hq))
      refine ⟨i1, i2, fun ch => ?_⟩
      have hsplit : (r.begin ≤ ch ∧ ch ≤ max r.end_ next.end_) ↔
          (r.begin ≤ ch ∧ ch ≤ r.end_) ∨ (next.begin ≤ ch ∧ ch ≤ next.end_) := by lia
      rw [i3, covers_cons, ← or_assoc]
      exact or_congr_left hsplit
    · rw [if_neg hjoin]
      refine ⟨separate_cons.mpr ⟨hr, fun q hq => ?_, hsep⟩, fun q hq => ?_, fun ch => covers_cons⟩
      · rcases mem_cons.mp hq with rfl | hq
        · lia
        · have := h2 q hq
          lia
      · rcases mem_cons.mp hq with rfl | hq
        · exact le_refl _
        · exact hle q hq

/-- **Adding a range.** -/
theorem insertRange_spec {lo hi : UChar32} (hlh : lo ≤ hi) :
    ∀ {rs : List CharacterRange}, Separate rs → Separate (insertRange lo hi rs) ∧
        (∀ b, b < lo → (∀ q ∈ rs, b < q.begin) → ∀ q ∈ insertRange lo hi rs, b < q.begin) ∧
        ∀ ch, Covers (insertRange lo hi rs) ch ↔ (lo ≤ ch ∧ ch ≤ hi) ∨ Covers rs ch
  | [], _ => by
    refine ⟨separate_cons.mpr ⟨hlh, by simp, .nil⟩, fun b hb _ q hq => ?_, fun ch => covers_cons⟩
    rw [mem_singleton.mp hq]
    exact hb
  | r :: rest, hsep => by
    obtain ⟨h1, h2, h3⟩ := separate_cons.mp hsep
    rw [insertRange]
    split_ifs with hbefore htouch hmeet
    · refine ⟨separate_cons.mpr ⟨show lo ≤ r.end_ by lia, h2, h3⟩, fun b hb hall q hq => ?_,
        fun ch => ?_⟩
      · rcases mem_cons.mp hq with rfl | hq
        · exact hb
        · exact hall q (mem_cons_of_mem _ hq)
      · have hsplit : (lo ≤ ch ∧ ch ≤ r.end_) ↔
            (lo ≤ ch ∧ ch ≤ hi) ∨ (r.begin ≤ ch ∧ ch ≤ r.end_) := by lia
        rw [covers_cons, covers_cons, ← or_assoc]
        exact or_congr_left hsplit
    · refine ⟨separate_cons.mpr ⟨hlh, fun q hq => ?_, hsep⟩, fun b hb hall q hq => ?_,
        fun ch => covers_cons⟩
      · show hi + 1 < q.begin
        rcases mem_cons.mp hq with rfl | hq
        · lia
        · have := h2 q hq
          lia
      · rcases mem_cons.mp hq with rfl | hq
        · exact hb
        · exact hall q hq
    · obtain ⟨i1, i2, i3⟩ := mergeRangesFrom_spec
        (r := ⟨min r.begin lo, max r.end_ hi⟩) (show min r.begin lo ≤ max r.end_ hi by lia) h3
        (fun q hq => by
          have := h2 q hq
          show min r.begin lo ≤ q.begin
          lia)
      refine ⟨i1, fun b hb hall q hq => ?_, fun ch => ?_⟩
      · have hr := hall r (mem_cons_self ..)
        have : min r.begin lo ≤ q.begin := i2 q hq
        lia
      · have hsplit : (min r.begin lo ≤ ch ∧ ch ≤ max r.end_ hi) ↔
            (lo ≤ ch ∧ ch ≤ hi) ∨ (r.begin ≤ ch ∧ ch ≤ r.end_) := by lia
        rw [i3, covers_cons, ← or_assoc]
        exact or_congr_left hsplit
    · obtain ⟨i1, i2, i3⟩ := insertRange_spec hlh h3
      refine ⟨separate_cons.mpr ⟨h1, i2 _ (by lia) h2, i1⟩, fun b hb hall q hq => ?_, fun ch => ?_⟩
      · rcases mem_cons.mp hq with rfl | hq
        · exact hall _ (mem_cons_self ..)
        · exact i2 b hb (fun p hp => hall p (mem_cons_of_mem _ hp)) q hq
      · rw [covers_cons, covers_cons, i3]
        exact or_left_comm

/-! ## Adding a character -/

theorem mem_iff_eraseIdx {k : ℕ} {v : UChar32} (hk : k < ms.length) (hv : ms.getD k 0 = v)
    (x : UChar32) : x ∈ ms ↔ x = v ∨ x ∈ ms.eraseIdx k := by
  rw [getD_eq_getElem _ _ hk] at hv
  rw [← (getElem_cons_eraseIdx_perm hk).mem_iff, mem_cons, hv]

/-- What a chop says about a character and a table. -/
def Tells (ms : List UChar32) (ch : UChar32) : Chop → Prop
  | .present => ch ∈ ms
  | .place pos =>
    Sparse (ms.insertIdx pos ch) ∧ ∀ x, x ∈ ms.insertIdx pos ch ↔ x = ch ∨ x ∈ ms
  | .join rest lo hi =>
    rest.Sublist ms ∧ lo ≤ hi ∧ ∀ x, (x ∈ rest ∨ lo ≤ x ∧ x ≤ hi) ↔ x = ch ∨ x ∈ ms

theorem insertIdx_eq_append (ch : UChar32) : ∀ {ms : List UChar32} {pos : ℕ}, pos ≤ ms.length →
    ms.insertIdx pos ch = ms.take pos ++ ch :: ms.drop pos
  | _, 0, _ => by simp
  | _ :: ms, pos + 1, h => by
    rw [insertIdx_succ_cons, insertIdx_eq_append ch (Nat.le_of_succ_le_succ h)]
    rfl

theorem tells_place (hms : Sparse ms) {pos : ℕ}
    (h : Bracket (fun m : UChar32 => m + 1 < ch) (fun m => ch + 1 < m) ms pos pos) :
    Tells ms ch (.place pos) := by
  have hbelow : ∀ a ∈ ms.take pos, a + 1 < ch := by
    intro a ha
    obtain ⟨i, hi, rfl⟩ := getElem_of_mem ha
    rw [getElem_take]
    exact h.below i _ (lt_of_lt_of_le hi (length_take_le ..))
  have habove : ∀ a ∈ ms.drop pos, ch + 1 < a := by
    intro a ha
    obtain ⟨i, hi, rfl⟩ := getElem_of_mem ha
    rw [getElem_drop]
    exact h.above _ _ (Nat.le_add_right ..)
  dsimp only [Tells]
  rw [insertIdx_eq_append ch h.high_le]
  refine ⟨pairwise_append.mpr ⟨hms.sublist (take_sublist ..),
    pairwise_cons.mpr ⟨habove, hms.sublist (drop_sublist ..)⟩, fun a ha b hb => ?_⟩,
    fun x => ?_⟩
  · have ha := hbelow a ha
    rcases mem_cons.mp hb with rfl | hb
    · exact ha
    · have hb := habove b hb
      lia
  · conv_rhs => rw [← take_append_drop pos ms]
    rw [mem_append, mem_cons, mem_append]
    exact or_left_comm

/-- The greater neighbour is at `k`: the chop takes it, and the smaller one if it is just before. -/
theorem tells_join_above {k : ℕ} (hk : k < ms.length) (hv : ms.getD k 0 = ch + 1) :
    Tells ms ch (if 0 < k ∧ (ms.eraseIdx k).getD (k - 1) 0 + 1 = ch then
        .join ((ms.eraseIdx k).eraseIdx (k - 1)) (ch - 1) (ch + 1)
      else .join (ms.eraseIdx k) ch (ch + 1)) := by
  have hmem := mem_iff_eraseIdx hk hv
  split_ifs with h
  · have hk' : k - 1 < (ms.eraseIdx k).length := by
      rw [length_eraseIdx_of_lt hk]
      omega
    refine ⟨(eraseIdx_sublist ..).trans (eraseIdx_sublist ..), by lia, fun x => ?_⟩
    rw [hmem, mem_iff_eraseIdx hk' rfl]
    grind
  · refine ⟨eraseIdx_sublist .., by lia, fun x => ?_⟩
    grind

/-- The smaller neighbour is at `k`. The entry the source then compares with `ch + 1` is one too
far, but whatever it is, no character is lost. -/
theorem tells_join_below {k : ℕ} (hk : k < ms.length) (hv : ms.getD k 0 + 1 = ch) :
    Tells ms ch (if k + 1 < (ms.eraseIdx k).length ∧ (ms.eraseIdx k).getD (k + 1) 0 = ch + 1 then
        .join ((ms.eraseIdx k).eraseIdx (k + 1)) (ch - 1) (ch + 1)
      else .join (ms.eraseIdx k) (ch - 1) ch) := by
  have hmem := mem_iff_eraseIdx hk rfl
  split_ifs with h
  · refine ⟨(eraseIdx_sublist ..).trans (eraseIdx_sublist ..), by lia, fun x => ?_⟩
    rw [hmem, mem_iff_eraseIdx h.1 h.2]
    grind
  · refine ⟨eraseIdx_sublist .., by lia, fun x => ?_⟩
    grind

/-- **The chop is right about the table it searches.** -/
theorem chop_spec (hms : Sparse ms) : ∀ (fuel : ℕ) {pos range : ℕ}, range ≤ fuel →
      Bracket (fun m : UChar32 => m + 1 < ch) (fun m => ch + 1 < m) ms pos (pos + range) →
      Tells ms ch (chop ms ch fuel pos range)
  | 0, pos, range, hf, h => by
    rw [Nat.le_zero.mp hf] at h
    exact tells_place hms h
  | fuel + 1, pos, range, hf, h => by
    rw [chop]
    split_ifs with hzero
    · rw [hzero] at h
      exact tells_place hms h
    have hhigh := h.high_le
    set index := pos + range / 2 with hindex
    have hk : index < ms.length := by omega
    by_cases heq : ms.getD index 0 = ch
    · rw [if_pos heq]
      rw [getD_eq_getElem _ _ hk] at heq
      exact heq ▸ getElem_mem hk
    rw [if_neg heq]
    by_cases hlt : ch < ms.getD index 0
    · rw [if_pos hlt]
      by_cases hnext : ms.getD index 0 = ch + 1
      · rw [if_pos hnext]
        exact tells_join_above hk hnext
      · rw [if_neg hnext]
        refine chop_spec hms fuel (by omega) ?_
        exact h.left hms (by omega) (by omega) (fun a b hab ha => by lia)
          (fun hm => by rw [← getD_eq_getElem _ 0 hm]; lia)
    · rw [if_neg hlt]
      by_cases hprev : ms.getD index 0 + 1 = ch
      · rw [if_pos hprev]
        exact tells_join_below hk hprev
      · rw [if_neg hprev]
        refine chop_spec hms fuel (by omega) ?_
        rw [show index + 1 + (range - (range / 2 + 1)) = pos + range by omega]
        exact h.right hms (by omega) (by omega) (fun a b hab hb => by lia)
          (fun hm => by rw [← getD_eq_getElem _ 0 hm]; lia)

/-! ## Searching -/

theorem binarySearchRangesLoop_iff (hrs : rs.Pairwise fun r q =>
      r.begin ≤ r.end_ ∧ r.end_ < q.begin ∧ q.begin ≤ q.end_) :
    ∀ (fuel : ℕ) {low high : ℕ}, high + 1 < low + fuel →
      Bracket (fun r : CharacterRange => r.end_ < ch) (fun r => ch < r.begin) rs low (high + 1) →
      (binarySearchRangesLoop ch rs fuel low high = true ↔ Covers rs ch)
  | 0, low, high, hf, h => absurd h.le (by omega)
  | fuel + 1, low, high, hf, h => by
    have hnone : ∀ {k}, Bracket (fun r : CharacterRange => r.end_ < ch) (fun r => ch < r.begin) rs
        k k → ¬ Covers rs ch := by
      rintro k hk ⟨r, hr, h1, h2⟩
      rcases hk.forall_mem r hr with h0 | h0 <;> lia
    rw [binarySearchRangesLoop]
    by_cases hle : low ≤ high
    · dsimp only
      have hhigh := h.high_le
      set mid := low + (high - low) / 2 with hmid
      have hm : mid < rs.length := by omega
      rw [getD_eq_getElem _ _ hm]
      have hleft := fun hlt : ch < rs[mid].begin => h.left hrs (show low ≤ mid by omega)
        (show mid < high + 1 by omega) (fun a b hab ha => by lia) fun _ => hlt
      split_ifs with hin hlt hend
      · exact ⟨fun _ => ⟨_, getElem_mem hm, hin⟩, fun _ => rfl⟩
      · replace hleft := hleft hlt
        rw [hend] at hleft
        exact ⟨False.elim, hnone hleft⟩
      · refine binarySearchRangesLoop_iff hrs fuel (by omega) ?_
        rw [Nat.sub_add_cancel (by omega)]
        exact hleft hlt
      · refine binarySearchRangesLoop_iff hrs fuel (by omega) ?_
        exact h.right hrs (show low ≤ mid by omega) (show mid < high + 1 by omega)
          (fun a b hab hb => by lia) (fun _ => by lia)
    · rw [if_neg hle]
      have hmeet : low = high + 1 := by
        have := h.le
        omega
      rw [hmeet] at h
      exact ⟨fun h0 => absurd h0 Bool.false_ne_true, fun hc => absurd hc (hnone h)⟩

theorem binarySearchRanges_iff (hrs : rs.Pairwise fun r q =>
      r.begin ≤ r.end_ ∧ r.end_ < q.begin ∧ q.begin ≤ q.end_) (hlen : 0 < rs.length) :
    binarySearchRanges ch rs = true ↔ Covers rs ch := by
  refine binarySearchRangesLoop_iff hrs _ (by omega) ?_
  rw [Nat.sub_add_cancel hlen]
  exact .start

/-- Matches are searched like ranges of one character. -/
theorem binarySearchMatchesLoop_eq (fuel low high : ℕ) :
    binarySearchMatchesLoop ch ms fuel low high =
      binarySearchRangesLoop ch (ms.map fun m => ⟨m, m⟩) fuel low high := by
  induction fuel generalizing low high with
  | zero => rfl
  | succ fuel ih =>
    have hget (mid : ℕ) : (ms.map fun m => CharacterRange.mk m m).getD mid ⟨0, 0⟩ =
        ⟨ms.getD mid 0, ms.getD mid 0⟩ := getD_map ms 0 fun m => CharacterRange.mk m m
    have heq (m : UChar32) : m ≤ ch ∧ ch ≤ m ↔ ch = m := and_comm.trans le_antisymm_iff.symm
    rw [binarySearchMatchesLoop, binarySearchRangesLoop]
    simp only [ih, hget, heq]

/-- **A table of matches is searched right.** -/
theorem searchMatches_iff (hms : ms.Pairwise (· < ·)) : searchMatches ch ms = true ↔ ch ∈ ms := by
  unfold searchMatches
  split_ifs with hlen
  · have hrs : binarySearchRanges ch (ms.map fun m => ⟨m, m⟩) = true ↔ _ := binarySearchRanges_iff
      (pairwise_map.mpr (hms.imp fun hab => ⟨le_rfl, hab, le_rfl⟩)) (by rw [length_map]; omega)
    rw [binarySearchRanges, length_map, ← binarySearchMatchesLoop_eq] at hrs
    refine hrs.trans ?_
    constructor
    · rintro ⟨r, hr, h1, h2⟩
      obtain ⟨m, hm, rfl⟩ := mem_map.mp hr
      exact le_antisymm h1 h2 ▸ hm
    · intro h
      exact ⟨_, mem_map_of_mem h, le_rfl, le_rfl⟩
  · rw [linearSearchMatches, any_eq_true]
    constructor
    · rintro ⟨m, hm, h⟩
      rwa [of_decide_eq_true h]
    · intro h
      exact ⟨ch, h, decide_eq_true rfl⟩

/-- **A table of ranges is searched right.** -/
theorem searchRanges_iff (hrs : Separate rs) : searchRanges ch rs = true ↔ Covers rs ch := by
  unfold searchRanges
  split_ifs with hlen
  · refine binarySearchRanges_iff (hrs.apart.imp_of_mem fun hr hq hrq => ?_) (by omega)
    exact ⟨hrs.le _ hr, Nat.lt_of_succ_lt hrq, hrs.le _ hq⟩
  · rw [linearSearchRanges, Covers, any_eq_true]
    simp only [decide_eq_true_eq]

end JscAndroid.Yarr.SortedTables
