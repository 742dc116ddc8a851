import JscAndroid.Yarr.SortedTables

/-!
# What coalescing does

`coalesceMatchesAndRanges` only ever looks at the first range: it joins the match just before it and
the match just after it, and goes on when that makes it touch the next range. All it does is to move
matches into ranges (`Moves`), and the ranges that the first one never gets to stay as they were
(`unreached`). From there the exact condition under which no match is left inside or next to a range
(`complete_iff`).
-/

namespace JscAndroid.Yarr.Coalescing

open Classes ClassConstructor SortedTables ClassConstructor.CharacterClassConstructor List Nat

variable {ms : List UChar32} {r : CharacterRange} {rest : List CharacterRange}
variable {ms' : List UChar32} {rs : List CharacterRange}

/-! ## Moving matches into ranges -/

/-- Matches that were not covered have been moved into the ranges, and nothing else. -/
structure Moves (ms : List UChar32) (rs : List CharacterRange) (ms' : List UChar32)
    (rs' : List CharacterRange) : Prop where
  sublist : ms'.Sublist ms
  mono : ∀ x, Covers rs x → Covers rs' x
  moved : ∀ x ∈ ms, x ∈ ms' ∨ ¬ Covers rs x ∧ Covers rs' x
  added : ∀ x, Covers rs' x → Covers rs x ∨ x ∈ ms ∧ x ∉ ms'

theorem Moves.refl (ms : List UChar32) (rs : List CharacterRange) : Moves ms rs ms rs :=
  ⟨.refl _, fun _ h => h, fun _ h => Or.inl h, fun _ h => Or.inl h⟩

theorem Moves.trans {ms'' : List UChar32} {rs' rs'' : List CharacterRange} (h : Moves ms rs ms' rs')
    (h' : Moves ms' rs' ms'' rs'') : Moves ms rs ms'' rs'' := by
  refine ⟨h'.sublist.trans h.sublist, fun x hx => h'.mono x (h.mono x hx), fun x hx => ?_,
    fun x hx => ?_⟩
  · rcases h.moved x hx with hx | ⟨hno, hyes⟩
    · rcases h'.moved x hx with hx | ⟨hno, hyes⟩
      · exact Or.inl hx
      · exact Or.inr ⟨fun hc => hno (h.mono x hc), hyes⟩
    · exact Or.inr ⟨hno, h'.mono x hyes⟩
  · rcases h'.added x hx with hx | ⟨hin, hout⟩
    · rcases h.added x hx with hx | ⟨hin, hout⟩
      · exact Or.inl hx
      · exact Or.inr ⟨hin, fun hx => hout (h'.sublist.subset hx)⟩
    · exact Or.inr ⟨h.sublist.subset hin, hout⟩

theorem Moves.mem_iff {rs' : List CharacterRange} (h : Moves ms rs ms' rs') (x : UChar32) :
    x ∈ ms' ∨ Covers rs' x ↔ x ∈ ms ∨ Covers rs x := by
  constructor
  · rintro (hx | hx)
    · exact Or.inl (h.sublist.subset hx)
    · rcases h.added x hx with hx | hx
      · exact Or.inr hx
      · exact Or.inl hx.1
  · rintro (hx | hx)
    · rcases h.moved x hx with hx | hx
      · exact Or.inl hx
      · exact Or.inr hx.2
    · exact Or.inr (h.mono x hx)

theorem sparse_middle {pre post : List UChar32} {v : UChar32} (h : Sparse (pre ++ v :: post)) :
    (∀ a ∈ pre, a + 1 < v) ∧ (∀ b ∈ post, v + 1 < b) ∧ Sparse (pre ++ post) := by
  obtain ⟨h1, h2, h3⟩ := pairwise_append.mp h
  obtain ⟨h4, h5⟩ := pairwise_cons.mp h2
  exact ⟨fun a ha => h3 a ha v (mem_cons_self ..), h4, pairwise_append.mpr
    ⟨h1, h5, fun a ha b hb => h3 a ha b (mem_cons_of_mem _ hb)⟩⟩

theorem Moves.step {pre post : List UChar32} {v : UChar32} {rs' : List CharacterRange}
    (hms : Sparse (pre ++ v :: post)) (hv : ¬ Covers rs v)
    (hcov : ∀ x, Covers rs' x ↔ x = v ∨ Covers rs x) :
    Moves (pre ++ v :: post) rs (pre ++ post) rs' := by
  obtain ⟨hpre, hpost, -⟩ := sparse_middle hms
  have hgone : v ∉ pre ++ post := by
    intro h
    rcases mem_append.mp h with h | h
    · have := hpre v h
      lia
    · have := hpost v h
      lia
  have hmem : ∀ x, x ∈ pre ++ v :: post ↔ x = v ∨ x ∈ pre ++ post := by
    intro x
    simp only [mem_append, mem_cons]
    exact or_left_comm
  refine ⟨(sublist_cons_self ..).append_left _, fun x hx => (hcov x).mpr (Or.inr hx),
    fun x hx => ?_, fun x hx => ?_⟩
  · rcases (hmem x).mp hx with rfl | hx
    · exact Or.inr ⟨hv, (hcov x).mpr (Or.inl rfl)⟩
    · exact Or.inl hx
  · rcases (hcov x).mp hx with rfl | hx
    · exact Or.inr ⟨(hmem x).mpr (Or.inl rfl), hgone⟩
    · exact Or.inl hx

/-! ## The ranges that are never reached -/

/-- The ranges that a first range ending at `e` does not reach by growing over matches. -/
def unreached (ms : List UChar32) : UChar32 → List CharacterRange → List CharacterRange
  | _, [] => []
  | e, q :: rest => if e + 1 ∈ ms ∧ q.begin = e + 2 then unreached ms q.end_ rest else q :: rest

theorem unreached_of_notMem {e : UChar32} (h : e + 1 ∉ ms) (rest : List CharacterRange) :
    unreached ms e rest = rest := by
  cases rest with
  | nil => rfl
  | cons q rest => exact if_neg fun h' => h h'.1

theorem unreached_subset : ∀ {rest : List CharacterRange} {e : UChar32}, unreached ms e rest ⊆ rest
  | [], _ => List.Subset.refl _
  | q :: rest, e => by
    rw [unreached]
    split_ifs
    · exact List.Subset.trans unreached_subset (subset_cons_self ..)
    · exact List.Subset.refl _

theorem unreached_congr : ∀ {rest : List CharacterRange} {e : UChar32},
    Separate rest → (∀ q ∈ rest, e < q.begin) → (∀ x, e < x → (x ∈ ms ↔ x ∈ ms')) →
    unreached ms e rest = unreached ms' e rest
  | [], _, _, _, _ => rfl
  | q :: rest, e, hsep, hlt, h => by
    obtain ⟨h1, h2, h3⟩ := separate_cons.mp hsep
    have hq := hlt q (mem_cons_self ..)
    have htail : unreached ms q.end_ rest = unreached ms' q.end_ rest :=
      unreached_congr h3 (fun p hp => lt_trans (lt_succ_self _) (h2 p hp))
        (fun x hx => h x (by lia))
    unfold unreached
    rw [htail]
    simp only [h (e + 1) (lt_succ_self e)]

theorem mergeRangesFrom_apart (h : Separate (r :: rest)) : mergeRangesFrom r rest = r :: rest := by
  cases rest with
  | nil => rfl
  | cons q rest =>
    have := (separate_cons.mp h).2.1 q (mem_cons_self ..)
    exact if_neg (by lia)

theorem mergeRangesFrom_grow (h : Separate (r :: rest)) :
    ∃ r' rest', mergeRangesFrom ⟨r.begin, r.end_ + 1⟩ rest = r' :: rest' ∧
      r'.begin = r.begin ∧ r.end_ + 1 ≤ r'.end_ ∧
      ∀ ms ms' : List UChar32, r.end_ + 1 ∈ ms → r.end_ + 2 ∉ ms' →
        (∀ x, r'.end_ < x → (x ∈ ms ↔ x ∈ ms')) →
        unreached ms r.end_ rest = unreached ms' r'.end_ rest' := by
  cases rest with
  | nil => exact ⟨_, _, rfl, rfl, le_refl _, fun _ _ _ _ _ => rfl⟩
  | cons q rest =>
    obtain ⟨hr, hlt, hsep⟩ := separate_cons.mp h
    obtain ⟨hq, hltq, hrest⟩ := separate_cons.mp hsep
    have hrq := hlt q (mem_cons_self ..)
    by_cases htouch : q.begin = r.end_ + 2
    · refine ⟨⟨r.begin, q.end_⟩, rest, ?_, rfl, show r.end_ + 1 ≤ q.end_ by lia, ?_⟩
      · have hmax : max (r.end_ + 1) q.end_ = q.end_ := max_eq_right (by lia)
        rw [mergeRangesFrom, if_pos (show q.begin ≤ r.end_ + 1 + 1 by lia), hmax]
        exact mergeRangesFrom_apart
          (separate_cons.mpr ⟨show r.begin ≤ q.end_ by lia, hltq, hrest⟩)
      · intro ms ms' hin _ hsame
        rw [unreached, if_pos ⟨hin, htouch⟩]
        exact unreached_congr hrest (fun p hp => lt_trans (lt_succ_self _) (hltq p hp)) hsame
    · refine ⟨⟨r.begin, r.end_ + 1⟩, q :: rest, ?_, rfl, le_refl _, ?_⟩
      · exact if_neg (show ¬ q.begin ≤ r.end_ + 1 + 1 by lia)
      · intro ms ms' _ hout _
        rw [unreached, if_neg fun h => htouch h.2]
        exact (unreached_of_notMem hout _).symm

/-! ## The loop -/

/-- What the loop leaves: the first range has grown as far as it can. -/
structure Settled (ms : List UChar32) (r : CharacterRange) (rest : List CharacterRange)
    (out : List UChar32 × List CharacterRange) : Prop where
  moves : Moves ms (r :: rest) out.1 out.2
  separate : Separate out.2
  first : ∃ r', out.2 = r' :: unreached ms r.end_ rest ∧
    ∀ m ∈ out.1, m + 1 ≠ r'.begin ∧ m ≠ r'.end_ + 1

theorem Settled.same (hsep : Separate (r :: rest))
    (h : ∀ m ∈ ms, m + 1 ≠ r.begin ∧ m ≠ r.end_ + 1) : Settled ms r rest (ms, r :: rest) :=
  ⟨.refl .., hsep, r, by rw [unreached_of_notMem fun hm => (h _ hm).2 rfl], h⟩

/-- The second half of the loop's body, at the end of the range. -/
def joinEnd (fuel index : ℕ) (ms : List UChar32) (r : CharacterRange)
    (rest : List CharacterRange) : List UChar32 × List CharacterRange :=
  let index := index + ((ms.drop index).takeWhile fun m => m < r.end_ + 1).length
  if index < ms.length then
    if ms.getD index 0 = r.end_ + 1 then
      match mergeRangesFrom ⟨r.begin, ms.getD index 0⟩ rest with
      | r :: rest => coalesceLoop fuel index (ms.eraseIdx index) r rest
      | [] => (ms.eraseIdx index, [])
    else coalesceLoop fuel (index + 1) ms r rest
  else (ms, r :: rest)

section
variable {pre post : List UChar32} {m : UChar32}

theorem getD_middle : (pre ++ m :: post).getD pre.length 0 = m := by
  rw [getD_append_right _ _ _ _ (le_refl _), Nat.sub_self]
  rfl

theorem eraseIdx_middle : (pre ++ m :: post).eraseIdx pre.length = pre ++ post := by
  rw [eraseIdx_append_of_length_le (le_refl _), Nat.sub_self]
  rfl

theorem length_lt_middle : pre.length < (pre ++ m :: post).length := by
  rw [length_append, length_cons]
  omega

/-- A cursor that skips while `p` holds stops before an entry without `p`. -/
theorem exists_skip (p : UChar32 → Bool) (l : List UChar32) :
    ∃ skip tail, l = skip ++ tail ∧ l.takeWhile p = skip ∧ (∀ m ∈ skip, p m = true) ∧
      ∀ m tl, tail = m :: tl → p m = false := by
  refine ⟨l.takeWhile p, l.dropWhile p, takeWhile_append_dropWhile.symm, rfl,
    fun m hm => mem_takeWhile_imp hm, fun m tl h => ?_⟩
  have := head?_dropWhile_not p l
  rw [h] at this
  simpa using this

theorem joinEnd_nil (fuel : ℕ) : joinEnd fuel pre.length pre r rest = (pre, r :: rest) := by
  rw [joinEnd, if_neg (by simp)]

/-- Past the beginning of the range, the first half of the body does nothing. -/
theorem coalesceLoop_past (fuel : ℕ) (hpost : ∀ m ∈ post, r.begin ≤ m) :
    coalesceLoop (fuel + 1) pre.length (pre ++ post) r rest =
      joinEnd fuel pre.length (pre ++ post) r rest := by
  cases post with
  | nil =>
    rw [append_nil, joinEnd_nil, coalesceLoop, if_neg (lt_irrefl _)]
  | cons m post =>
    have hm := hpost m (mem_cons_self ..)
    have hskip : ((m :: post).takeWhile fun a => decide (a + 1 < r.begin)) = [] :=
      takeWhile_cons_of_neg (by simpa using (by lia : r.begin ≤ m + 1))
    have hno : ¬ (pre.length < (pre ++ m :: post).length ∧
        (pre ++ m :: post).getD pre.length 0 + 1 = r.begin) := by
      rw [getD_middle]
      rintro ⟨-, h⟩
      lia
    rw [coalesceLoop, if_pos length_lt_middle, drop_left, hskip]
    dsimp only [length_nil, Nat.add_zero]
    rw [if_neg hno, if_neg hno]
    rfl

/-- Nothing happens once the cursor is past the end of the range. -/
theorem coalesceLoop_done (hr : r.begin ≤ r.end_) : ∀ (fuel : ℕ) (pre : List UChar32) {post},
    (∀ m ∈ post, r.end_ + 1 < m) →
    coalesceLoop fuel pre.length (pre ++ post) r rest = (pre ++ post, r :: rest)
  | 0, _, _, _ => rfl
  | fuel + 1, pre, post, h => by
    rw [coalesceLoop_past fuel fun m hm => by have := h m hm; lia]
    cases post with
    | nil => rw [append_nil, joinEnd_nil]
    | cons m post =>
      have hm := h m (mem_cons_self ..)
      have hskip : ((m :: post).takeWhile fun a => decide (a < r.end_ + 1)) = [] :=
        takeWhile_cons_of_neg (by simpa using (by lia : r.end_ + 1 ≤ m))
      have hnext := coalesceLoop_done hr fuel (pre ++ [m])
        (fun a ha => h a (mem_cons_of_mem _ ha))
      rw [length_append, append_assoc] at hnext
      unfold joinEnd
      rw [drop_left, hskip, length_nil, Nat.add_zero, if_pos length_lt_middle,
        getD_middle, if_neg (by lia)]
      exact hnext

theorem coalesceLoop_skip (hr : r.begin ≤ r.end_) (fuel : ℕ) (h : ∀ a ∈ post, r.end_ + 1 < a) :
    coalesceLoop fuel (pre.length + 1) (pre ++ m :: post) r rest =
      (pre ++ m :: post, r :: rest) := by
  have hlength : pre.length + 1 = (pre ++ [m]).length := by simp
  rw [append_cons, hlength]
  exact coalesceLoop_done hr fuel (pre ++ [m]) h

/-- **The end of the range**, with the cursor past its beginning. -/
theorem joinEnd_settled : ∀ (fuel : ℕ) {pre post : List UChar32} {r : CharacterRange}
    {rest : List CharacterRange}, post.length ≤ fuel → Sparse (pre ++ post) →
    Separate (r :: rest) → (∀ m ∈ pre, m ≤ r.end_ ∧ m + 1 ≠ r.begin) → (∀ m ∈ post, r.begin ≤ m) →
    Settled (pre ++ post) r rest (joinEnd fuel pre.length (pre ++ post) r rest) := by
  intro fuel
  induction fuel with
  | zero =>
    intro pre post r rest hf hms hsep hpre hpost
    rw [length_eq_zero_iff.mp (le_zero.mp hf), append_nil, joinEnd_nil]
    exact .same hsep fun m hm => ⟨(hpre m hm).2, by have := (hpre m hm).1; lia⟩
  | succ fuel ih =>
    intro pre post r rest hf hms hsep hpre hpost
    obtain ⟨hr, hapart, hrest⟩ := separate_cons.mp hsep
    obtain ⟨skip, tail, rfl, hskip, hin, hstop⟩ :=
      exists_skip (fun m => decide (m < r.end_ + 1)) post
    have hpre' : ∀ m ∈ pre ++ skip, m ≤ r.end_ ∧ m + 1 ≠ r.begin := by
      intro m hm
      rcases mem_append.mp hm with hm | hm
      · exact hpre m hm
      · have h1 := hpost m (mem_append_left _ hm)
        have h2 := of_decide_eq_true (hin m hm)
        exact ⟨by lia, by lia⟩
    rw [joinEnd, drop_left, hskip, ← append_assoc, ← length_append]
    rw [← append_assoc] at hms
    cases tail with
    | nil =>
      rw [append_nil, if_neg (lt_irrefl _)]
      exact .same hsep fun m hm => ⟨(hpre' m hm).2, by have := (hpre' m hm).1; lia⟩
    | cons v tl =>
      obtain ⟨hbefore, hafter, hms'⟩ := sparse_middle hms
      rw [if_pos length_lt_middle, getD_middle]
      by_cases heq : v = r.end_ + 1
      · -- the match joins the range, which may now touch the next one
        subst heq
        rw [if_pos rfl, eraseIdx_middle]
        obtain ⟨m1, -, m3⟩ := mergeRangesFrom_spec (r := ⟨r.begin, r.end_ + 1⟩)
          (show r.begin ≤ r.end_ + 1 by lia) hrest
          (fun q hq => by have := hapart q hq; show r.begin ≤ q.begin; lia)
        obtain ⟨r', rest', hmerge, hbegin, hend, hunreached⟩ := mergeRangesFrom_grow hsep
        rw [hmerge] at m1 m3 ⊢
        dsimp only
        have hcov : ∀ x, Covers (r' :: rest') x ↔ x = r.end_ + 1 ∨ Covers (r :: rest) x := by
          intro x
          rw [m3, covers_cons, ← or_assoc]
          exact or_congr_left (by lia)
        have hno : ¬ Covers (r :: rest) (r.end_ + 1) := by
          rintro ⟨q, hq, h1, h2⟩
          rcases mem_cons.mp hq with rfl | hq
          · lia
          · have := hapart q hq
            lia
        have hpost' : ∀ m ∈ tl, r'.begin ≤ m := by
          intro m hm
          have := hafter m hm
          lia
        rw [coalesceLoop_past fuel hpost']
        have hrec := ih (by simp only [length_append, length_cons] at hf; omega) hms' m1
          (fun m hm => ⟨by have := (hpre' m hm).1; lia, by rw [hbegin]; exact (hpre' m hm).2⟩)
          hpost'
        have hsame : unreached (pre ++ skip ++ (r.end_ + 1) :: tl) r.end_ rest =
            unreached (pre ++ skip ++ tl) r'.end_ rest' := by
          refine hunreached _ _ (by simp) (fun h => ?_) (fun x hx => ?_)
          · rcases mem_append.mp h with h | h
            · have := (hpre' _ h).1
              lia
            · have := hafter _ h
              lia
          · have hxv : x ≠ r.end_ + 1 := by lia
            simp only [mem_append, mem_cons, hxv, false_or]
        refine ⟨(Moves.step hms hno hcov).trans hrec.moves, hrec.separate, ?_⟩
        rw [hsame]
        exact hrec.first
      · rw [if_neg heq, coalesceLoop_skip hr (fuel + 1) fun m hm => by have := hafter m hm; lia]
        refine .same hsep fun m hm => ?_
        rcases mem_append.mp hm with hm | hm
        · exact ⟨(hpre' m hm).2, by have := (hpre' m hm).1; lia⟩
        · rcases mem_cons.mp hm with rfl | hm
          · exact ⟨by lia, heq⟩
          · have := hafter m hm
            exact ⟨by lia, by lia⟩
end

/-- **Coalescing moves matches into ranges and settles the first one.** -/
theorem coalesce_settled (hms : Sparse ms) (hsep : Separate (r :: rest)) :
    Settled ms r rest (coalesceMatchesAndRanges ms (r :: rest)) := by
  obtain ⟨hr, hapart, hrest⟩ := separate_cons.mp hsep
  obtain ⟨pre, tail, rfl, hskip, hin, hstop⟩ := exists_skip (fun m => decide (m + 1 < r.begin)) ms
  have hpre : ∀ m ∈ pre, m + 1 < r.begin := fun m hm => of_decide_eq_true (hin m hm)
  show Settled _ r rest (coalesceLoop ((pre ++ tail).length + 1) 0 (pre ++ tail) r rest)
  rw [coalesceLoop, drop_zero, hskip, zero_add]
  dsimp only
  cases tail with
  | nil =>
    have hend : ¬ (pre.length < pre.length ∧ pre.getD pre.length 0 + 1 = r.begin) :=
      fun h => lt_irrefl _ h.1
    rw [append_nil, if_neg hend, if_neg hend, drop_length, takeWhile_nil,
      length_nil, add_zero, if_neg (lt_irrefl _), ite_self]
    refine .same hsep fun m hm => ?_
    have := hpre m hm
    exact ⟨by lia, by lia⟩
  | cons v tl =>
    obtain ⟨hbefore, hafter, hms'⟩ := sparse_middle hms
    rw [if_pos (by simp), getD_middle, eraseIdx_middle]
    by_cases heq : v + 1 = r.begin
    · -- the match just before the range joins it
      have hcond : pre.length < (pre ++ v :: tl).length ∧ v + 1 = r.begin := ⟨length_lt_middle, heq⟩
      simp only [if_pos hcond]
      have hcov : ∀ x, Covers (⟨v, r.end_⟩ :: rest) x ↔ x = v ∨ Covers (r :: rest) x := by
        intro x
        rw [covers_cons, covers_cons, ← or_assoc]
        exact or_congr_left (by dsimp only; lia)
      have hno : ¬ Covers (r :: rest) v := by
        rintro ⟨q, hq, h1, h2⟩
        rcases mem_cons.mp hq with rfl | hq
        · lia
        · have := hapart q hq
          lia
      have hsettled := joinEnd_settled (pre ++ v :: tl).length (r := ⟨v, r.end_⟩)
        (by simp only [length_append, length_cons]; omega) hms'
        (separate_cons.mpr ⟨show v ≤ r.end_ by lia, hapart, hrest⟩)
        (fun m hm => by have := hbefore m hm; exact ⟨show m ≤ r.end_ by lia, by dsimp only; lia⟩)
        (fun m hm => by have := hafter m hm; show v ≤ m; lia)
      refine ⟨(Moves.step hms hno hcov).trans hsettled.moves, hsettled.separate, ?_⟩
      have hsame : unreached (pre ++ v :: tl) r.end_ rest = unreached (pre ++ tl) r.end_ rest := by
        refine unreached_congr hrest (fun q hq => lt_trans (lt_succ_self _) (hapart q hq)) ?_
        intro x hx
        have hxv : x ≠ v := by lia
        simp only [mem_append, mem_cons, hxv, false_or]
      rw [hsame]
      exact hsettled.first
    · have hcond : ¬ (pre.length < (pre ++ v :: tl).length ∧ v + 1 = r.begin) := fun h => heq h.2
      simp only [if_neg hcond]
      refine joinEnd_settled (pre ++ v :: tl).length
        (by simp only [length_append]; omega) hms hsep
        (fun m hm => by have := hpre m hm; exact ⟨by lia, by lia⟩) (fun m hm => ?_)
      rcases mem_cons.mp hm with rfl | hm
      · lia
      · have := hafter m hm
        lia

/-- **Coalescing changes no membership**, and leaves the tables in order. -/
theorem coalesce_spec (hms : Sparse ms) (hsep : Separate rs) :
    let out := coalesceMatchesAndRanges ms rs
    Sparse out.1 ∧ Separate out.2 ∧ ∀ x, x ∈ out.1 ∨ Covers out.2 x ↔ x ∈ ms ∨ Covers rs x := by
  cases rs with
  | nil => exact ⟨hms, hsep, fun x => Iff.rfl⟩
  | cons r rest =>
    have h := coalesce_settled hms hsep
    exact ⟨hms.sublist h.moves.sublist, h.separate, h.moves.mem_iff⟩

/-! ## When coalescing is complete -/

/-- No match lies inside or next to a range. -/
def Complete (ms : List UChar32) (rs : List CharacterRange) : Prop :=
  ∀ m ∈ ms, ∀ q ∈ rs, m + 1 < q.begin ∨ q.end_ + 1 < m

/-- No match lies inside a range, nor next to one that the first range does not reach. -/
def Coalescible (ms : List UChar32) : List CharacterRange → Prop
  | [] => True
  | r :: rest => (∀ m ∈ ms, ¬ Covers (r :: rest) m) ∧ Complete ms (unreached ms r.end_ rest)

/-- **The matches that coalescing leaves inside or next to ranges** were inside a range before, or
next to one that the first range does not reach. -/
theorem complete_iff (hms : Sparse ms) (hsep : Separate rs) :
    Complete (coalesceMatchesAndRanges ms rs).1 (coalesceMatchesAndRanges ms rs).2 ↔
      Coalescible ms rs := by
  cases rs with
  | nil => exact ⟨fun _ => trivial, fun _ _ _ _ hq => absurd hq not_mem_nil⟩
  | cons r rest =>
    have h := coalesce_settled hms hsep
    set out := coalesceMatchesAndRanges ms (r :: rest)
    obtain ⟨r', hout2, hends⟩ := h.first
    constructor
    · intro hcomplete
      refine ⟨fun m hm hc => ?_, fun m hm q hq => ?_⟩
      · rcases h.moves.moved m hm with hm | ⟨hno, -⟩
        · obtain ⟨q, hq, h1, h2⟩ := h.moves.mono m hc
          rcases hcomplete m hm q hq with h' | h' <;> lia
        · exact hno hc
      · have hout : q ∈ out.2 := hout2 ▸ mem_cons_of_mem _ hq
        rcases h.moves.moved m hm with hm | ⟨hno, p, hp, h1, h2⟩
        · exact hcomplete m hm q hout
        · -- a match that was moved lies in another range than `q`
          have hpq : p ≠ q := by
            rintro rfl
            exact hno ⟨p, mem_cons_of_mem _ (unreached_subset hq), h1, h2⟩
          rcases h.separate.apart_of_ne hp hout hpq with h' | h' <;> lia
    · rintro ⟨hinside, hbeside⟩ m hm q hq
      have hmem := h.moves.sublist.subset hm
      rw [hout2] at hq
      rcases mem_cons.mp hq with rfl | hq
      · have hnot : ¬ (q.begin ≤ m ∧ m ≤ q.end_) := by
          intro hc
          rcases h.moves.added m (hout2 ▸ ⟨q, mem_cons_self .., hc⟩) with hc | hc
          · exact hinside m hmem hc
          · exact hc.2 hm
        have := hends m hm
        lia
      · exact hbeside m hmem q hq

end JscAndroid.Yarr.Coalescing
