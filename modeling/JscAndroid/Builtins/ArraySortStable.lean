import JscAndroid.Arith.Limbs
import JscAndroid.Builtins.ArraySort

/-!
# The sort is stable

The loops of `sortMergeSort` make a merge, a pass, and all passes, in the sense of stable sorting by
merging; they take an element from the right run when the comparator says so. So the result is
always a permutation, and it is the stable sort if the comparator compares by an order. The bucket
sort writes the entries that end at a depth and then the buckets in the order of their code units.
-/

namespace JscAndroid.Builtins.ArraySort

open Arith.Limbs Sorting.Stable List

variable {σ ε E V : Type}
variable {l : List E} {dst : JSArray E} {array : JSArray V} {buckets : Buckets V}
variable {bucket : List (Entry V)} {compare : V → V → Option SignType}
variable {comparator : Comparator σ ε V} {string : V → List CodeUnit} {c depth : ℕ}

/-! ## Merge sort -/

section
variable {comparator : Comparator σ ε E}

/-- A computation ends with an exception of the comparator, or its result has the property. -/
def Ends {α : Type} (comparator : Comparator σ ε E) (P : α → Prop) :
    Except (Exception ε) (α × σ) → Prop
  | .error e => ∃ x y s, comparator (some x) (some y) s = .error e
  | .ok (a, _) => P a

/-- Whatever the comparator returns for two elements, one of the conditions under which the left or
the right one is taken is met. -/
def Decides (comparator : Comparator σ ε E) (left right : E → E → Prop) : Prop :=
  ∀ x y s comparisonResult s', comparator (some y) (some x) s = .ok (comparisonResult, s') →
    if comparisonResult.takesRight then right x y else left x y

theorem Ends.imp {α : Type} {P Q : α → Prop} {result : Except (Exception ε) (α × σ)}
    (h : Ends comparator P result) (himp : ∀ a, P a → Q a) : Ends comparator Q result := by
  rcases result with e | ⟨a, s⟩
  · exact h
  · exact himp a h

/-- The elements from `i` up to `j`. -/
def segment (l : List E) (i j : ℕ) : List E := (l.drop i).take (j - i)

theorem segment_nil {i j : ℕ} (h : j ≤ i) : segment l i j = [] := by
  simp [segment, Nat.sub_eq_zero_of_le h]

theorem segment_cons {i j : ℕ} (h : i < j) (hj : j ≤ l.length) :
    ∃ x, read (l.map some) i = some x ∧ segment l i j = x :: segment l (i + 1) j := by
  have hi : i < l.length := by omega
  refine ⟨l[i], by simp [read, hi], ?_⟩
  rw [segment, drop_eq_getElem_cons hi, show j - i = (j - (i + 1)) + 1 by omega]
  rfl

variable {left right : E → E → Prop}

theorem ends_after_put {dstIndex : ℕ} {x : E} (hdst : dstIndex < dst.length)
    {xs ys xs' ys' : List E} {result : Except (Exception ε) (JSArray E × σ)}
    (h : Ends comparator (fun dst' => ∃ zs, Merges left right xs' ys' zs ∧
      dst' = overwrite (putByValDirect dst dstIndex (some x)) (dstIndex + 1) (zs.map some)) result)
    (hmerges : ∀ zs, Merges left right xs' ys' zs → Merges left right xs ys (x :: zs)) :
    Ends comparator (fun dst' => ∃ zs, Merges left right xs ys zs ∧
      dst' = overwrite dst dstIndex (zs.map some)) result := by
  refine h.imp ?_
  rintro dst' ⟨zs, hzs, rfl⟩
  refine ⟨x :: zs, hmerges zs hzs, ?_⟩
  rw [putByValDirect, overwrite_set hdst, map_cons]

section
variable (hdecides : Decides comparator left right)
include hdecides

/-- **The loop of `sortMerge`** writes a merge of what is left of the two runs. -/
theorem sortMergeLoop_spec
    {leftEnd rightEnd dstIndex leftIndex rightIndex : ℕ} (s : σ) (hleft : leftIndex ≤ leftEnd)
    (hmid : leftEnd ≤ rightIndex) (hright : rightIndex ≤ rightEnd) (hend : rightEnd ≤ l.length)
    (hdst : rightEnd ≤ dst.length) (hindex : dstIndex + leftEnd = leftIndex + rightIndex) :
    Ends comparator (fun dst' => ∃ zs, Merges left right (segment l leftIndex leftEnd)
        (segment l rightIndex rightEnd) zs ∧ dst' = overwrite dst dstIndex (zs.map some))
      (sortMergeLoop comparator (l.map some) leftEnd rightEnd dstIndex leftIndex rightIndex
        dst s) := by
  fun_induction sortMergeLoop comparator (l.map some) leftEnd rightEnd dstIndex leftIndex rightIndex
    dst s with
  | case1 dstIndex leftIndex rightIndex dst s _ hmore hused ih =>
    obtain ⟨y, hy, hsegment⟩ := segment_cons hmore hend
    rw [hy] at ih ⊢
    refine ends_after_put (by omega) (ih (by omega) (by omega) (by omega)
      (by simpa [putByValDirect])
      (by omega)) fun zs hzs => ?_
    rw [segment_nil hused] at hzs ⊢
    rw [hsegment, hzs.eq_right]
    exact .leftNil _
  | case2 dstIndex leftIndex rightIndex dst s _ hmore hused e herror =>
    obtain ⟨x, hx, -⟩ := segment_cons (not_le.mp hused) (hmid.trans (hright.trans hend))
    obtain ⟨y, hy, -⟩ := segment_cons hmore hend
    rw [hx, hy] at herror
    exact ⟨y, x, s, herror⟩
  | case3 dstIndex leftIndex rightIndex dst s _ hmore hused comparisonResult s' hok htakes ih =>
    obtain ⟨x, hx, hleftSegment⟩ := segment_cons (not_le.mp hused) (hmid.trans (hright.trans hend))
    obtain ⟨y, hy, hsegment⟩ := segment_cons hmore hend
    rw [hx, hy] at hok
    have hchoice := hdecides x y s comparisonResult s' hok
    rw [if_pos htakes] at hchoice
    rw [hy] at ih ⊢
    refine ends_after_put (by omega) (ih (by omega) (by omega) (by omega)
      (by simpa [putByValDirect])
      (by omega)) fun zs hzs => ?_
    rw [hleftSegment] at hzs ⊢
    rw [hsegment]
    exact .takeRight hchoice hzs
  | case4 dstIndex leftIndex rightIndex dst s _ hmore hused comparisonResult s' hok htakes ih =>
    obtain ⟨x, hx, hleftSegment⟩ := segment_cons (not_le.mp hused) (hmid.trans (hright.trans hend))
    obtain ⟨y, hy, hsegment⟩ := segment_cons hmore hend
    rw [hx, hy] at hok
    have hchoice := hdecides x y s comparisonResult s' hok
    rw [if_neg htakes] at hchoice
    rw [hx] at ih ⊢
    refine ends_after_put (by omega) (ih (by omega) (by omega) (by omega)
      (by simpa [putByValDirect])
      (by omega)) fun zs hzs => ?_
    rw [hsegment] at hzs ⊢
    rw [hleftSegment]
    exact .takeLeft hchoice hzs
  | case5 dstIndex leftIndex rightIndex dst s hlt hmore ih =>
    have hrun : leftIndex < leftEnd := by omega
    obtain ⟨x, hx, hleftSegment⟩ := segment_cons hrun (hmid.trans (hright.trans hend))
    rw [hx] at ih ⊢
    refine ends_after_put (by omega) (ih (by omega) (by omega) (by omega)
      (by simpa [putByValDirect])
      (by omega)) fun zs hzs => ?_
    rw [segment_nil (not_lt.mp hmore)] at hzs ⊢
    rw [hleftSegment, hzs.eq_left]
    exact .rightNil _
  | case6 dstIndex leftIndex rightIndex dst s hdone =>
    refine ⟨[], ?_, (overwrite_nil _ _).symm⟩
    rw [segment_nil (show leftEnd ≤ leftIndex by omega),
      segment_nil (show rightEnd ≤ rightIndex by omega)]
    exact .leftNil _

omit hdecides in
theorem segment_run (l : List E) (i w : ℕ) :
    segment l i (min (i + w) l.length) = (l.drop i).take w := by
  rw [segment, take_eq_take_iff, length_drop]
  omega

theorem sortMerge_spec {srcIndex : ℕ} (width : ℕ) (s : σ)
    (hdst : dst.length = l.length) (hindex : srcIndex ≤ l.length) :
    Ends comparator (fun dst' => ∃ zs, Merges left right ((l.drop srcIndex).take width)
        (((l.drop srcIndex).drop width).take width) zs ∧
        dst' = overwrite dst srcIndex (zs.map some))
      (sortMerge comparator dst (l.map some) srcIndex l.length width s) := by
  have hright : l.drop (min (srcIndex + width) l.length) = (l.drop srcIndex).drop width := by
    rw [drop_drop]
    by_cases h : srcIndex + width ≤ l.length
    · rw [min_eq_left h]
    · rw [min_eq_right (by omega), drop_length, drop_eq_nil_of_le (by omega)]
  rw [← segment_run l srcIndex, ← hright, ← segment_run l]
  exact sortMergeLoop_spec hdecides s (by omega) (by omega) (by omega) (by omega) (by omega)
    (by omega)

/-- **The inner loop** makes a pass over the runs from an index on. -/
theorem sortMergePass_spec (level srcIndex : ℕ) (s : σ) (hdst : dst.length = l.length) :
    Ends comparator (fun dst' => ∃ l', MergesRuns left right (2 ^ level) (l.drop srcIndex) l' ∧
        dst' = overwrite dst srcIndex (l'.map some))
      (sortMergePass comparator (l.map some) l.length level srcIndex dst s) := by
  fun_induction sortMergePass comparator (l.map some) l.length level srcIndex dst s with
  | case1 srcIndex dst s hlt e herror =>
    have hmerge := sortMerge_spec hdecides (2 ^ level) s hdst (le_of_lt hlt)
    rwa [herror] at hmerge
  | case2 srcIndex dst s hlt dst' s' hok ih =>
    have hmerge := sortMerge_spec hdecides (2 ^ level) s hdst (le_of_lt hlt)
    rw [hok] at hmerge
    obtain ⟨zs, hmerges, rfl⟩ := hmerge
    have hlength := hmerges.length_eq
    simp only [length_take, length_drop] at hlength
    have hfits : srcIndex + (zs.map some).length ≤ dst.length := by
      rw [length_map]
      omega
    refine (ih (by rw [length_overwrite hfits, hdst])).imp ?_
    rintro dst' ⟨rest, hrest, rfl⟩
    refine ⟨zs ++ rest, ?_, ?_⟩
    · refine .runs (by simpa using hlt) hmerges ?_
      rwa [drop_drop]
    · rw [map_append, ← overwrite_append hfits, length_map]
      -- a pair of runs that is not of full length is the last one
      by_cases hfull : srcIndex + 2 * 2 ^ level ≤ l.length
      · rw [show zs.length = 2 * 2 ^ level by omega]
      · rw [drop_eq_nil_of_le (by omega)] at hrest
        obtain rfl : rest = [] := by
          cases hrest with
          | nil => rfl
          | runs hne => exact (hne rfl).elim
        rw [map_nil, overwrite_nil, overwrite_nil]
  | case3 srcIndex dst s hdone =>
    refine ⟨[], ?_, (overwrite_nil _ _).symm⟩
    rw [drop_eq_nil_of_le (not_lt.mp hdone)]
    exact .nil

/-- **The outer loop** makes all passes; the other buffer is of the same size. -/
theorem sortMergePasses_spec {level : ℕ} (s : σ) (hdst : dst.length = l.length) :
    Ends comparator (fun sorted => ∃ l', MergeSorts left right (2 ^ level) l l' ∧
        sorted = l'.map some) (sortMergePasses comparator l.length level (l.map some) dst s) := by
  generalize hcount : l.length = valueCount
  generalize hsrc : l.map some = src
  fun_induction sortMergePasses comparator valueCount level src dst s generalizing l with
  | case1 level src dst s hlt e herror =>
    have hpass := sortMergePass_spec hdecides level 0 s hdst
    rwa [hsrc, hcount, herror] at hpass
  | case2 level src dst s hlt dst' s' hok ih =>
    have hpass := sortMergePass_spec hdecides level 0 s hdst
    rw [hsrc, hcount, hok] at hpass
    obtain ⟨l', hruns, rfl⟩ := hpass
    rw [drop_zero] at hruns
    have hlength := hruns.perm.length_eq
    rw [overwrite_all (by rw [hdst, length_map, hlength])] at ih ⊢
    refine (ih (by rw [← hsrc, length_map, hlength]) (by rw [hlength, hcount])
      rfl).imp ?_
    rintro sorted ⟨s', hsorts, rfl⟩
    refine ⟨s', .pass (by omega) hruns ?_, rfl⟩
    rwa [← pow_succ']
  | case3 level src dst s hdone =>
    exact ⟨l, .done (by omega), hsrc.symm⟩

theorem sortMergeSort_spec (l : List E) (s : σ) :
    Ends comparator (fun sorted => ∃ l', MergeSorts left right 1 l l' ∧ sorted = l'.map some)
      (sortMergeSort comparator (l.map some) s) := by
  rw [sortMergeSort, length_map]
  exact sortMergePasses_spec hdecides s (by simp [newArrayWithSize])
end

theorem sortMergeSort_perm (comparator : Comparator σ ε E) (l : List E) (s : σ) :
    Ends comparator (fun sorted => ∃ l' : List E, l'.Perm l ∧ sorted = l'.map some)
      (sortMergeSort comparator (l.map some) s) := by
  have hdecides : Decides comparator (fun _ _ => True) (fun _ _ => True) := by
    intro x y s comparisonResult s' _
    split_ifs <;> trivial
  refine (sortMergeSort_spec hdecides l s).imp ?_
  rintro sorted ⟨l', hsorts, rfl⟩
  exact ⟨l', hsorts.perm, rfl⟩

/-- The comparator compares by an order: it takes the right element exactly if that is below the
left one, and never throws. -/
def ComparesBy (comparator : Comparator σ ε E) (le : E → E → Bool) : Prop :=
  ∀ x y s, ∃ comparisonResult s', comparator (some y) (some x) s = .ok (comparisonResult, s') ∧
    comparisonResult.takesRight = !le x y

/-- With a comparator that compares by an order, the array is sorted stably. -/
theorem sortMergeSort_stable {le : E → E → Bool} (hle : TotalPreorder le)
    (hcompares : ComparesBy comparator le) (l : List E) (s : σ) :
    ∃ l' s', sortMergeSort comparator (l.map some) s = .ok (l'.map some, s') ∧
      StableSort le l l' := by
  have hdecides : Decides comparator (fun x y => le x y = true) (fun x y => le x y = false) := by
    intro x y s comparisonResult s' hok
    obtain ⟨_, _, hok', htakes⟩ := hcompares x y s
    rw [hok] at hok'
    obtain ⟨rfl, rfl⟩ := Prod.mk.inj (Except.ok.inj hok')
    rw [htakes]
    cases hxy : le x y <;> simp [hxy]
  have hspec := sortMergeSort_spec hdecides l s
  rcases hresult : sortMergeSort comparator (l.map some) s with e | ⟨sorted, s'⟩
  · rw [hresult] at hspec
    obtain ⟨x, y, s, herror⟩ := hspec
    obtain ⟨_, _, hok, -⟩ := hcompares y x s
    rw [herror] at hok
    cases hok
  · rw [hresult] at hspec
    obtain ⟨l', hsorts, rfl⟩ := hspec
    exact ⟨l', s', rfl, hsorts.stableSort hle (runsOrdered_one l)⟩
end

/-! ## Bucket sort -/

section
/-- The order of the strings. -/
def Entry.le (a b : Entry V) : Bool := a.string ≤ b.string

theorem totalPreorder_entry : TotalPreorder (Entry.le (V := V)) where
  total a b := by simpa [Entry.le] using le_total a.string b.string
  trans a b c := by simpa [Entry.le] using le_trans

theorem sortStringComparator_comparesBy :
    ComparesBy (sortStringComparator : Comparator σ ε (Entry V)) Entry.le := by
  intro x y s
  by_cases heq : y.string = x.string
  · refine ⟨.number (some 0), s, by simp [sortStringComparator, heq], ?_⟩
    simp [Comparison.takesRight, Entry.le, heq]
  · by_cases hgt : y.string > x.string
    · refine ⟨.number (some 1), s, by simp [sortStringComparator, heq, hgt], ?_⟩
      have hle : x.string ≤ y.string := le_of_lt hgt
      simp [Comparison.takesRight, Entry.le, hle]
    · refine ⟨.number (some (-1)), s, by simp [sortStringComparator, heq, hgt], ?_⟩
      have hle : ¬ x.string ≤ y.string := fun hle =>
        hgt (lt_of_le_of_ne hle fun h => heq h.symm)
      simp [Comparison.takesRight, Entry.le, hle]

/-- The entries have the same first code units. -/
def Share (depth : ℕ) (bucket : List (Entry V)) : Prop :=
  ∀ a ∈ bucket, depth ≤ a.string.length ∧
    ∀ b ∈ bucket, a.string.take depth = b.string.take depth

/-- The values of entries, as they are written. -/
def values (entries : List (Entry V)) : JSArray V := entries.map fun entry => some entry.value

theorem writeSorted_eq {entries : List (Entry V)} {dst : ℕ}
    (hfits : dst + entries.length ≤ array.length) : writeSorted (entries.map some) array dst =
      (overwrite array dst (values entries), dst + entries.length) := by
  induction entries generalizing array dst with
  | nil => simp [writeSorted, values, overwrite_nil]
  | cons entry entries ih =>
    rw [length_cons] at hfits
    have hput : (putByValDirect array dst (some entry.value)).length = array.length := by
      simp [putByValDirect]
    rw [map_cons, writeSorted, Option.map_some, ih (by omega), putByValDirect,
      overwrite_set (by omega), add_assoc, add_comm 1]
    rfl

/-- The entries that end at the depth. -/
def ended (depth : ℕ) (entry : Entry V) : Bool := entry.string.length = depth

/-- The entries with a code unit at the depth. -/
def hasCode (depth c : ℕ) (entry : Entry V) : Bool :=
  (entry.string[depth]?).map Fin.val = some c

/-- What is in a bucket. -/
def bucketAt (buckets : Buckets V) (c : ℕ) : List (Entry V) := (buckets.getD c none).getD []

theorem bucketAt_set (h : c < buckets.length) (b : List (Entry V)) (d : ℕ) :
    bucketAt (buckets.set c (some b)) d = if d = c then b else bucketAt buckets d := by
  unfold bucketAt
  by_cases hd : d = c
  · simp [hd, h]
  · simp [hd, Ne.symm hd]

theorem bucketAt_extend (h : buckets.length ≤ c) (b : List (Entry V)) (d : ℕ) :
    bucketAt (buckets ++ List.replicate (c - buckets.length) none ++ [some b]) d =
      if d = c then b else bucketAt buckets d := by
  have hlength : (buckets ++ replicate (c - buckets.length) none).length = c := by
    simp
    omega
  unfold bucketAt
  rw [getD_eq_getElem?_getD, getD_eq_getElem?_getD]
  rcases lt_trichotomy d c with hlt | rfl | hgt
  · rw [if_neg hlt.ne, getElem?_append_left (by omega)]
    by_cases hd : d < buckets.length
    · rw [getElem?_append_left hd]
    · rw [getElem?_append_right (by omega), getElem?_eq_none (not_lt.mp hd),
        getElem?_replicate]
      split_ifs <;> rfl
  · rw [if_pos rfl, getElem?_append_right (by omega), hlength, Nat.sub_self]
    rfl
  · rw [if_neg hgt.ne', getElem?_eq_none (by rw [length_append, hlength]; simpa),
      getElem?_eq_none (by omega)]

theorem bucketAt_pushBucket (buckets : Buckets V) (c : ℕ) (entry : Entry V) (d : ℕ) :
    bucketAt (pushBucket buckets c entry) d =
      if d = c then bucketAt buckets c ++ [entry] else bucketAt buckets d := by
  unfold pushBucket
  split
  case h_1 cBucket hbucket =>
    have hc : c < buckets.length := by
      by_contra hc
      rw [getD_eq_default _ _ (not_lt.mp hc)] at hbucket
      cases hbucket
    have hfull : bucketAt buckets c = cBucket := by rw [bucketAt, hbucket, Option.getD_some]
    rw [bucketAt_set hc, hfull]
  case h_2 hbucket =>
    have hempty : bucketAt buckets c = [] := by rw [bucketAt, hbucket, Option.getD_none]
    rw [hempty, nil_append]
    by_cases hc : c < buckets.length
    · rw [if_pos hc, bucketAt_set hc]
    · rw [if_neg hc, bucketAt_extend (not_lt.mp hc)]

/-- **Distributing** a bucket writes the entries that end, and appends the others to the buckets of
their code units. -/
theorem distribute_spec {dst : ℕ} (buckets : Buckets V)
    (hlong : ∀ a ∈ bucket, depth ≤ a.string.length)
    (hfits : dst + (bucket.filter (ended depth)).length ≤ array.length) :
    ∃ buckets', distribute depth bucket array dst buckets =
        (overwrite array dst (values (bucket.filter (ended depth))),
          dst + (bucket.filter (ended depth)).length, buckets') ∧
      ∀ c, bucketAt buckets' c = bucketAt buckets c ++ bucket.filter (hasCode depth c) := by
  induction bucket generalizing array dst buckets with
  | nil => exact ⟨buckets, by simp [distribute, values, overwrite_nil], by simp⟩
  | cons entry bucket ih =>
    rw [forall_mem_cons] at hlong
    unfold distribute
    by_cases hended : entry.string.length = depth
    · have hfilter : (entry :: bucket).filter (ended depth) =
          entry :: bucket.filter (ended depth) := by simp [ended, hended]
      rw [hfilter, length_cons] at hfits
      have hcode : ∀ c, (entry :: bucket).filter (hasCode depth c) =
          bucket.filter (hasCode depth c) := by
        intro c
        refine filter_cons_of_neg ?_
        simp [hasCode, getElem?_eq_none hended.le]
      obtain ⟨buckets', heq, hbuckets⟩ := @ih
        (putByValDirect array dst (some entry.value)) (dst + 1) buckets hlong.2
        (by simp [putByValDirect]; omega)
      refine ⟨buckets', ?_, fun c => by rw [hbuckets, hcode]⟩
      rw [if_pos hended, heq, hfilter, putByValDirect, overwrite_set (by omega), add_assoc,
        add_comm 1]
      rfl
    · have hlt : depth < entry.string.length := lt_of_le_of_ne hlong.1 (Ne.symm hended)
      have hfilter : (entry :: bucket).filter (ended depth) = bucket.filter (ended depth) := by
        simp [ended, hended]
      rw [hfilter] at hfits ⊢
      obtain ⟨buckets', heq, hbuckets⟩ := @ih array dst
        (pushBucket buckets entry.string[depth] entry) hlong.2 hfits
      refine ⟨buckets', ?_, fun c => ?_⟩
      · rwa [if_neg hended, getElem?_eq_getElem hlt]
      · rw [hbuckets, bucketAt_pushBucket]
        by_cases hc : c = entry.string[depth]
        · rw [if_pos hc, filter_cons_of_pos (by simp [hasCode, hlt, hc]), hc,
            append_assoc, singleton_append]
        · rw [if_neg hc, filter_cons_of_neg (by simpa [hasCode, hlt, eq_comm] using hc)]

section
variable {depth : ℕ} {a b : Entry V}

theorem hasCode_iff :
    hasCode depth c a = true ↔ ∃ unit, a.string[depth]? = some unit ∧ unit.val = c := by
  simp only [hasCode, decide_eq_true_eq, Option.map_eq_some_iff]

theorem drop_of_hasCode (h : hasCode depth c a = true) : ∃ unit : CodeUnit, unit.val = c ∧
      a.string = a.string.take depth ++ unit :: a.string.drop (depth + 1) := by
  obtain ⟨unit, hunit, hc⟩ := hasCode_iff.mp h
  obtain ⟨hlt, hget⟩ := List.getElem?_eq_some_iff.mp hunit
  refine ⟨unit, hc, ?_⟩
  rw [← hget, ← drop_eq_getElem_cons hlt, take_append_drop]

theorem le_false_of_ended (hshare : a.string.take depth = b.string.take depth)
    (ha : ended depth a = true) (hb : hasCode depth c b = true) : Entry.le b a = false := by
  obtain ⟨unit, -, hstring⟩ := drop_of_hasCode hb
  have hend : a.string.take depth = a.string :=
    take_of_length_le (of_decide_eq_true ha).le
  have hlt : a.string < b.string := by
    rw [hstring, ← hshare, hend]
    have hnil : Lex (· < ·) [] (unit :: b.string.drop (depth + 1)) := .nil
    simpa using Lex.append_left _ hnil a.string
  simpa [Entry.le] using hlt

theorem le_false_of_code {d : ℕ} (hshare : a.string.take depth = b.string.take depth)
    (ha : hasCode depth c a = true) (hb : hasCode depth d b = true) (hcd : c < d) :
    Entry.le b a = false := by
  obtain ⟨unit, rfl, hstring⟩ := drop_of_hasCode ha
  obtain ⟨unit', rfl, hstring'⟩ := drop_of_hasCode hb
  have hlt : a.string < b.string := by
    rw [hstring, hstring', ← hshare]
    have hunits : Lex (· < ·) (unit :: a.string.drop (depth + 1))
        (unit' :: b.string.drop (depth + 1)) := .rel (Fin.lt_def.mpr hcd)
    exact Lex.append_left _ hunits _
  simpa [Entry.le] using hlt

theorem share_filter (hshare : Share depth bucket) (c : ℕ) :
    Share (depth + 1) (bucket.filter (hasCode depth c)) := by
  intro a ha
  obtain ⟨ha, hca⟩ := mem_filter.mp ha
  obtain ⟨unit, hunit, hc⟩ := hasCode_iff.mp hca
  refine ⟨(List.getElem?_eq_some_iff.mp hunit).1, fun b hb => ?_⟩
  obtain ⟨hb, hcb⟩ := mem_filter.mp hb
  obtain ⟨unit', hunit', hc'⟩ := hasCode_iff.mp hcb
  obtain rfl : unit = unit' := Fin.ext (hc.trans hc'.symm)
  rw [take_add_one, take_add_one, (hshare a ha).2 b hb, hunit, hunit']
end

/-- The entries with a code unit from `c` on at the depth. -/
def codeFrom (depth c : ℕ) (entry : Entry V) : Bool :=
  (entry.string[depth]?).any fun unit => c ≤ unit.val

theorem codeFrom_iff {a : Entry V} :
    codeFrom depth c a = true ↔ ∃ d, c ≤ d ∧ hasCode depth d a = true := by
  simp only [codeFrom, Option.any_eq_true, decide_eq_true_eq, hasCode_iff]
  constructor
  · rintro ⟨unit, hunit, hc⟩
    exact ⟨unit.val, hc, unit, hunit, rfl⟩
  · rintro ⟨d, hd, unit, hunit, rfl⟩
    exact ⟨unit, hunit, hd⟩

theorem hasCode_unique {d : ℕ} {a : Entry V} (hc : hasCode depth c a = true)
    (hd : hasCode depth d a = true) : c = d := by
  obtain ⟨unit, hunit, rfl⟩ := hasCode_iff.mp hc
  obtain ⟨unit', hunit', rfl⟩ := hasCode_iff.mp hd
  rw [hunit] at hunit'
  rw [Option.some.inj hunit']

theorem filter_codeFrom_pos (depth c : ℕ) (bucket : List (Entry V)) :
    (bucket.filter (codeFrom depth c)).filter (hasCode depth c) =
      bucket.filter (hasCode depth c) := by
  rw [filter_filter]
  refine filter_congr fun a _ => ?_
  by_cases h : hasCode depth c a = true
  · rw [h, codeFrom_iff.mpr ⟨c, le_refl c, h⟩]
    rfl
  · rw [Bool.not_eq_true] at h
    rw [h, Bool.false_and]

theorem filter_codeFrom_neg (depth c : ℕ) (bucket : List (Entry V)) :
    (bucket.filter (codeFrom depth c)).filter (fun a => !hasCode depth c a) =
      bucket.filter (codeFrom depth (c + 1)) := by
  rw [filter_filter]
  refine filter_congr fun a _ => ?_
  rw [Bool.eq_iff_iff, Bool.and_eq_true, codeFrom_iff, codeFrom_iff]
  constructor
  · rintro ⟨hne, d, hd, h⟩
    refine ⟨d, lt_of_le_of_ne hd ?_, h⟩
    rintro rfl
    rw [h] at hne
    cases hne
  · rintro ⟨d, hd, h⟩
    refine ⟨?_, d, by omega, h⟩
    by_contra hc
    have := hasCode_unique (by simpa using hc) h
    omega

theorem values_eq (s : List (Entry V)) : values s = (s.map Entry.value).map some := by
  rw [map_map]
  rfl

theorem values_append (s t : List (Entry V)) : values (s ++ t) = values s ++ values t :=
  map_append

theorem length_values (s : List (Entry V)) : (values s).length = s.length := length_map _

/-- What `sortBucketSort` is to return for a bucket. -/
def Sorts (array : JSArray V) (dst : ℕ) (bucket : List (Entry V))
    (result : Except (Exception ε) (JSArray V × ℕ)) : Prop :=
  ∃ s, StableSort Entry.le bucket s ∧
    result = .ok (overwrite array dst (values s), dst + s.length)

/-- A part that is below the other entries is written first, and they go behind it. -/
theorem Sorts.append {p : Entry V → Bool} {s : List (Entry V)} {dst : ℕ}
    {result : Except (Exception ε) (JSArray V × ℕ)}
    (hs : StableSort Entry.le (bucket.filter p) s) (hfits : dst + s.length ≤ array.length)
    (hbelow : ∀ a ∈ bucket, ∀ b ∈ bucket, p a = true → p b = false → Entry.le b a = false)
    (hrest : Sorts (overwrite array dst (values s)) (dst + s.length)
      (bucket.filter fun a => !p a) result) : Sorts array dst bucket result := by
  obtain ⟨t, ht, rfl⟩ := hrest
  refine ⟨s ++ t, StableSort.append totalPreorder_entry hs ht hbelow, ?_⟩
  rw [← length_values] at hfits
  rw [values_append, ← overwrite_append hfits, length_values, length_append, add_assoc]

section
variable (hshare : Share depth bucket)
include hshare

/-- **The loop over the buckets**, from the code unit `c` on. -/
theorem foldBuckets_spec
    (step : JSArray V × ℕ → Option (List (Entry V)) → Except (Exception ε) (JSArray V × ℕ))
    (hnone : ∀ state, step state none = .ok state) (hsome : ∀ c (array : JSArray V) dst,
      dst + (bucket.filter (hasCode depth c)).length ≤ array.length →
      Sorts array dst (bucket.filter (hasCode depth c))
        (step (array, dst) (some (bucket.filter (hasCode depth c))))) {dst : ℕ}
    (hbuckets : ∀ j, bucketAt buckets j = bucket.filter (hasCode depth (c + j)))
    (hfits : dst + (bucket.filter (codeFrom depth c)).length ≤ array.length) :
    Sorts array dst (bucket.filter (codeFrom depth c)) (buckets.foldlM step (array, dst)) := by
  induction buckets generalizing c array dst with
  | nil =>
    have hnil : bucket.filter (codeFrom depth c) = [] := by
      rw [filter_eq_nil_iff]
      intro a ha hfrom
      obtain ⟨d, hd, hcode⟩ := codeFrom_iff.mp hfrom
      have hempty := hbuckets (d - c)
      rw [Nat.add_sub_cancel' hd] at hempty
      exact filter_eq_nil_iff.mp hempty.symm a ha hcode
    rw [hnil]
    exact ⟨[], stableSort_nil, by simp [values, overwrite_nil]; rfl⟩
  | cons b buckets ih =>
    have hfirst : b.getD [] = bucket.filter (hasCode depth c) := hbuckets 0
    have hlength : (bucket.filter (codeFrom depth c)).length =
        (bucket.filter (hasCode depth c)).length +
          (bucket.filter (codeFrom depth (c + 1))).length := by
      rw [← filter_codeFrom_pos, ← filter_codeFrom_neg]
      exact (filter_append_perm (hasCode depth c) _).length_eq.symm.trans length_append
    obtain ⟨s, hs, hstep⟩ : Sorts array dst (bucket.filter (hasCode depth c))
        (step (array, dst) b) := by
      cases b with
      | none =>
        rw [← hfirst]
        exact ⟨[], stableSort_nil, by simp [hnone, values, overwrite_nil]⟩
      | some b =>
        obtain rfl : b = bucket.filter (hasCode depth c) := hfirst
        exact hsome c array dst (by omega)
    have hslength := hs.perm.length_eq
    refine Sorts.append (by rwa [filter_codeFrom_pos]) (by omega) ?_ ?_
    · intro x hx y hy hcx hcy
      obtain ⟨hx, -⟩ := mem_filter.mp hx
      obtain ⟨hy, hfrom⟩ := mem_filter.mp hy
      obtain ⟨d, hd, hcode⟩ := codeFrom_iff.mp hfrom
      refine le_false_of_code ((hshare x hx).2 y hy) hcx hcode (lt_of_le_of_ne hd ?_)
      rintro rfl
      rw [hcode] at hcy
      cases hcy
    · rw [filter_codeFrom_neg, foldlM_cons, hstep]
      refine ih (fun j => ?_) ?_
      · rw [add_right_comm]
        exact hbuckets (j + 1)
      · rw [length_overwrite (by rw [length_values]; omega)]
        omega

/-- The entries that end at the depth are equal, so they are sorted as they are. -/
theorem stableSort_ended :
    StableSort Entry.le (bucket.filter (ended depth)) (bucket.filter (ended depth)) := by
  refine ⟨.refl _, pairwise_of_forall_mem_list fun a ha b hb => ?_, fun _ => rfl⟩
  obtain ⟨ha, hea⟩ := mem_filter.mp ha
  obtain ⟨hb, heb⟩ := mem_filter.mp hb
  have htake := (hshare a ha).2 b hb
  rw [take_of_length_le (of_decide_eq_true hea).le,
    take_of_length_le (of_decide_eq_true heb).le] at htake
  simp [Entry.le, htake]

theorem filter_not_ended :
    bucket.filter (fun a => !ended depth a) = bucket.filter (codeFrom depth 0) := by
  refine filter_congr fun a ha => ?_
  have hlong := (hshare a ha).1
  by_cases hended : a.string.length = depth
  · simp [ended, codeFrom, hended]
  · have hlt : depth < a.string.length := lt_of_le_of_ne hlong (Ne.symm hended)
    simp [ended, codeFrom, hended, hlt]

/-- **The bucket sort** writes the stable sort of a bucket. -/
theorem sortBucketSort_spec {dst : ℕ}
    (hfits : dst + bucket.length ≤ array.length) : Sorts array dst bucket
      (sortBucketSort array dst bucket depth : Except (Exception ε) (JSArray V × ℕ)) := by
  induction hlevels : 33 - depth using Nat.strong_induction_on generalizing depth bucket
    array dst with
  | _ levels ih =>
    unfold sortBucketSort
    by_cases hsmall : bucket.length < 32 ∨ depth > 32
    · obtain ⟨sorted, s', hsorted, hstable⟩ := sortMergeSort_stable (ε := ε) totalPreorder_entry
        sortStringComparator_comparesBy bucket ()
      have hlength := hstable.perm.length_eq
      rw [if_pos hsmall, hsorted]
      refine ⟨sorted, hstable, ?_⟩
      dsimp only
      rw [writeSorted_eq (by omega)]
    · rw [if_neg hsmall]
      have hsplit := (filter_append_perm (ended depth) bucket).length_eq
      rw [length_append, filter_not_ended hshare] at hsplit
      obtain ⟨buckets, hdistribute, hbuckets⟩ := distribute_spec [] (fun a ha => (hshare a ha).1)
        (show dst + (bucket.filter (ended depth)).length ≤ array.length by omega)
      rw [hdistribute]
      refine Sorts.append (stableSort_ended hshare) (by omega) ?_ ?_
      · intro x hx y hy hex hey
        have hfrom : y ∈ bucket.filter (codeFrom depth 0) := by
          rw [← filter_not_ended hshare, mem_filter]
          exact ⟨hy, by rw [hey]; rfl⟩
        obtain ⟨d, -, hcode⟩ := codeFrom_iff.mp (mem_filter.mp hfrom).2
        exact le_false_of_ended ((hshare x hx).2 y hy) hex hcode
      · rw [filter_not_ended hshare]
        refine foldBuckets_spec hshare _ (fun _ => rfl) (fun c array dst hfits => ?_)
          (fun j => ?_) ?_
        · exact ih (33 - (depth + 1)) (by omega) (share_filter hshare c) hfits rfl
        · rw [hbuckets]
          simp [bucketAt]
        · rw [length_overwrite (by rw [length_values]; omega)]
          omega
end

end

/-! ## The built-in -/

section
variable {receiver : Receiver V}

/-- The defined value at an index. -/
def valueAt (receiver : Receiver V) (i : ℕ) : Option V := (receiver.property i).join

/-- The defined values of the receiver, in the order of their indices. -/
def definedValues (receiver : Receiver V) : List V :=
  (List.range receiver.length).filterMap (valueAt receiver)

/-- The number of properties that are `undefined`. -/
def undefinedCount (receiver : Receiver V) : ℕ :=
  (List.range receiver.length).countP fun i => (receiver.property i).any Option.isNone

/-- The receiver with the values in front, then the `undefined`s, then the holes. -/
def arranged (receiver : Receiver V) (sorted : List V) : Receiver V :=
  { receiver with
    property := fun i =>
      if i < receiver.length then
        (sorted.map some ++ List.replicate (undefinedCount receiver) none)[i]?
      else receiver.property i }

theorem definedValues_add_undefinedCount_le (receiver : Receiver V) :
    (definedValues receiver).length + undefinedCount receiver ≤ receiver.length := by
  have hle : ∀ indices : List ℕ,
      (indices.filterMap (valueAt receiver)).length +
        indices.countP (fun i => (receiver.property i).any Option.isNone) ≤ indices.length := by
    intro indices
    induction indices with
    | nil => simp
    | cons i indices ih =>
      rcases hproperty : receiver.property i with _ | _ | v <;> simp [valueAt, hproperty] <;> omega
  simpa [definedValues, undefinedCount] using hle (range receiver.length)

theorem sortCompact_spec {make : V → Except (Exception ε) E} {element : V → E}
    (hmake : ∀ v ∈ definedValues receiver, make v = .ok (element v)) : sortCompact receiver make =
      .ok (undefinedCount receiver, (definedValues receiver).map element) := by
  have hfold : ∀ (indices : List ℕ) (count : ℕ) (compacted : List E),
      (∀ v ∈ indices.filterMap (valueAt receiver), make v = .ok (element v)) →
      indices.foldlM (compactOne receiver make) (count, compacted) =
        .ok (count + indices.countP fun i => (receiver.property i).any Option.isNone,
          compacted ++ (indices.filterMap (valueAt receiver)).map element) := by
    intro indices
    induction indices with
    | nil =>
      intro count compacted _
      rw [filterMap_nil, map_nil, append_nil]
      rfl
    | cons i indices ih =>
      intro count compacted hindices
      rw [foldlM_cons, countP_cons]
      rcases hproperty : receiver.property i with _ | _ | v
      · have hvalue : valueAt receiver i = none := by rw [valueAt, hproperty]; rfl
        rw [filterMap_cons_none hvalue] at hindices ⊢
        simp only [compactOne, hproperty]
        exact ih count compacted hindices
      · have hvalue : valueAt receiver i = none := by rw [valueAt, hproperty]; rfl
        rw [filterMap_cons_none hvalue] at hindices ⊢
        simp only [compactOne, hproperty]
        refine (ih (count + 1) compacted hindices).trans ?_
        simp [add_comm, add_assoc]
      · have hvalue : valueAt receiver i = some v := by rw [valueAt, hproperty]; rfl
        rw [filterMap_cons_some hvalue, forall_mem_cons] at hindices
        rw [filterMap_cons_some hvalue]
        simp only [compactOne, hproperty, hindices.1]
        refine (ih count (compacted ++ [element v]) hindices.2).trans ?_
        simp
  have hall := hfold (range receiver.length) 0 [] hmake
  rwa [zero_add, nil_append] at hall

theorem putRange_apply (property : ℕ → Option (Option V)) (i stop : ℕ)
    (value : ℕ → Option (Option V)) (j : ℕ) :
    putRange property i stop value j = if i ≤ j ∧ j < stop then value j else property j := by
  unfold putRange
  generalize hcount : stop - i = count
  induction count generalizing i property with
  | zero =>
    rw [if_neg (by omega)]
    rfl
  | succ count ih =>
    rw [range'_succ, foldl_cons, ih _ (i + 1) (by omega)]
    by_cases hj : j = i
    · subst hj
      rw [if_neg (by omega), if_pos (by omega), Function.update_self]
    · rw [Function.update_of_ne hj]
      by_cases hin : i ≤ j ∧ j < stop
      · rw [if_pos hin, if_pos (by omega)]
      · rw [if_neg hin, if_neg (by omega)]

theorem commitSorted_eq (isNumber : V → Bool) (receiver : Receiver V) (sorted : JSArray V) :
    commitSorted isNumber receiver sorted = appendMemcpy receiver sorted := by
  unfold commitSorted
  split_ifs
  · rfl
  · congr 1
    funext i
    rw [putRange_apply]
    simp

/-- **`sortCommit`** arranges the receiver. -/
theorem sortCommit_spec (isNumber : V → Bool) {sorted : List V}
    (hlength : sorted.length + undefinedCount receiver ≤ receiver.length) :
    sortCommit isNumber receiver (sorted.map some) (undefinedCount receiver) =
      arranged receiver sorted := by
  unfold sortCommit arranged
  dsimp only
  rw [commitSorted_eq, appendMemcpy]
  congr 1
  funext i
  rw [putRange_apply, putRange_apply, getElem?_append, length_map]
  dsimp only
  by_cases hsorted : i < sorted.length
  · rw [if_neg (by omega), if_neg (by omega), if_pos hsorted, if_pos (by omega)]
    simp [read, hsorted]
  · rw [if_neg hsorted, if_neg hsorted, getElem?_replicate]
    by_cases hcount : i < sorted.length + undefinedCount receiver
    · rw [if_neg (by omega), if_pos (by omega), if_pos (by omega), if_pos (by omega)]
    · rw [if_neg (show ¬ i - sorted.length < undefinedCount receiver by omega)]
      by_cases hi : i < receiver.length
      · rw [if_pos (by omega), if_pos hi]
      · rw [if_neg (by omega), if_neg (by omega), if_neg hi]

/-- A receiver with at most one property is arranged already. -/
theorem arranged_of_length_lt (h : receiver.length < 2) :
    arranged receiver (definedValues receiver) = receiver := by
  obtain ⟨isJSArray, length, property⟩ := receiver
  unfold arranged
  congr 1
  funext i
  rcases lt_or_ge i length with hi | hi
  · obtain ⟨rfl, rfl⟩ : length = 1 ∧ i = 0 := by
      dsimp only at h
      omega
    rcases hproperty : property 0 with _ | _ | v <;>
      simp [definedValues, undefinedCount, valueAt, hproperty]
  · rw [if_neg (not_lt.mpr hi)]

theorem stableSort_of_length_lt {le : V → V → Bool} {l : List V} (h : l.length < 2) :
    StableSort le l l := by
  refine ⟨.refl _, ?_, fun _ => rfl⟩
  match l, h with
  | [], _ => exact .nil
  | [_], _ => exact pairwise_singleton _ _

/-- The sign of what a comparator returns, as the order of two values; NaN counts as zero. -/
def signOf (compare : V → V → Option SignType) (a b : V) : SignType := (compare a b).getD 0

/-- The results are those of comparing by a total preorder. -/
structure Consistent (compare : V → V → Option SignType) : Prop where
  flip : ∀ a b, signOf compare b a = -signOf compare a b
  trans : ∀ a b c, signOf compare a b ≤ 0 → signOf compare b c ≤ 0 → signOf compare a c ≤ 0

/-- The order by which a comparator compares. -/
def comparisonLe (compare : V → V → Option SignType) (a b : V) : Bool := signOf compare a b ≤ 0

theorem totalPreorder_comparison (h : Consistent compare) :
    TotalPreorder (comparisonLe compare) where
  total a b := by
    simp only [comparisonLe, h.flip a b]
    cases signOf compare a b <;> decide
  trans a b c := by
    simpa [comparisonLe] using h.trans a b c

/-- The comparator is a pure function of two values that returns numbers. -/
def Returns (comparator : Comparator σ ε V) (compare : V → V → Option SignType) : Prop :=
  ∀ a b s, comparator (some a) (some b) s = .ok (.number (compare a b), s)

theorem Returns.comparesBy (h : Returns comparator compare) (hconsistent : Consistent compare) :
    ComparesBy comparator (comparisonLe compare) := by
  intro x y s
  refine ⟨.number (compare y x), s, h y x s, ?_⟩
  have htakes : (Comparison.number (compare y x)).takesRight =
      decide (signOf compare y x = .neg) := by
    unfold Comparison.takesRight signOf
    rcases compare y x with _ | sign
    · rfl
    · cases sign <;> rfl
  rw [htakes, hconsistent.flip x y, comparisonLe]
  cases signOf compare x y <;> rfl

/-! ## Results -/

/-- The order of the strings of values. -/
def stringLe (string : V → List CodeUnit) (a b : V) : Bool := string a ≤ string b

theorem totalPreorder_string (string : V → List CodeUnit) : TotalPreorder (stringLe string) where
  total a b := by simpa [stringLe] using le_total (string a) (string b)
  trans a b c := by simpa [stringLe] using le_trans

theorem stableSort_values {l : List V} {s : List (Entry V)}
    (h : StableSort Entry.le (l.map fun v => ⟨string v, v⟩) s) :
    StableSort (stringLe string) l (s.map Entry.value) := by
  have hmap := h.map (totalPreorder_string string) (f := Entry.value) ?_
  · rwa [map_map, show Entry.value ∘ (fun v => Entry.mk (string v) v) = id from rfl,
      map_id] at hmap
  · intro a ha b hb
    obtain ⟨v, -, rfl⟩ := mem_map.mp ha
    obtain ⟨w, -, rfl⟩ := mem_map.mp hb
    rfl

theorem sortCompact_values (receiver : Receiver V) : sortCompact receiver (fun value => .ok value) =
      (.ok (undefinedCount receiver, definedValues receiver) :
        Except (Exception ε) (ℕ × List V)) := by
  have hcompact : sortCompact receiver (fun value => .ok value) =
      (.ok (undefinedCount receiver, (definedValues receiver).map id) :
        Except (Exception ε) (ℕ × List V)) := sortCompact_spec fun _ _ => rfl
  rwa [map_id] at hcompact

variable (isNumber : V → Bool) (toString : V → Except (Exception ε) (List CodeUnit))

theorem sort_consistent (hreturns : Returns comparator compare) (hconsistent : Consistent compare)
    (receiver : Receiver V) (s : σ) :
    ∃ sorted s', sort isNumber toString (.callable comparator) receiver s =
        .ok (arranged receiver sorted, s') ∧
      StableSort (comparisonLe compare) (definedValues receiver) sorted := by
  have hroom := definedValues_add_undefinedCount_le receiver
  unfold sort
  dsimp only
  by_cases hshort : receiver.length < 2
  · refine ⟨definedValues receiver, s, ?_, stableSort_of_length_lt (by omega)⟩
    rw [arranged_of_length_lt hshort, if_pos hshort]
  · obtain ⟨sorted, s', hsorted, hstable⟩ := sortMergeSort_stable
      (totalPreorder_comparison hconsistent) (hreturns.comparesBy hconsistent)
      (definedValues receiver) s
    have hlength := hstable.perm.length_eq
    refine ⟨sorted, s', ?_, hstable⟩
    rw [if_neg hshort, sortByComparator, sortCompact_values]
    dsimp only
    rw [hsorted]
    dsimp only
    rw [sortCommit_spec isNumber (by omega)]

theorem sort_strings (receiver : Receiver V)
    (hstring : ∀ v ∈ definedValues receiver, toString v = .ok (string v)) (s : σ) :
    ∃ sorted, sort isNumber toString .undefined receiver s = .ok (arranged receiver sorted, s) ∧
      StableSort (stringLe string) (definedValues receiver) sorted := by
  have hroom := definedValues_add_undefinedCount_le receiver
  unfold sort
  by_cases hshort : receiver.length < 2
  · refine ⟨definedValues receiver, ?_, stableSort_of_length_lt (by omega)⟩
    rw [arranged_of_length_lt hshort, if_pos hshort]
  · have hcompact : sortCompact receiver
        (fun value => (toString value).map fun string => Entry.mk string value) =
        .ok (undefinedCount receiver,
          (definedValues receiver).map fun v => Entry.mk (string v) v) := by
      refine sortCompact_spec fun v hv => ?_
      rw [hstring v hv]
      rfl
    have hshare : Share 0 ((definedValues receiver).map fun v => Entry.mk (string v) v) :=
      fun a _ => ⟨Nat.zero_le _, fun b _ => by simp⟩
    obtain ⟨sorted, hstable, hsorted⟩ : Sorts (newArrayWithSize (definedValues receiver).length) 0
        ((definedValues receiver).map fun v => Entry.mk (string v) v)
        (sortBucketSort (newArrayWithSize (definedValues receiver).length) 0
          ((definedValues receiver).map fun v => Entry.mk (string v) v) 0 :
          Except (Exception ε) (JSArray V × ℕ)) :=
      sortBucketSort_spec hshare (by simp [newArrayWithSize])
    have hlength := hstable.perm.length_eq
    rw [length_map] at hlength
    refine ⟨sorted.map Entry.value, ?_, stableSort_values hstable⟩
    rw [if_neg hshort, sortByString, hcompact]
    dsimp only
    rw [length_map, hsorted]
    dsimp only
    rw [overwrite_all (by simp [newArrayWithSize, length_values, hlength]), values_eq,
      sortCommit_spec isNumber (by simp; omega)]

theorem sort_permutes (comparator : Comparator σ ε V) (receiver : Receiver V) (s : σ) :
    Ends comparator (fun result => ∃ sorted : List V, sorted.Perm (definedValues receiver) ∧
        result = arranged receiver sorted)
      (sort isNumber toString (.callable comparator) receiver s) := by
  have hroom := definedValues_add_undefinedCount_le receiver
  unfold sort
  dsimp only
  by_cases hshort : receiver.length < 2
  · rw [if_pos hshort]
    exact ⟨definedValues receiver, .refl _, (arranged_of_length_lt hshort).symm⟩
  · rw [if_neg hshort, sortByComparator, sortCompact_values]
    dsimp only
    have hperm := sortMergeSort_perm comparator (definedValues receiver) s
    rcases hsorted : sortMergeSort comparator ((definedValues receiver).map some) s with
      e | ⟨sorted, s'⟩
    · rwa [hsorted] at hperm
    · rw [hsorted] at hperm
      obtain ⟨l, hl, rfl⟩ := hperm
      have hlength := hl.length_eq
      exact ⟨l, hl, sortCommit_spec isNumber (by omega)⟩

/-- **`Array.prototype.sort` is a stable sort.** With a comparator whose numbers are consistent the
receiver ends with its defined values sorted stably by the comparator, and without a comparator with
its values sorted stably by the code units of their strings, in front of its `undefined`s and holes.
With any other comparator that does not throw the values are permuted. -/
theorem sort_is_stable (isNumber : V → Bool)
    (toString : V → Except (Exception ε) (List CodeUnit)) (receiver : Receiver V) (s : σ) :
    (∀ (comparator : Comparator σ ε V) (compare : V → V → Option SignType),
      Returns comparator compare → Consistent compare →
      ∃ sorted s', sort isNumber toString (.callable comparator) receiver s =
          .ok (arranged receiver sorted, s') ∧
        StableSort (comparisonLe compare) (definedValues receiver) sorted) ∧
    (∀ string : V → List CodeUnit, (∀ v ∈ definedValues receiver, toString v = .ok (string v)) →
      ∃ sorted, sort isNumber toString .undefined receiver s = .ok (arranged receiver sorted, s) ∧
        StableSort (stringLe string) (definedValues receiver) sorted) ∧
    (∀ comparator : Comparator σ ε V,
      Ends comparator (fun result => ∃ sorted : List V, sorted.Perm (definedValues receiver) ∧
          result = arranged receiver sorted)
        (sort isNumber toString (.callable comparator) receiver s)) :=
  ⟨fun _ _ hreturns hconsistent =>
      sort_consistent isNumber toString hreturns hconsistent receiver s,
    fun _ hstring => sort_strings isNumber toString receiver hstring s,
    fun comparator => sort_permutes isNumber toString comparator receiver s⟩
end

/-- Compares numbers by their difference. -/
def difference (a b : ℤ) : Option SignType :=
  some (if a < b then -1 else if a = b then 0 else 1)

/-- Two numbers and a hole. -/
def twoNumbers : Receiver ℤ := ⟨true, 3, fun i => [some (some 2), none, some (some 1)].getD i none⟩

theorem consistent_difference : Consistent difference where
  flip a b := by
    unfold signOf difference
    split_ifs <;> first | rfl | omega
  trans a b c := by
    have hle (a b : ℤ) : signOf difference a b ≤ 0 ↔ a ≤ b := by
      unfold signOf difference
      split_ifs <;> simp <;> omega
    rw [hle, hle, hle]
    exact le_trans

theorem sort_is_stable_difference : ∃ sorted s',
    sort (fun _ => true) (fun _ => .ok []) (.callable fun a b (s : Unit) =>
      (.ok (.number (difference (a.getD 0) (b.getD 0)), s) :
        Except (Exception Unit) (Comparison × Unit))) twoNumbers () =
          .ok (arranged twoNumbers sorted, s') ∧
      StableSort (comparisonLe difference) (definedValues twoNumbers) sorted :=
  (sort_is_stable (fun _ => true) (fun _ => .ok []) twoNumbers ()).1 _ difference
    (fun _ _ _ => rfl) consistent_difference

end JscAndroid.Builtins.ArraySort
