import JscAndroid.HashMap.FiniteMap

/-!
# Iterators over a map that changes

The language defines iteration by a list of entries that only grows, and an iterator is an index
into it. The map keeps no such list: an iterator is a pointer to the bucket it returned last, which
may have been removed since, and finds its place again along the links that removed buckets keep.

* `Lands`: from a bucket, along removed buckets, the links come to a given place of the list.
* `Tracks`: an iterator lands at the place of its index; every operation keeps this.
* `iterators_follow_entry_list`: any number of iterators, in any interleaving.
-/

namespace JscAndroid.HashMap.Iterators

open Walks.FirstHit Walks.Runs Impl Invariant Operations FiniteMap List Option Prod Finset

variable {K V : Type}
variable {its : List Iterator}

/-! ## Calls -/

inductive Action (K V : Type)
  | add (key : K) (value : V)
  | remove (key : K)
  | clear
  | iterate
  | advance (iterator : ℕ)

/-- A call, and what the allocator says to each capacity during it. -/
structure Request (K V : Type) where
  action : Action K V
  memory : ℕ → Bool

inductive Reply (K V : Type)
  | add (completion : Completion)
  | remove (removed : Bool) (completion : Completion)
  | clear
  | iterate
  | advance (entry : Option (K × V))

/-- A map and the iterators over it. -/
structure World (K V : Type) where
  map : HashMapImpl K V
  iterators : List Iterator

/-- The entry of a bucket that `nextKeyValue` reads. -/
def entryOf (heap : Heap K V) (p : Ptr) : Option (K × V) :=
  (heap p).key.bind fun k => (heap p).value.map fun v => (k, v)

/-- One call; an iterator that does not exist counts as a finished one. -/
def serve [DecidableEq K] (hash : K → ℕ) (request : Request K V) (w : World K V) :
    Option (Reply K V × World K V) :=
  match request.action with
  | .add key value =>
    (add hash request.memory key value w.map).map fun x => (.add x.1, { w with map := x.2 })
  | .remove key =>
    (remove hash request.memory key w.map).map fun x =>
      (.remove x.1 x.2.1, { w with map := x.2.2 })
  | .clear => (clear w.map).map fun s => (.clear, { w with map := s })
  | .iterate => some (.iterate, { w with iterators := w.iterators ++ [some w.map.m_head] })
  | .advance j =>
    (advanceIter w.map (w.iterators.getD j none)).map fun x =>
      (.advance (x.1.bind (entryOf w.map.heap)), { w with iterators := w.iterators.set j x.2 })

/-! ## The list of entries -/

/-- The entries, an empty one as `none`, and the indices of the iterators, of a finished one as
`none`. -/
structure EntryList (K V : Type) where
  entries : List (Option (K × V))
  iterators : List (Option ℕ)

variable {t : EntryList K V}

/-- The entries that are not empty. -/
def live (entries : List (Option (K × V))) : List (K × V) := entries.filterMap id

/-- From an index on, the first entry that is not empty and the index after it. -/
def firstLive : List (Option (K × V)) → ℕ → Option ((K × V) × ℕ)
  | [], _ => none
  | none :: rest, i => firstLive rest (i + 1)
  | some e :: _, i => some (e, i + 1)

/-- What an iterator returns next, with its index after that. -/
def upcoming (t : EntryList K V) (j : ℕ) : Option ((K × V) × ℕ) :=
  (t.iterators.getD j none).bind fun i => firstLive (t.entries.drop i) i

section
variable [DecidableEq K]

def setSlot (k : K) (v : V) (entries : List (Option (K × V))) : List (Option (K × V)) :=
  if k ∈ (live entries).map fst then
    entries.map fun x => x.map fun e => if e.1 = k then (e.1, v) else e
  else entries ++ [some (k, v)]

def emptySlot (k : K) (entries : List (Option (K × V))) : List (Option (K × V)) :=
  entries.map fun x => x.filter fun e => e.1 ≠ k

/-- What the language says a call does. -/
inductive ListReplies : Request K V → EntryList K V → Reply K V → EntryList K V → Prop
  | add (memory : ℕ → Bool) (k : K) (v : V) (t : EntryList K V) :
      ListReplies ⟨.add k v, memory⟩ t (.add .normal) { t with entries := setSlot k v t.entries }
  | addOutOfMemory (memory : ℕ → Bool) (k : K) (v : V) (t : EntryList K V)
      (refused : ∃ c, memory c = false) : ListReplies ⟨.add k v, memory⟩ t (.add .outOfMemory) t
  | remove (memory : ℕ → Bool) (k : K) (t : EntryList K V) (r : Completion)
      (refused : r = .outOfMemory → ∃ c, memory c = false) :
      ListReplies ⟨.remove k, memory⟩ t (.remove (k ∈ (live t.entries).map fst) r)
        { t with entries := emptySlot k t.entries }
  | clear (memory : ℕ → Bool) (t : EntryList K V) :
      ListReplies ⟨.clear, memory⟩ t .clear { t with entries := t.entries.map fun _ => none }
  | iterate (memory : ℕ → Bool) (t : EntryList K V) :
      ListReplies ⟨.iterate, memory⟩ t .iterate { t with iterators := t.iterators ++ [some 0] }
  | advance (memory : ℕ → Bool) (j : ℕ) (t : EntryList K V) :
      ListReplies ⟨.advance j, memory⟩ t (.advance ((upcoming t j).map fst))
        { t with iterators := t.iterators.set j ((upcoming t j).map snd) }
end

/-! ## Where an iterator is -/

/-- From `p`, along removed buckets, the links come to `target`. -/
inductive Lands (heap : Heap K V) (tail target : Ptr) : Ptr → Prop
  | here {p : Ptr} (next : (heap p).next = some target) : Lands heap tail target p
  | skip {p q : Ptr} (next : (heap p).next = some q) (deleted : (heap q).key = none)
      (ne : q ≠ tail) (rest : Lands heap tail target q) : Lands heap tail target p

/-- The number of entries before an index that are not empty. -/
def passed (entries : List (Option (K × V))) (i : ℕ) : ℕ := (live (entries.take i)).length

/-- The bucket at a place of the list, at last the tail. -/
def place (ptrs : List Ptr) (tail : Ptr) (n : ℕ) : Ptr := (ptrs ++ [tail]).getD n tail

/-- An iterator of the map against its index. -/
inductive Tracks (s : HashMapImpl K V) (ptrs : List Ptr) (entries : List (Option (K × V))) :
    Iterator → Option ℕ → Prop
  | finished : Tracks s ptrs entries none none
  | running (p : Ptr) (i : ℕ) (hi : i ≤ entries.length) (hp : p < s.created)
      (lands : Lands s.heap s.m_tail (place ptrs s.m_tail (passed entries i)) p) :
      Tracks s ptrs entries (some p) (some i)

section
variable (entries : List (Option (K × V)))

theorem live_append (entries' : List (Option (K × V))) :
    live (entries ++ entries') = live entries ++ live entries' := filterMap_append

theorem live_take_drop (i : ℕ) : live entries = live (entries.take i) ++ live (entries.drop i) := by
  rw [← live_append, take_append_drop]

theorem live_take (i : ℕ) : live (entries.take i) = (live entries).take (passed entries i) := by
  rw [live_take_drop entries i]
  exact (take_left' rfl).symm

theorem passed_le (i : ℕ) : passed entries i ≤ (live entries).length := by
  rw [live_take_drop entries i, length_append]
  exact Nat.le_add_right _ _

theorem firstLive_spec (i : ℕ) : match firstLive entries i with
    | none => live entries = []
    | some (e, j) => ∃ m < entries.length, j = i + (m + 1) ∧ live (entries.take (m + 1)) = [e] := by
  induction entries generalizing i with
  | nil => rfl
  | cons x rest ih =>
    cases x with
    | some e => exact ⟨0, by simp, rfl, by simp [live]⟩
    | none =>
      have h := ih (i + 1)
      unfold firstLive
      cases hfirst : firstLive rest (i + 1) with
      | none =>
        rw [hfirst] at h
        simpa [live] using h
      | some found =>
        obtain ⟨e, j⟩ := found
        rw [hfirst] at h
        obtain ⟨m, hm, rfl, hlive⟩ := h
        refine ⟨m + 1, by simpa using hm, by omega, ?_⟩
        simpa [live] using hlive

theorem firstLive_drop_none {i : ℕ} (h : firstLive (entries.drop i) i = none) :
    passed entries i = (live entries).length := by
  have hspec := firstLive_spec (entries.drop i) i
  rw [h] at hspec
  rw [live_take_drop entries i, length_append, hspec]
  rfl

theorem firstLive_drop_some {i j : ℕ} {e : K × V} (hi : i ≤ entries.length)
    (h : firstLive (entries.drop i) i = some (e, j)) :
    j ≤ entries.length ∧ live (entries.take j) = live (entries.take i) ++ [e] := by
  have hspec := firstLive_spec (entries.drop i) i
  rw [h] at hspec
  obtain ⟨m, hm, rfl, hlive⟩ := hspec
  rw [length_drop] at hm
  refine ⟨by omega, ?_⟩
  rw [take_add, live_append, hlive]

variable [DecidableEq K]

theorem live_emptySlot (k : K) : live (emptySlot k entries) = eraseEntry k (live entries) := by
  unfold live emptySlot eraseEntry
  rw [filterMap_map, filter_filterMap]
  rfl

theorem live_map_set (k : K) (v : V) :
    live (entries.map fun x => x.map fun e => if e.1 = k then (e.1, v) else e) =
      setEntry k v (live entries) := by
  unfold live setEntry
  rw [filterMap_map, map_filterMap]
  rfl

theorem live_setSlot (k : K) (v : V) : live (setSlot k v entries) =
    insertEntry k v (live entries) := by
  unfold setSlot insertEntry
  split_ifs
  · exact live_map_set entries k v
  · rw [live_append]
    rfl
end

theorem live_clear (entries : List (Option (K × V))) :
    live (entries.map fun _ => (none : Option (K × V))) = [] := by
  unfold live
  simp

/-! ## Places -/

section
variable {ptrs l₁ l₂ B : List Ptr} {tail p b : Ptr} {n : ℕ}

theorem place_zero (ptrs : List Ptr) (tail : Ptr) : place ptrs tail 0 = ptrs.headD tail := by
  cases ptrs <;> rfl

theorem place_end (ptrs : List Ptr) (tail : Ptr) : place ptrs tail ptrs.length = tail := by
  simp [place]

theorem place_mem (h : n < ptrs.length) : place ptrs tail n ∈ ptrs := by
  rw [place, getD_append _ _ _ _ h, getD_eq_getElem _ _ h]
  exact getElem_mem h

theorem place_cases (h : n ≤ ptrs.length) : place ptrs tail n ∈ ptrs ∨
    place ptrs tail n = tail := by
  rcases lt_or_eq_of_le h with h | rfl
  · exact Or.inl (place_mem h)
  · exact Or.inr (place_end ptrs tail)

theorem place_concat (h : n ≤ ptrs.length) (t : Ptr) :
    place (ptrs ++ [tail]) t n = place ptrs tail n := by
  have hlt : n < (ptrs ++ [tail]).length := by
    rw [length_append]
    exact Nat.lt_succ_of_le h
  unfold place
  rw [getD_append _ _ _ _ hlt, getD_eq_getElem _ _ hlt, getD_eq_getElem _ _ hlt]

/-- The places when a bucket is taken out: the one of that bucket moves to the next. -/
theorem place_unlink (hB : l₂ ++ [tail] = b :: B) (hnodup : (l₁ ++ p :: l₂ ++ [tail]).Nodup)
    (hn : n ≤ (l₁ ++ p :: l₂).length) : place (l₁ ++ l₂) tail (if l₁.length < n then n - 1 else n) =
      if place (l₁ ++ p :: l₂) tail n = p then b else place (l₁ ++ p :: l₂) tail n := by
  have hassoc : l₁ ++ p :: l₂ ++ [tail] = l₁ ++ p :: b :: B := by simp [hB]
  have hassoc' : l₁ ++ l₂ ++ [tail] = l₁ ++ b :: B := by simp [hB]
  rw [hassoc] at hnodup
  have hp₁ : p ∉ l₁ := fun h => (nodup_append.mp hnodup).2.2 p h p (by simp) rfl
  have hp₂ : p ∉ b :: B := (nodup_cons.mp (nodup_append.mp hnodup).2.1).1
  unfold place
  rw [hassoc, hassoc']
  rcases lt_trichotomy n l₁.length with h | rfl | h
  · -- before the bucket nothing changes
    have hne : l₁.getD n tail ≠ p := by
      rw [getD_eq_getElem _ _ h]
      exact fun heq => hp₁ (heq ▸ getElem_mem h)
    rw [if_neg (by omega), getD_append _ _ _ _ h, getD_append _ _ _ _ h, if_neg hne]
  · simp
  · -- behind it the place is one less
    obtain ⟨m, rfl⟩ : ∃ m, n = l₁.length + (m + 1) := ⟨n - l₁.length - 1, by omega⟩
    have hm : m < (b :: B).length := by
      rw [← hB]
      simp only [length_append, length_cons] at hn ⊢
      omega
    have hne : (b :: B).getD m tail ≠ p := by
      rw [getD_eq_getElem _ _ hm]
      exact fun heq => hp₂ (heq ▸ getElem_mem hm)
    rw [if_pos h, getD_append_right _ _ _ _ (by omega), getD_append_right _ _ _ _ (by omega),
      show l₁.length + (m + 1) - 1 - l₁.length = m by omega,
      show l₁.length + (m + 1) - l₁.length = m + 1 by omega, getD_cons_succ, if_neg hne]

variable {heap : Heap K V} {created : ℕ} {head : Ptr} {entries : List (K × V)}

section
variable (hl : Listed heap created head tail ptrs entries) (h : n < ptrs.length)
include hl h

theorem next_place : (heap (place ptrs tail n)).next = some (place ptrs tail (n + 1)) := by
  have hchain := isChain_iff_getElem.mp (IsChain.tail hl.chain)
  have hlt : n + 1 < (ptrs ++ [tail]).length := by
    rw [length_append]
    exact Nat.succ_lt_succ h
  have hlink := (hchain n hlt).1
  unfold place
  rwa [getD_eq_getElem _ _ hlt, getD_eq_getElem _ _ (Nat.lt_of_succ_lt hlt)]

theorem entryOf_place : entryOf heap (place ptrs tail n) = entries[n]? := by
  have hn : n < entries.length := hl.length_eq ▸ h
  have hget : (ptrs.map (contents heap))[n]? = (entries.map stored)[n]? := by rw [hl.holds]
  rw [getElem?_map, getElem?_map, getElem?_eq_getElem h,
    getElem?_eq_getElem hn] at hget
  have hcontents : contents heap ptrs[n] = stored entries[n] := by simpa using hget
  have hkey : (heap ptrs[n]).key = some entries[n].1 := congrArg fst hcontents
  have hvalue : (heap ptrs[n]).value = some entries[n].2 := congrArg snd hcontents
  have hplace : place ptrs tail n = ptrs[n] := by
    rw [place, getD_append _ _ _ _ h, getD_eq_getElem _ _ h]
  rw [getElem?_eq_getElem hn, hplace, entryOf, hkey, hvalue]
  rfl
end

end

/-! ## What each change does to the way of an iterator -/

section
variable {s : HashMapImpl K V} {ptrs : List Ptr} {entries : List (K × V)} {t p : Ptr}
variable (hl : Listed s.heap s.created s.m_head s.m_tail ptrs entries)
include hl

theorem Lands.ne_tail (lands : Lands s.heap s.m_tail t p) : p ≠ s.m_tail := by
  rintro rfl
  have htail := hl.tail_next
  cases lands with
  | here next => simp [htail] at next
  | skip next => simp [htail] at next

theorem Lands.append (hp : p < s.created) (lands : Lands s.heap s.m_tail t p) (k : K) (v : V)
    (i : ℕ) : Lands (appendEntry k v i s).heap s.created t p := by
  have hnext : ∀ {x y : Ptr}, x < s.created → Lands s.heap s.m_tail t x →
      (s.heap x).next = some y → ((appendEntry k v i s).heap x).next = some y := by
    intro x y hx hx' h
    rw [next_appendEntry, if_neg (hx'.ne_tail hl), if_neg hx.ne, h]
  induction lands with
  | here next => exact .here (hnext hp (.here next) next)
  | @skip p q next deleted ne rest ih =>
    have hq : q < s.created := hl.closed p q next
    refine .skip (hnext hp (.skip next deleted ne rest) next) ?_ hq.ne (ih hq)
    rw [key_appendEntry, if_neg hq.ne, if_neg ne, deleted]

omit hl in
theorem Lands.setValue (lands : Lands s.heap s.m_tail t p) (q : Ptr) (v : V) :
    Lands (s.heap.setValue q v) s.m_tail t p := by
  induction lands with
  | here next => exact .here (by rw [Heap.next_setValue, next])
  | skip next deleted ne rest ih =>
    exact .skip (by rw [Heap.next_setValue, next]) (by rw [Heap.key_setValue, deleted]) ne ih

omit hl in
/-- A bucket is taken out of the list: what landed there lands at the next one. -/
theorem Lands.unlink {l₁ l₂ A B : List Ptr} {a b q : Ptr}
    (hl : Listed s.heap s.created s.m_head s.m_tail (l₁ ++ q :: l₂) entries)
    (hA : s.m_head :: l₁ = A ++ [a]) (hB : l₂ ++ [s.m_tail] = b :: B)
    (lands : Lands s.heap s.m_tail t p) :
    Lands (unlinkBucket s.heap a q b) s.m_tail (if t = q then b else t) p := by
  obtain ⟨haq, hqb⟩ := links_around hl hA hB
  have hmem : q ∈ l₁ ++ q :: l₂ := by simp
  obtain ⟨k, hkey⟩ := hl.exists_key hmem
  have hqa : q ≠ a := by
    have hnodup := hl.nodup
    rw [around_eq hA hB, nodup_append] at hnodup
    rintro rfl
    simp at hnodup
  induction lands with
  | @here p next =>
    by_cases hpa : p = a
    · subst hpa
      obtain rfl : t = q := some.inj (next.symm.trans haq.1)
      exact .here (by simp)
    · by_cases ht : t = q
      · subst ht
        -- over the bucket that is gone
        refine .skip (by simpa [hpa] using next) (by simp) (hl.ne_tail hmem) (.here ?_)
        simpa [hqa] using hqb.1
      · rw [if_neg ht]
        exact .here (by simpa [hpa] using next)
  | @skip p r next deleted ne rest ih =>
    have hrq : r ≠ q := by
      rintro rfl
      simp [hkey] at deleted
    have hpa : p ≠ a := by
      rintro rfl
      exact hrq (some.inj (next.symm.trans haq.1))
    exact .skip (by simpa [hpa] using next) (by simp [deleted]) ne ih

theorem Lands.clear (ht : t ∈ ptrs ∨ t = s.m_tail) (lands : Lands s.heap s.m_tail t p) :
    Lands (cleared ptrs s).heap s.m_tail s.m_tail p := by
  have hhead : s.m_head ∉ ptrs := fun h => hl.ne_head h rfl
  have fromHead : Lands (cleared ptrs s).heap s.m_tail s.m_tail s.m_head :=
    .here (by simp [cleared])
  have fromList : ∀ q ∈ ptrs, Lands (cleared ptrs s).heap s.m_tail s.m_tail q := by
    intro q hq
    have hne : q ≠ s.m_head := hl.ne_head hq
    refine .skip (by simp [cleared, hq, hne]) ?_ hl.head_ne_tail fromHead
    simp [cleared, hl.head_key]
  have fromOther : ∀ {x y : Ptr}, x ≠ s.m_head → x ∉ ptrs → (s.heap x).next = some y →
      ((cleared ptrs s).heap x).next = some y := by
    intro x y h₁ h₂ h
    simp [cleared, h₁, h₂, h]
  induction lands with
  | @here p next =>
    by_cases hp : p = s.m_head
    · exact hp ▸ fromHead
    · by_cases hp' : p ∈ ptrs
      · exact fromList p hp'
      · rcases ht with ht | rfl
        · exact .skip (fromOther hp hp' next) (by simp [cleared, ht]) (hl.ne_tail ht)
            (fromList t ht)
        · exact .here (fromOther hp hp' next)
  | @skip p q next deleted ne rest ih =>
    by_cases hp : p = s.m_head
    · exact hp ▸ fromHead
    · by_cases hp' : p ∈ ptrs
      · exact fromList p hp'
      · exact .skip (fromOther hp hp' next) (by simp [cleared, deleted]) ne ih

/-- The loop of `advanceIter` comes to where the walk along removed buckets ends. -/
theorem advanceIter_of_via {c : Option Ptr} (hstop : advanceStop s.heap c = true)
    (hvia : Via (advanceNext s.heap) (fun x => ¬ advanceStop s.heap x = true) (s.heap p).next c) :
    advanceIter s (some p) = some (c, c) := by
  have hin : ∀ d, (advanceNext s.heap)^[d] (s.heap p).next ∈
      insertNone (range s.created) := by
    intro d
    rw [mem_insertNone]
    intro q hq
    rw [Finset.mem_range]
    cases d with
    | zero => exact hl.closed p q hq
    | succ d =>
      rw [Function.iterate_succ_apply'] at hq
      cases hx : (advanceNext s.heap)^[d] (s.heap p).next with
      | none => simp [hx, advanceNext] at hq
      | some x =>
        rw [hx] at hq
        exact hl.closed x q hq
  have hfirst := firstHit_of_via hin hstop hvia
  rw [card_insertNone, card_range] at hfirst
  simp [advanceIter, hfirst]

omit hl in
/-- The walk of `advanceIter` goes where the iterator lands, and on. -/
theorem Lands.via {heap : Heap K V} {tail : Ptr} {c : Option Ptr} (lands : Lands heap tail t p)
    (hend : Via (advanceNext heap) (fun x => ¬ advanceStop heap x = true) (some t) c) :
    Via (advanceNext heap) (fun x => ¬ advanceStop heap x = true) (heap p).next c := by
  induction lands with
  | here next => exact next ▸ hend
  | @skip p q next deleted ne rest ih =>
    rw [next]
    exact Via.head (by simp [advanceStop, Bucket.deleted, deleted]) ih

/-- **Advancing** from a bucket that lands at an entry of the list returns it. -/
theorem Lands.advance (lands : Lands s.heap s.m_tail t p) (ht : t ∈ ptrs) :
    advanceIter s (some p) = some (some t, some t) := by
  obtain ⟨k, hkey⟩ := hl.exists_key ht
  exact advanceIter_of_via hl (by simp [advanceStop, Bucket.deleted, hkey])
    (lands.via (Via.refl _))

theorem Lands.finish (lands : Lands s.heap s.m_tail s.m_tail p) :
    advanceIter s (some p) = some (none, none) := by
  refine advanceIter_of_via hl rfl (lands.via (Via.head ?_ ?_))
  · simp [advanceStop, Bucket.deleted, hl.tail_key]
  · rw [advanceNext, hl.tail_next]
    exact Via.refl _
end

/-! ## The map against the list of entries -/

/-- The map holds the entries that are not empty, and every iterator is at its index. -/
def Tracked (hash : K → ℕ) (w : World K V) (t : EntryList K V) : Prop :=
  ∃ ptrs, Inv hash w.map ptrs (live t.entries) ∧
    List.Forall₂ (Tracks w.map ptrs t.entries) w.iterators t.iterators

section
variable {hash : K → ℕ} {s s' : HashMapImpl K V} {ptrs ptrs' : List Ptr}
variable {entries entries' : List (Option (K × V))} {it : Iterator} {index : Option ℕ}

/-- A change under which what lands at a place lands at the place after it. -/
theorem Tracks.imp (h : Tracks s ptrs entries it index) (hcreated : s.created ≤ s'.created)
    (hlen : entries.length ≤ entries'.length) (hlands : ∀ p i, i ≤ entries.length → p < s.created →
      Lands s.heap s.m_tail (place ptrs s.m_tail (passed entries i)) p →
      Lands s'.heap s'.m_tail (place ptrs' s'.m_tail (passed entries' i)) p) :
    Tracks s' ptrs' entries' it index := by
  cases h with
  | finished => exact .finished
  | running p i hi hp lands =>
    exact .running p i (hi.trans hlen) (hp.trans_le hcreated) (hlands p i hi hp lands)

theorem passed_le_ptrs (inv : Inv hash s ptrs (live entries)) (i : ℕ) :
    passed entries i ≤ ptrs.length :=
  inv.listed.length_eq ▸ passed_le entries i

variable [DecidableEq K] {k : K} {v : V} {memory : ℕ → Bool}

theorem passed_map_set (k : K) (v : V) (i : ℕ) :
    passed (entries.map fun x => x.map fun e => if e.1 = k then (e.1, v) else e) i =
      passed entries i := by
  unfold passed
  rw [← map_take, live_map_set, setEntry, length_map]

theorem passed_emptySlot {e₁ e₂ : List (K × V)} (hlive : live entries = e₁ ++ (k, v) :: e₂)
    (hkeys : ((live entries).map fst).Nodup) (i : ℕ) : passed (emptySlot k entries) i =
      if e₁.length < passed entries i then passed entries i - 1 else passed entries i := by
  have hle := passed_le entries i
  have htake : passed (emptySlot k entries) i =
      (eraseEntry k ((live entries).take (passed entries i))).length := by
    rw [← live_take, ← live_emptySlot]
    unfold passed emptySlot
    rw [map_take]
  rw [hlive] at htake hle hkeys
  rw [htake]
  split_ifs with h
  · obtain ⟨m, hm⟩ : ∃ m, passed entries i = e₁.length + (m + 1) :=
      ⟨passed entries i - e₁.length - 1, by omega⟩
    have hsub : Sublist (e₁ ++ (k, v) :: e₂.take m) (e₁ ++ (k, v) :: e₂) :=
      Sublist.append_left (Sublist.cons_cons _ (take_sublist m e₂)) e₁
    have hm' : m ≤ e₂.length := by
      simp only [length_append, length_cons] at hle
      omega
    rw [hm, take_length_add_append, take_succ_cons,
      eraseEntry_middle (hkeys.sublist (hsub.map _)), length_append, length_take]
    omega
  · have hk : k ∉ (e₁.take (passed entries i)).map fst := by
      intro hmem
      rw [map_append, nodup_append] at hkeys
      exact hkeys.2.2 k (map_subset _ (take_subset _ _) hmem) k (by simp) rfl
    rw [take_append_of_le_length (by omega), eraseEntry_of_not_mem hk, length_take]
    omega

section
variable (inv : Inv hash s ptrs (live t.entries))
  (hits : List.Forall₂ (Tracks s ptrs t.entries) its t.iterators)
include inv hits

/-- **An addition** keeps the iterators at their indices. -/
theorem tracked_add {r : Completion} (added : Added hash memory k v s ptrs (live t.entries) r s') :
    ∃ t', ListReplies ⟨.add k v, memory⟩ t (.add r) t' ∧ Tracked hash ⟨s', its⟩ t' := by
  have hl := inv.listed
  cases added with
  | outOfMemory refused => exact ⟨t, .addOutOfMemory memory k v t refused, ptrs, inv, hits⟩
  | updated p hp hkey inv' =>
    have hk : k ∈ (live t.entries).map fst := hl.mem_keys.mpr ⟨p, hp, hkey⟩
    refine ⟨_, .add memory k v t, ptrs, ?_, hits.imp fun it index h =>
      h.imp (le_refl s.created) ?_ ?_⟩
    · rwa [live_setSlot, insertEntry, if_pos hk]
    · simp [setSlot, hk]
    · intro q i _ _ lands
      rw [setSlot, if_pos hk, passed_map_set]
      exact lands.setValue p v
  | appended hk s₁ i same planned inv' =>
    obtain ⟨heap₁, created₁, head₁, tail₁, buffer₁, keyCount₁, deleteCount₁, capacity₁⟩ := s₁
    obtain ⟨rfl, rfl, rfl, rfl⟩ := same
    refine ⟨_, .add memory k v t, ptrs ++ [s.m_tail], ?_,
      hits.imp fun it index h => h.imp (Nat.le_succ s.created) ?_ ?_⟩
    · rwa [live_setSlot, insertEntry, if_neg hk]
    · simp [setSlot, hk]
    · intro q j hj hq lands
      have hpassed : passed (setSlot k v t.entries) j = passed t.entries j := by
        unfold passed
        rw [setSlot, if_neg hk, take_append_of_le_length hj]
      rw [hpassed, place_concat (passed_le_ptrs inv j)]
      exact lands.append hl hq k v i

/-- **A removal** keeps the iterators at their indices. -/
theorem tracked_remove {removed : Bool} {r : Completion}
    (h : Removed hash memory k s ptrs (live t.entries) removed r s') :
    ∃ t', ListReplies ⟨.remove k, memory⟩ t (.remove removed r) t' ∧ Tracked hash ⟨s', its⟩ t' := by
  have hl := inv.listed
  have hlen : (emptySlot k t.entries).length = t.entries.length := by simp [emptySlot]
  cases h with
  | absent hk =>
    have replies := ListReplies.remove memory k t .normal (fun h => by simp at h)
    rw [decide_eq_false hk] at replies
    refine ⟨_, replies, ptrs, ?_, hits.imp fun it index h => h.imp (le_refl s.created) hlen.ge ?_⟩
    · rwa [live_emptySlot, eraseEntry_of_not_mem hk]
    · intro q i _ _ lands
      have hpassed : passed (emptySlot k t.entries) i = passed t.entries i := by
        unfold passed
        rw [show (emptySlot k t.entries).take i = emptySlot k (t.entries.take i) from
          map_take.symm, live_emptySlot, eraseEntry_of_not_mem]
        intro hmem
        refine hk (map_subset _ ?_ hmem)
        rw [live_take]
        exact take_subset _ _
      rwa [hpassed]
  | unlinked l₁ l₂ A B a p b i hptrs hA hB hkey r s' hr same planned inv' =>
    subst hptrs
    have hk : k ∈ (live t.entries).map fst := hl.mem_keys.mpr ⟨p, by simp, hkey⟩
    have replies := ListReplies.remove memory k t r hr
    rw [decide_eq_true hk] at replies
    obtain ⟨e₁, k', v, e₂, hlive, hkey', h₁, -⟩ := exists_entry hl
    obtain rfl : k' = k := some.inj (hkey'.symm.trans hkey)
    have he₁ : e₁.length = l₁.length := by
      have := congrArg length h₁
      simpa using this.symm
    refine ⟨_, replies, l₁ ++ l₂, ?_, hits.imp fun it index h => h.imp ?_ hlen.ge ?_⟩
    · rwa [live_emptySlot]
    · exact same.created.ge
    · intro q i _ _ lands
      have hplace := place_unlink hB (nodup_cons.mp hl.nodup).2 (passed_le_ptrs inv i)
      rw [same.heap, same.tail]
      show Lands (unlinkBucket s.heap a p b) s.m_tail
        (place _ s.m_tail (passed (emptySlot k' t.entries) i)) q
      rw [passed_emptySlot hlive hl.keys, he₁, hplace]
      exact lands.unlink hl hA hB

omit [DecidableEq K] in
/-- **Clearing** moves every iterator to the end of what is there. -/
theorem tracked_clear :
    Tracked hash ⟨cleared ptrs s, its⟩ { t with entries := t.entries.map fun _ => none } := by
  have inv' := (clear_spec inv).2
  refine ⟨[], ?_, hits.imp fun it index h => h.imp (le_refl s.created) (by simp) ?_⟩
  · rwa [live_clear]
  · intro q i _ _ lands
    have hpassed : passed (t.entries.map fun _ => (none : Option (K × V))) i = 0 := by
      rw [passed, ← map_take, live_clear]
      rfl
    rw [hpassed]
    exact lands.clear inv.listed (place_cases (passed_le_ptrs inv i))
end

omit [DecidableEq K] in
theorem tracks_head (inv : Inv hash s ptrs (live entries)) :
    Tracks s ptrs entries (some s.m_head) (some 0) := by
  refine .running _ 0 (Nat.zero_le _) (inv.listed.bound _ (by simp)) (.here ?_)
  rw [inv.listed.next_head, ← place_zero]
  rfl

omit [DecidableEq K] in
/-- **Advancing** returns the next entry, and moves the index behind it. -/
theorem tracks_advance (inv : Inv hash s ptrs (live entries)) (h : Tracks s ptrs entries it index) :
    ∃ bucket it', advanceIter s it = some (bucket, it') ∧ bucket.bind (entryOf s.heap) =
        (index.bind fun i => firstLive (entries.drop i) i).map fst ∧
      Tracks s ptrs entries it' ((index.bind fun i => firstLive (entries.drop i) i).map snd) := by
  have hl := inv.listed
  cases h with
  | finished => exact ⟨none, none, rfl, rfl, .finished⟩
  | running p i hi hp lands =>
    rw [bind_some]
    cases hfirst : firstLive (entries.drop i) i with
    | none =>
      rw [firstLive_drop_none entries hfirst, ← hl.length_eq, place_end] at lands
      exact ⟨none, none, lands.finish hl, rfl, .finished⟩
    | some found =>
      obtain ⟨e, j⟩ := found
      obtain ⟨hj, htake⟩ := firstLive_drop_some entries hi hfirst
      have hpassed : passed entries j = passed entries i + 1 := by
        rw [passed, htake, length_append]
        rfl
      have hlt : passed entries i < ptrs.length := by
        have := passed_le_ptrs inv j
        omega
      have hget : (live entries)[passed entries i]? = some e := by
        rw [live_take_drop entries j, htake, append_assoc]
        show (live (entries.take i) ++ _)[(live (entries.take i)).length]? = some e
        rw [getElem?_append_right (le_refl _), Nat.sub_self]
        rfl
      have hmem : place ptrs s.m_tail (passed entries i) ∈ ptrs := place_mem hlt
      refine ⟨_, _, lands.advance hl hmem, ?_, ?_⟩
      · rw [bind_some, entryOf_place hl hlt, hget]
        rfl
      · refine .running _ j hj (hl.bound _ (by simp [hmem])) (.here ?_)
        rw [next_place hl hlt, hpassed]
end

/-! ## Runs -/

section
variable {α β : Type} {R : α → β → Prop} {xs : List α} {ys : List β} {a : α} {b : β}

theorem forall₂_getD (h : List.Forall₂ R xs ys) (hR : R a b) (j : ℕ) :
    R (xs.getD j a) (ys.getD j b) := by
  induction h generalizing j with
  | nil => exact hR
  | cons hhead _ ih =>
    cases j with
    | zero => exact hhead
    | succ j => exact ih j

theorem forall₂_set (h : List.Forall₂ R xs ys) (hR : R a b) (j : ℕ) :
    List.Forall₂ R (xs.set j a) (ys.set j b) := by
  induction h generalizing j with
  | nil => exact .nil
  | cons hhead htail ih =>
    cases j with
    | zero => exact .cons hR htail
    | succ j => exact .cons hhead (ih j)

variable [DecidableEq K] {hash : K → ℕ}

theorem serve_advance (memory : ℕ → Bool) (j : ℕ) {w : World K V} (h : Tracked hash w t) :
    ∃ a w' t', serve hash ⟨.advance j, memory⟩ w = some (a, w') ∧
      ListReplies ⟨.advance j, memory⟩ t a t' ∧ Tracked hash w' t' := by
  obtain ⟨ptrs, inv, hits⟩ := h
  obtain ⟨bucket, it', hadvance, hentry, htracks⟩ :=
    tracks_advance inv (forall₂_getD hits .finished j)
  have replies := ListReplies.advance memory j t
  rw [upcoming, ← hentry] at replies
  refine ⟨_, { w with iterators := w.iterators.set j it' }, _, ?_, replies, ptrs, inv,
    forall₂_set hits htracks j⟩
  simp only [serve, hadvance, map_some]

/-- **One call** that returns does what the language says. -/
theorem serve_tracked (request : Request K V) (w : World K V) (t : EntryList K V) (a : Reply K V)
    (w' : World K V) (h : Tracked hash w t) (hserve : serve hash request w = some (a, w')) :
    ∃ t', ListReplies request t a t' ∧ Tracked hash w' t' := by
  obtain ⟨action, memory⟩ := request
  obtain ⟨s, its⟩ := w
  obtain ⟨ptrs, inv, hits⟩ := id h
  cases action with
  | add k v =>
    obtain ⟨⟨r, s'⟩, hadd, heq⟩ := map_eq_some_iff.mp hserve
    obtain ⟨rfl, rfl⟩ := mk.inj heq
    exact tracked_add inv hits (add_spec inv hadd)
  | remove k =>
    obtain ⟨⟨removed, r, s'⟩, hremove, heq⟩ := map_eq_some_iff.mp hserve
    obtain ⟨rfl, rfl⟩ := mk.inj heq
    exact tracked_remove inv hits (remove_spec inv hremove)
  | clear =>
    obtain ⟨s', hclear, heq⟩ := map_eq_some_iff.mp hserve
    obtain ⟨rfl, rfl⟩ := mk.inj heq
    obtain rfl : s' = cleared ptrs s :=
      some.inj (hclear.symm.trans (clear_spec inv).1)
    exact ⟨_, .clear memory t, tracked_clear inv hits⟩
  | iterate =>
    obtain ⟨rfl, rfl⟩ := mk.inj (some.inj hserve)
    exact ⟨_, .iterate memory t, ptrs, inv,
      rel_append hits (.cons (tracks_head inv) .nil)⟩
  | advance j =>
    obtain ⟨a₁, w₁, t₁, hserve₁, replies, tracked⟩ := serve_advance memory j h
    obtain ⟨rfl, rfl⟩ := mk.inj (some.inj (hserve₁.symm.trans hserve))
    exact ⟨t₁, replies, tracked⟩

theorem serve_returns (request : Request K V) (w : World K V) (t : EntryList K V)
    (h : Tracked hash w t ∧ Light w.map) (hfew : Few (live t.entries))
    (hnext : ∀ a t', ListReplies request t a t' → Few (live t'.entries)) :
    ∃ a w' t', serve hash request w = some (a, w') ∧ ListReplies request t a t' ∧
      Tracked hash w' t' ∧ Light w'.map := by
  obtain ⟨tracked, light⟩ := h
  obtain ⟨ptrs, inv, hits⟩ := id tracked
  have hholds : Holds hash w.map (live t.entries) := ⟨⟨ptrs, inv⟩, light⟩
  obtain ⟨a, w', hserve, light'⟩ : ∃ a w', serve hash request w = some (a, w') ∧ Light w'.map := by
    obtain ⟨action, memory⟩ := request
    cases action with
    | add k v =>
      have hfew' : Few (insertEntry k v (live t.entries)) := by
        rw [← live_setSlot]
        exact hnext _ _ (.add memory k v t)
      obtain ⟨a, s', entries', hperform, -, -, light'⟩ := perform_holds ⟨.add k v, memory⟩ w.map _
        hholds hfew fun a entries' h => by
          cases h with
          | add => exact hfew'
          | addOutOfMemory => exact hfew
      obtain ⟨x, hadd, heq⟩ := map_eq_some_iff.mp hperform
      obtain ⟨-, rfl⟩ := mk.inj heq
      exact ⟨.add x.1, { w with map := x.2 }, by simp [serve, hadd], light'⟩
    | remove k =>
      obtain ⟨a, s', entries', hperform, -, -, light'⟩ := perform_holds ⟨.remove k, memory⟩ w.map _
        hholds hfew fun a entries' h => by
          cases h with
          | remove => exact (length_filter_le _ _).trans_lt hfew
      obtain ⟨x, hremove, heq⟩ := map_eq_some_iff.mp hperform
      obtain ⟨-, rfl⟩ := mk.inj heq
      exact ⟨.remove x.1 x.2.1, { w with map := x.2.2 }, by simp [serve, hremove], light'⟩
    | clear =>
      refine ⟨.clear, { w with map := cleared ptrs w.map }, ?_, fun hcap => absurd rfl hcap⟩
      simp [serve, (clear_spec inv).1]
    | iterate => exact ⟨_, _, rfl, light⟩
    | advance j =>
      obtain ⟨a, w', t', hserve, -, -⟩ := serve_advance memory j tracked
      refine ⟨a, w', hserve, ?_⟩
      obtain ⟨x, -, heq⟩ := map_eq_some_iff.mp hserve
      obtain ⟨-, rfl⟩ := mk.inj heq
      exact light
  obtain ⟨t', replies, tracked'⟩ := serve_tracked request w t a w' tracked hserve
  exact ⟨a, w', t', hserve, replies, tracked', light'⟩

/-- No iterators over an empty map. -/
def start : World K V := ⟨create, []⟩

omit [DecidableEq K] in
theorem tracked_start (hash : K → ℕ) : Tracked hash (start : World K V) ⟨[], []⟩ :=
  ⟨[], inv_create hash, .nil⟩

/-- **Iterators follow the list of entries.** In every interleaving of calls that return, every
reply is the one of the language's list of entries, and every iterator can be advanced; with few
keys all calls return. -/
theorem iterators_follow_entry_list (hash : K → ℕ) (requests : List (Request K V)) :
    (∀ replies w, run (serve hash) requests start = some (replies, w) →
      (∃ t, Follows ListReplies requests ⟨[], []⟩ replies t) ∧
      ∀ memory j, ∃ a w', serve hash ⟨.advance j, memory⟩ w = some (a, w')) ∧
    (Stays ListReplies (fun t => Few (live t.entries)) requests ⟨[], []⟩ →
      ∃ replies w, run (serve hash) requests start = some (replies, w)) := by
  refine ⟨fun replies w hrun => ?_, fun hfew => ?_⟩
  · obtain ⟨t, hfollows, tracked⟩ := run_follows serve_tracked (tracked_start hash) hrun
    refine ⟨⟨t, hfollows⟩, fun memory j => ?_⟩
    obtain ⟨a, w', -, hserve, -⟩ := serve_advance memory j tracked
    exact ⟨a, w', hserve⟩
  · obtain ⟨replies, w, t, hrun, -⟩ := run_returns serve_returns
      ⟨tracked_start hash, fun hcap => absurd rfl hcap⟩ hfew
    exact ⟨replies, w, hrun⟩
end

end JscAndroid.HashMap.Iterators
