import JscAndroid.HashMap.Impl

/-!
# Invariants of the hash map

`Listed` says that the buckets form a list with given entries, `Buffered` that the buffer holds them
where probing finds them. Neither depends on the load of the table: that is what makes every probe
end, and is a property of its own.
-/

namespace JscAndroid.HashMap.Invariant

open Walks.FirstHit Impl Nat
open List hiding isEmpty

variable {K V : Type}
variable {p : Ptr}

/-! ## Probes -/

section
variable {c : ℕ} (hc : ∃ e, c = 2 ^ e)
include hc

theorem capacity_pos : 0 < c := by
  obtain ⟨e, rfl⟩ := hc
  exact Nat.two_pow_pos e

theorem startIndex_lt (hash : ℕ) : startIndex c hash < c := by
  obtain ⟨e, rfl⟩ := hc
  rw [startIndex, and_two_pow_sub_one_eq_mod]
  exact mod_lt _ (Nat.two_pow_pos e)

theorem nextIndex_eq (i : ℕ) : nextIndex c i = (i + 1) % c := by
  obtain ⟨e, rfl⟩ := hc
  exact and_two_pow_sub_one_eq_mod _ e

theorem iterate_nextIndex {i : ℕ} (hi : i < c) (d : ℕ) : (nextIndex c)^[d] i = (i + d) % c := by
  induction d with
  | zero => exact (mod_eq_of_lt hi).symm
  | succ d ih =>
    rw [Function.iterate_succ_apply', ih, nextIndex_eq hc, mod_add_mod]
    rfl

theorem exists_iterate {i j : ℕ} (hi : i < c) (hj : j < c) : ∃ d, (nextIndex c)^[d] i = j := by
  refine ⟨j + (c - i), ?_⟩
  rw [iterate_nextIndex hc hi, show i + (j + (c - i)) = j + c by omega, add_mod_right,
    mod_eq_of_lt hj]

variable {buffer : List Slot} {stop : Slot → Bool} {hash i : ℕ}

theorem iterate_lt (hi : i < c) (d : ℕ) : (nextIndex c)^[d] i < c := by
  rw [iterate_nextIndex hc hi]
  exact mod_lt _ (capacity_pos hc)

theorem probe_some (h : probe buffer c stop hash = some i) : i < c ∧ stop (slotAt buffer i) = true ∧
      Via (nextIndex c) (fun j => ¬ stop (slotAt buffer j) = true) (startIndex c hash) i := by
  obtain ⟨hstop, hvia⟩ := via_of_firstHit h
  obtain ⟨d, hd, -⟩ := id hvia
  exact ⟨hd ▸ iterate_lt hc (startIndex_lt hc hash) d, hstop, hvia⟩

theorem probe_of_via (hstop : stop (slotAt buffer i) = true)
    (hvia : Via (nextIndex c) (fun j => ¬ stop (slotAt buffer j) = true) (startIndex c hash) i) :
    probe buffer c stop hash = some i := by
  have h : firstHit (fun j => stop (slotAt buffer j)) (nextIndex c) (Finset.range c).card
      (startIndex c hash) = some i :=
    firstHit_of_via (fun d => mem_range.mpr (iterate_lt hc (startIndex_lt hc hash) d)) hstop
      hvia
  rwa [Finset.card_range] at h

theorem probe_isSome (stop : Slot → Bool) (hash : ℕ) {j : ℕ} (hj : j < c)
    (hstop : stop (slotAt buffer j) = true) :
    ∃ i, probe buffer c stop hash = some i := by
  obtain ⟨d, rfl⟩ := exists_iterate hc (startIndex_lt hc hash) hj
  obtain ⟨b, hb, hvia⟩ := exists_via (p := fun j => stop (slotAt buffer j) = true) hstop
  exact ⟨b, probe_of_via hc hb hvia⟩
end

/-! ## The buffer -/

def isBucket : Slot → Bool
  | .bucket _ => true
  | _ => false

theorem slotAt_eq {buffer : List Slot} {i : ℕ} (hi : i < buffer.length) :
    slotAt buffer i = buffer[i] := getD_eq_getElem _ _ hi

theorem slotAt_set {buffer : List Slot} {i : ℕ} (hi : i < buffer.length) (x : Slot) (j : ℕ) :
    slotAt (buffer.set i x) j = if i = j then x else slotAt buffer j := by
  unfold slotAt
  by_cases hij : i = j
  · subst hij
    simp [hi]
  · simp [hij]

/-- The buffer of some capacity holds the buckets `ptrs`, each once and where probing from its hash
`h` comes to it before an empty slot. -/
structure Buffered (h : Ptr → ℕ) (c : ℕ) (buffer : List Slot) (ptrs : List Ptr) : Prop where
  size : buffer.length = c
  only : ∀ i p, slotAt buffer i = .bucket p → p ∈ ptrs
  placed : ∀ p ∈ ptrs, ∃ i < c, slotAt buffer i = .bucket p ∧
    Via (nextIndex c) (fun j => slotAt buffer j ≠ .emptyValue) (startIndex c (h p)) i
  once : ∀ i j p, slotAt buffer i = .bucket p → slotAt buffer j = .bucket p → i = j
  buckets : buffer.countP isBucket = ptrs.length

section
variable {h h' : Ptr → ℕ} {c : ℕ} {buffer : List Slot} {ptrs : List Ptr} {i : ℕ} {p : Ptr}

theorem slotAt_replicate (c i : ℕ) : slotAt (List.replicate c .emptyValue) i = .emptyValue := by
  unfold slotAt
  by_cases hi : i < c
  · simp [hi]
  · simp [hi]

theorem buffered_replicate (h : Ptr → ℕ) (c : ℕ) :
    Buffered h c (List.replicate c .emptyValue) [] where
  size := length_replicate
  only i p hp := by simp [slotAt_replicate] at hp
  placed p hp := by simp at hp
  once i j p hp := by simp [slotAt_replicate] at hp
  buckets := by simp [isBucket]

section
variable (hb : Buffered h c buffer ptrs)
include hb

theorem Buffered.congr (hh : ∀ p ∈ ptrs, h p = h' p) : Buffered h' c buffer ptrs where
  size := hb.size
  only := hb.only
  placed p hp := hh p hp ▸ hb.placed p hp
  once := hb.once
  buckets := hb.buckets

omit hb in
theorem lt_of_slotAt_ne (hne : slotAt buffer i ≠ .emptyValue) : i < buffer.length := by
  by_contra hi
  exact hne (by unfold slotAt; rw [getD_eq_default _ _ (by omega)])

/-- Filling an empty slot with a bucket that probing from its hash comes to. -/
theorem Buffered.insert (hp : p ∉ ptrs) (hi : i < c) (hempty : slotAt buffer i = .emptyValue)
    (hvia : Via (nextIndex c) (fun j => slotAt buffer j ≠ .emptyValue) (startIndex c (h p)) i) :
    Buffered h c (buffer.set i (.bucket p)) (ptrs ++ [p]) := by
  have hset := slotAt_set (show i < buffer.length from hb.size ▸ hi) (.bucket p)
  have hmono : ∀ j, slotAt buffer j ≠ .emptyValue →
      slotAt (buffer.set i (.bucket p)) j ≠ .emptyValue := by
    intro j hj
    rw [hset]
    split_ifs
    · exact Slot.noConfusion
    · exact hj
  refine ⟨by rw [length_set, hb.size], ?_, ?_, ?_, ?_⟩
  · intro j q hq
    rw [hset] at hq
    split_ifs at hq with hij
    · obtain rfl : p = q := by simpa using hq
      simp
    · exact mem_append_left _ (hb.only j q hq)
  · intro q hq
    rcases mem_append.mp hq with hq | hq
    · obtain ⟨j, hj, hslot, hvia'⟩ := hb.placed q hq
      refine ⟨j, hj, ?_, hvia'.imp hmono⟩
      rw [hset, if_neg ?_, hslot]
      rintro rfl
      rw [hempty] at hslot
      exact Slot.noConfusion hslot
    · obtain rfl : q = p := by simpa using hq
      exact ⟨i, hi, by rw [hset, if_pos rfl], hvia.imp hmono⟩
  · intro j k q hj hk
    rw [hset] at hj hk
    split_ifs at hj hk with hij hik hik
    · exact hij.symm.trans hik
    · obtain rfl : p = q := by simpa using hj
      exact absurd (hb.only k p hk) hp
    · obtain rfl : p = q := by simpa using hk
      exact absurd (hb.only j p hj) hp
    · exact hb.once j k q hj hk
  · have hi' : i < buffer.length := hb.size ▸ hi
    rw [countP_set hi', ← slotAt_eq hi', hempty, hb.buckets]
    simp [isBucket]

omit hb in
theorem Buffered.delete {l₁ l₂ : List Ptr} (hb : Buffered h c buffer (l₁ ++ p :: l₂))
    (hp : p ∉ l₁ ++ l₂) (hslot : slotAt buffer i = .bucket p) :
    Buffered h c (buffer.set i .deletedValue) (l₁ ++ l₂) := by
  have hi : i < buffer.length := lt_of_slotAt_ne (by rw [hslot]; exact Slot.noConfusion)
  have hset := slotAt_set hi .deletedValue
  refine ⟨by rw [length_set, hb.size], ?_, ?_, ?_, ?_⟩
  · intro j q hq
    rw [hset] at hq
    split_ifs at hq with hij
    have hmem := hb.only j q hq
    have hne : q ≠ p := by
      rintro rfl
      exact hij (hb.once i j q hslot hq)
    simp only [mem_append, mem_cons] at hmem ⊢
    tauto
  · intro q hq
    have hmem : q ∈ l₁ ++ p :: l₂ := by
      simp only [mem_append] at hq ⊢
      tauto
    obtain ⟨j, hj, hslot', hvia⟩ := hb.placed q hmem
    refine ⟨j, hj, ?_, hvia.imp fun k hk => ?_⟩
    · rw [hset, if_neg ?_, hslot']
      rintro rfl
      rw [hslot] at hslot'
      obtain rfl : p = q := by simpa using hslot'
      exact hp hq
    · rw [hset]
      split_ifs
      · exact Slot.noConfusion
      · exact hk
  · intro j k q hj hk
    rw [hset] at hj hk
    split_ifs at hj hk
    exact hb.once j k q hj hk
  · rw [countP_set hi, ← slotAt_eq hi, hslot, hb.buckets]
    simp [isBucket]

omit hb in
theorem length_eq_counts (buffer : List Slot) :
    buffer.length = buffer.countP isEmpty + buffer.countP isDeleted + buffer.countP isBucket := by
  induction buffer with
  | nil => rfl
  | cons x buffer ih =>
    rw [countP_cons, countP_cons, countP_cons]
    cases x <;> simp [isEmpty, isDeleted, isBucket] <;> omega

theorem Buffered.exists_empty (hroom : ptrs.length + buffer.countP isDeleted < c) :
    ∃ i < c, slotAt buffer i = .emptyValue := by
  have hcount := length_eq_counts buffer
  rw [hb.size, hb.buckets] at hcount
  obtain ⟨x, hx, hempty⟩ := countP_pos_iff.mp (show 0 < buffer.countP isEmpty by omega)
  obtain ⟨i, hi, rfl⟩ := getElem_of_mem hx
  refine ⟨i, hb.size ▸ hi, ?_⟩
  rw [slotAt_eq hi]
  simpa [isEmpty] using hempty

/-- A probe of a buffer that is not full ends, if it stops at empty slots. -/
theorem Buffered.exists_probe (hc : ∃ e, c = 2 ^ e)
    (hroom : ptrs.length + buffer.countP isDeleted < c) (stop : Slot → Bool)
    (hstop : stop .emptyValue = true) (hash : ℕ) : ∃ i, probe buffer c stop hash = some i := by
  obtain ⟨j, hj, hempty⟩ := hb.exists_empty hroom
  have hj' : stop (slotAt buffer j) = true := by rw [hempty, hstop]
  exact probe_isSome hc stop hash hj hj'
end

end

/-! ## The list -/

/-- `b` follows `a` in the list. -/
def Adjacent (heap : Heap K V) (a b : Ptr) : Prop :=
  (heap a).next = some b ∧ (heap b).prev = some a

def contents (heap : Heap K V) (p : Ptr) : Option K × Option V := ((heap p).key, (heap p).value)

def stored (e : K × V) : Option K × Option V := (some e.1, some e.2)

/-- The buckets `ptrs` are the list from the head to the tail, and hold the entries. -/
structure Listed (heap : Heap K V) (created : ℕ) (head tail : Ptr) (ptrs : List Ptr)
    (entries : List (K × V)) : Prop where
  chain : (head :: ptrs ++ [tail]).IsChain (Adjacent heap)
  nodup : (head :: ptrs ++ [tail]).Nodup
  bound : ∀ p ∈ head :: ptrs ++ [tail], p < created
  closed : ∀ p q, (heap p).next = some q → q < created
  head_key : (heap head).key = none
  tail_key : (heap tail).key = none
  tail_next : (heap tail).next = none
  holds : ptrs.map (contents heap) = entries.map stored
  keys : (entries.map Prod.fst).Nodup

/-- A chain keeps being one if the links from its elements but the last to its elements but the
first are kept. -/
theorem isChain_of_ends {R R' : Ptr → Ptr → Prop} {l : List Ptr} (h : l.IsChain R)
    (hR : ∀ a ∈ l.dropLast, ∀ b ∈ l.tail, R a b → R' a b) : l.IsChain R' := by
  induction l with
  | nil => exact .nil
  | cons a l ih =>
    cases l with
    | nil => exact .singleton a
    | cons b l =>
      rw [isChain_cons_cons] at h ⊢
      refine ⟨hR a (by simp) b (by simp) h.1, ih h.2 fun x hx y hy => hR x ?_ y ?_⟩
      · exact mem_cons_of_mem a hx
      · exact mem_cons_of_mem b hy

namespace Listed

variable {heap : Heap K V} {created : ℕ} {head tail : Ptr} {ptrs : List Ptr}
variable {entries : List (K × V)} (hl : Listed heap created head tail ptrs entries)
include hl

theorem length_eq : ptrs.length = entries.length := by
  have := congrArg length hl.holds
  simpa using this

theorem keys_eq : ptrs.map (fun p => (heap p).key) = entries.map fun e => some e.1 := by
  have := congrArg (map Prod.fst) hl.holds
  simpa [Function.comp_def, contents, stored] using this

theorem key_inj {q : Ptr} (hp : p ∈ ptrs) (hq : q ∈ ptrs) (h : (heap p).key = (heap q).key) :
    p = q := by
  have hnodup : (ptrs.map fun p => (heap p).key).Nodup := by
    rw [hl.keys_eq, ← Function.comp_def, ← map_map]
    exact hl.keys.map (Option.some_injective K)
  exact inj_on_of_nodup_map hnodup hp hq h

theorem mem_keys {k : K} : k ∈ entries.map Prod.fst ↔ ∃ p ∈ ptrs, (heap p).key = some k := by
  have h : some k ∈ ptrs.map (fun p => (heap p).key) ↔ k ∈ entries.map Prod.fst := by
    rw [hl.keys_eq]
    simp
  rw [← h]
  simp

theorem exists_key (hp : p ∈ ptrs) : ∃ k, (heap p).key = some k := by
  have hmem : (heap p).key ∈ ptrs.map fun p => (heap p).key := mem_map_of_mem hp
  rw [hl.keys_eq] at hmem
  obtain ⟨e, -, he⟩ := mem_map.mp hmem
  exact ⟨e.1, he.symm⟩

theorem ne_head (hp : p ∈ ptrs) : p ≠ head := by
  rintro rfl
  have := hl.nodup
  simp [hp] at this

theorem ne_tail (hp : p ∈ ptrs) : p ≠ tail := by
  rintro rfl
  have := hl.nodup
  simp only [cons_append, nodup_cons, nodup_append] at this
  exact this.2.2.2 p hp p (by simp) rfl

theorem head_ne_tail : head ≠ tail := by
  rintro rfl
  have := hl.nodup
  simp at this

theorem nodup_ptrs : ptrs.Nodup := by
  have := hl.nodup
  simp only [cons_append, nodup_cons, nodup_append] at this
  exact this.2.1

theorem length_lt : ptrs.length + 2 ≤ created := by
  have hsub : (head :: ptrs ++ [tail]) ⊆ range created := fun p hp =>
    mem_range.mpr (hl.bound p hp)
  have := (hl.nodup.subperm hsub).length_le
  simp only [length_append, length_range] at this
  omega

theorem next_head : (heap head).next = some (ptrs.headD tail) := by
  have := hl.chain
  cases ptrs with
  | nil => simpa using (isChain_cons_cons.mp this).1.1
  | cons p ptrs => exact (isChain_cons_cons.mp this).1.1

end Listed

theorem listed_create : Listed (create : HashMapImpl K V).heap 2 0 1 [] [] where
  chain := by
    simp [Adjacent, create]
  nodup := by decide
  bound := by simp
  closed := by
    intro p q h
    simp only [create, Heap.next_setPrev, Heap.next_setNext, Bucket.create] at h
    split_ifs at h
    obtain rfl : 1 = q := Option.some.inj h
    decide
  head_key := by simp [create, Bucket.create]
  tail_key := by simp [create, Bucket.create]
  tail_next := by simp [create, Bucket.create]
  holds := rfl
  keys := nodup_nil

/-! ## Both together -/

/-- The hash of the key in a bucket. -/
def hashOf (hash : K → ℕ) (heap : Heap K V) (p : Ptr) : ℕ := ((heap p).key.map hash).getD 0

/-- The map holds the entries, in the buckets `ptrs`. -/
structure Inv (hash : K → ℕ) (s : HashMapImpl K V) (ptrs : List Ptr) (entries : List (K × V)) :
    Prop where
  listed : Listed s.heap s.created s.m_head s.m_tail ptrs entries
  buffered : Buffered (hashOf hash s.heap) s.m_capacity s.m_buffer ptrs
  power : s.m_capacity = 0 ∨ ∃ e, 2 ≤ e ∧ e ≤ 31 ∧ s.m_capacity = 2 ^ e
  keyCount : s.m_keyCount = entries.length
  deleteCount : s.m_deleteCount = s.m_buffer.countP isDeleted

theorem inv_create (hash : K → ℕ) : Inv hash (create : HashMapImpl K V) [] [] where
  listed := listed_create
  buffered := buffered_replicate _ 0
  power := Or.inl rfl
  keyCount := rfl
  deleteCount := rfl

namespace Inv

variable {hash : K → ℕ} {s : HashMapImpl K V} {ptrs : List Ptr} {entries : List (K × V)}
variable (inv : Inv hash s ptrs entries)
include inv

theorem two_pow (hc : s.m_capacity ≠ 0) : ∃ e, s.m_capacity = 2 ^ e := by
  obtain ⟨e, -, -, he⟩ := inv.power.resolve_left hc
  exact ⟨e, he⟩

theorem four_le (hc : s.m_capacity ≠ 0) : 4 ≤ s.m_capacity := by
  obtain ⟨e, he, -, h⟩ := inv.power.resolve_left hc
  rw [h]
  exact Nat.pow_le_pow_right (show 2 > 0 by decide) he

theorem capacity_le : s.m_capacity ≤ 2 ^ 31 := by
  rcases inv.power with h | ⟨e, -, he, h⟩
  · omega
  · rw [h]
    exact Nat.pow_le_pow_right (by decide) he

theorem counts_le : s.m_keyCount + s.m_deleteCount ≤ s.m_capacity := by
  have hcount := length_eq_counts s.m_buffer
  rw [inv.buffered.size, inv.buffered.buckets, inv.listed.length_eq] at hcount
  rw [inv.keyCount, inv.deleteCount]
  omega

theorem entries_nil (hc : s.m_capacity = 0) : entries = [] := by
  have := inv.counts_le
  rw [inv.keyCount] at this
  exact length_eq_zero_iff.mp (by omega)

variable [DecidableEq K]

theorem findBucket_live (hp : p ∈ ptrs) {k : K} (hk : (s.heap p).key = some k) :
    ∃ i, findBucket hash s k = some (some i) ∧ slotAt s.m_buffer i = .bucket p := by
  obtain ⟨i, hi, hslot, hvia⟩ := inv.buffered.placed p hp
  have hc : s.m_capacity ≠ 0 := by omega
  have hhash : hashOf hash s.heap p = hash k := by simp [hashOf, hk]
  rw [hhash] at hvia
  obtain ⟨j, hstop, hfirst, hj⟩ := hvia.exists_first
    (p := fun j => (isEmpty (slotAt s.m_buffer j) || hasKey s.heap k (slotAt s.m_buffer j)) = true)
    (by rw [hslot]; simp [hasKey, hk])
  -- the probe stops at a bucket with the key, and there is only one
  have hne : slotAt s.m_buffer j ≠ .emptyValue := by
    rcases hj with rfl | hj
    · rw [hslot]
      exact Slot.noConfusion
    · exact hj
  have hslot' : slotAt s.m_buffer j = .bucket p := by
    cases hx : slotAt s.m_buffer j with
    | emptyValue => exact absurd hx hne
    | deletedValue =>
      rw [hx] at hstop
      simp [isEmpty, hasKey] at hstop
    | bucket q =>
      rw [hx] at hstop
      have hq : (s.heap q).key = some k := by simpa [isEmpty, hasKey] using hstop
      rw [inv.listed.key_inj (inv.buffered.only j q hx) hp (hq.trans hk.symm)]
  refine ⟨j, ?_, hslot'⟩
  rw [findBucket, if_neg hc, probe_of_via (inv.two_pow hc) hstop hfirst]
  simp [hslot', isEmpty]

theorem findBucket_spec {k : K} {r : Option ℕ} (h : findBucket hash s k = some r) :
    match r with
    | none => k ∉ entries.map Prod.fst
    | some i => ∃ p ∈ ptrs, slotAt s.m_buffer i = .bucket p ∧ (s.heap p).key = some k := by
  cases r with
  | none =>
    intro hk
    obtain ⟨p, hp, hkey⟩ := inv.listed.mem_keys.mp hk
    obtain ⟨i, hi, -⟩ := inv.findBucket_live hp hkey
    rw [hi] at h
    simp at h
  | some i =>
    unfold findBucket at h
    split_ifs at h with hc
    · simp at h
    · obtain ⟨j, hj, h⟩ := Option.bind_eq_some_iff.mp h
      obtain ⟨-, hstop, -⟩ := probe_some (inv.two_pow hc) hj
      cases hx : slotAt s.m_buffer j with
      | emptyValue => simp [hx, isEmpty] at h
      | deletedValue => simp [hx, isEmpty, hasKey] at hstop
      | bucket p =>
        obtain rfl : j = i := by simpa [hx, isEmpty] using h
        refine ⟨p, inv.buffered.only j p hx, hx, ?_⟩
        simpa [hx, isEmpty, hasKey] using hstop

theorem findBucket_returns (k : K)
    (hroom : s.m_capacity ≠ 0 → s.m_keyCount + s.m_deleteCount < s.m_capacity) :
    ∃ r, findBucket hash s k = some r := by
  unfold findBucket
  split_ifs with hc
  · exact ⟨none, rfl⟩
  · have hroom' := hroom hc
    rw [inv.keyCount, ← inv.listed.length_eq, inv.deleteCount] at hroom'
    obtain ⟨i, hi⟩ := inv.buffered.exists_probe (inv.two_pow hc) hroom'
      (fun x => isEmpty x || hasKey s.heap k x) rfl (hash k)
    rw [hi]
    exact ⟨_, rfl⟩

end Inv

end JscAndroid.HashMap.Invariant
