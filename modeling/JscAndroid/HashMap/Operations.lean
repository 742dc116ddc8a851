import JscAndroid.HashMap.Invariant

/-!
# What the operations do to the entries

For each operation that returns: the invariant holds of the new map, and its entries are those of
the old one with the change the operation stands for.
-/

namespace JscAndroid.HashMap.Operations

open Walks.FirstHit Impl Invariant Nat
open List hiding isEmpty

variable {K V : Type} {hash : K → ℕ} {memory : ℕ → Bool} {s s' : HashMapImpl K V} {r : Completion}
variable {ptrs todo : List Ptr} {entries : List (K × V)} {buffer : List Slot} {k : K} {v : V}
variable {fuel : ℕ}

/-! ## Entries -/

section
variable [DecidableEq K]

def setEntry (k : K) (v : V) (entries : List (K × V)) : List (K × V) :=
  entries.map fun e => if e.1 = k then (e.1, v) else e

/-- Add an entry, or set the value of the one that has the key. -/
def insertEntry (k : K) (v : V) (entries : List (K × V)) : List (K × V) :=
  if k ∈ entries.map Prod.fst then setEntry k v entries else entries ++ [(k, v)]

def eraseEntry (k : K) (entries : List (K × V)) : List (K × V) :=
  entries.filter fun e => e.1 ≠ k

theorem keys_setEntry (k : K) (v : V) (entries : List (K × V)) :
    (setEntry k v entries).map Prod.fst = entries.map Prod.fst := by
  rw [setEntry, map_map]
  refine map_congr_left fun e _ => ?_
  simp only [Function.comp_apply]
  split_ifs <;> rfl

theorem eraseEntry_of_not_mem (h : k ∉ entries.map Prod.fst) : eraseEntry k entries = entries := by
  refine filter_eq_self.mpr fun e he => ?_
  have : e.1 ≠ k := fun hk => h (hk ▸ mem_map_of_mem he)
  simpa using this

theorem eraseEntry_middle {e₁ e₂ : List (K × V)} (h : ((e₁ ++ (k, v) :: e₂).map Prod.fst).Nodup) :
    eraseEntry k (e₁ ++ (k, v) :: e₂) = e₁ ++ e₂ := by
  rw [map_append, nodup_append] at h
  obtain ⟨-, h₂, h₃⟩ := h
  have hk₁ : k ∉ e₁.map Prod.fst := fun hk => h₃ k hk k (by simp) rfl
  have hk₂ : k ∉ e₂.map Prod.fst := (nodup_cons.mp h₂).1
  have hcons : eraseEntry k ((k, v) :: e₂) = eraseEntry k e₂ := by
    simp [eraseEntry]
  unfold eraseEntry at hcons ⊢
  rw [filter_append, hcons]
  exact congrArg₂ _ (eraseEntry_of_not_mem hk₁) (eraseEntry_of_not_mem hk₂)
end

/-! ## Rehashing -/

section
variable {heap : Heap K V} {c : ℕ} (hc : ∃ e, c = 2 ^ e)
include hc

theorem probe_empty {h i : ℕ} (hi : probe buffer c isEmpty h = some i) :
    i < c ∧ slotAt buffer i = .emptyValue ∧
      Via (nextIndex c) (fun j => slotAt buffer j ≠ .emptyValue) (startIndex c h) i := by
  obtain ⟨hlt, hstop, hvia⟩ := probe_some hc hi
  refine ⟨hlt, by simpa [isEmpty] using hstop, hvia.imp fun j hj => ?_⟩
  simpa [isEmpty] using hj

omit hc in
theorem next_of_chain {tail p : Ptr}
    (h : (p :: todo ++ [tail]).IsChain fun a b => (heap a).next = some b) :
    (heap p).next = some (todo.headD tail) := by
  cases todo <;> exact (isChain_cons_cons.mp h).1

omit hc in
theorem rehashLoop_cons {tail p : Ptr} (hkey : (heap p).key = some k)
    (hchain : (p :: todo ++ [tail]).IsChain (Adjacent heap)) (htail : tail ∉ p :: todo) (fuel : ℕ)
    (buffer : List Slot) : rehashLoop hash heap tail c (fuel + 1) p buffer =
      (probe buffer c isEmpty (hash k)).bind fun i =>
        rehashLoop hash heap tail c fuel (todo.headD tail) (buffer.set i (.bucket p)) := by
  have hp : p ≠ tail := fun h => htail (h ▸ mem_cons_self)
  rw [rehashLoop, if_neg hp, hkey, next_of_chain (hchain.imp fun _ _ h => h.1)]
  rfl

/-- A bucket that goes into the first empty slot from its hash on. -/
theorem insert_of_probe {done : List Ptr} {p : Ptr} {i : ℕ}
    (hb : Buffered (hashOf hash heap) c buffer done) (hp : p ∉ done) (hkey : (heap p).key = some k)
    (hi : probe buffer c isEmpty (hash k) = some i) :
    Buffered (hashOf hash heap) c (buffer.set i (.bucket p)) (done ++ [p]) ∧
      (buffer.set i (.bucket p)).countP isDeleted = buffer.countP isDeleted := by
  obtain ⟨hlt, hempty, hvia⟩ := probe_empty hc hi
  have hhash : hashOf hash heap p = hash k := by simp [hashOf, hkey]
  have hi' : i < buffer.length := hb.size ▸ hlt
  refine ⟨hb.insert hp hlt hempty (hhash ▸ hvia), ?_⟩
  rw [countP_set hi', ← slotAt_eq hi', hempty]
  simp [isDeleted]

/-- **The loop of `rehash`** fills the buffer with the rest of the list, and returns if there is
room for it. -/
theorem rehashLoop_spec {tail : Ptr} {done : List Ptr}
    (hchain : (todo ++ [tail]).IsChain (Adjacent heap)) (htail : tail ∉ todo)
    (hnodup : (done ++ todo).Nodup) (hkeys : ∀ p ∈ todo, ∃ k, (heap p).key = some k)
    (hb : Buffered (hashOf hash heap) c buffer done) (hfuel : todo.length < fuel) :
    (∀ buffer', rehashLoop hash heap tail c fuel (todo.headD tail) buffer = some buffer' →
      Buffered (hashOf hash heap) c buffer' (done ++ todo) ∧
        buffer'.countP isDeleted = buffer.countP isDeleted) ∧
    ((done ++ todo).length + buffer.countP isDeleted ≤ c →
      ∃ buffer', rehashLoop hash heap tail c fuel (todo.headD tail) buffer = some buffer') := by
  induction todo generalizing done buffer fuel with
  | nil =>
    obtain _ | fuel := fuel
    · omega
    refine ⟨fun buffer' h => ?_, fun _ => ⟨buffer, by simp [rehashLoop]⟩⟩
    obtain rfl : buffer = buffer' := by simpa [rehashLoop] using h
    rw [append_nil]
    exact ⟨hb, rfl⟩
  | cons p todo ih =>
    obtain _ | fuel := fuel
    · omega
    obtain ⟨k, hkey⟩ := hkeys p (by simp)
    have happ : done ++ p :: todo = done ++ [p] ++ todo := by simp
    have hp : p ∉ done := by
      intro hmem
      rw [nodup_append] at hnodup
      exact hnodup.2.2 p hmem p (by simp) rfl
    have hchain' : (todo ++ [tail]).IsChain (Adjacent heap) := by simpa using hchain.tail
    have hstep : ∀ i, probe buffer c isEmpty (hash k) = some i → _ := fun i hi =>
      ih hchain' (fun h => htail (mem_cons_of_mem p h)) (happ ▸ hnodup)
        (fun q hq => hkeys q (mem_cons_of_mem p hq)) (insert_of_probe hc hb hp hkey hi).1
        (show todo.length < fuel by rw [length_cons] at hfuel; omega)
    rw [headD_cons, rehashLoop_cons hkey hchain htail, happ]
    refine ⟨fun buffer' h => ?_, fun hroom => ?_⟩
    · obtain ⟨i, hi, h⟩ := Option.bind_eq_some_iff.mp h
      obtain ⟨hb', hcount⟩ := (hstep i hi).1 buffer' h
      exact ⟨hb', hcount.trans (insert_of_probe hc hb hp hkey hi).2⟩
    · have hlen : done.length + buffer.countP isDeleted < c := by
        simp only [length_append, length_singleton] at hroom
        omega
      obtain ⟨i, hi⟩ := hb.exists_probe hc hlen isEmpty (by decide) (hash k)
      rw [hi]
      exact (hstep i hi).2 (by rw [(insert_of_probe hc hb hp hkey hi).2]; exact hroom)
end

/-! ## Capacities -/

section
theorem nextCapacity_power {e k c : ℕ} (he : 2 ≤ e) (he' : e ≤ 31)
    (h : nextCapacity (2 ^ e) k = some c) : ∃ e', 2 ≤ e' ∧ e' ≤ 31 ∧ c = 2 ^ e' := by
  have hpos : 2 ^ e ≠ 0 := (Nat.two_pow_pos e).ne'
  rw [nextCapacity, if_neg hpos] at h
  split_ifs at h with h1 h2 h3
  · have hbig : 2 ^ 2 < 2 ^ e := (of_decide_eq_true h1).2
    have he3 : 2 < e := (Nat.pow_lt_pow_iff_right (by decide)).mp hbig
    refine ⟨e - 1, by omega, by omega, ?_⟩
    obtain rfl : 2 ^ e / 2 = c := Option.some.inj h
    rw [← Nat.pow_sub_mul_pow 2 (show 1 ≤ e by omega), Nat.mul_div_cancel _ (by decide)]
  · exact ⟨e, he, he', (Option.some.inj h).symm⟩
  · have hsmall : 2 ^ (e + 1) < 2 ^ 32 := by rw [pow_succ]; exact h3
    have he32 : e + 1 < 32 := (Nat.pow_lt_pow_iff_right (by decide)).mp hsmall
    exact ⟨e + 1, by omega, by omega, by rw [pow_succ]; exact (Option.some.inj h).symm⟩

theorem countP_isDeleted_replicate (c : ℕ) :
    (List.replicate c Slot.emptyValue).countP isDeleted = 0 := by
  rw [countP_replicate, if_neg (by decide)]

theorem and_pred_two_pow (e : ℕ) : 2 ^ e &&& (2 ^ e - 1) = 0 := by
  rw [and_two_pow_sub_one_eq_mod, mod_self]

variable {c : ℕ}

theorem freshBuffer_some (h : freshBuffer memory c s = some s') :
    s' = { s with m_buffer := List.replicate c .emptyValue, m_capacity := c } := by
  unfold freshBuffer makeAndSetNewBuffer at h
  split_ifs at h with h1 h2
  · exact (Option.some.inj h).symm
  · have hc : c = s.m_capacity := not_not.mp h1
    rw [← Option.some.inj h, hc]

theorem freshBuffer_none (h : freshBuffer memory c s = none) : memory c = false := by
  unfold freshBuffer makeAndSetNewBuffer at h
  split_ifs at h with h1 h2
  simpa using h2
end

section
variable (inv : Inv hash s ptrs entries) (hcap : s.m_capacity ≠ 0) {mode : RehashMode} {c : ℕ}
include inv hcap

/-- The number of keys that `rehash` plans for. -/
def plannedKeys (mode : RehashMode) (s : HashMapImpl K V) : ℕ :=
  uint32 (s.m_keyCount + if mode = .BeforeAddition then 1 else 0)

theorem power_of_next {n : ℕ} (hnext : nextCapacity s.m_capacity n = some c) :
    ∃ e, 2 ≤ e ∧ e ≤ 31 ∧ c = 2 ^ e := by
  obtain ⟨e, he, he', hs⟩ := inv.power.resolve_left hcap
  exact nextCapacity_power he he' (hs ▸ hnext)

section
variable (hnext : nextCapacity s.m_capacity (plannedKeys mode s) = some c)
include hnext

theorem refill_spec :
    (∀ buffer, rehashLoop hash s.heap s.m_tail c s.created (ptrs.headD s.m_tail)
        (List.replicate c .emptyValue) = some buffer →
      Inv hash { s with m_buffer := buffer, m_capacity := c, m_deleteCount := 0 } ptrs entries) ∧
    (s.m_keyCount ≤ c → ∃ buffer, rehashLoop hash s.heap s.m_tail c s.created
      (ptrs.headD s.m_tail) (List.replicate c .emptyValue) = some buffer) := by
  obtain ⟨e, he, he', hc⟩ := power_of_next inv hcap hnext
  have hl := inv.listed
  have hfuel := hl.length_lt
  obtain ⟨hfill, hreturns⟩ := rehashLoop_spec ⟨e, hc⟩ (IsChain.tail hl.chain)
    (fun h => hl.ne_tail h rfl) (by simpa using hl.nodup_ptrs) (fun p hp => hl.exists_key hp)
    (buffered_replicate (hashOf hash s.heap) c) (show ptrs.length < s.created by omega)
  rw [countP_isDeleted_replicate] at hfill hreturns
  refine ⟨fun buffer h => ?_, fun hroom => hreturns ?_⟩
  · obtain ⟨hb, hcount⟩ := hfill buffer h
    exact ⟨hl, hb, Or.inr ⟨e, he, he', hc⟩, inv.keyCount, hcount.symm⟩
  · rw [inv.keyCount, ← hl.length_eq] at hroom
    simpa using hroom

theorem rehash_eq :
    rehash hash memory mode s =
      if freshBuffer memory c s = none then some (.outOfMemory, s)
      else (rehashLoop hash s.heap s.m_tail c s.created (ptrs.headD s.m_tail)
        (List.replicate c .emptyValue)).map fun buffer =>
          (.normal, { s with m_buffer := buffer, m_capacity := c, m_deleteCount := 0 }) := by
  obtain ⟨e, -, -, hc⟩ := power_of_next inv hcap hnext
  unfold rehash
  unfold plannedKeys at hnext
  rw [hnext]
  simp only [Option.bind_eq_bind, Option.bind_some]
  cases hfresh : freshBuffer memory c s with
  | none => simp
  | some s1 =>
    obtain rfl := freshBuffer_some hfresh
    have hand : c &&& (c - 1) = 0 := by rw [hc]; exact and_pred_two_pow e
    simp only [hand, inv.listed.next_head, Option.bind_some]
    cases rehashLoop hash s.heap s.m_tail c s.created (ptrs.headD s.m_tail)
      (replicate c .emptyValue) <;> rfl

omit hnext in
/-- **`rehash`** keeps the entries; it changes nothing if it runs out of memory. -/
theorem rehash_spec (h : rehash hash memory mode s = some (r, s')) :
    (r = .outOfMemory ∧ s' = s ∧ ∃ c, memory c = false) ∨
    (r = .normal ∧ Inv hash s' ptrs entries ∧ ∃ c buffer,
      nextCapacity s.m_capacity (plannedKeys mode s) = some c ∧
      s' = { s with m_buffer := buffer, m_capacity := c, m_deleteCount := 0 }) := by
  cases hnext : nextCapacity s.m_capacity (plannedKeys mode s) with
  | none =>
    unfold rehash at h
    unfold plannedKeys at hnext
    rw [hnext] at h
    exact absurd h (by simp)
  | some c =>
    rw [rehash_eq inv hcap hnext] at h
    split_ifs at h with hfresh
    · obtain ⟨rfl, rfl⟩ : Completion.outOfMemory = r ∧ s = s' := by simpa using h
      exact Or.inl ⟨rfl, rfl, c, freshBuffer_none hfresh⟩
    · obtain ⟨buffer, hbuffer, heq⟩ := Option.map_eq_some_iff.mp h
      obtain ⟨rfl, rfl⟩ := Prod.mk.inj heq
      exact Or.inr ⟨rfl, (refill_spec inv hcap hnext).1 buffer hbuffer, c, buffer, rfl, rfl⟩

theorem rehash_returns
    (hroom : s.m_keyCount ≤ c) : ∃ r s', rehash hash memory mode s = some (r, s') := by
  rw [rehash_eq inv hcap hnext]
  split_ifs with hfresh
  · exact ⟨_, _, rfl⟩
  · obtain ⟨buffer, hbuffer⟩ := (refill_spec inv hcap hnext).2 hroom
    rw [hbuffer]
    exact ⟨_, _, rfl⟩
end

end

/-! ## Addition -/

section
variable {i : ℕ}

theorem next_appendEntry (x : Ptr) : ((appendEntry k v i s).heap x).next =
    if x = s.m_tail then some s.created else if x = s.created then none else (s.heap x).next := by
  simp only [appendEntry, Heap.next_setNext, Heap.next_setPrev, Heap.modify_apply]
  split_ifs <;> simp [Bucket.create]

theorem prev_appendEntry (x : Ptr) : ((appendEntry k v i s).heap x).prev =
    if x = s.created then some s.m_tail else (s.heap x).prev := by
  simp only [appendEntry, Heap.prev_setNext, Heap.prev_setPrev, Heap.modify_apply]
  split_ifs <;> simp

theorem key_appendEntry (x : Ptr) : ((appendEntry k v i s).heap x).key =
    if x = s.created then none else if x = s.m_tail then some k else (s.heap x).key := by
  simp only [appendEntry, Heap.key_setNext, Heap.key_setPrev, Heap.modify_apply]
  split_ifs <;> simp_all [Bucket.create]

theorem value_appendEntry (x : Ptr) : ((appendEntry k v i s).heap x).value =
    if x = s.created then none else if x = s.m_tail then some v else (s.heap x).value := by
  simp only [appendEntry, Heap.value_setNext, Heap.value_setPrev, Heap.modify_apply]
  split_ifs <;> simp_all [Bucket.create]

theorem listed_appendEntry (hl : Listed s.heap s.created s.m_head s.m_tail ptrs entries)
    (hk : k ∉ entries.map Prod.fst) :
    Listed (appendEntry k v i s).heap (s.created + 1) s.m_head s.created (ptrs ++ [s.m_tail])
      (entries ++ [(k, v)]) := by
  have htail : s.m_tail ≠ s.created := (hl.bound _ (by simp)).ne
  have hhead : s.m_head ≠ s.created := (hl.bound _ (by simp)).ne
  have hptrs : ∀ p ∈ ptrs, p ≠ s.created := fun p hp => (hl.bound p (by simp [hp])).ne
  have hlist : s.m_head :: (ptrs ++ [s.m_tail]) ++ [s.created] =
      (s.m_head :: ptrs ++ [s.m_tail]) ++ [s.created] := by simp
  refine ⟨?_, ?_, ?_, ?_, ?_, ?_, ?_, ?_, ?_⟩
  · rw [hlist, isChain_append]
    refine ⟨isChain_of_ends hl.chain fun a ha b hb hab => ?_, .singleton _, ?_⟩
    · rw [dropLast_concat] at ha
      have ha1 : a ≠ s.m_tail := by
        rcases mem_cons.mp ha with rfl | ha
        · exact hl.head_ne_tail
        · exact hl.ne_tail ha
      have ha2 : a ≠ s.created := by
        rcases mem_cons.mp ha with rfl | ha
        · exact hhead
        · exact hptrs a ha
      have hb2 : b ≠ s.created := (hl.bound b (mem_of_mem_tail hb)).ne
      rwa [Adjacent, next_appendEntry, prev_appendEntry, if_neg ha1, if_neg ha2, if_neg hb2]
    · intro x hx y hy
      rw [getLast?_concat] at hx
      obtain rfl : s.m_tail = x := by simpa using hx
      obtain rfl : s.created = y := by simpa using hy
      rw [Adjacent, next_appendEntry, prev_appendEntry, if_pos rfl, if_pos rfl]
      exact ⟨rfl, rfl⟩
  · rw [nodup_append]
    refine ⟨hl.nodup, nodup_singleton _, fun a ha b hb => ?_⟩
    obtain rfl : b = s.created := by simpa using hb
    exact (hl.bound a ha).ne
  · intro p hp
    rw [mem_append] at hp
    rcases hp with hp | hp
    · exact lt_succ_of_lt (hl.bound p hp)
    · obtain rfl : p = s.created := by simpa using hp
      exact lt_succ_self _
  · intro p q h
    rw [next_appendEntry] at h
    split_ifs at h
    · obtain rfl : s.created = q := Option.some.inj h
      exact lt_succ_self _
    · exact lt_succ_of_lt (hl.closed p q h)
  · rw [key_appendEntry, if_neg hhead, if_neg hl.head_ne_tail]
    exact hl.head_key
  · rw [key_appendEntry, if_pos rfl]
  · rw [next_appendEntry, if_neg htail.symm, if_pos rfl]
  · rw [map_append, map_append, ← hl.holds]
    refine congrArg₂ _ (map_congr_left fun p hp => ?_) ?_
    · unfold contents
      rw [key_appendEntry, value_appendEntry, if_neg (hptrs p hp), if_neg (hl.ne_tail hp),
        if_neg (hptrs p hp), if_neg (hl.ne_tail hp)]
    · simp [contents, stored, key_appendEntry, value_appendEntry, htail]
  · rw [map_append, nodup_append]
    refine ⟨hl.keys, nodup_singleton _, fun a ha b hb => ?_⟩
    obtain rfl : b = k := by simpa using hb
    rintro rfl
    exact hk ha

/-- **The new entry** keeps the invariant. -/
theorem appendEntry_inv (inv : Inv hash s ptrs entries) (hk : k ∉ entries.map Prod.fst)
    (hi : i < s.m_capacity) (hempty : slotAt s.m_buffer i = .emptyValue)
    (hvia : Via (nextIndex s.m_capacity) (fun j => slotAt s.m_buffer j ≠ .emptyValue)
      (startIndex s.m_capacity (hash k)) i) :
    Inv hash (appendEntry k v i s) (ptrs ++ [s.m_tail]) (entries ++ [(k, v)]) := by
  have hl := inv.listed
  have htail : s.m_tail ≠ s.created := (hl.bound _ (by simp)).ne
  have hhash : ∀ p ∈ ptrs, hashOf hash s.heap p = hashOf hash (appendEntry k v i s).heap p := by
    intro p hp
    have hp' : p ≠ s.created := (hl.bound p (by simp [hp])).ne
    unfold hashOf
    rw [key_appendEntry, if_neg hp', if_neg (hl.ne_tail hp)]
  have hhash' : hashOf hash (appendEntry k v i s).heap s.m_tail = hash k := by
    rw [hashOf, key_appendEntry, if_neg htail, if_pos rfl]
    rfl
  refine ⟨listed_appendEntry hl hk, ?_, inv.power, ?_, ?_⟩
  · exact (inv.buffered.congr hhash).insert (fun h => hl.ne_tail h rfl) hi hempty
      (hhash' ▸ hvia)
  · have h1 := inv.counts_le
    have h2 := inv.capacity_le
    show uint32 (s.m_keyCount + 1) = _
    rw [length_append, length_singleton, ← inv.keyCount]
    unfold uint32
    omega
  · have hi' : i < s.m_buffer.length := inv.buffered.size ▸ hi
    show s.m_deleteCount = (s.m_buffer.set i (.bucket s.m_tail)).countP isDeleted
    rw [countP_set hi', ← slotAt_eq hi', hempty, inv.deleteCount]
    simp [isDeleted]
end

section
variable [DecidableEq K]

theorem setValue_inv (inv : Inv hash s ptrs entries) {p : Ptr} (hp : p ∈ ptrs)
    (hkey : (s.heap p).key = some k) :
    Inv hash { s with heap := s.heap.setValue p v } ptrs (setEntry k v entries) := by
  have hl := inv.listed
  refine ⟨⟨?_, hl.nodup, hl.bound, ?_, ?_, ?_, ?_, ?_, ?_⟩, ?_, inv.power, ?_, inv.deleteCount⟩
  · refine hl.chain.imp fun a b hab => ?_
    simpa [Adjacent] using hab
  · simpa using hl.closed
  · simpa using hl.head_key
  · simpa using hl.tail_key
  · simpa using hl.tail_next
  · -- the bucket is the one with the key
    have hmap : ∀ q ∈ ptrs, contents (s.heap.setValue p v) q =
        (if (contents s.heap q).1 = some k then ((contents s.heap q).1, some v)
          else contents s.heap q) := by
      intro q hq
      by_cases hqp : q = p
      · subst hqp
        simp [contents, hkey]
      · have hne : (s.heap q).key ≠ some k := fun h => hqp (hl.key_inj hq hp (h.trans hkey.symm))
        simp [contents, hqp, hne]
    have hset : ∀ l : List (Option K × Option V), l = entries.map stored →
        l.map (fun x => if x.1 = some k then (x.1, some v) else x) =
          (setEntry k v entries).map stored := by
      rintro l rfl
      rw [setEntry, map_map, map_map]
      refine map_congr_left fun e _ => ?_
      simp only [Function.comp_apply, stored, Option.some.injEq]
      split_ifs <;> rfl
    rw [← hset _ hl.holds, map_map]
    exact map_congr_left hmap
  · rw [keys_setEntry]
    exact hl.keys
  · refine inv.buffered.congr fun q _ => ?_
    simp [hashOf]
  · rw [inv.keyCount, setEntry, length_map]

/-- The two maps have the same buckets. -/
structure SameBuckets (s s' : HashMapImpl K V) : Prop where
  heap : s'.heap = s.heap
  created : s'.created = s.created
  head : s'.m_head = s.m_head
  tail : s'.m_tail = s.m_tail

/-- The capacity and the tombstones of the map into which one more entry goes. -/
def Planned (s s' : HashMapImpl K V) : Prop :=
  (shouldRehash s.m_capacity (uint32 (s.m_keyCount + 1)) s.m_deleteCount = false ∧
    s'.m_capacity = s.m_capacity ∧ s'.m_deleteCount = s.m_deleteCount) ∨
  ((s.m_capacity ≠ 0 →
      shouldRehash s.m_capacity (uint32 (s.m_keyCount + 1)) s.m_deleteCount = true) ∧
    nextCapacity s.m_capacity (uint32 (s.m_keyCount + 1)) = some s'.m_capacity ∧
    s'.m_deleteCount = 0)

/-- What an addition that returns has done. -/
inductive Added (hash : K → ℕ) (memory : ℕ → Bool) (k : K) (v : V) (s : HashMapImpl K V)
    (ptrs : List Ptr) (entries : List (K × V)) : Completion → HashMapImpl K V → Prop
  | outOfMemory (hmemory : ∃ c, memory c = false) :
      Added hash memory k v s ptrs entries .outOfMemory s
  | updated (p : Ptr) (hp : p ∈ ptrs) (hkey : (s.heap p).key = some k)
      (inv : Inv hash { s with heap := s.heap.setValue p v } ptrs (setEntry k v entries)) :
      Added hash memory k v s ptrs entries .normal { s with heap := s.heap.setValue p v }
  | appended (hk : k ∉ entries.map Prod.fst) (s₁ : HashMapImpl K V) (i : ℕ)
      (same : SameBuckets s s₁) (planned : Planned s s₁)
      (inv : Inv hash (appendEntry k v i s₁) (ptrs ++ [s.m_tail]) (entries ++ [(k, v)])) :
      Added hash memory k v s ptrs entries .normal (appendEntry k v i s₁)

omit [DecidableEq K] in
theorem append_of_probe (inv : Inv hash s ptrs entries) (hcap : s.m_capacity ≠ 0)
    (hk : k ∉ entries.map Prod.fst) {stop : Slot → Bool} (hstop : stop .emptyValue = true) {i : ℕ}
    (hi : probe s.m_buffer s.m_capacity stop (hash k) = some i)
    (hempty : slotAt s.m_buffer i = .emptyValue) :
    Inv hash (appendEntry k v i s) (ptrs ++ [s.m_tail]) (entries ++ [(k, v)]) := by
  obtain ⟨hlt, -, hvia⟩ := probe_some (inv.two_pow hcap) hi
  refine appendEntry_inv inv hk hlt hempty (hvia.imp fun j hj hj' => hj ?_)
  rw [hj', hstop]

variable {use : Slot → Bool}

section
variable (inv : Inv hash s ptrs entries)
include inv

/-- **An addition to a map with a buffer**, whose buckets with the key are those that `use`
accepts. -/
theorem addToBuffer_spec (hcap : s.m_capacity ≠ 0)
    (huse : use = hasKey s.heap k ∨ k ∉ entries.map Prod.fst ∧ use = fun _ => false)
    (hadd : addToBuffer hash memory use k v s = some (r, s')) :
    Added hash memory k v s ptrs entries r s' := by
  obtain ⟨i, hi, h⟩ := Option.bind_eq_some_iff.mp hadd
  obtain ⟨-, hstop, -⟩ := probe_some (inv.two_pow hcap) hi
  cases hx : slotAt s.m_buffer i with
  | deletedValue =>
    rw [hx] at hstop
    rcases huse with rfl | ⟨-, rfl⟩ <;> simp [isEmpty, hasKey] at hstop
  | bucket p =>
    rw [hx] at hstop h
    rcases huse with rfl | ⟨-, rfl⟩
    · have hkey : (s.heap p).key = some k := by simpa [isEmpty, hasKey] using hstop
      have hp : p ∈ ptrs := inv.buffered.only i p hx
      obtain ⟨rfl, rfl⟩ := Prod.mk.inj (Option.some.inj h)
      exact .updated p hp hkey (setValue_inv inv hp hkey)
    · simp [isEmpty] at hstop
  | emptyValue =>
    have hk : k ∉ entries.map Prod.fst := by
      rcases huse with rfl | ⟨hk, -⟩
      · have hfind : findBucket hash s k = some none := by
          rw [findBucket, hi]
          simp [hx, isEmpty]
        exact inv.findBucket_spec hfind
      · exact hk
    simp only [hx] at h
    split_ifs at h with hrehash
    · obtain ⟨⟨r₁, s₁⟩, hr, hr'⟩ := Option.bind_eq_some_iff.mp h
      rcases rehash_spec inv hcap hr with ⟨rfl, rfl, hmemory⟩ | ⟨rfl, inv₁, c, buffer, hnext, hs₁⟩
      · obtain ⟨rfl, rfl⟩ := Prod.mk.inj (Option.some.inj hr')
        exact .outOfMemory hmemory
      · obtain ⟨j, hj, hj'⟩ := Option.bind_eq_some_iff.mp hr'
        obtain ⟨rfl, rfl⟩ := Prod.mk.inj (Option.some.inj hj')
        have hcap₁ : s₁.m_capacity ≠ 0 := by
          obtain ⟨e, -, -, rfl⟩ := power_of_next inv hcap hnext
          rw [hs₁]
          exact (Nat.two_pow_pos e).ne'
        have htail : s₁.m_tail = s.m_tail := by rw [hs₁]
        refine .appended hk s₁ j (by rw [hs₁]; constructor <;> rfl) (Or.inr ?_)
          (htail ▸ append_of_probe inv₁ hcap₁ hk rfl hj (probe_empty (inv₁.two_pow hcap₁) hj).2.1)
        rw [hs₁]
        exact ⟨fun _ => hrehash, hnext, rfl⟩
    · obtain ⟨rfl, rfl⟩ := Prod.mk.inj (Option.some.inj h)
      exact .appended hk s i ⟨rfl, rfl, rfl, rfl⟩
        (Or.inl ⟨by simpa using hrehash, rfl, rfl⟩) (append_of_probe inv hcap hk rfl hi hx)

omit [DecidableEq K] in
theorem inv_initial (hcap : s.m_capacity = 0) {e : ℕ} (he : 2 ≤ e)
    (he' : e ≤ 31) :
    Inv hash { s with m_buffer := List.replicate (2 ^ e) .emptyValue, m_capacity := 2 ^ e } ptrs
      entries := by
  have hentries := inv.entries_nil hcap
  have hptrs : ptrs = [] := length_eq_zero_iff.mp (by rw [inv.listed.length_eq, hentries]; rfl)
  have hdelete : s.m_deleteCount = 0 := by
    have := inv.counts_le
    omega
  refine ⟨inv.listed, ?_, Or.inr ⟨e, he, he', rfl⟩, inv.keyCount, ?_⟩
  · rw [hptrs]
    exact buffered_replicate _ _
  · rw [hdelete, countP_isDeleted_replicate]

theorem addNormalizedInternal_spec
    (huse : use = hasKey s.heap k ∨ k ∉ entries.map Prod.fst ∧ use = fun _ => false)
    (h : addNormalizedInternal hash memory use k v s = some (r, s')) :
    Added hash memory k v s ptrs entries r s' := by
  unfold addNormalizedInternal makeAndSetNewBuffer at h
  split_ifs at h with hcap hmemory
  · -- the first buffer has room for the entry
    have hentries := inv.entries_nil hcap
    have hcounts := inv.counts_le
    have inv₁ := inv_initial inv hcap (le_refl 2) (by decide)
    have hk : k ∉ entries.map Prod.fst := by simp [hentries]
    have hkeys : s.m_keyCount = 0 := by omega
    have hdelete : s.m_deleteCount = 0 := by omega
    obtain ⟨i, hi, h⟩ := Option.bind_eq_some_iff.mp h
    simp only [slotAt_replicate, hkeys, hdelete] at h
    obtain ⟨rfl, rfl⟩ := Prod.mk.inj (Option.some.inj h)
    refine .appended hk _ i ⟨rfl, rfl, rfl, rfl⟩ (Or.inr ⟨fun h => absurd hcap h, ?_, rfl⟩) ?_
    · rw [nextCapacity, if_pos hcap]
    · have := append_of_probe inv₁ (show 2 ^ 2 ≠ 0 by decide) hk (v := v) rfl hi
        (slotAt_replicate _ _)
      rwa [hkeys, hdelete] at this
  · obtain ⟨rfl, rfl⟩ := h
    exact .outOfMemory ⟨_, by simpa using hmemory⟩
  · exact addToBuffer_spec inv hcap huse h

/-- **`add`** inserts an entry, or leaves the map as it was if it runs out of memory. -/
theorem add_spec (h : add hash memory k v s = some (r, s')) :
    Added hash memory k v s ptrs entries r s' :=
  addNormalizedInternal_spec inv (Or.inl rfl) h

omit [DecidableEq K] in
/-- An addition returns if a probe of the buffer ends, and one of the buffer after rehashing. -/
theorem addToBuffer_returns (hcap : s.m_capacity ≠ 0)
    (hroom : s.m_keyCount + s.m_deleteCount < s.m_capacity)
    (hnext : shouldRehash s.m_capacity (uint32 (s.m_keyCount + 1)) s.m_deleteCount = true →
      ∃ c, nextCapacity s.m_capacity (uint32 (s.m_keyCount + 1)) = some c ∧ s.m_keyCount < c)
    (use : Slot → Bool) (k : K) (v : V) :
    ∃ r s', addToBuffer hash memory use k v s = some (r, s') := by
  have hroom' := hroom
  rw [inv.keyCount, ← inv.listed.length_eq, inv.deleteCount] at hroom'
  obtain ⟨i, hi⟩ := inv.buffered.exists_probe (inv.two_pow hcap) hroom'
    (fun x => isEmpty x || use x) rfl (hash k)
  simp only [addToBuffer, hi, Option.bind_eq_bind, Option.bind_some]
  split
  · exact ⟨_, _, rfl⟩
  · split_ifs with hrehash
    · obtain ⟨c, hc, hlt⟩ := hnext hrehash
      have hc₁ : nextCapacity s.m_capacity (plannedKeys .BeforeAddition s) = some c := by
        rw [plannedKeys, if_pos rfl, hc]
      obtain ⟨r, s₁, hr⟩ := rehash_returns inv hcap hc₁ hlt.le
      rw [hr]
      rcases rehash_spec inv hcap hr with ⟨rfl, -, -⟩ | ⟨rfl, inv₁, c', buffer, hc', rfl⟩
      · exact ⟨_, _, rfl⟩
      · obtain rfl : c = c' := Option.some.inj (hc₁.symm.trans hc')
        have hroom₁ : ptrs.length + buffer.countP isDeleted < c := by
          have h₁ : 0 = buffer.countP isDeleted := inv₁.deleteCount
          rw [inv.listed.length_eq, ← inv.keyCount]
          omega
        obtain ⟨j, hj⟩ := inv₁.buffered.exists_probe (inv₁.two_pow (show c ≠ 0 by omega)) hroom₁
          isEmpty rfl (hash k)
        simp only [Option.bind_some, hj]
        exact ⟨_, _, rfl⟩
    · exact ⟨_, _, rfl⟩
end

theorem add_returns (memory : ℕ → Bool) (inv : Inv hash s ptrs entries)
    (hroom : s.m_capacity ≠ 0 → s.m_keyCount + s.m_deleteCount < s.m_capacity)
    (hnext : s.m_capacity ≠ 0 →
      shouldRehash s.m_capacity (uint32 (s.m_keyCount + 1)) s.m_deleteCount = true →
      ∃ c, nextCapacity s.m_capacity (uint32 (s.m_keyCount + 1)) = some c ∧ s.m_keyCount < c)
    (k : K) (v : V) : ∃ r s', add hash memory k v s = some (r, s') := by
  unfold add addNormalizedInternal makeAndSetNewBuffer
  split_ifs with hcap hmemory
  · have hcounts := inv.counts_le
    have inv₁ := inv_initial inv hcap (le_refl 2) (by decide)
    have hkeys : s.m_keyCount = 0 := by omega
    have hdelete : s.m_deleteCount = 0 := by omega
    refine addToBuffer_returns inv₁ (show 2 ^ 2 ≠ 0 by decide) ?_ ?_ _ k v
    · show s.m_keyCount + s.m_deleteCount < 2 ^ 2
      omega
    · show shouldRehash (2 ^ 2) (uint32 (s.m_keyCount + 1)) s.m_deleteCount = true → _
      rw [hkeys, hdelete]
      exact fun h => absurd h (by decide)
  · exact ⟨_, _, rfl⟩
  · exact addToBuffer_returns inv hcap (hroom hcap) (hnext hcap) _ k v

omit [DecidableEq K] in
theorem addNormalizedInternal_room (memory : ℕ → Bool) (v : V) (inv : Inv hash s ptrs entries)
    (hcap : s.m_capacity ≠ 0) (hroom : s.m_keyCount + s.m_deleteCount < s.m_capacity)
    (hkeep : shouldRehash s.m_capacity (uint32 (s.m_keyCount + 1)) s.m_deleteCount = false)
    (hk : k ∉ entries.map Prod.fst) :
    ∃ i, addNormalizedInternal hash memory (fun _ => false) k v s =
        some (.normal, appendEntry k v i s) ∧
      Inv hash (appendEntry k v i s) (ptrs ++ [s.m_tail]) (entries ++ [(k, v)]) := by
  rw [inv.keyCount, ← inv.listed.length_eq, inv.deleteCount] at hroom
  obtain ⟨i, hi⟩ := inv.buffered.exists_probe (inv.two_pow hcap) hroom
    (fun x => isEmpty x || false) rfl (hash k)
  obtain ⟨-, hstop, -⟩ := probe_some (inv.two_pow hcap) hi
  have hempty : slotAt s.m_buffer i = .emptyValue := by simpa [isEmpty] using hstop
  have hstop' : (isEmpty .emptyValue || false) = true := rfl
  refine ⟨i, ?_, append_of_probe inv hcap hk hstop' hi hempty⟩
  rw [addNormalizedInternal, addToBuffer, if_neg hcap, hi]
  simp [hempty, hkeep]
end

/-! ## Removal -/

section
variable {heap : Heap K V} {created : ℕ} {head tail p a b : Ptr} {l₁ l₂ A B : List Ptr}

theorem exists_around (head tail : Ptr) (l₁ l₂ : List Ptr) :
    ∃ A a b B, head :: l₁ = A ++ [a] ∧ l₂ ++ [tail] = b :: B := by
  refine ⟨_, _, (l₂ ++ [tail]).head (by simp), (l₂ ++ [tail]).tail,
    (dropLast_concat_getLast (cons_ne_nil head l₁)).symm, ?_⟩
  exact (cons_head_tail _).symm

theorem exists_entry (hl : Listed heap created head tail (l₁ ++ p :: l₂) entries) :
    ∃ e₁ k v e₂, entries = e₁ ++ (k, v) :: e₂ ∧ (heap p).key = some k ∧
      l₁.map (contents heap) = e₁.map stored ∧ l₂.map (contents heap) = e₂.map stored := by
  have h := hl.holds
  rw [map_append] at h
  obtain ⟨e₁, e', rfl, h₁, h'⟩ := map_eq_append_iff.mp h.symm
  obtain ⟨⟨k, v⟩, e₂, rfl, hkv, h₂⟩ := map_eq_cons_iff.mp h'
  exact ⟨e₁, k, v, e₂, rfl, (congrArg Prod.fst hkv).symm, h₁.symm, h₂.symm⟩

/-- The buckets after `p` was taken out from between `a` and `b`. -/
def unlinkBucket (heap : Heap K V) (a p b : Ptr) : Heap K V :=
  ((heap.setPrev b a).setNext a b).makeDeleted p

@[simp] theorem next_unlinkBucket (x : Ptr) : (unlinkBucket heap a p b x).next =
    if x = a then some b else (heap x).next := by
  simp [unlinkBucket]

@[simp] theorem prev_unlinkBucket (x : Ptr) : (unlinkBucket heap a p b x).prev =
    if x = b then some a else (heap x).prev := by
  simp [unlinkBucket]

@[simp] theorem key_unlinkBucket (x : Ptr) : (unlinkBucket heap a p b x).key =
    if x = p then none else (heap x).key := by
  simp [unlinkBucket]

@[simp] theorem value_unlinkBucket (x : Ptr) : (unlinkBucket heap a p b x).value =
    if x = p then none else (heap x).value := by
  simp [unlinkBucket]

variable (hl : Listed heap created head tail (l₁ ++ p :: l₂) entries)
variable (hA : head :: l₁ = A ++ [a]) (hB : l₂ ++ [tail] = b :: B)

include hA hB in
theorem around_eq : head :: (l₁ ++ p :: l₂) ++ [tail] = A ++ a :: p :: b :: B := by
  calc head :: (l₁ ++ p :: l₂) ++ [tail] = (head :: l₁) ++ p :: (l₂ ++ [tail]) := by simp
    _ = A ++ a :: p :: b :: B := by rw [hA, hB]; simp

include hA hB in
theorem around_eq' : head :: (l₁ ++ l₂) ++ [tail] = A ++ a :: b :: B := by
  calc head :: (l₁ ++ l₂) ++ [tail] = (head :: l₁) ++ (l₂ ++ [tail]) := by simp
    _ = A ++ a :: b :: B := by rw [hA, hB]; simp

include hl hA hB

theorem links_around : Adjacent heap a p ∧ Adjacent heap p b := by
  have h := hl.chain
  rw [around_eq hA hB, isChain_append] at h
  exact ⟨(isChain_cons_cons.mp h.2.1).1,
    (isChain_cons_cons.mp (isChain_cons_cons.mp h.2.1).2).1⟩

theorem chain_unlink : (A ++ a :: b :: B).IsChain (Adjacent (unlinkBucket heap a p b)) := by
  have hchain := hl.chain
  have hnodup := hl.nodup
  rw [around_eq hA hB] at hchain hnodup
  have hdisj := (nodup_append.mp hnodup).2.2
  have hrest := (nodup_append.mp hnodup).2.1
  simp only [nodup_cons, mem_cons, not_or] at hrest
  obtain ⟨⟨hap, hab, haB⟩, ⟨hpb, hpB⟩, hbB, -⟩ := hrest
  obtain ⟨hleft, hright⟩ := isChain_split.mp hchain
  have hright' : (b :: B).IsChain (Adjacent heap) := (IsChain.tail hright).tail
  -- no link but the one across the gap starts at `a` or ends at `b`
  refine isChain_split.mpr ⟨isChain_of_ends hleft fun x hx y hy hxy => ?_,
    isChain_cons_cons.mpr ⟨by simp [Adjacent], isChain_of_ends hright' fun x hx y hy hxy => ?_⟩⟩
  · rw [dropLast_concat] at hx
    have hxa : x ≠ a := hdisj x hx a (by simp)
    have hyb : y ≠ b := by
      rintro rfl
      rcases mem_append.mp (mem_of_mem_tail hy) with h | h
      · exact hdisj y h y (by simp) rfl
      · exact hab (mem_singleton.mp h).symm
    simpa [Adjacent, hxa, hyb] using hxy
  · have hxa : x ≠ a := by
      rintro rfl
      rcases mem_cons.mp (mem_of_mem_dropLast hx) with h | h
      · exact hab h
      · exact haB h
    have hyb : y ≠ b := by
      rintro rfl
      exact hbB hy
    simpa [Adjacent, hxa, hyb] using hxy

/-- **The list without the bucket.** -/
theorem listed_unlink [DecidableEq K] (hkey : (heap p).key = some k) :
    Listed (unlinkBucket heap a p b) created head tail (l₁ ++ l₂) (eraseEntry k entries) := by
  obtain ⟨e₁, k', v, e₂, rfl, hkey', h₁, h₂⟩ := exists_entry hl
  obtain rfl : k' = k := Option.some.inj (hkey'.symm.trans hkey)
  have hsub : Sublist (head :: (l₁ ++ l₂) ++ [tail]) (head :: (l₁ ++ p :: l₂) ++ [tail]) := by
    rw [around_eq' hA hB, around_eq hA hB]
    exact Sublist.append_left (Sublist.cons_cons a (sublist_cons_self p _)) A
  have hp : p ∈ l₁ ++ p :: l₂ := by simp
  have hpl : ∀ x ∈ l₁ ++ l₂, x ≠ p := by
    rintro x hx rfl
    have := hl.nodup_ptrs
    rw [nodup_middle, nodup_cons] at this
    exact this.1 hx
  have hbmem : b ∈ head :: (l₁ ++ p :: l₂) ++ [tail] := by rw [around_eq hA hB]; simp
  have hta : tail ≠ a := by
    rintro rfl
    have htail : tail ∈ head :: l₁ := by rw [hA]; simp
    rcases mem_cons.mp htail with h | h
    · exact hl.head_ne_tail h.symm
    · exact hl.ne_tail (mem_append_left _ h) rfl
  have hheads := hl.ne_head hp
  have htails := hl.ne_tail hp
  rw [eraseEntry_middle hl.keys]
  refine ⟨?_, hl.nodup.sublist hsub, fun x hx =>
    hl.bound x (hsub.subset hx), ?_, ?_, ?_, ?_, ?_, ?_⟩
  · rw [around_eq' hA hB]
    exact chain_unlink hl hA hB
  · intro x q hx
    rw [next_unlinkBucket] at hx
    split_ifs at hx
    · obtain rfl : b = q := Option.some.inj hx
      exact hl.bound b hbmem
    · exact hl.closed x q hx
  · rw [key_unlinkBucket, if_neg hheads.symm, hl.head_key]
  · rw [key_unlinkBucket, if_neg htails.symm, hl.tail_key]
  · rw [next_unlinkBucket, if_neg hta, hl.tail_next]
  · rw [map_congr_left fun x hx => ?_, map_append, map_append,
      h₁, h₂]
    simp [contents, hpl x hx]
  · refine hl.keys.sublist (Sublist.map _ ?_)
    exact Sublist.append_left (sublist_cons_self _ _) e₁
end

section
variable [DecidableEq K] {l₁ l₂ A B : List Ptr} {p a b : Ptr} {i : ℕ}

/-- The map after `unlink`. -/
def unlinked (a p b : Ptr) (i : ℕ) (s : HashMapImpl K V) : HashMapImpl K V :=
  { s with
    heap := unlinkBucket s.heap a p b
    m_buffer := s.m_buffer.set i .deletedValue
    m_deleteCount := uint32 (s.m_deleteCount + 1)
    m_keyCount := s.m_keyCount - 1 }

omit [DecidableEq K] in
theorem unlink_eq (hslot : slotAt s.m_buffer i = .bucket p) (hnext : (s.heap p).next = some b)
    (hprev : (s.heap p).prev = some a) : unlink i s = some (unlinked a p b i s) := by
  rw [unlink, hslot]
  simp only [hnext, hprev]
  rfl

theorem unlinked_inv (inv : Inv hash s (l₁ ++ p :: l₂) entries) (hA : s.m_head :: l₁ = A ++ [a])
    (hB : l₂ ++ [s.m_tail] = b :: B) (hkey : (s.heap p).key = some k)
    (hslot : slotAt s.m_buffer i = .bucket p) :
    Inv hash (unlinked a p b i s) (l₁ ++ l₂) (eraseEntry k entries) := by
  have hl := inv.listed
  have hl' := listed_unlink hl hA hB hkey
  have hp : p ∉ l₁ ++ l₂ := (nodup_cons.mp (nodup_middle.mp hl.nodup_ptrs)).1
  have hi : i < s.m_buffer.length := lt_of_slotAt_ne (by rw [hslot]; exact Slot.noConfusion)
  have hcounts := inv.counts_le
  have hcap := inv.capacity_le
  have hlen := hl.length_eq
  have hlen' := hl'.length_eq
  rw [length_append] at hlen'
  rw [length_append, length_cons, ← inv.keyCount] at hlen
  refine ⟨hl', (inv.buffered.delete hp hslot).congr fun x hx => ?_, inv.power, ?_, ?_⟩
  · have hx' : x ≠ p := fun h => hp (h ▸ hx)
    simp [hashOf, unlinked, hx']
  · show s.m_keyCount - 1 = _
    omega
  · show uint32 (s.m_deleteCount + 1) = (s.m_buffer.set i .deletedValue).countP isDeleted
    rw [countP_set hi, ← slotAt_eq hi, hslot, ← inv.deleteCount]
    have : uint32 (s.m_deleteCount + 1) = s.m_deleteCount + 1 := by unfold uint32; omega
    simp [isDeleted, this]

/-- What a removal that returns has done. -/
inductive Removed (hash : K → ℕ) (memory : ℕ → Bool) (k : K) (s : HashMapImpl K V)
    (ptrs : List Ptr) (entries : List (K × V)) : Bool → Completion → HashMapImpl K V → Prop
  | absent (hk : k ∉ entries.map Prod.fst) : Removed hash memory k s ptrs entries false .normal s
  | unlinked (l₁ l₂ A B : List Ptr) (a p b : Ptr) (i : ℕ) (hptrs : ptrs = l₁ ++ p :: l₂)
      (hA : s.m_head :: l₁ = A ++ [a]) (hB : l₂ ++ [s.m_tail] = b :: B)
      (hkey : (s.heap p).key = some k) (r : Completion) (s' : HashMapImpl K V)
      (hr : r = .outOfMemory → ∃ c, memory c = false) (same : SameBuckets (unlinked a p b i s) s')
      (planned : s'.m_capacity = s.m_capacity ∧ s'.m_deleteCount = s.m_deleteCount + 1 ∨
        shouldShrink s.m_capacity (s.m_keyCount - 1) = true ∧
          nextCapacity s.m_capacity (uint32 (s.m_keyCount - 1)) = some s'.m_capacity ∧
          s'.m_deleteCount = 0)
      (inv : Inv hash s' (l₁ ++ l₂) (eraseEntry k entries)) :
      Removed hash memory k s ptrs entries true r s'

theorem remove_eq (memory : ℕ → Bool) (inv : Inv hash s ptrs entries)
    (hfind : findBucket hash s k = some (some i)) :
    ∃ l₁ l₂ A B a p b, ptrs = l₁ ++ p :: l₂ ∧ s.m_head :: l₁ = A ++ [a] ∧
      l₂ ++ [s.m_tail] = b :: B ∧ (s.heap p).key = some k ∧ slotAt s.m_buffer i = .bucket p ∧
      remove hash memory k s = if shouldShrink s.m_capacity (s.m_keyCount - 1) then
          (rehash hash memory .AfterRemoval (unlinked a p b i s)).map fun x => (true, x)
        else some (true, .normal, unlinked a p b i s) := by
  obtain ⟨p, hp, hslot, hkey⟩ := inv.findBucket_spec hfind
  obtain ⟨l₁, l₂, rfl⟩ := append_of_mem hp
  obtain ⟨A, a, b, B, hA, hB⟩ := exists_around s.m_head s.m_tail l₁ l₂
  obtain ⟨hap, hpb⟩ := links_around inv.listed hA hB
  refine ⟨l₁, l₂, A, B, a, p, b, rfl, hA, hB, hkey, hslot, ?_⟩
  rw [remove, hfind]
  simp only [unlink_eq hslot hpb.1 hap.2, Option.bind_eq_bind, Option.bind_some]
  show (if shouldShrink s.m_capacity (s.m_keyCount - 1) = true then _ else _) = _
  split_ifs
  · cases rehash hash memory .AfterRemoval (Operations.unlinked a p b i s) <;> rfl
  · rfl

omit [DecidableEq K] in
theorem capacity_ne_zero_of_mem (inv : Inv hash s ptrs entries) (hp : p ∈ ptrs) :
    s.m_capacity ≠ 0 := by
  obtain ⟨i, hi, -⟩ := inv.buffered.placed p hp
  omega

/-- **`remove`** takes out the entry with the key. -/
theorem remove_spec (inv : Inv hash s ptrs entries) {removed : Bool}
    (h : remove hash memory k s = some (removed, r, s')) :
    Removed hash memory k s ptrs entries removed r s' := by
  cases hfind : findBucket hash s k with
  | none => simp [remove, hfind] at h
  | some found =>
    cases found with
    | none =>
      obtain ⟨rfl, rfl, rfl⟩ : false = removed ∧ .normal = r ∧ s = s' := by
        simpa [remove, hfind] using h
      exact .absent (inv.findBucket_spec hfind)
    | some i =>
      obtain ⟨l₁, l₂, A, B, a, p, b, rfl, hA, hB, hkey, hslot, heq⟩ :=
        remove_eq memory inv hfind
      have inv₁ := unlinked_inv inv hA hB hkey hslot
      have hcounts := inv.counts_le
      have hcap := inv.capacity_le
      have hcap₁ : s.m_capacity ≠ 0 :=
        capacity_ne_zero_of_mem inv (mem_append_right l₁ mem_cons_self)
      have hdelete : uint32 (s.m_deleteCount + 1) = s.m_deleteCount + 1 := by
        unfold uint32
        omega
      rw [heq] at h
      split_ifs at h with hshrink
      · obtain ⟨⟨r₁, s₁⟩, hr, heq₁⟩ := Option.map_eq_some_iff.mp h
        obtain ⟨rfl, rfl, rfl⟩ : true = removed ∧ r₁ = r ∧ s₁ = s' := by simpa using heq₁
        rcases rehash_spec inv₁ hcap₁ hr with ⟨rfl, rfl, hm⟩ | ⟨rfl, inv₂, c, buffer, hnext, rfl⟩
        · exact .unlinked l₁ l₂ A B a p b i rfl hA hB hkey _ _ (fun _ => hm) ⟨rfl, rfl, rfl, rfl⟩
            (Or.inl ⟨rfl, hdelete⟩) inv₁
        · exact .unlinked l₁ l₂ A B a p b i rfl hA hB hkey _ _ (fun h => by simp at h)
            ⟨rfl, rfl, rfl, rfl⟩ (Or.inr ⟨hshrink, hnext, rfl⟩) inv₂
      · obtain ⟨rfl, rfl, rfl⟩ : true = removed ∧ .normal = r ∧ unlinked a p b i s = s' := by
          simpa using h
        exact .unlinked l₁ l₂ A B a p b i rfl hA hB hkey _ _ (fun h => by simp at h)
          ⟨rfl, rfl, rfl, rfl⟩ (Or.inl ⟨rfl, hdelete⟩) inv₁

theorem remove_returns (memory : ℕ → Bool) (inv : Inv hash s ptrs entries)
    (hroom : s.m_capacity ≠ 0 → s.m_keyCount + s.m_deleteCount < s.m_capacity)
    (hnext : s.m_capacity ≠ 0 → shouldShrink s.m_capacity (s.m_keyCount - 1) = true →
      ∃ c, nextCapacity s.m_capacity (uint32 (s.m_keyCount - 1)) = some c ∧ s.m_keyCount - 1 ≤ c)
    (k : K) : ∃ removed r s', remove hash memory k s = some (removed, r, s') := by
  obtain ⟨found, hfind⟩ := inv.findBucket_returns k hroom
  cases found with
  | none => exact ⟨false, .normal, s, by simp [remove, hfind]⟩
  | some i =>
    obtain ⟨l₁, l₂, A, B, a, p, b, rfl, hA, hB, hkey, hslot, heq⟩ :=
      remove_eq memory inv hfind
    have hcap : s.m_capacity ≠ 0 :=
      capacity_ne_zero_of_mem inv (mem_append_right l₁ mem_cons_self)
    rw [heq]
    split_ifs with hshrink
    · obtain ⟨c, hc, hle⟩ := hnext hcap hshrink
      have hc₁ : nextCapacity (unlinked a p b i s).m_capacity
          (plannedKeys .AfterRemoval (unlinked a p b i s)) = some c := by
        exact hc
      obtain ⟨r, s₁, hr⟩ := rehash_returns (unlinked_inv inv hA hB hkey hslot) hcap hc₁ hle
      rw [hr]
      exact ⟨_, _, _, rfl⟩
    · exact ⟨_, _, _, rfl⟩
end

/-! ## Clearing -/

section
/-- A bucket after `clear`. -/
def clearedBucket (head : Ptr) (b : Bucket K V) : Bucket K V :=
  ⟨none, none, some head, b.prev⟩

/-- **The loop of `clear`** clears the rest of the list. -/
theorem clearLoop_spec (head : Ptr) {tail : Ptr} {heap : Heap K V}
    (hchain : (todo ++ [tail]).IsChain fun a b => (heap a).next = some b)
    (hnodup : (todo ++ [tail]).Nodup) (hfuel : todo.length < fuel) :
    clearLoop head tail fuel (todo.headD tail) heap =
      some fun x => if x ∈ todo then clearedBucket head (heap x) else heap x := by
  induction todo generalizing heap fuel with
  | nil =>
    obtain _ | fuel := fuel
    · omega
    simp [clearLoop]
  | cons p todo ih =>
    obtain _ | fuel := fuel
    · omega
    rw [cons_append, nodup_cons] at hnodup
    have hp : p ≠ tail := fun h => hnodup.1 (by simp [h])
    have hchain' : (todo ++ [tail]).IsChain fun a b =>
        (((heap.setNext p head).makeDeleted p) a).next = some b := by
      refine isChain_of_ends (IsChain.tail hchain) fun a ha b _ hab => ?_
      have hap : a ≠ p := by
        rintro rfl
        exact hnodup.1 (mem_of_mem_dropLast ha)
      simpa [hap] using hab
    rw [headD_cons, clearLoop, if_neg hp, next_of_chain hchain, Option.bind_eq_bind,
      Option.bind_some, ih hchain' hnodup.2 (by rw [length_cons] at hfuel; omega)]
    refine congrArg some (funext fun x => ?_)
    by_cases hx : x = p
    · subst hx
      have hx' : x ∉ todo := fun h => hnodup.1 (mem_append_left _ h)
      simp [Heap.makeDeleted, Heap.modify_apply, clearedBucket, Bucket.makeDeleted]
    · simp [hx, Heap.makeDeleted, Heap.setNext, Heap.modify_apply]

/-- The buckets after `clear`. -/
def clearBuckets (heap : Heap K V) (head tail : Ptr) (ptrs : List Ptr) : Heap K V :=
  (Heap.setNext (fun x => if x ∈ ptrs then clearedBucket head (heap x) else heap x) head
    tail).setPrev tail head

@[simp] theorem next_clearBuckets (heap : Heap K V) (head tail : Ptr) (ptrs : List Ptr) (x : Ptr) :
    (clearBuckets heap head tail ptrs x).next =
      if x = head then some tail else if x ∈ ptrs then some head else (heap x).next := by
  simp only [clearBuckets, Heap.next_setPrev, Heap.next_setNext]
  split_ifs <;> rfl

@[simp] theorem key_clearBuckets (heap : Heap K V) (head tail : Ptr) (ptrs : List Ptr) (x : Ptr) :
    (clearBuckets heap head tail ptrs x).key = if x ∈ ptrs then none else (heap x).key := by
  simp only [clearBuckets, Heap.key_setPrev, Heap.key_setNext]
  split_ifs <;> rfl

/-- The map after `clear`. -/
def cleared (ptrs : List Ptr) (s : HashMapImpl K V) : HashMapImpl K V :=
  { s with
    heap := clearBuckets s.heap s.m_head s.m_tail ptrs
    m_buffer := []
    m_keyCount := 0
    m_deleteCount := 0
    m_capacity := 0 }

/-- **`clear`** returns, and leaves an empty map. -/
theorem clear_spec (inv : Inv hash s ptrs entries) :
    clear s = some (cleared ptrs s) ∧ Inv hash (cleared ptrs s) [] [] := by
  have hl := inv.listed
  have hfuel := hl.length_lt
  have hchain : (ptrs ++ [s.m_tail]).IsChain fun a b => (s.heap a).next = some b :=
    (IsChain.tail hl.chain).imp fun a b hab => hab.1
  have hloop := clearLoop_spec s.m_head hchain (nodup_cons.mp hl.nodup).2
    (show ptrs.length < s.created by omega)
  refine ⟨?_, ⟨?_, ?_, ?_, ?_, ?_, ?_, ?_, rfl, nodup_nil⟩, buffered_replicate _ 0, Or.inl rfl,
    rfl, rfl⟩
  · rw [clear, hl.next_head, Option.bind_eq_bind, Option.bind_some, hloop]
    rfl
  · refine isChain_cons_cons.mpr ⟨⟨by simp [cleared], ?_⟩, .singleton _⟩
    simp [cleared, clearBuckets]
  · simpa [cleared] using hl.head_ne_tail
  · intro p hp
    refine hl.bound p ?_
    simp only [cons_append, nil_append, mem_cons, not_mem_nil, or_false] at hp
    rcases hp with rfl | rfl <;> simp [cleared]
  · intro x q hx
    simp only [cleared, next_clearBuckets] at hx
    split_ifs at hx
    · obtain rfl : s.m_tail = q := Option.some.inj hx
      exact hl.bound _ (by simp)
    · obtain rfl : s.m_head = q := Option.some.inj hx
      exact hl.bound _ (by simp)
    · exact hl.closed x q hx
  · have : s.m_head ∉ ptrs := fun h => hl.ne_head h rfl
    simp [cleared, hl.head_key]
  · have : s.m_tail ∉ ptrs := fun h => hl.ne_tail h rfl
    simp [cleared, hl.tail_key]
  · have : s.m_tail ∉ ptrs := fun h => hl.ne_tail h rfl
    simp [cleared, this, hl.tail_next, hl.head_ne_tail.symm]
end

/-! ## Cloning -/

section
/-- **The loop of the cloning constructor** adds the rest of the list, without rehashing if the
buffer is large enough from the start. -/
theorem cloneLoop_spec (memory : ℕ → Bool) {base : Heap K V} {tail : Ptr} {rest : List (K × V)}
    (hchain : (todo ++ [tail]).IsChain (Adjacent base)) (htail : (base tail).key = none)
    (hend : (base tail).next = none) (hholds : todo.map (contents base) = rest.map stored)
    (hfuel : todo.length + 1 < fuel) (inv : Inv hash s ptrs entries)
    (hkeys : ((entries ++ rest).map Prod.fst).Nodup) (hcap : s.m_capacity ≠ 0)
    (hdelete : s.m_deleteCount = 0) (hroom : 2 * (entries ++ rest).length < s.m_capacity) :
    ∃ s' ptrs', cloneLoop hash memory base fuel (some (todo.headD tail)) s = some (.normal, s') ∧
      Inv hash s' ptrs' (entries ++ rest) ∧ s'.m_capacity = s.m_capacity ∧
      s'.m_deleteCount = 0 := by
  induction todo generalizing rest fuel s ptrs entries with
  | nil =>
    obtain ⟨fuel, rfl⟩ : ∃ n, fuel = n + 2 := ⟨fuel - 2, by simp at hfuel; omega⟩
    obtain rfl : rest = [] := by simpa using hholds.symm
    refine ⟨s, ptrs, ?_, by simpa using inv, rfl, hdelete⟩
    simp [cloneLoop, htail, hend]
  | cons p todo ih =>
    obtain _ | fuel := fuel
    · omega
    obtain ⟨⟨k, v⟩, rest', rfl, hkv, hrest⟩ := map_eq_cons_iff.mp hholds.symm
    have hkey : (base p).key = some k := (congrArg Prod.fst hkv).symm
    have hvalue : (base p).value = some v := (congrArg Prod.snd hkv).symm
    have hnext := next_of_chain (hchain.imp fun _ _ h => h.1)
    have happ : entries ++ (k, v) :: rest' = entries ++ [(k, v)] ++ rest' := by simp
    have hk : k ∉ entries.map Prod.fst := by
      intro hmem
      rw [map_append, nodup_append] at hkeys
      exact hkeys.2.2 k hmem k (by simp) rfl
    have hcount := inv.keyCount
    simp only [length_append, length_cons] at hroom
    have hkeep : shouldRehash s.m_capacity (uint32 (s.m_keyCount + 1)) s.m_deleteCount = false := by
      unfold shouldRehash uint32
      rw [decide_eq_false_iff_not]
      omega
    obtain ⟨i, hadd, inv₁⟩ := addNormalizedInternal_room memory v inv hcap
      (by omega) hkeep hk
    obtain ⟨s', ptrs', hloop, inv', hcap', hdelete'⟩ := ih (IsChain.tail hchain) hrest.symm
      (show todo.length + 1 < fuel by rw [length_cons] at hfuel; omega) inv₁ (happ ▸ hkeys)
      hcap hdelete
      (by simp only [length_append, length_cons, length_nil]
          show _ < s.m_capacity
          omega)
    refine ⟨s', ptrs', ?_, happ ▸ inv', hcap', hdelete'⟩
    rw [headD_cons, cloneLoop]
    simp only [hkey, hvalue, hadd, hnext]
    exact hloop

/-- **`clone`** has the same entries, in a table with room for them. -/
theorem clone_spec (memory : ℕ → Bool) (inv : Inv hash s ptrs entries)
    (hcount : 2 * s.m_keyCount + 1 ≤ 2 ^ 31) :
    (clone hash memory s = some none ∧ ∃ c, memory c = false) ∨
    ∃ s' ptrs', clone hash memory s = some (some s') ∧ Inv hash s' ptrs' entries ∧
      2 * s'.m_keyCount < s'.m_capacity ∧ s'.m_deleteCount = 0 := by
  have hl := inv.listed
  have hfuel := hl.length_lt
  obtain ⟨e, he, he', hpow⟩ : ∃ e, 2 ≤ e ∧ e ≤ 31 ∧
      max (roundUpToPowerOfTwo (2 * s.m_keyCount + 1)) hashMapInitialCapacity = 2 ^ e := by
    refine ⟨max (clog 2 (2 * s.m_keyCount + 1)) 2, le_max_right _ _, max_le ?_ (by decide), ?_⟩
    · exact (clog_le_iff_le_pow (by decide)).mpr hcount
    · rw [roundUpToPowerOfTwo, hashMapInitialCapacity,
        (pow_right_mono₀ (show 1 ≤ 2 by decide)).map_max]
      norm_num
  have hroom : 2 * s.m_keyCount + 1 ≤ 2 ^ e := by
    rw [← hpow]
    exact (le_pow_clog (by decide) _).trans (le_max_left _ _)
  rw [clone, makeAndSetNewBuffer, if_neg (by omega), hpow]
  by_cases hmemory : memory (2 ^ e) = true
  · right
    have inv₀ := inv_initial (inv_create (V := V) hash) rfl he he'
    obtain ⟨s', ptrs', hloop, inv', hcap', hdelete'⟩ := cloneLoop_spec memory
      (IsChain.tail hl.chain) hl.tail_key hl.tail_next hl.holds
      (show ptrs.length + 1 < s.created + 1 by omega) inv₀ hl.keys (Nat.two_pow_pos e).ne' rfl
      (show 2 * ([] ++ entries).length < 2 ^ e by
        rw [nil_append, ← inv.keyCount]
        omega)
    refine ⟨s', ptrs', ?_, inv', ?_, hdelete'⟩
    · rw [if_pos hmemory, hl.next_head]
      simp only [hloop]
      rfl
    · rwa [hcap', inv'.keyCount, nil_append, ← inv.keyCount]
  · left
    rw [if_neg hmemory]
    exact ⟨rfl, _, by simpa using hmemory⟩
end

end JscAndroid.HashMap.Operations
