import JscAndroid.HashMap.Operations
import JscAndroid.Walks.Runs

/-!
# The hash map is a finite map

Calls to one map, each with its own answers of the allocator, against a list of entries in insertion
order. The load of the table is kept below one half, which is why probes end; this fails once
`8 * keyCount` overflows.
-/

namespace JscAndroid.HashMap.FiniteMap

open Walks.FirstHit Walks.Runs Impl Invariant Operations
open List hiding isEmpty

variable {K V : Type} [DecidableEq K]
variable {r : Completion} {s : HashMapImpl ℕ ℕ} {ptrs : List Ptr} {hash : K → ℕ}
variable {entries : List (K × V)}

/-! ## Calls -/

inductive Operation (K V : Type)
  | has (key : K)
  | get (key : K)
  | add (key : K) (value : V)
  | remove (key : K)
  | clear
  | clone

/-- A call, and what the allocator says to each capacity during it. -/
structure Call (K V : Type) where
  operation : Operation K V
  memory : ℕ → Bool

variable {calls : List (Call K V)}

inductive Answer (V : Type)
  | has (found : Bool)
  | get (value : Option V)
  | add (completion : Completion)
  | remove (removed : Bool) (completion : Completion)
  | clear
  | clone (completion : Completion)

/-- One call; after `clone` the calls go on with the new map. -/
def perform (hash : K → ℕ) (call : Call K V) (s : HashMapImpl K V) :
    Option (Answer V × HashMapImpl K V) :=
  match call.operation with
  | .has key => (has hash s key).map fun found => (.has found, s)
  | .get key => (get hash s key).map fun value => (.get value, s)
  | .add key value => (add hash call.memory key value s).map fun x => (.add x.1, x.2)
  | .remove key => (remove hash call.memory key s).map fun x => (.remove x.1 x.2.1, x.2.2)
  | .clear => (clear s).map fun s => (.clear, s)
  | .clone => (clone hash call.memory s).map fun
    | none => (.clone .outOfMemory, s)
    | some s' => (.clone .normal, s')

/-! ## The finite map -/

def lookup (k : K) (entries : List (K × V)) : Option V :=
  (entries.find? fun e => e.1 = k).map Prod.snd

/-- The answers a finite map may give to a call, with the map after it; running out of memory is an
answer only when an allocation was refused. -/
inductive MapAnswers : Call K V → List (K × V) → Answer V → List (K × V) → Prop
  | has (memory : ℕ → Bool) (k : K) (entries : List (K × V)) :
      MapAnswers ⟨.has k, memory⟩ entries (.has (k ∈ entries.map Prod.fst)) entries
  | get (memory : ℕ → Bool) (k : K) (entries : List (K × V)) :
      MapAnswers ⟨.get k, memory⟩ entries (.get (lookup k entries)) entries
  | add (memory : ℕ → Bool) (k : K) (v : V) (entries : List (K × V)) :
      MapAnswers ⟨.add k v, memory⟩ entries (.add .normal) (insertEntry k v entries)
  | addOutOfMemory (memory : ℕ → Bool) (k : K) (v : V) (entries : List (K × V))
      (refused : ∃ c, memory c = false) :
      MapAnswers ⟨.add k v, memory⟩ entries (.add .outOfMemory) entries
  | remove (memory : ℕ → Bool) (k : K) (entries : List (K × V)) (r : Completion)
      (refused : r = .outOfMemory → ∃ c, memory c = false) :
      MapAnswers ⟨.remove k, memory⟩ entries (.remove (k ∈ entries.map Prod.fst) r)
        (eraseEntry k entries)
  | clear (memory : ℕ → Bool) (entries : List (K × V)) :
      MapAnswers ⟨.clear, memory⟩ entries .clear []
  | clone (memory : ℕ → Bool) (entries : List (K × V)) :
      MapAnswers ⟨.clone, memory⟩ entries (.clone .normal) entries
  | cloneOutOfMemory (memory : ℕ → Bool) (entries : List (K × V))
      (refused : ∃ c, memory c = false) :
      MapAnswers ⟨.clone, memory⟩ entries (.clone .outOfMemory) entries

/-- The map holds the entries, and every lookup finds what is there. -/
structure Sound (hash : K → ℕ) (s : HashMapImpl K V) (entries : List (K × V)) : Prop where
  list : ∃ ptrs, Listed s.heap s.created s.m_head s.m_tail ptrs entries ∧
    (∀ i p, slotAt s.m_buffer i = .bucket p → p ∈ ptrs) ∧
    ∀ p ∈ ptrs, ∀ k, (s.heap p).key = some k →
      ∃ i, findBucket hash s k = some (some i) ∧ slotAt s.m_buffer i = .bucket p
  keyCount : s.m_keyCount = entries.length
  deleteCount : s.m_deleteCount = s.m_buffer.countP isDeleted
  load : s.m_capacity ≠ 0 → 2 * (s.m_keyCount + s.m_deleteCount) < s.m_capacity
  probes : ∀ k, ∃ r, findBucket hash s k = some r

/-! ## The load -/

/-- Less than half of the buffer is in use. -/
def Light (s : HashMapImpl K V) : Prop :=
  s.m_capacity ≠ 0 → 2 * (s.m_keyCount + s.m_deleteCount) < s.m_capacity

/-- As long as `8 * keyCount` does not overflow. -/
def Few (entries : List (K × V)) : Prop := entries.length < 2 ^ 29

section
/-- The new capacity before an addition leaves more than half of the buffer empty. -/
theorem nextCapacity_light {capacity k c : ℕ} (hcap : 4 ≤ capacity) (hk : k < 2 ^ 29)
    (hload : 2 * k < capacity + 2) (h : nextCapacity capacity k = some c) : 2 * k < c := by
  have h8 : uint32 (8 * k) = 8 * k := uint32_of_lt (by omega)
  have h3 : uint32 (3 * k) = 3 * k := uint32_of_lt (by omega)
  unfold nextCapacity shouldShrink hashMapInitialCapacity at h
  simp only [decide_eq_true_eq] at h
  split_ifs at h with h1 h2 h3 h4
  all_goals
    obtain rfl := Option.some.inj h
    omega

/-- There is a new capacity before an addition, and it has room for the keys that are there. -/
theorem nextCapacity_returns {capacity k : ℕ} (hcap : capacity ≤ 2 ^ 31) (hk : k < 2 ^ 29)
    (hload : 2 * (k + 1) ≤ capacity) :
    ∃ c, nextCapacity capacity (uint32 (k + 1)) = some c ∧ k < c := by
  have h3 : uint32 (3 * (k + 1)) = 3 * (k + 1) := uint32_of_lt (by omega)
  rw [nextCapacity, uint32_of_lt (show k + 1 < 2 ^ 32 by omega)]
  split_ifs with h1 h2 h3 h4
  · omega
  · exact ⟨_, rfl, by omega⟩
  · exact ⟨_, rfl, by omega⟩
  · exact ⟨_, rfl, by omega⟩
  · omega

theorem nextCapacity_shrinks {capacity k : ℕ} (hcap : capacity ≠ 0)
    (hshrink : shouldShrink capacity (uint32 k) = true) :
    nextCapacity capacity (uint32 k) = some (capacity / 2) := by
  rw [nextCapacity, if_neg hcap, if_pos hshrink]

theorem shouldShrink_le {capacity k : ℕ} (hk : k < 2 ^ 29) (h : shouldShrink capacity k = true) :
    8 * k ≤ capacity ∧ 4 < capacity := by
  have := of_decide_eq_true h
  unfold uint32 hashMapInitialCapacity at this
  omega
end

section
variable {hash : K → ℕ} {s s' : HashMapImpl K V} {ptrs : List Ptr} {entries : List (K × V)}
variable {memory : ℕ → Bool} {k : K} {v : V}

omit [DecidableEq K] in
theorem room_of_light (light : Light s) :
    s.m_capacity ≠ 0 → s.m_keyCount + s.m_deleteCount < s.m_capacity := fun hcap => by
  have := light hcap
  omega

section
variable (inv : Inv hash s ptrs entries)
include inv

omit [DecidableEq K] in
theorem succ_keyCount_le (light : Light s)
    (hcap : s.m_capacity ≠ 0) : 2 * (s.m_keyCount + 1) ≤ s.m_capacity := by
  obtain ⟨e, he, -, hpow⟩ := inv.power.resolve_left hcap
  obtain ⟨e, rfl⟩ : ∃ n, e = n + 1 := ⟨e - 1, by omega⟩
  have := light hcap
  omega

theorem lookup_of_live {p : Ptr} (hp : p ∈ ptrs)
    (hkey : (s.heap p).key = some k) : (s.heap p).value = lookup k entries := by
  obtain ⟨l₁, l₂, rfl⟩ := append_of_mem hp
  have hholds := inv.listed.holds
  rw [map_append] at hholds
  obtain ⟨e₁, e', rfl, -, h'⟩ := map_eq_append_iff.mp hholds.symm
  obtain ⟨⟨k', v⟩, e₂, rfl, hkv, -⟩ := map_eq_cons_iff.mp h'
  have hk : (s.heap p).key = some k' := (congrArg Prod.fst hkv).symm
  have hv : (s.heap p).value = some v := (congrArg Prod.snd hkv).symm
  obtain rfl : k' = k := Option.some.inj (hk.symm.trans hkey)
  have hkeys := inv.listed.keys
  rw [map_append, nodup_append] at hkeys
  have hnone : e₁.find? (fun e => e.1 = k') = none := by
    refine find?_eq_none.mpr fun e he => ?_
    have : e.1 ≠ k' := hkeys.2.2 e.1 (mem_map_of_mem he) k' (by simp)
    simpa using this
  rw [lookup, find?_append, hnone, hv]
  simp

omit inv in
theorem lookup_of_not_mem (hk : k ∉ entries.map Prod.fst) : lookup k entries = none := by
  rw [lookup, Option.map_eq_none_iff, find?_eq_none]
  intro e he
  have : e.1 ≠ k := fun h => hk (h ▸ mem_map_of_mem he)
  simpa using this

theorem has_spec {found : Bool} (h : has hash s k = some found) :
    found = decide (k ∈ entries.map Prod.fst) := by
  obtain ⟨r, hr, h⟩ := Option.bind_eq_some_iff.mp h
  obtain rfl : r.isSome = found := Option.some.inj h
  cases r with
  | none => simpa using inv.findBucket_spec hr
  | some i =>
    obtain ⟨p, hp, -, hkey⟩ := inv.findBucket_spec hr
    have := inv.listed.mem_keys.mpr ⟨p, hp, hkey⟩
    simpa using this

theorem get_spec {value : Option V} (h : get hash s k = some value) : value = lookup k entries := by
  obtain ⟨r, hr, h⟩ := Option.bind_eq_some_iff.mp h
  cases r with
  | none =>
    obtain rfl : none = value := by simpa using h
    exact (lookup_of_not_mem (inv.findBucket_spec hr)).symm
  | some i =>
    obtain ⟨p, hp, hslot, hkey⟩ := inv.findBucket_spec hr
    obtain rfl : (s.heap p).value = value := by simpa [hslot] using h
    exact lookup_of_live inv hp hkey

theorem light_of_added (light : Light s)
    (hfew : Few (insertEntry k v entries)) (added : Added hash memory k v s ptrs entries r s') :
    Light s' := by
  cases added with
  | outOfMemory => exact light
  | updated => exact light
  | appended hk s₁ i same planned inv' =>
    intro hcap
    have hfew' : s.m_keyCount + 1 < 2 ^ 29 := by
      rwa [Few, insertEntry, if_neg hk, length_append, ← inv.keyCount] at hfew
    have huint : uint32 (s.m_keyCount + 1) = s.m_keyCount + 1 := uint32_of_lt (by omega)
    have hkeys : (appendEntry k v i s₁).m_keyCount = s.m_keyCount + 1 := by
      rw [inv'.keyCount, length_append, ← inv.keyCount]
      rfl
    have hcap_le := inv.capacity_le
    rw [hkeys]
    show 2 * (s.m_keyCount + 1 + s₁.m_deleteCount) < s₁.m_capacity
    rcases planned with ⟨hkeep, hc, hd⟩ | ⟨-, hnext, hd⟩
    · have hcap' : s.m_capacity ≠ 0 := hc ▸ hcap
      have := light hcap'
      have hkeep' := of_decide_eq_false hkeep
      unfold uint32 at hkeep'
      omega
    · rw [huint] at hnext
      by_cases hcap' : s.m_capacity = 0
      · have hzero := inv.counts_le
        rw [nextCapacity, hashMapInitialCapacity, if_pos hcap'] at hnext
        have := Option.some.inj hnext
        omega
      · have := light hcap'
        have := nextCapacity_light (inv.four_le hcap') hfew' (by omega) hnext
        omega

theorem light_of_removed (light : Light s) (hfew : Few entries)
    {removed : Bool} (h : Removed hash memory k s ptrs entries removed r s') : Light s' := by
  cases h with
  | absent => exact light
  | unlinked l₁ l₂ A B a p b i hptrs hA hB hkey r s' hr same planned inv' =>
    intro hcap
    rw [Few, ← inv.keyCount] at hfew
    have hlen := inv'.listed.length_eq
    have hlen' := inv.listed.length_eq
    rw [hptrs, length_append, length_cons, ← inv.keyCount] at hlen'
    rw [length_append, ← inv'.keyCount] at hlen
    have hcap' : s.m_capacity ≠ 0 :=
      capacity_ne_zero_of_mem inv (hptrs ▸ mem_append_right l₁ mem_cons_self)
    have := light hcap'
    rcases planned with ⟨hc, hd⟩ | ⟨hshrink, hnext, hd⟩
    · omega
    · have huint : uint32 (s.m_keyCount - 1) = s.m_keyCount - 1 := uint32_of_lt (by omega)
      obtain ⟨h8, h4⟩ := shouldShrink_le (by omega) hshrink
      rw [nextCapacity_shrinks hcap' (by rw [huint]; exact hshrink)] at hnext
      have := Option.some.inj hnext
      omega

theorem entries_of_added (added : Added hash memory k v s ptrs entries r s') :
    ∃ ptrs' entries', MapAnswers ⟨.add k v, memory⟩ entries (.add r) entries' ∧
      Inv hash s' ptrs' entries' := by
  cases added with
  | outOfMemory refused => exact ⟨ptrs, entries, .addOutOfMemory memory k v entries refused, inv⟩
  | updated p hp hkey inv' =>
    have hk : k ∈ entries.map Prod.fst := inv.listed.mem_keys.mpr ⟨p, hp, hkey⟩
    refine ⟨ptrs, insertEntry k v entries, .add memory k v entries, ?_⟩
    rwa [insertEntry, if_pos hk]
  | appended hk s₁ i same planned inv' =>
    refine ⟨ptrs ++ [s.m_tail], insertEntry k v entries, .add memory k v entries, ?_⟩
    rwa [insertEntry, if_neg hk]

theorem entries_of_removed {removed : Bool}
    (h : Removed hash memory k s ptrs entries removed r s') :
    ∃ ptrs', MapAnswers ⟨.remove k, memory⟩ entries (.remove removed r) (eraseEntry k entries) ∧
      Inv hash s' ptrs' (eraseEntry k entries) := by
  cases h with
  | absent hk =>
    have answers := MapAnswers.remove memory k entries .normal (fun h => by simp at h)
    rw [decide_eq_false hk] at answers
    refine ⟨ptrs, answers, ?_⟩
    rwa [eraseEntry_of_not_mem hk]
  | unlinked l₁ l₂ A B a p b i hptrs hA hB hkey r s' hr same planned inv' =>
    have hk : k ∈ entries.map Prod.fst := inv.listed.mem_keys.mpr ⟨p, by simp [hptrs], hkey⟩
    have answers := MapAnswers.remove memory k entries r hr
    rw [decide_eq_true hk] at answers
    exact ⟨_, answers, inv'⟩
end

end

/-! ## Runs -/

/-- The entries are in the map, and it is light. -/
def Holds (hash : K → ℕ) (s : HashMapImpl K V) (entries : List (K × V)) : Prop :=
  (∃ ptrs, Inv hash s ptrs entries) ∧ Light s

theorem sound_of_holds {s : HashMapImpl K V} (h : Holds hash s entries) : Sound hash s entries := by
  obtain ⟨⟨ptrs, inv⟩, light⟩ := h
  exact ⟨⟨ptrs, inv.listed, inv.buffered.only, fun p hp k hkey => inv.findBucket_live hp hkey⟩,
    inv.keyCount,
    inv.deleteCount, light, fun k => inv.findBucket_returns k (room_of_light light)⟩

/-- **One call** returns, answers as the finite map does, and keeps the invariant, as long as there
are few keys. -/
theorem perform_holds (call : Call K V) (s : HashMapImpl K V) (entries : List (K × V))
    (h : Holds hash s entries) (hfew : Few entries)
    (hnext : ∀ a entries', MapAnswers call entries a entries' → Few entries') :
    ∃ a s' entries', perform hash call s = some (a, s') ∧ MapAnswers call entries a entries' ∧
      Holds hash s' entries' := by
  obtain ⟨⟨ptrs, inv⟩, light⟩ := h
  obtain ⟨operation, memory⟩ := call
  have hroom := room_of_light light
  have hkeys : s.m_keyCount < 2 ^ 29 := by rw [inv.keyCount]; exact hfew
  have hcap_le := inv.capacity_le
  cases operation with
  | has k =>
    obtain ⟨r, hr⟩ := inv.findBucket_returns k hroom
    have hhas : has hash s k = some r.isSome := by simp [has, hr]
    refine ⟨.has r.isSome, s, entries, by simp [perform, hhas], ?_, ⟨ptrs, inv⟩, light⟩
    rw [has_spec inv hhas]
    exact .has memory k entries
  | get k =>
    obtain ⟨r, hr⟩ := inv.findBucket_returns k hroom
    obtain ⟨value, hget⟩ : ∃ value, get hash s k = some value := by simp [Impl.get, hr]
    refine ⟨.get value, s, entries, by simp [perform, hget], ?_, ⟨ptrs, inv⟩, light⟩
    rw [get_spec inv hget]
    exact .get memory k entries
  | add k v =>
    have hgrow : s.m_capacity ≠ 0 → _ := fun hcap =>
      nextCapacity_returns hcap_le hkeys (succ_keyCount_le inv light hcap)
    obtain ⟨r, s', hadd⟩ := add_returns memory inv hroom (fun hcap _ => hgrow hcap) k v
    have added := add_spec inv hadd
    obtain ⟨ptrs', entries', answers, inv'⟩ := entries_of_added inv added
    exact ⟨.add r, s', entries', by simp [perform, hadd], answers, ⟨ptrs', inv'⟩,
      light_of_added inv light (hnext _ _ (.add memory k v entries)) added⟩
  | remove k =>
    have hshrink : s.m_capacity ≠ 0 → shouldShrink s.m_capacity (s.m_keyCount - 1) = true →
        ∃ c, nextCapacity s.m_capacity (uint32 (s.m_keyCount - 1)) = some c ∧
          s.m_keyCount - 1 ≤ c := by
      intro hcap h
      have huint : uint32 (s.m_keyCount - 1) = s.m_keyCount - 1 := uint32_of_lt (by omega)
      have := light hcap
      exact ⟨_, nextCapacity_shrinks hcap (by rw [huint]; exact h), by omega⟩
    obtain ⟨removed, r, s', hremove⟩ := remove_returns memory inv hroom hshrink k
    have h := remove_spec inv hremove
    obtain ⟨ptrs', answers, inv'⟩ := entries_of_removed inv h
    exact ⟨.remove removed r, s', _, by simp [perform, hremove], answers, ⟨ptrs', inv'⟩,
      light_of_removed inv light hfew h⟩
  | clear =>
    obtain ⟨hclear, inv'⟩ := clear_spec inv
    refine ⟨.clear, _, [], by simp [perform, hclear], .clear memory entries, ⟨[], inv'⟩, ?_⟩
    intro hcap
    exact absurd rfl hcap
  | clone =>
    rcases clone_spec memory inv (by omega) with
      ⟨hclone, refused⟩ | ⟨s', ptrs', hclone, inv', hload, hdelete⟩
    · exact ⟨.clone .outOfMemory, s, entries, by simp [perform, hclone],
        .cloneOutOfMemory memory entries refused, ⟨ptrs, inv⟩, light⟩
    · refine ⟨.clone .normal, s', entries, by simp [perform, hclone], .clone memory entries,
        ⟨ptrs', inv'⟩, fun _ => ?_⟩
      rwa [hdelete]

omit [DecidableEq K] in
theorem holds_create (hash : K → ℕ) : Holds hash (create : HashMapImpl K V) [] :=
  ⟨⟨[], inv_create hash⟩, fun hcap => absurd rfl hcap⟩

/-- **Every run with few keys** returns, answers as the finite map does, and leaves a map that is
sound. -/
theorem few_keys_run_sound (hash : K → ℕ) (calls : List (Call K V))
    (hfew : Stays MapAnswers Few calls []) :
    ∃ answers s entries, run (perform hash) calls create = some (answers, s) ∧
      Follows MapAnswers calls [] answers entries ∧ Sound hash s entries := by
  obtain ⟨answers, s, entries, hrun, hfollows, holds⟩ :=
    run_returns perform_holds (holds_create hash) hfew
  exact ⟨answers, s, entries, hrun, hfollows, sound_of_holds holds⟩

theorem length_of_answers {call : Call K V} {entries' : List (K × V)} {a : Answer V}
    (h : MapAnswers call entries a entries') : entries'.length ≤ entries.length + 1 := by
  cases h with
  | add memory k v =>
    unfold insertEntry setEntry
    split_ifs <;> simp
  | remove memory k =>
    exact (length_filter_le _ _).trans (Nat.le_succ _)
  | _ => simp

theorem length_of_follows {entries' : List (K × V)} {answers : List (Answer V)}
    (h : Follows MapAnswers calls entries answers entries') :
    entries'.length ≤ entries.length + calls.length := by
  induction h with
  | nil => simp
  | cons head _ ih =>
    have := length_of_answers head
    rw [length_cons]
    omega

theorem stays_few (h : calls.length < 2 ^ 29) : Stays MapAnswers Few calls [] := by
  intro front answers entries hfront hfollows
  have h₁ := length_of_follows hfollows
  have h₂ := hfront.length_le
  unfold Few
  rw [length_nil] at h₁
  omega

/-- Two keys with the same hash, one of them removed while an allocation is refused. -/
theorem few_keys_run_sound_collision : ∃ answers s entries, run (perform fun _ : ℕ => 3)
      ([⟨.add 1 10, fun _ => true⟩, ⟨.add 2 20, fun _ => true⟩, ⟨.remove 1, fun _ => false⟩] :
        List (Call ℕ ℕ)) create = some (answers, s) ∧
      Follows MapAnswers [⟨.add 1 10, fun _ => true⟩, ⟨.add 2 20, fun _ => true⟩,
        ⟨.remove 1, fun _ => false⟩] [] answers entries ∧ Sound (fun _ => 3) s entries :=
  few_keys_run_sound (fun _ => 3) _ (stays_few (by decide))

/-! ## Too many keys -/

section
/-- Add the first keys, without a failure. -/
def addAll (n : ℕ) : List (Call ℕ ℕ) := (List.range n).map fun k => ⟨.add k k, fun _ => true⟩

def allEntries (n : ℕ) : List (ℕ × ℕ) := (List.range n).map fun k => (k, k)

theorem keys_allEntries (n : ℕ) : (allEntries n).map Prod.fst = List.range n := by
  rw [allEntries, map_map]
  exact map_id _

theorem keyCount_allEntries {n : ℕ} (inv : Inv id s ptrs (allEntries n)) : s.m_keyCount = n := by
  rw [inv.keyCount, allEntries, length_map, length_range]

theorem perform_next {n : ℕ} {answers : List (Answer ℕ)} (inv : Inv id s ptrs (allEntries n))
    (light : Light s) (hn : n < 2 ^ 29)
    (hrun : run (perform id) (addAll n) create = some (answers, s)) :
    ∃ a s' ptrs', run (perform id) (addAll (n + 1)) create = some (answers ++ [a], s') ∧
      Inv id s' ptrs' (allEntries (n + 1)) ∧
      ∃ s₁ : HashMapImpl ℕ ℕ, Planned s s₁ ∧ s'.m_capacity = s₁.m_capacity ∧
        s'.m_deleteCount = s₁.m_deleteCount := by
  have hkeyCount := keyCount_allEntries inv
  have hnot : n ∉ (allEntries n).map Prod.fst := by
    rw [keys_allEntries]
    simp
  obtain ⟨r, s', hadd⟩ := add_returns (fun _ => true) inv (room_of_light light)
    (fun hcap _ => nextCapacity_returns inv.capacity_le (hkeyCount ▸ hn)
      (succ_keyCount_le inv light hcap)) n n
  have hperform : perform id ⟨.add n n, fun _ => true⟩ s = some (.add r, s') := by
    simp [perform, hadd]
  cases add_spec inv hadd with
  | outOfMemory refused =>
    obtain ⟨c, hc⟩ := refused
    simp at hc
  | updated p hp hkey => exact absurd (inv.listed.mem_keys.mpr ⟨p, hp, hkey⟩) hnot
  | appended hk s₁ i same planned inv' =>
    refine ⟨.add .normal, appendEntry n n i s₁, ptrs ++ [s.m_tail], ?_, ?_, s₁, planned, rfl, rfl⟩
    · rw [addAll, range_succ, map_append]
      exact run_concat hrun hperform
    · rwa [allEntries, range_succ, map_append]

theorem addAll_run (n : ℕ) (hn : n < 2 ^ 29) :
    ∃ answers s ptrs, run (perform id) (addAll n) create = some (answers, s) ∧
      Inv id s ptrs (allEntries n) ∧ Light s ∧ s.m_deleteCount = 0 ∧
      s.m_capacity ≤ max 4 (4 * n) ∧ (n ≠ 0 → s.m_capacity ≠ 0) := by
  induction n with
  | zero =>
    exact ⟨[], create, [], rfl, inv_create id, fun hcap => absurd rfl hcap, rfl, Nat.zero_le _,
      fun h => absurd rfl h⟩
  | succ n ih =>
    obtain ⟨answers, s, ptrs, hrun, inv, light, hdelete, hcap, hcap'⟩ := ih (by omega)
    obtain ⟨a, s', ptrs', hrun', inv', s₁, planned, hcap₁, hdelete₁⟩ :=
      perform_next inv light (by omega) hrun
    have hk := keyCount_allEntries inv
    have hk' := keyCount_allEntries inv'
    have huint : uint32 (n + 1) = n + 1 := uint32_of_lt (by omega)
    refine ⟨answers ++ [a], s', ptrs', hrun', inv', ?_⟩
    rw [Planned, hk, huint] at planned
    rcases planned with ⟨hkeep, hc, hd⟩ | ⟨hfull, hnext, hd⟩
    · have hkeep' := of_decide_eq_false hkeep
      unfold uint32 at hkeep'
      refine ⟨fun _ => ?_, by omega, by omega, fun _ => ?_⟩ <;> omega
    · by_cases hzero : s.m_capacity = 0
      · rw [nextCapacity, hashMapInitialCapacity, if_pos hzero] at hnext
        have := Option.some.inj hnext
        refine ⟨fun _ => ?_, by omega, by omega, fun _ => ?_⟩ <;> omega
      · have hload := light hzero
        have hlight := nextCapacity_light (inv.four_le hzero) hn (by omega) hnext
        have hfull' := of_decide_eq_true (hfull hzero)
        unfold uint32 at hfull'
        have hdouble : s₁.m_capacity ≤ 2 * s.m_capacity := by
          unfold nextCapacity at hnext
          split_ifs at hnext
          all_goals
            obtain h := Option.some.inj hnext
            omega
        refine ⟨fun _ => ?_, by omega, by omega, fun _ => ?_⟩ <;> omega

theorem addAll_capacity {n : ℕ} (inv : Inv id s ptrs (allEntries n)) (light : Light s)
    (hn : n + 1 = 2 ^ 29) (hcap : s.m_capacity ≤ max 4 (4 * n)) (hzero : s.m_capacity ≠ 0) :
    s.m_capacity = 2 ^ 30 := by
  have hload := light hzero
  rw [keyCount_allEntries inv] at hload
  obtain ⟨e, he, he', hpow⟩ := inv.power.resolve_left hzero
  rw [hpow] at hload hcap ⊢
  have hlo : 29 < e := by
    by_contra h
    have := Nat.pow_le_pow_right (show 2 > 0 by decide) (show e ≤ 29 by omega)
    omega
  have hhi : e < 31 := by
    by_contra h
    have := Nat.pow_le_pow_right (show 2 > 0 by decide) (show 31 ≤ e by omega)
    omega
  rw [show e = 30 by omega]

/-- A lookup in a full buffer of a key that is not there never ends. -/
theorem has_of_full {s : HashMapImpl K V} {k : K} (inv : Inv hash s ptrs entries)
    (hcap : s.m_capacity ≠ 0) (hfull : s.m_keyCount = s.m_capacity)
    (hk : k ∉ entries.map Prod.fst) : has hash s k = none := by
  cases hhas : has hash s k with
  | none => rfl
  | some found =>
    obtain ⟨r, hr, -⟩ := Option.bind_eq_some_iff.mp hhas
    cases r with
    | some i =>
      obtain ⟨p, hp, -, hkey⟩ := inv.findBucket_spec hr
      exact absurd (inv.listed.mem_keys.mpr ⟨p, hp, hkey⟩) hk
    | none =>
      rw [findBucket, if_neg hcap] at hr
      obtain ⟨i, hi, hi'⟩ := Option.bind_eq_some_iff.mp hr
      obtain ⟨hlt, -, -⟩ := probe_some (inv.two_pow hcap) hi
      have hempty : isEmpty (slotAt s.m_buffer i) = true := by
        by_contra h
        simp [h] at hi'
      have hlt' : i < s.m_buffer.length := inv.buffered.size ▸ hlt
      rw [slotAt_eq hlt'] at hempty
      have hpos : 0 < s.m_buffer.countP isEmpty :=
        countP_pos_iff.mpr ⟨_, getElem_mem hlt', hempty⟩
      have hcount := length_eq_counts s.m_buffer
      rw [inv.buffered.size, inv.buffered.buckets, inv.listed.length_eq, ← inv.keyCount] at hcount
      omega

theorem overflow_at {n : ℕ} (hn : n + 1 = 2 ^ 29) :
    ∃ answers s, run (perform id) (addAll (n + 1)) create = some (answers, s) ∧
      s.m_capacity ≠ 0 ∧ ¬ 2 * (s.m_keyCount + s.m_deleteCount) < s.m_capacity ∧
      has id s (n + 1) = none := by
  obtain ⟨answers, s, ptrs, hrun, inv, light, hdelete, hcap, hzero⟩ := addAll_run n (by omega)
  have hcap30 := addAll_capacity inv light hn hcap (hzero (by omega))
  obtain ⟨a, s', ptrs', hrun', inv', s₁, planned, hcap₁, hdelete₁⟩ :=
    perform_next inv light (by omega) hrun
  have hk' := keyCount_allEntries inv'
  rw [Planned, keyCount_allEntries inv, hn, hcap30, hdelete] at planned
  have hhalf : s'.m_capacity = 2 ^ 29 := by
    rcases planned with ⟨hkeep, -⟩ | ⟨-, hnext, -⟩
    · exact absurd hkeep (by decide)
    · rw [hcap₁]
      have heq : nextCapacity (2 ^ 30) (uint32 (2 ^ 29)) = some (2 ^ 29) := by decide
      exact Option.some.inj (hnext.symm.trans heq)
  refine ⟨answers ++ [a], s', hrun', by omega, by omega, has_of_full inv' (by omega) (by omega) ?_⟩
  rw [keys_allEntries]
  simp

/-- **Adding `2 ^ 29` keys** leaves a full table, in which the lookup of another key never ends. -/
theorem overflowed_table_is_full :
    ∃ answers s, run (perform id) (addAll (2 ^ 29)) create = some (answers, s) ∧
      s.m_capacity ≠ 0 ∧ ¬ 2 * (s.m_keyCount + s.m_deleteCount) < s.m_capacity ∧
      has id s (2 ^ 29) = none := by
  obtain ⟨n, hn⟩ : ∃ n, n + 1 = 2 ^ 29 := ⟨2 ^ 29 - 1, by decide⟩
  rw [← hn]
  exact overflow_at hn
end

end JscAndroid.HashMap.FiniteMap
