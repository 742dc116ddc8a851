import JscAndroid.Wtf.MetaAllocatorSpace

/-!
# The allocator partitions its memory

Whatever is allocated, shrunk and released, the handles and the free blocks are the space that was
added, cut into pieces. The allocator works in a fixed pool: no new space can be mapped.
-/

namespace JscAndroid.Wtf.MetaAllocators

open Space.Tilings Space.Indexes RedBlackTrees MetaAllocator List Nat

variable {config : Config} {handle : MetaAllocatorHandle}

/-! ## Whole granules -/

theorem and_granules {x k : ℕ} (hx : x < 2 ^ 64) (hk : k ≤ 64) :
    x &&& (2 ^ 64 - 1 - (2 ^ k - 1)) = 2 ^ k * (x / 2 ^ k) := by
  have hlt : 2 ^ k - 1 < 2 ^ 64 := by
    have := Nat.pow_le_pow_right zero_lt_two hk
    omega
  refine eq_of_testBit_eq fun i => ?_
  rw [Nat.sub_sub, add_comm 1, testBit_and, testBit_two_pow_sub_succ hlt, testBit_two_pow_mul,
    testBit_div_two_pow]
  by_cases h64 : i < 64
  · by_cases hki : k ≤ i
    · simp [h64, hki]
    · simp [hki]
      omega
  · have hx' := testBit_lt_two_pow (hx.trans_le (Nat.pow_le_pow_right (by decide) (not_lt.mp h64)))
    by_cases hki : k ≤ i <;> simp [hki, hx']

/-- **Rounding up** gives the least number of whole granules that is enough. -/
theorem roundUp_eq_some {n size : ℕ} (h : roundUp config n = some size) :
    n ≤ size ∧ config.allocationGranule ∣ size ∧
      ∀ m, config.allocationGranule ∣ m → n ≤ m → size ≤ m := by
  have hk : config.logAllocationGranule ≤ 64 := config.logAllocationGranule_le.trans (by decide)
  have hpos : 0 < 2 ^ config.logAllocationGranule := Nat.two_pow_pos _
  unfold roundUp Config.allocationGranule at h
  split_ifs at h with hsmall
  rw [and_granules (by omega) hk] at h
  obtain rfl := Option.some.inj h
  unfold Config.allocationGranule
  refine ⟨?_, dvd_mul_right _ _, ?_⟩
  · have := div_add_mod (n + 2 ^ config.logAllocationGranule - 1) (2 ^ config.logAllocationGranule)
    omega
  · rintro m ⟨q, rfl⟩ hle
    refine mul_le_mul_left _ ?_
    rw [← Nat.lt_succ_iff, div_lt_iff_lt_mul hpos, succ_mul, mul_comm]
    omega

theorem roundUp_isSome {n : ℕ} (h : n < 2 ^ 64 - 1 - config.allocationGranule) :
    ∃ size, roundUp config n = some size :=
  ⟨_, if_neg (not_le.mpr h)⟩

/-! ## Calls -/

def MetaAllocatorHandle.interval (handle : MetaAllocatorHandle) : Interval :=
  ⟨handle.m_start, handle.m_end⟩

/-- The allocator with the handles that are alive, and the regions it has been given. -/
structure World where
  allocator : MetaAllocator
  handles : List MetaAllocatorHandle
  regions : List Interval

def World.initial : World where
  allocator := ⟨fun _ => ⟨0, 0⟩, [], .null, fun _ => none, fun _ => none, 0, 0⟩
  handles := []
  regions := []

/-- The calls; a handle is named by its place among those that are alive. -/
inductive Call
  | addFreshFreeSpace (start sizeInBytes : ℕ)
  | allocate (sizeInBytes : ℕ)
  | shrink (handle newSizeInBytes : ℕ)
  | release (handle : ℕ)

/-- No new space can be mapped. -/
def noNewSpace (_ : ℕ) : ℕ × ℕ := (0, 0)

/-- One call; `none` is a crash. -/
def World.perform (config : Config) (platform : Platform) (w : World) : Call → Option World
  | .addFreshFreeSpace start sizeInBytes =>
    some ⟨w.allocator.addFreshFreeSpace platform start sizeInBytes, w.handles,
      ⟨start, start + sizeInBytes⟩ :: w.regions⟩
  | .allocate sizeInBytes => do
    let (handle, allocator) ← w.allocator.allocate config platform noNewSpace sizeInBytes
    return ⟨allocator, handle.toList ++ w.handles, w.regions⟩
  | .shrink i newSizeInBytes => do
    let handle ← w.handles[i]?
    let (handle, allocator) ← handle.shrink config platform newSizeInBytes w.allocator
    return ⟨allocator, w.handles.set i handle, w.regions⟩
  | .release i => do
    let handle ← w.handles[i]?
    return ⟨w.allocator.release platform handle, w.handles.eraseIdx i, w.regions⟩

/-- A region of memory in whole granules: not empty, not at the end of the address space, and not at
one of the pointers 0 to 2, which are null and the two that the hash maps keep for themselves. -/
structure IsRegion (config : Config) (start sizeInBytes : ℕ) : Prop where
  start_dvd : config.allocationGranule ∣ start
  size_dvd : config.allocationGranule ∣ sizeInBytes
  size_pos : 0 < sizeInBytes
  two_lt : 2 < start
  end_lt : start + sizeInBytes < 2 ^ 64

/-- What the callers keep to. -/
def World.Allowed (config : Config) (w : World) : Call → Prop
  | .addFreshFreeSpace start sizeInBytes => IsRegion config start sizeInBytes ∧
      ∀ region ∈ w.regions, Apart ⟨start, start + sizeInBytes⟩ region
  | .allocate sizeInBytes => sizeInBytes < 2 ^ 64
  | .shrink i newSizeInBytes => ∃ handle, w.handles[i]? = some handle ∧
      newSizeInBytes ≤ handle.sizeInBytes
  | .release i => i < w.handles.length

/-- The worlds after a sequence of calls. -/
inductive Reachable (config : Config) (platform : Platform) : World → Prop
  | initial : Reachable config platform .initial
  | call {w w' : World} (call : Call) (before : Reachable config platform w)
      (allowed : w.Allowed config call) (returns : w.perform config platform call = some w') :
      Reachable config platform w'

/-! ## What the calls keep -/

structure World.Sound (config : Config) (w : World) : Prop where
  inv : w.allocator.Inv (w.handles.map MetaAllocatorHandle.interval) w.regions
  bytes : w.allocator.m_bytesAllocated = (w.handles.map MetaAllocatorHandle.sizeInBytes).sum
  handles : ∀ handle ∈ w.handles,
    handle.m_start ≤ handle.m_end ∧ config.allocationGranule ∣ handle.sizeInBytes
  regions : ∀ region ∈ w.regions, config.allocationGranule ≤ region.start ∧ 2 < region.start ∧
    region.stop + config.allocationGranule ≤ 2 ^ 64

theorem MetaAllocator.Inv.bytes {s : MetaAllocator} {used regions : List Interval}
    (h : s.Inv used regions) (allocated reserved : ℕ) :
    { s with m_bytesAllocated := allocated, m_bytesReserved := reserved }.Inv used regions :=
  ⟨⟨h.nodup, h.allocated, h.sorted, h.starts, h.ends⟩, h.partition⟩

theorem World.sound_initial (config : Config) : World.initial.Sound config where
  inv := by
    refine ⟨⟨nodup_nil, .refl _, .nil, ?_, ?_⟩, ⟨?_, ?_, fun _ => rfl, fun _ => zero_le 1⟩⟩
    all_goals simp [World.initial, free, Tree.nodes, Keyed]
  bytes := rfl
  handles _ h := absurd h not_mem_nil
  regions _ h := absurd h not_mem_nil

section
variable {config : Config} {w : World}

section
variable (platform : Platform) (h : w.Sound config)
include platform h

theorem World.Sound.addFreshFreeSpace {start sizeInBytes : ℕ}
    (hregion : IsRegion config start sizeInBytes)
    (hapart : ∀ region ∈ w.regions, Apart ⟨start, start + sizeInBytes⟩ region) :
    World.Sound config ⟨w.allocator.addFreshFreeSpace platform start sizeInBytes, w.handles,
      ⟨start, start + sizeInBytes⟩ :: w.regions⟩ := by
  have hextend : w.allocator.Inv (⟨start, start + sizeInBytes⟩ ::
      w.handles.map MetaAllocatorHandle.interval) (⟨start, start + sizeInBytes⟩ :: w.regions) :=
    ⟨h.inv.toIndexed, h.inv.partition.extend hapart⟩
  obtain ⟨hinv, hbytes⟩ := (hextend.bytes w.allocator.m_bytesAllocated
    (w.allocator.m_bytesReserved + sizeInBytes)).addFreeSpace platform hregion.size_pos
  have hpos : 0 < start := (zero_lt_succ 1).trans hregion.two_lt
  refine ⟨hinv, hbytes.trans h.bytes, h.handles, forall_mem_cons.mpr ⟨⟨?_, hregion.two_lt, ?_⟩,
    h.regions⟩⟩
  · exact le_of_dvd hpos hregion.start_dvd
  · have hdvd : config.allocationGranule ∣ 2 ^ 64 - (start + sizeInBytes) :=
      dvd_sub (pow_dvd_pow 2 (config.logAllocationGranule_le.trans (by decide)))
        (dvd_add hregion.start_dvd hregion.size_dvd)
    have hle := le_of_dvd (Nat.sub_pos_of_lt hregion.end_lt) hdvd
    have hlt := hregion.end_lt
    dsimp only
    omega

omit platform h in
theorem World.Sound.mem_space (h : w.Sound config) {piece : Interval}
    (hmem : piece ∈ w.handles.map MetaAllocatorHandle.interval) {a : ℕ} (ha : a ∈ piece) :
    ∃ region ∈ w.regions, a ∈ region := by
  refine cover_pos.mp ?_
  rw [← h.inv.partition.cover_eq]
  exact cover_pos.mpr ⟨piece, mem_append_right _ hmem, ha⟩

/-- **An allocation** gives a handle to a part of a block that was large enough; it fails if there
is none, and crashes if the size cannot be rounded. -/
theorem World.Sound.allocate (n : ℕ) :
    (n ≠ 0 ∧ roundUp config n = none ∧ w.allocator.allocate config platform noNewSpace n = none) ∨
    ((n = 0 ∨ ∃ size, roundUp config n = some size ∧
        ∀ node ∈ w.allocator.free, w.allocator.sizeInBytes node < size) ∧
      w.allocator.allocate config platform noNewSpace n = some (none, w.allocator)) ∨
    ∃ handle allocator,
      w.allocator.allocate config platform noNewSpace n = some (some handle, allocator) ∧
      roundUp config n = some handle.sizeInBytes ∧
      World.Sound config ⟨allocator, handle :: w.handles, w.regions⟩ := by
  unfold MetaAllocator.allocate
  by_cases hzero : n = 0
  · exact .inr (.inl ⟨.inl hzero, by rw [if_pos hzero]; rfl⟩)
  rw [if_neg hzero]
  cases hround : roundUp config n with
  | none => exact .inl ⟨hzero, rfl, rfl⟩
  | some size =>
    obtain ⟨hle, hdvd, -⟩ := roundUp_eq_some hround
    have hpos : 0 < size := (pos_of_ne_zero hzero).trans_le hle
    right
    rcases h.inv.findAndRemoveFreeSpace config platform hpos with
      ⟨start, s, hfind, hinv, hbytes⟩ | ⟨hfind, hsmall⟩
    swap
    · refine .inl ⟨.inr ⟨size, rfl, hsmall⟩, ?_⟩
      simp only [Option.bind_eq_bind, Option.bind_some, hfind]
      rfl
    have hstart : start ≠ 0 := by
      have hcover : 0 < cover (s.free.map s.interval ++ ⟨start, start + size⟩ ::
          w.handles.map MetaAllocatorHandle.interval) start :=
        cover_pos.mpr ⟨⟨start, start + size⟩, mem_append_right _ mem_cons_self, le_rfl,
          by dsimp only; omega⟩
      rw [hinv.partition.cover_eq] at hcover
      obtain ⟨region, hregion, hmem, -⟩ := cover_pos.mp hcover
      have := (h.regions region hregion).2.1
      omega
    have hsize : (⟨start, start + size⟩ : MetaAllocatorHandle).sizeInBytes = size :=
      Nat.add_sub_cancel_left start size
    refine .inr ⟨⟨start, start + size⟩, { s with m_bytesAllocated := s.m_bytesAllocated + size },
      ?_, by rw [hsize], ?_, ?_, ?_, h.regions⟩
    · simp only [Option.bind_eq_bind, Option.bind_some, hfind]
      rw [if_neg hstart]
      rfl
    · exact hinv.bytes _ _
    · rw [map_cons, sum_cons, ← h.bytes]
      dsimp only
      omega
    · exact forall_mem_cons.mpr ⟨⟨le_add_right _ _, hsize.symm ▸ hdvd⟩, h.handles⟩

theorem World.Sound.release {i : ℕ} (hi : w.handles[i]? = some handle) :
    World.Sound config ⟨w.allocator.release platform handle, w.handles.eraseIdx i, w.regions⟩ := by
  obtain ⟨hlt, rfl⟩ := List.getElem?_eq_some_iff.mp hi
  have hperm := getElem_cons_eraseIdx_perm hlt
  have hsum := (hperm.map MetaAllocatorHandle.sizeInBytes).sum_eq
  rw [map_cons, sum_cons, ← h.bytes] at hsum
  obtain ⟨hle, -⟩ := h.handles _ (getElem_mem hlt)
  have hpartition := h.inv.partition.perm_used (hperm.map MetaAllocatorHandle.interval)
  have hhandles : ∀ handle ∈ w.handles.eraseIdx i, _ := fun handle hmem =>
    h.handles handle (mem_of_mem_eraseIdx hmem)
  unfold MetaAllocator.release
  by_cases hsize : w.handles[i].sizeInBytes = 0
  · rw [if_neg (not_not.mpr hsize)]
    refine ⟨⟨h.inv.toIndexed, hpartition.forget ?_⟩, ?_, hhandles, h.regions⟩
    · exact Nat.sub_eq_zero_iff_le.mp hsize
    · rw [hsize, zero_add] at hsum
      exact hsum.symm
  · rw [if_pos hsize]
    have hstop : w.handles[i].m_start + w.handles[i].sizeInBytes = w.handles[i].m_end :=
      Nat.add_sub_cancel' hle
    have hused : w.allocator.Inv (⟨w.handles[i].m_start, w.handles[i].m_start +
        w.handles[i].sizeInBytes⟩ :: (w.handles.eraseIdx i).map MetaAllocatorHandle.interval)
          w.regions := by
      rw [hstop]
      exact ⟨h.inv.toIndexed, hpartition⟩
    obtain ⟨hinv, hbytes⟩ := (hused.bytes (w.allocator.m_bytesAllocated -
      w.handles[i].sizeInBytes) w.allocator.m_bytesReserved).addFreeSpace platform
        (pos_of_ne_zero hsize)
    refine ⟨hinv, hbytes.trans ?_, hhandles, h.regions⟩
    dsimp only
    omega

omit platform h in
theorem World.Sound.sizeInBytes_lt (h : w.Sound config) (hmem : handle ∈ w.handles) :
    handle.sizeInBytes < 2 ^ 64 - 1 - config.allocationGranule := by
  have hgranule : config.allocationGranule ≤ 2 ^ 32 :=
    Nat.pow_le_pow_right (by decide) config.logAllocationGranule_le
  unfold MetaAllocatorHandle.sizeInBytes
  by_cases hlt : handle.m_start < handle.m_end
  · have hpiece := mem_map_of_mem (f := MetaAllocatorHandle.interval) hmem
    obtain ⟨region, hregion, hstart, -⟩ := h.mem_space hpiece ⟨le_rfl, hlt⟩
    obtain ⟨region', hregion', -, hstop⟩ := h.mem_space hpiece (a := handle.m_end - 1)
      ⟨by dsimp only [MetaAllocatorHandle.interval]; omega, by
        dsimp only [MetaAllocatorHandle.interval]; omega⟩
    have hfirst := h.regions region hregion
    have hlast := (h.regions region' hregion').2.2
    dsimp only [MetaAllocatorHandle.interval] at hstart
    omega
  · omega

/-- **A handle shrinks**: what is behind its new end becomes free. -/
theorem World.Sound.shrink {i newSizeInBytes : ℕ}
    (hi : w.handles[i]? = some handle) (hnew : newSizeInBytes ≤ handle.sizeInBytes) :
    ∃ handle' allocator, handle.shrink config platform newSizeInBytes w.allocator =
      some (handle', allocator) ∧
      World.Sound config ⟨allocator, w.handles.set i handle', w.regions⟩ := by
  obtain ⟨hlt, rfl⟩ := List.getElem?_eq_some_iff.mp hi
  obtain ⟨hle, hdvd⟩ := h.handles _ (getElem_mem hlt)
  obtain ⟨size, hround⟩ := roundUp_isSome (hnew.trans_lt (h.sizeInBytes_lt (getElem_mem hlt)))
  obtain ⟨-, hsizeDvd, hleast⟩ := roundUp_eq_some hround
  have hsize := hleast _ hdvd hnew
  simp only [MetaAllocatorHandle.shrink, Option.bind_eq_bind, hround, Option.bind_some]
  by_cases heq : size = w.handles[i].sizeInBytes
  · rw [if_pos heq]
    refine ⟨_, _, rfl, ?_⟩
    rwa [set_getElem_self]
  rw [if_neg heq]
  have hsizeEq : w.handles[i].sizeInBytes = w.handles[i].m_end - w.handles[i].m_start := rfl
  have hperm := getElem_cons_eraseIdx_perm hlt
  have hset := set_perm_cons_eraseIdx hlt
    (⟨w.handles[i].m_start, w.handles[i].m_start + size⟩ : MetaAllocatorHandle)
  have hsum := (hperm.map MetaAllocatorHandle.sizeInBytes).sum_eq
  rw [map_cons, sum_cons, ← h.bytes] at hsum
  have hpartition := h.inv.partition.perm_used (hperm.map MetaAllocatorHandle.interval)
  have hstop : w.handles[i].m_start + size + (w.handles[i].sizeInBytes - size) =
      w.handles[i].m_end := by omega
  have hused : w.allocator.Inv (⟨w.handles[i].m_start + size, w.handles[i].m_start + size +
      (w.handles[i].sizeInBytes - size)⟩ ::
        ((⟨w.handles[i].m_start, w.handles[i].m_start + size⟩ : MetaAllocatorHandle) ::
          w.handles.eraseIdx i).map MetaAllocatorHandle.interval) w.regions := by
    rw [hstop]
    exact ⟨h.inv.toIndexed, hpartition.cut_used (le_add_right _ _) (by omega)⟩
  obtain ⟨hinv, hbytes⟩ := (hused.bytes (w.allocator.m_bytesAllocated -
    (w.handles[i].sizeInBytes - size)) w.allocator.m_bytesReserved).addFreeSpace platform
      (by omega)
  refine ⟨_, _, rfl, ⟨hinv.toIndexed, ?_⟩, hbytes.trans ?_, ?_, h.regions⟩
  · exact hinv.partition.perm_used (hset.map _)
  · rw [(hset.map MetaAllocatorHandle.sizeInBytes).sum_eq, map_cons, sum_cons]
    simp only [MetaAllocatorHandle.sizeInBytes] at hsum hsizeEq ⊢
    omega
  · intro handle hmem
    rcases mem_or_eq_of_mem_set hmem with hmem | rfl
    · exact h.handles handle hmem
    · refine ⟨le_add_right _ _, ?_⟩
      rwa [MetaAllocatorHandle.sizeInBytes, Nat.add_sub_cancel_left]

/-- **A call that is allowed** returns and keeps the invariant, unless it is an allocation whose
size cannot be rounded. -/
theorem World.Sound.perform {call : Call} (hallowed : w.Allowed config call) :
    (∃ w', w.perform config platform call = some w' ∧ w'.Sound config) ∨
    (w.perform config platform call = none ∧
      ∃ n, call = .allocate n ∧ roundUp config n = none) := by
  cases call with
  | addFreshFreeSpace start sizeInBytes =>
    exact .inl ⟨_, rfl, h.addFreshFreeSpace platform hallowed.1 hallowed.2⟩
  | allocate n =>
    unfold World.perform
    dsimp only
    rcases h.allocate platform n with ⟨-, hround, hcrash⟩ | ⟨-, hfails⟩ |
      ⟨handle, allocator, hreturns, -, hsound⟩
    · exact .inr ⟨by rw [hcrash]; rfl, n, rfl, hround⟩
    · exact .inl ⟨_, by rw [hfails]; rfl, h⟩
    · exact .inl ⟨_, by rw [hreturns]; rfl, hsound⟩
  | shrink i newSizeInBytes =>
    obtain ⟨handle, hi, hnew⟩ := hallowed
    obtain ⟨handle', allocator, hshrink, hsound⟩ := h.shrink platform hi hnew
    unfold World.perform
    dsimp only
    exact .inl ⟨_, by rw [hi, Option.bind_eq_bind, Option.bind_some, hshrink]; rfl, hsound⟩
  | release i =>
    have hi := getElem?_eq_getElem hallowed
    unfold World.perform
    dsimp only
    exact .inl ⟨_, by rw [hi]; rfl, h.release platform hi⟩
end

end

theorem Reachable.sound {platform : Platform} {w : World} (h : Reachable config platform w) :
    w.Sound config := by
  induction h with
  | initial => exact World.sound_initial config
  | call _ _ allowed returns ih =>
    rcases ih.perform platform allowed with ⟨w', hw', hsound⟩ | ⟨hcrash, -⟩
    · obtain rfl := Option.some.inj (returns.symm.trans hw')
      exact hsound
    · cases returns.symm.trans hcrash

/-! ## The partition -/

/-- The free blocks and the handles that are not empty. -/
def World.pieces (w : World) : List Interval :=
  w.allocator.free.map w.allocator.interval ++
    (w.handles.filter fun handle => 0 < handle.sizeInBytes).map MetaAllocatorHandle.interval

/-- **The memory is partitioned**: the pieces are apart and are the space that was added; no two
free blocks touch; the indexes have the same nodes under the keys of now; the bytes are counted; an
allocation fails only for want of a block, and gives a handle of the rounded size. -/
structure World.Partitioned (config : Config) (platform : Platform) (w : World) : Prop where
  apart : w.pieces.Pairwise Apart
  union : ∀ a, (∃ piece ∈ w.pieces, a ∈ piece) ↔ ∃ region ∈ w.regions, a ∈ region
  separated : ∀ left ∈ w.allocator.free, ∀ right ∈ w.allocator.free,
    (w.allocator.node left).m_end ≠ (w.allocator.node right).m_start
  indexed : w.allocator.Indexed
  bytesAllocated :
    w.allocator.m_bytesAllocated = (w.handles.map MetaAllocatorHandle.sizeInBytes).sum
  allocates : ∀ n size allocator, 0 < n → roundUp config n = some size →
    w.allocator.allocate config platform noNewSpace n = some (none, allocator) →
    ∀ node ∈ w.allocator.free, w.allocator.sizeInBytes node < size
  sized : ∀ n handle allocator,
    w.allocator.allocate config platform noNewSpace n = some (some handle, allocator) →
    roundUp config n = some handle.sizeInBytes

/-- **Every sequence of calls** leaves the memory partitioned, and the next call returns unless it
is an allocation of a size that cannot be rounded. -/
theorem reachable_partitioned {config : Config} {platform : Platform} {w : World}
    (h : Reachable config platform w) : w.Partitioned config platform ∧
      ∀ call, w.Allowed config call → (∃ w', w.perform config platform call = some w') ∨
        ∃ n, call = .allocate n ∧ roundUp config n = none := by
  have hsound := h.sound
  have hpartition := hsound.inv.partition
  refine ⟨⟨?_, ?_, ?_, hsound.inv.toIndexed, hsound.bytes, ?_, ?_⟩, ?_⟩
  · have hsublist := (filter_sublist (p := fun handle : MetaAllocatorHandle =>
      decide (0 < handle.sizeInBytes)) (l := w.handles)).map MetaAllocatorHandle.interval
    exact (pairwise_apart hpartition.cover_le).sublist (hsublist.append_left _)
  · intro a
    rw [← cover_pos, ← cover_pos, ← hpartition.cover_eq, cover_pos, cover_pos]
    simp only [World.pieces, mem_append, mem_map, mem_filter, decide_eq_true_eq]
    constructor
    · rintro ⟨piece, hfree | ⟨handle, ⟨hmem, -⟩, rfl⟩, ha⟩
      · exact ⟨piece, .inl hfree, ha⟩
      · exact ⟨_, .inr ⟨handle, hmem, rfl⟩, ha⟩
    · rintro ⟨piece, hfree | ⟨handle, hmem, rfl⟩, ha⟩
      · exact ⟨piece, .inl hfree, ha⟩
      · exact ⟨_, .inr ⟨handle, ⟨hmem, Nat.sub_pos_of_lt (ha.1.trans_lt ha.2)⟩, rfl⟩, ha⟩
  · intro left hleft right hright
    exact hpartition.separated _ (mem_map_of_mem hleft) _ (mem_map_of_mem hright)
  · intro n size allocator hpos hround hfails
    rcases hsound.allocate platform n with ⟨-, hnone, -⟩ |
      ⟨hzero | ⟨size', hsize', hsmall⟩, -⟩ | ⟨handle, allocator', hreturns, -⟩
    · cases hround.symm.trans hnone
    · omega
    · obtain rfl := Option.some.inj (hround.symm.trans hsize')
      exact hsmall
    · cases hfails.symm.trans hreturns
  · intro n handle allocator hgives
    rcases hsound.allocate platform n with ⟨-, -, hnone⟩ | ⟨-, hfails⟩ | ⟨_, _, hreturns, hsize, -⟩
    · cases hgives.symm.trans hnone
    · cases hgives.symm.trans hfails
    · cases hgives.symm.trans hreturns
      exact hsize
  · intro call hallowed
    rcases hsound.perform platform hallowed with ⟨w', hw', -⟩ | ⟨-, hcrash⟩
    · exact .inl ⟨w', hw'⟩
    · exact .inr hcrash

/-- Granules of 32 bytes and pages of 4096. -/
def exampleConfig : Config := ⟨5, 12, by decide, by decide⟩

/-- A tree that only has right branches. -/
def chain : List NodePtr → RedBlackTrees.Tree NodePtr
  | [] => .null
  | x :: nodes => .node .black .null x (chain nodes)

theorem nodes_chain (nodes : List NodePtr) : (chain nodes).nodes = nodes := by
  induction nodes with
  | nil => rfl
  | cons x nodes ih => rw [chain, Tree.nodes, ih]; rfl

/-- A heap that counts upwards, and trees that are not balanced. -/
def examplePlatform : Platform where
  malloc used := used.foldr max 0 + 1
  malloc_notMem used hmem := by
    have hle : ∀ {l : List ℕ} {x}, x ∈ l → x ≤ l.foldr max 0 := fun {l x} hx => by
      induction l with
      | nil => cases hx
      | cons y l ih =>
        rcases mem_cons.mp hx with rfl | hx
        · exact le_max_left _ _
        · exact (ih hx).trans (le_max_right _ _)
    exact absurd (hle hmem) (by omega)
  balancing := ⟨fun t _ => t, fun _ _ => rfl, fun t x => chain (t.nodes.erase x), fun _ _ =>
    nodes_chain _⟩

/-- After a region has been added, two handles taken, the first of them shrunk and the second given
back. -/
theorem reachable_partitioned_example :
    ∃ w, Reachable exampleConfig examplePlatform w ∧ w.handles.length = 1 ∧
      w.Partitioned exampleConfig examplePlatform := by
  have h₁ : Reachable exampleConfig examplePlatform _ := .call (.addFreshFreeSpace 4096 8192)
    .initial ⟨⟨by decide, by decide, by decide, by decide, by decide⟩, fun _ h =>
      absurd h not_mem_nil⟩ rfl
  have h₂ := h₁.call (.allocate 100) (show 100 < 2 ^ 64 by decide) rfl
  have h₃ := h₂.call (.allocate 4096) (show 4096 < 2 ^ 64 by decide) rfl
  have h₄ := h₃.call (.shrink 0 40) ⟨_, rfl, by decide⟩ rfl
  have h₅ := h₄.call (.release 1) (lt_succ_self 1) rfl
  exact ⟨_, h₅, rfl, (reachable_partitioned h₅).1⟩

end JscAndroid.Wtf.MetaAllocators
