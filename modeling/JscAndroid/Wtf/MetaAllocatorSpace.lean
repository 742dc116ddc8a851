import JscAndroid.Wtf.MetaAllocators

/-!
# Free and used space of the allocator

Each change of a free block takes the node out of the indexes whose key changes, changes it and puts
it back; so the indexes stay those of the same nodes. The blocks themselves are cut and joined as
the pieces of a partition.
-/

namespace JscAndroid.Wtf.MetaAllocators

open Space.Tilings Space.Indexes RedBlackTrees List

namespace MetaAllocator

/-- The nodes of the size tree. -/
def free (s : MetaAllocator) : List NodePtr := s.m_freeSpaceSizeMap.nodes

def interval (s : MetaAllocator) (node : NodePtr) : Interval :=
  ⟨(s.node node).m_start, (s.node node).m_end⟩

/-- **The indexes agree**: the size tree and the two maps have the nodes that are in use, each under
the key it has now. -/
structure Indexed (s : MetaAllocator) : Prop where
  nodup : s.free.Nodup
  allocated : s.allocatedNodes.Perm s.free
  sorted : Tree.Sorted s.sizeInBytes s.free
  starts : Keyed s.m_freeSpaceStartAddressMap (fun node => (s.node node).m_start) s.free
  ends : Keyed s.m_freeSpaceEndAddressMap (fun node => (s.node node).m_end) s.free

section
variable {s s' : MetaAllocator} {n : NodePtr} {nodes : List NodePtr}

/-- **A node put in** beside the nodes that have kept their keys. -/
theorem indexed_insert (platform : Platform) {t : RedBlackTrees.Tree NodePtr}
    (hnodes : t.nodes = nodes) (hnodup : nodes.Nodup) (hn : n ∉ nodes)
    (hsorted : Tree.Sorted s.sizeInBytes nodes) (hnode : ∀ m ∈ nodes, s'.node m = s.node m)
    (htree : s'.m_freeSpaceSizeMap = platform.balancing.insert s'.sizeInBytes t n)
    (hallocated : s'.allocatedNodes.Perm (n :: nodes))
    (hstarts : Keyed s'.m_freeSpaceStartAddressMap (fun m => (s'.node m).m_start) (n :: nodes))
    (hends : Keyed s'.m_freeSpaceEndAddressMap (fun m => (s'.node m).m_end) (n :: nodes)) :
    s'.Indexed ∧ (s'.free.map s'.interval).Perm (s'.interval n :: nodes.map s.interval) := by
  have hperm : s'.free.Perm (n :: nodes) := by
    rw [free, htree, ← hnodes]
    exact platform.balancing.nodes_insert _ t n
  have hsize : Tree.Sorted s'.sizeInBytes t.nodes := by
    rw [hnodes]
    exact hsorted.congr fun m hm => by unfold sizeInBytes; rw [hnode m hm]
  refine ⟨⟨?_, hallocated.trans hperm.symm, ?_, ?_, ?_⟩, ?_⟩
  · exact hperm.nodup_iff.mpr (nodup_cons.mpr ⟨hn, hnodup⟩)
  · rw [free, htree]
    exact platform.balancing.sorted_insert hsize n
  · exact hstarts.congr (fun m => hperm.mem_iff) fun _ _ => rfl
  · exact hends.congr (fun m => hperm.mem_iff) fun _ _ => rfl
  · refine (hperm.map _).trans ?_
    refine Perm.of_eq (congrArg _ (map_congr_left fun m hm => ?_))
    unfold interval
    rw [hnode m hm]

theorem setNode_self (s : MetaAllocator) (n : NodePtr) (value : FreeSpaceNode) :
    (s.setNode n value).node n = value :=
  Function.update_self _ _ _

theorem setNode_of_ne {m : NodePtr} (s : MetaAllocator) (value : FreeSpaceNode) (hm : m ≠ n) :
    (s.setNode n value).node m = s.node m :=
  Function.update_of_ne hm _ _

section
variable (platform : Platform) (h : s.Indexed) (hn : n ∈ s.free)
include platform h hn

/-- **A block changes**: its node leaves the size tree and comes back. -/
theorem Indexed.change (value : FreeSpaceNode)
    (hself : s'.node n = value) (hnode : ∀ m, m ≠ n → s'.node m = s.node m)
    (htree : s'.m_freeSpaceSizeMap = platform.balancing.insert s'.sizeInBytes
      (platform.balancing.remove s.m_freeSpaceSizeMap n) n)
    (hallocated : s'.allocatedNodes = s.allocatedNodes)
    (hstarts : Keyed s'.m_freeSpaceStartAddressMap (fun m => (s'.node m).m_start)
      (n :: s.free.erase n)) (hends : Keyed s'.m_freeSpaceEndAddressMap (fun m => (s'.node m).m_end)
      (n :: s.free.erase n)) : s'.Indexed ∧ (s'.free.map s'.interval).Perm
      (⟨value.m_start, value.m_end⟩ :: (s.free.erase n).map s.interval) := by
  have hinterval : s'.interval n = ⟨value.m_start, value.m_end⟩ := by
    rw [interval, hself]
  rw [← hinterval]
  refine indexed_insert platform (platform.balancing.nodes_remove _ _) (h.nodup.erase n)
    h.nodup.not_mem_erase (h.sorted.erase n) (fun m hm => hnode m ?_) htree ?_ hstarts hends
  · exact (h.nodup.mem_erase_iff.mp hm).1
  · rw [hallocated]
    exact h.allocated.trans (perm_cons_erase hn)

/-- **A block gets another start**: it moves in the size tree and in the map of the starts. -/
theorem Indexed.restart {oldStart start : ℕ} (hold : (s.node n).m_start = oldStart)
    (hfresh : ∀ m ∈ s.free.erase n, (s.node m).m_start ≠ start)
    (hs' : s' = ((((s.removeFromSizeMap platform n).removeStart oldStart).setNode n
      ⟨start, (s.node n).m_end⟩).insertIntoSizeMap platform n).addStart start n) :
    s'.Indexed ∧ (s'.free.map s'.interval).Perm
      (⟨start, (s.node n).m_end⟩ :: (s.free.erase n).map s.interval) := by
  subst hs'
  have hself := setNode_self s n ⟨start, (s.node n).m_end⟩
  have hkept := congrArg FreeSpaceNode.m_end hself
  refine h.change platform hn ⟨start, (s.node n).m_end⟩ hself ?_ ?_ ?_ ?_ ?_
  · exact fun m hm => setNode_of_ne _ _ hm
  · rfl
  · rfl
  · exact h.starts.rekey h.nodup hn hold (congrArg FreeSpaceNode.m_start hself)
      (fun m hm => congrArg FreeSpaceNode.m_start (setNode_of_ne _ _ hm)) hfresh
  · exact h.ends.keep hn hkept
      fun m hm => congrArg FreeSpaceNode.m_end (setNode_of_ne _ _ hm)

/-- **A block gets another end**: it moves in the size tree and in the map of the ends. -/
theorem Indexed.restop {oldEnd stop : ℕ} (hold : (s.node n).m_end = oldEnd)
    (hfresh : ∀ m ∈ s.free.erase n, (s.node m).m_end ≠ stop)
    (hs' : s' = ((((s.removeFromSizeMap platform n).removeEnd oldEnd).setNode n
      ⟨(s.node n).m_start, stop⟩).insertIntoSizeMap platform n).addEnd stop n) :
    s'.Indexed ∧ (s'.free.map s'.interval).Perm
      (⟨(s.node n).m_start, stop⟩ :: (s.free.erase n).map s.interval) := by
  subst hs'
  have hself := setNode_self s n ⟨(s.node n).m_start, stop⟩
  have hkept := congrArg FreeSpaceNode.m_start hself
  refine h.change platform hn ⟨(s.node n).m_start, stop⟩ hself ?_ ?_ ?_ ?_ ?_
  · exact fun m hm => setNode_of_ne _ _ hm
  · rfl
  · rfl
  · exact h.starts.keep hn hkept
      fun m hm => congrArg FreeSpaceNode.m_start (setNode_of_ne _ _ hm)
  · exact h.ends.rekey h.nodup hn hold (congrArg FreeSpaceNode.m_end hself)
      (fun m hm => congrArg FreeSpaceNode.m_end (setNode_of_ne _ _ hm)) hfresh

/-- **A block is gone**: out of the tree and out of both maps. -/
theorem Indexed.discard
    (hs' : s' = (((s.removeFromSizeMap platform n).removeStart (s.node n).m_start).removeEnd
      (s.node n).m_end).freeFreeSpaceNode n) :
    s'.Indexed ∧ s'.free.map s'.interval = (s.free.erase n).map s.interval := by
  have hfree : s'.free = s.free.erase n := by
    rw [hs']
    exact platform.balancing.nodes_remove _ _
  have hnode : s'.node = s.node := by
    rw [hs']
    rfl
  refine ⟨⟨?_, ?_, ?_, ?_, ?_⟩, ?_⟩
  · rw [hfree]
    exact h.nodup.erase n
  · rw [hfree, hs']
    exact h.allocated.erase n
  · rw [hfree]
    exact (h.sorted.erase n).congr fun m _ => by unfold sizeInBytes; rw [hnode]
  · rw [hfree, hs']
    exact h.starts.erase h.nodup hn rfl
  · rw [hfree, hs']
    exact h.ends.erase h.nodup hn rfl
  · rw [hfree]
    unfold interval
    rw [hnode]
end

end

/-- The free blocks and the given used pieces are the space, and the indexes agree. -/
structure Inv (s : MetaAllocator) (used regions : List Interval) : Prop extends s.Indexed where
  partition : Partition (s.free.map s.interval) used regions

section
variable {s : MetaAllocator} {n : NodePtr}
variable {used regions : List Interval}

theorem Inv.front (h : s.Inv used regions) (hn : n ∈ s.free) :
    Partition (s.interval n :: (s.free.erase n).map s.interval) used regions :=
  h.partition.perm ((perm_cons_erase hn).map s.interval).symm

/-- **Taking free space**: there is a block that is large enough, and the part that was taken is
used from now on; or there is none and nothing changes. -/
theorem Inv.findAndRemoveFreeSpace (config : Config) (platform : Platform) (h : s.Inv used regions)
    {size : ℕ} (hpos : 0 < size) :
    (∃ start s', s.findAndRemoveFreeSpace config platform size = some (start, s') ∧
      s'.Inv (⟨start, start + size⟩ :: used) regions ∧ s'.m_bytesAllocated = s.m_bytesAllocated) ∨
    (s.findAndRemoveFreeSpace config platform size = some (0, s) ∧
      ∀ n ∈ s.free, s.sizeInBytes n < size) := by
  unfold MetaAllocator.findAndRemoveFreeSpace
  cases hfind : s.m_freeSpaceSizeMap.findLeastGreaterThanOrEqual s.sizeInBytes size with
  | none =>
    exact .inr ⟨rfl, fun n hn => Tree.findLeastGreaterThanOrEqual_none h.sorted hfind hn⟩
  | some n =>
    obtain ⟨hn, hge⟩ := Tree.findLeastGreaterThanOrEqual_some h.sorted hfind
    have hfront := h.front hn
    have hfresh : ∀ {b} m, m ∈ s.free.erase n → _ := fun {b} m hm =>
      hfront.ne_of_free (b := b) (mem_map_of_mem hm)
    have hsize : s.sizeInBytes n = (s.node n).m_end - (s.node n).m_start := rfl
    left
    dsimp only
    rw [if_neg (not_not.mpr hge)]
    by_cases heq : s.sizeInBytes n = size
    · rw [if_pos heq]
      obtain ⟨hindexed, hintervals⟩ := h.discard platform hn rfl
      refine ⟨_, _, rfl, ⟨hindexed, ?_⟩, rfl⟩
      have hstop : (s.node n).m_start + size = (s.node n).m_end := by omega
      rw [hintervals, hstop]
      exact hfront.use
    rw [if_neg heq]
    by_cases hleft : takesLeft config (s.node n).m_start (s.sizeInBytes n) size
    · rw [if_pos hleft, if_neg (not_not.mpr ⟨by omega, by omega⟩)]
      obtain ⟨hindexed, hintervals⟩ := h.restart platform hn rfl
        (fun m hm => (hfresh m hm).1 (Nat.le_add_right _ size) (by omega)) rfl
      refine ⟨_, _, rfl, ⟨hindexed, ?_⟩, rfl⟩
      exact (hfront.use_left (by omega) (by omega)).perm hintervals
    · rw [if_neg hleft]
      obtain ⟨hindexed, hintervals⟩ := h.restop platform hn rfl
        (fun m hm => (hfresh m hm).2 (by omega) (Nat.sub_le _ size)) rfl
      refine ⟨_, _, rfl, ⟨hindexed, ?_⟩, rfl⟩
      have hstop : (s.node n).m_end - size + size = (s.node n).m_end := by omega
      rw [hstop]
      exact (hfront.use_right (by omega) (by omega)).perm hintervals

/-- **A new block**: its node comes from the heap and goes into the tree and both maps. -/
theorem Indexed.create (platform : Platform) (h : s.Indexed) {start stop : ℕ}
    (hstart : ∀ m ∈ s.free, (s.node m).m_start ≠ start)
    (hstop : ∀ m ∈ s.free, (s.node m).m_end ≠ stop) {s' : MetaAllocator}
    (hs' : s' = ((((s.allocFreeSpaceNode platform).2.setNode (s.allocFreeSpaceNode platform).1
      ⟨start, stop⟩).insertIntoSizeMap platform (s.allocFreeSpaceNode platform).1).addStart start
        (s.allocFreeSpaceNode platform).1).addEnd stop (s.allocFreeSpaceNode platform).1) :
    s'.Indexed ∧ (s'.free.map s'.interval).Perm (⟨start, stop⟩ :: s.free.map s.interval) := by
  set n := (s.allocFreeSpaceNode platform).1 with hn
  have hnotMem : n ∉ s.free := fun hmem =>
    platform.malloc_notMem _ (h.allocated.mem_iff.mpr hmem)
  have hself : s'.node n = ⟨start, stop⟩ := by
    rw [hs']
    exact setNode_self _ _ _
  have hnode : ∀ m ∈ s.free, s'.node m = s.node m := by
    intro m hm
    rw [hs']
    exact setNode_of_ne _ _ fun heq => hnotMem (heq ▸ hm)
  have hinterval : s'.interval n = ⟨start, stop⟩ := by
    rw [interval, hself]
  have hmaps : s'.m_freeSpaceStartAddressMap = add s.m_freeSpaceStartAddressMap start n ∧
      s'.m_freeSpaceEndAddressMap = add s.m_freeSpaceEndAddressMap stop n := by
    rw [hs']
    exact ⟨rfl, rfl⟩
  rw [← hinterval]
  refine indexed_insert platform rfl h.nodup hnotMem h.sorted hnode (by rw [hs']; rfl) ?_ ?_ ?_
  · rw [hs']
    exact h.allocated.cons n
  · rw [hmaps.1]
    refine (h.starts.congr (fun _ => Iff.rfl) fun m hm => by rw [hnode m hm]).insert (by rw [hself])
      fun m hm => ?_
    rw [hnode m hm]
    exact hstart m hm
  · rw [hmaps.2]
    refine (h.ends.congr (fun _ => Iff.rfl) fun m hm => by rw [hnode m hm]).insert (by rw [hself])
      fun m hm => ?_
    rw [hnode m hm]
    exact hstop m hm

/-- **Two blocks become one** that takes the start of the first and the end of the second. -/
theorem Indexed.join (platform : Platform) (h : s.Indexed) {left right : NodePtr}
    (hleft : left ∈ s.free) (hright : right ∈ s.free) (hne : left ≠ right) {s' : MetaAllocator}
    (hs' : s' = ((((((((s.removeFromSizeMap platform left).removeEnd
      (s.node left).m_end).removeFromSizeMap platform right).removeStart
        (s.node right).m_start).removeEnd (s.node right).m_end).freeFreeSpaceNode
          right).setNode left
          ⟨(s.node left).m_start, (s.node right).m_end⟩).insertIntoSizeMap platform left).addEnd
            (s.node right).m_end left) :
    s'.Indexed ∧ (s'.free.map s'.interval).Perm (⟨(s.node left).m_start, (s.node right).m_end⟩ ::
      ((s.free.erase left).erase right).map s.interval) := by
  have hright' : right ∈ s.free.erase left := h.nodup.mem_erase_iff.mpr ⟨hne.symm, hright⟩
  have hleft' : left ∈ s.free.erase right := h.nodup.mem_erase_iff.mpr ⟨hne, hleft⟩
  have hcomm : (s.free.erase left).erase right = (s.free.erase right).erase left :=
    erase_comm _ _
  have hmem : ∀ m, m ∈ (s.free.erase left).erase right ↔ m ≠ right ∧ m ≠ left ∧ m ∈ s.free := by
    intro m
    rw [(h.nodup.erase left).mem_erase_iff, h.nodup.mem_erase_iff]
  have hself : s'.node left = ⟨(s.node left).m_start, (s.node right).m_end⟩ := by
    rw [hs']
    exact setNode_self _ _ _
  have hnode : ∀ m, m ≠ left → s'.node m = s.node m := by
    intro m hm
    rw [hs']
    exact setNode_of_ne _ _ hm
  have hinterval : s'.interval left = ⟨(s.node left).m_start, (s.node right).m_end⟩ := by
    rw [interval, hself]
  have hmaps : s'.m_freeSpaceStartAddressMap =
      remove s.m_freeSpaceStartAddressMap (s.node right).m_start ∧
      s'.m_freeSpaceEndAddressMap = add (remove (remove s.m_freeSpaceEndAddressMap
        (s.node left).m_end) (s.node right).m_end) (s.node right).m_end left := by
    rw [hs']
    exact ⟨rfl, rfl⟩
  rw [← hinterval]
  refine indexed_insert platform ?_ ((h.nodup.erase left).erase right)
    (fun hmem' => ((hmem left).mp hmem').2.1 rfl) ((h.sorted.erase left).erase right)
    (fun m hm => hnode m ((hmem m).mp hm).2.1) (by rw [hs']; rfl) ?_ ?_ ?_
  · exact (platform.balancing.nodes_remove _ _).trans
      (congrArg (List.erase · right) (platform.balancing.nodes_remove _ _))
  · rw [hs', hcomm]
    exact (h.allocated.erase right).trans (perm_cons_erase hleft')
  · rw [hmaps.1, hcomm]
    exact (h.starts.erase h.nodup hright rfl).keep hleft' (by rw [hself])
      fun m hm => by rw [hnode m hm]
  · rw [hmaps.2]
    have hends := (h.ends.erase h.nodup hleft rfl).erase (h.nodup.erase left) hright' rfl
    refine (hends.congr (fun _ => Iff.rfl) fun m hm => ?_).insert (by rw [hself]) fun m hm heq => ?_
    · rw [hnode m ((hmem m).mp hm).2.1]
    · rw [hnode m ((hmem m).mp hm).2.1] at heq
      exact ((hmem m).mp hm).1 (h.ends.inj ((hmem m).mp hm).2.2 hright heq)

/-- **Giving space back**: a used piece becomes free and joins the free blocks beside it. -/
theorem Inv.addFreeSpace (platform : Platform) {start size : ℕ}
    (h : s.Inv (⟨start, start + size⟩ :: used) regions) (hpos : 0 < size) :
    (s.addFreeSpace platform start size).Inv used regions ∧
      (s.addFreeSpace platform start size).m_bytesAllocated = s.m_bytesAllocated := by
  have hfresh : ∀ {b} m, m ∈ s.free → _ := fun {b} m hm =>
    h.partition.ne_of_used (b := b) (mem_map_of_mem hm)
  have hstarts : ∀ m ∈ s.free, (s.node m).m_start ≠ start := fun m hm =>
    (hfresh m hm).1 le_rfl (by omega)
  have hends : ∀ m ∈ s.free, (s.node m).m_end ≠ start + size := fun m hm =>
    (hfresh m hm).2 (by omega) le_rfl
  unfold MetaAllocator.addFreeSpace
  cases hleft : s.m_freeSpaceEndAddressMap start with
  | none =>
    have hnoLeft : ∀ m ∈ s.free, (s.node m).m_end ≠ start := fun m hm => h.ends.of_eq_none hleft hm
    cases hright : s.m_freeSpaceStartAddressMap (start + size) with
    | none =>
      have hnoRight : ∀ m ∈ s.free, (s.node m).m_start ≠ start + size := fun m hm =>
        h.starts.of_eq_none hright hm
      obtain ⟨hindexed, hintervals⟩ := h.create platform hstarts hends rfl
      refine ⟨⟨hindexed, Partition.perm ?_ hintervals⟩, rfl⟩
      exact h.partition.give (by omega) (forall_mem_map.mpr hnoLeft)
        (forall_mem_map.mpr hnoRight)
    | some right =>
      obtain ⟨hmem, heq⟩ := (h.starts _ _).mp hright
      dsimp only at heq
      obtain ⟨hindexed, hintervals⟩ := h.restart platform hmem heq
        (fun m hm => hstarts m (mem_of_mem_erase hm)) rfl
      refine ⟨⟨hindexed, Partition.perm ?_ hintervals⟩, rfl⟩
      have hfront := h.front hmem
      rw [interval, heq] at hfront
      exact hfront.give_right (by omega) (forall_mem_map.mpr fun m hm =>
        hnoLeft m (mem_of_mem_erase hm))
  | some left =>
    obtain ⟨hmem, heq⟩ := (h.ends _ _).mp hleft
    dsimp only at heq
    have hfront := h.front hmem
    have hinterval : s.interval left = ⟨(s.node left).m_start, start⟩ := by
      rw [interval, heq]
    rw [hinterval] at hfront
    cases hright : s.m_freeSpaceStartAddressMap (start + size) with
    | none =>
      have hnoRight : ∀ m ∈ s.free, (s.node m).m_start ≠ start + size := fun m hm =>
        h.starts.of_eq_none hright hm
      dsimp only
      rw [heq]
      obtain ⟨hindexed, hintervals⟩ := h.restop platform hmem heq
        (fun m hm => hends m (mem_of_mem_erase hm)) rfl
      refine ⟨⟨hindexed, Partition.perm ?_ hintervals⟩, rfl⟩
      exact hfront.give_left (by omega) (forall_mem_map.mpr fun m hm =>
        hnoRight m (mem_of_mem_erase hm))
    | some right =>
      obtain ⟨hmem', heq'⟩ := (h.starts _ _).mp hright
      dsimp only at heq'
      have hne : left ≠ right := by
        rintro rfl
        have := h.partition.nonempty _ (mem_map_of_mem hmem)
        rw [hinterval] at this
        dsimp only at this
        omega
      have hmem'' : right ∈ s.free.erase left := h.nodup.mem_erase_iff.mpr ⟨hne.symm, hmem'⟩
      have hlt : (s.node right).m_start < (s.node right).m_end :=
        h.partition.nonempty _ (mem_map_of_mem hmem')
      have hstop : (s.node left).m_end + (size + s.sizeInBytes right) = (s.node right).m_end := by
        unfold sizeInBytes
        omega
      dsimp only
      rw [hstop, ← heq']
      obtain ⟨hindexed, hintervals⟩ := h.join platform hmem hmem' hne rfl
      refine ⟨⟨hindexed, Partition.perm ?_ hintervals⟩, rfl⟩
      have hboth := hfront.perm (((perm_cons_erase hmem'').map s.interval).symm.cons _)
      rw [map_cons] at hboth
      rw [interval, heq'] at hboth
      exact hboth.give_both (by omega)
end

end MetaAllocator

end JscAndroid.Wtf.MetaAllocators
