import JscAndroid.Space.Indexes
import JscAndroid.Space.Tilings
import JscAndroid.Wtf.RedBlackTrees

/-!
# The allocator of executable memory

`MetaAllocator` hands out parts of the space it has been given. A free block is a node that is
reached by its size through a search tree, and by its first address and the address behind it
through two hash maps. Addresses are numbers and the null pointer is 0. Which pages are in use is
counted beside this and has no part in it.
-/

namespace JscAndroid.Wtf.MetaAllocators

open Space.Indexes RedBlackTrees

/-- The arguments of the constructor, which looks for their logarithms. -/
structure Config where
  logAllocationGranule : ℕ
  logPageSize : ℕ
  logAllocationGranule_le : logAllocationGranule ≤ 32
  logPageSize_le : logPageSize ≤ 32

def Config.allocationGranule (config : Config) : ℕ := 2 ^ config.logAllocationGranule

def Config.pageSize (config : Config) : ℕ := 2 ^ config.logPageSize

structure FreeSpaceNode where
  m_start : ℕ
  m_end : ℕ

/-- A pointer to a `FreeSpaceNode`. -/
abbrev NodePtr := ℕ

/-- What the allocator rests on: a heap for its nodes, which gives a pointer that is not in use, and
the balancing of the tree. -/
structure Platform where
  malloc : List NodePtr → NodePtr
  malloc_notMem : ∀ used, malloc used ∉ used
  balancing : Balancing NodePtr

structure MetaAllocator where
  node : NodePtr → FreeSpaceNode
  /-- The nodes taken from the heap. -/
  allocatedNodes : List NodePtr
  m_freeSpaceSizeMap : RedBlackTrees.Tree NodePtr
  m_freeSpaceStartAddressMap : ℕ → Option NodePtr
  m_freeSpaceEndAddressMap : ℕ → Option NodePtr
  m_bytesAllocated : ℕ
  m_bytesReserved : ℕ

structure MetaAllocatorHandle where
  m_start : ℕ
  m_end : ℕ

def MetaAllocatorHandle.sizeInBytes (handle : MetaAllocatorHandle) : ℕ :=
  handle.m_end - handle.m_start

namespace MetaAllocator

def sizeInBytes (s : MetaAllocator) (node : NodePtr) : ℕ :=
  (s.node node).m_end - (s.node node).m_start

def allocFreeSpaceNode (platform : Platform) (s : MetaAllocator) : NodePtr × MetaAllocator :=
  let node := platform.malloc s.allocatedNodes
  (node, { s with allocatedNodes := node :: s.allocatedNodes })

def freeFreeSpaceNode (node : NodePtr) (s : MetaAllocator) : MetaAllocator :=
  { s with allocatedNodes := s.allocatedNodes.erase node }

def setNode (node : NodePtr) (value : FreeSpaceNode) (s : MetaAllocator) : MetaAllocator :=
  { s with node := Function.update s.node node value }

def removeFromSizeMap (platform : Platform) (node : NodePtr) (s : MetaAllocator) : MetaAllocator :=
  { s with m_freeSpaceSizeMap := platform.balancing.remove s.m_freeSpaceSizeMap node }

def insertIntoSizeMap (platform : Platform) (node : NodePtr) (s : MetaAllocator) : MetaAllocator :=
  { s with m_freeSpaceSizeMap :=
      platform.balancing.insert s.sizeInBytes s.m_freeSpaceSizeMap node }

def removeStart (address : ℕ) (s : MetaAllocator) : MetaAllocator :=
  { s with m_freeSpaceStartAddressMap := remove s.m_freeSpaceStartAddressMap address }

def addStart (address : ℕ) (node : NodePtr) (s : MetaAllocator) : MetaAllocator :=
  { s with m_freeSpaceStartAddressMap := add s.m_freeSpaceStartAddressMap address node }

def removeEnd (address : ℕ) (s : MetaAllocator) : MetaAllocator :=
  { s with m_freeSpaceEndAddressMap := remove s.m_freeSpaceEndAddressMap address }

def addEnd (address : ℕ) (node : NodePtr) (s : MetaAllocator) : MetaAllocator :=
  { s with m_freeSpaceEndAddressMap := add s.m_freeSpaceEndAddressMap address node }

/-- The size in whole granules; `none` is a crash. -/
def roundUp (config : Config) (sizeInBytes : ℕ) : Option ℕ :=
  if 2 ^ 64 - 1 - config.allocationGranule ≤ sizeInBytes then none
  else some ((sizeInBytes + config.allocationGranule - 1) &&&
    (2 ^ 64 - 1 - (config.allocationGranule - 1)))

/-- A part of the node from its first address on takes no more pages than one that ends with it. -/
def takesLeft (config : Config) (nodeStartAsInt nodeSizeInBytes sizeInBytes : ℕ) : Prop :=
  let firstPage := nodeStartAsInt >>> config.logPageSize
  let lastPage := (nodeStartAsInt + nodeSizeInBytes - 1) >>> config.logPageSize
  let lastPageForLeftAllocation := (nodeStartAsInt + sizeInBytes - 1) >>> config.logPageSize
  let firstPageForRightAllocation :=
    (nodeStartAsInt + nodeSizeInBytes - sizeInBytes) >>> config.logPageSize
  lastPageForLeftAllocation - firstPage + 1 ≤ lastPage - firstPageForRightAllocation + 1

instance (config : Config) (nodeStartAsInt nodeSizeInBytes sizeInBytes : ℕ) :
    Decidable (takesLeft config nodeStartAsInt nodeSizeInBytes sizeInBytes) :=
  inferInstanceAs (Decidable (_ ≤ _))

/-- The address of a part that is no longer free, null if there is none; `none` is a failed
`RELEASE_ASSERT`. -/
def findAndRemoveFreeSpace (config : Config) (platform : Platform) (sizeInBytes : ℕ)
    (s : MetaAllocator) : Option (ℕ × MetaAllocator) :=
  match s.m_freeSpaceSizeMap.findLeastGreaterThanOrEqual s.sizeInBytes sizeInBytes with
  | none => some (0, s)
  | some node =>
    let nodeSizeInBytes := s.sizeInBytes node
    let m_start := (s.node node).m_start
    let m_end := (s.node node).m_end
    if ¬ nodeSizeInBytes ≥ sizeInBytes then none
    else if nodeSizeInBytes = sizeInBytes then
      some (m_start, (((s.removeFromSizeMap platform node).removeStart m_start).removeEnd
        m_end).freeFreeSpaceNode node)
    else if takesLeft config m_start nodeSizeInBytes sizeInBytes then
      if ¬ (m_start < m_start + sizeInBytes ∧ m_start + sizeInBytes < m_end) then none
      else some (m_start, ((((s.removeFromSizeMap platform node).removeStart m_start).setNode node
        ⟨m_start + sizeInBytes, m_end⟩).insertIntoSizeMap platform node).addStart
          (m_start + sizeInBytes) node)
    else
      let result := m_end - sizeInBytes
      some (result, ((((s.removeFromSizeMap platform node).removeEnd m_end).setNode node
        ⟨m_start, result⟩).insertIntoSizeMap platform node).addEnd result node)

def addFreeSpace (platform : Platform) (start sizeInBytes : ℕ) (s : MetaAllocator) :
    MetaAllocator :=
  match s.m_freeSpaceEndAddressMap start, s.m_freeSpaceStartAddressMap (start + sizeInBytes) with
  | some leftNode, some rightNode =>
    let leftEnd := (s.node leftNode).m_end
    let rightStart := start + sizeInBytes
    let rightSize := s.sizeInBytes rightNode
    let rightEnd := (s.node rightNode).m_end
    ((((((((s.removeFromSizeMap platform leftNode).removeEnd leftEnd).removeFromSizeMap platform
      rightNode).removeStart rightStart).removeEnd rightEnd).freeFreeSpaceNode rightNode).setNode
        leftNode ⟨(s.node leftNode).m_start, leftEnd + (sizeInBytes + rightSize)⟩).insertIntoSizeMap
          platform leftNode).addEnd rightEnd leftNode
  | some leftNode, none =>
    let leftEnd := (s.node leftNode).m_end
    ((((s.removeFromSizeMap platform leftNode).removeEnd leftEnd).setNode leftNode
      ⟨(s.node leftNode).m_start, leftEnd + sizeInBytes⟩).insertIntoSizeMap platform
        leftNode).addEnd (start + sizeInBytes) leftNode
  | none, some rightNode =>
    ((((s.removeFromSizeMap platform rightNode).removeStart (start + sizeInBytes)).setNode rightNode
      ⟨start, (s.node rightNode).m_end⟩).insertIntoSizeMap platform rightNode).addStart start
        rightNode
  | none, none =>
    let (node, s) := s.allocFreeSpaceNode platform
    (((s.setNode node ⟨start, start + sizeInBytes⟩).insertIntoSizeMap platform node).addStart start
      node).addEnd (start + sizeInBytes) node

def addFreeSpaceFromReleasedHandle (platform : Platform) (start sizeInBytes : ℕ)
    (s : MetaAllocator) : MetaAllocator :=
  addFreeSpace platform start sizeInBytes
    { s with m_bytesAllocated := s.m_bytesAllocated - sizeInBytes }

def addFreshFreeSpace (platform : Platform) (start sizeInBytes : ℕ) (s : MetaAllocator) :
    MetaAllocator :=
  addFreeSpace platform start sizeInBytes
    { s with m_bytesReserved := s.m_bytesReserved + sizeInBytes }

/-- A handle, or a null pointer; `allocateNewSpace` gives the address and the number of the pages
that were mapped, null if there are none. The outer `none` is a crash. -/
def allocate (config : Config) (platform : Platform) (allocateNewSpace : ℕ → ℕ × ℕ)
    (sizeInBytes : ℕ) (s : MetaAllocator) :
    Option (Option MetaAllocatorHandle × MetaAllocator) := do
  if sizeInBytes = 0 then
    return (none, s)
  let sizeInBytes ← roundUp config sizeInBytes
  let (start, s) ← findAndRemoveFreeSpace config platform sizeInBytes s
  if start = 0 then
    let requestedNumberOfPages := (sizeInBytes + config.pageSize - 1) >>> config.logPageSize
    let (start, numberOfPages) := allocateNewSpace requestedNumberOfPages
    if start = 0 then
      return (none, s)
    let roundedUpSize := numberOfPages <<< config.logPageSize
    let s := { s with m_bytesReserved := s.m_bytesReserved + roundedUpSize }
    let s := if roundedUpSize > sizeInBytes then
        s.addFreeSpace platform (start + sizeInBytes) (roundedUpSize - sizeInBytes)
      else s
    return (some ⟨start, start + sizeInBytes⟩,
      { s with m_bytesAllocated := s.m_bytesAllocated + sizeInBytes })
  else
    return (some ⟨start, start + sizeInBytes⟩,
      { s with m_bytesAllocated := s.m_bytesAllocated + sizeInBytes })

def release (platform : Platform) (handle : MetaAllocatorHandle) (s : MetaAllocator) :
    MetaAllocator :=
  if handle.sizeInBytes ≠ 0 then
    s.addFreeSpaceFromReleasedHandle platform handle.m_start handle.sizeInBytes
  else s

end MetaAllocator

open MetaAllocator in
/-- The handle after it has given up its end; `none` is a crash. -/
def MetaAllocatorHandle.shrink (config : Config) (platform : Platform) (newSizeInBytes : ℕ)
    (handle : MetaAllocatorHandle) (s : MetaAllocator) :
    Option (MetaAllocatorHandle × MetaAllocator) := do
  let newSizeInBytes ← roundUp config newSizeInBytes
  if newSizeInBytes = handle.sizeInBytes then
    return (handle, s)
  let freeStart := handle.m_start + newSizeInBytes
  let freeSize := handle.sizeInBytes - newSizeInBytes
  return (⟨handle.m_start, freeStart⟩, s.addFreeSpaceFromReleasedHandle platform freeStart freeSize)

end JscAndroid.Wtf.MetaAllocators
