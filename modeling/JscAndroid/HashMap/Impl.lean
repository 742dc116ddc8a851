import JscAndroid.Walks.FirstHit

/-!
# The hash map behind Map and Set

`HashMapImpl` is an open addressing table of pointers to buckets, and the buckets form a doubly
linked list in insertion order between a head and a tail sentinel. The tail becomes the next entry.
Buckets are cells of a heap, so that an iterator can keep a pointer to one that was removed.

Counters are `uint32_t`; a loop that would never end, a null pointer and a failed release assertion
have no result (`none`). Whether a buffer of some capacity can be allocated is an argument.
-/

namespace JscAndroid.HashMap.Impl

open Walks.FirstHit

/-- A pointer to a bucket. -/
abbrev Ptr := ℕ

/-- `HashMapBucket`: an empty `JSValue` is `none`. -/
structure Bucket (K V : Type) where
  key : Option K
  value : Option V
  next : Option Ptr
  prev : Option Ptr

variable {K V : Type}

namespace Bucket

/-- `create`. -/
def create : Bucket K V := ⟨none, none, none, none⟩

def deleted (b : Bucket K V) : Bool := b.key.isNone

def makeDeleted (b : Bucket K V) : Bucket K V := { b with key := none, value := none }

end Bucket

/-- An element of the buffer. -/
inductive Slot
  | emptyValue
  | deletedValue
  | bucket (p : Ptr)
  deriving DecidableEq, Repr

def isEmpty (x : Slot) : Bool := x = .emptyValue

def isDeleted (x : Slot) : Bool := x = .deletedValue

abbrev Heap (K V : Type) := Ptr → Bucket K V

namespace Heap

variable (heap : Heap K V)

def modify (p : Ptr) (f : Bucket K V → Bucket K V) : Heap K V := Function.update heap p (f (heap p))

def setNext (p q : Ptr) : Heap K V := heap.modify p fun b => { b with next := some q }

def setPrev (p q : Ptr) : Heap K V := heap.modify p fun b => { b with prev := some q }

def setKey (p : Ptr) (key : K) : Heap K V := heap.modify p fun b => { b with key := some key }

def setValue (p : Ptr) (value : V) : Heap K V :=
  heap.modify p fun b => { b with value := some value }

def makeDeleted (p : Ptr) : Heap K V := heap.modify p Bucket.makeDeleted

/-! What each write does to the members of a bucket. -/

variable (p q x : Ptr) (key : K) (value : V) (f : Bucket K V → Bucket K V)

theorem modify_apply : heap.modify p f x = if x = p then f (heap p) else heap x := by
  rw [modify, Function.update_apply]

theorem modify_member {α : Type} {member : Bucket K V → α} :
    member (heap.modify p f x) = if x = p then member (f (heap p)) else member (heap x) := by
  rw [modify_apply, apply_ite member]

theorem modify_kept {α : Type} {member : Bucket K V → α}
    (h : member (f (heap p)) = member (heap p)) : member (heap.modify p f x) = member (heap x) := by
  rw [modify_apply]
  split_ifs with hx
  · rw [h, hx]
  · rfl

@[simp] theorem next_setNext :
    (heap.setNext p q x).next = if x = p then some q else (heap x).next := modify_member ..
@[simp] theorem prev_setNext : (heap.setNext p q x).prev = (heap x).prev := modify_kept _ _ _ _ rfl
@[simp] theorem key_setNext : (heap.setNext p q x).key = (heap x).key := modify_kept _ _ _ _ rfl
@[simp] theorem value_setNext : (heap.setNext p q x).value = (heap x).value :=
  modify_kept _ _ _ _ rfl

@[simp] theorem next_setPrev : (heap.setPrev p q x).next = (heap x).next := modify_kept _ _ _ _ rfl
@[simp] theorem prev_setPrev :
    (heap.setPrev p q x).prev = if x = p then some q else (heap x).prev := modify_member ..
@[simp] theorem key_setPrev : (heap.setPrev p q x).key = (heap x).key := modify_kept _ _ _ _ rfl
@[simp] theorem value_setPrev : (heap.setPrev p q x).value = (heap x).value :=
  modify_kept _ _ _ _ rfl

@[simp] theorem next_setKey : (heap.setKey p key x).next = (heap x).next := modify_kept _ _ _ _ rfl
@[simp] theorem prev_setKey : (heap.setKey p key x).prev = (heap x).prev := modify_kept _ _ _ _ rfl
@[simp] theorem key_setKey :
    (heap.setKey p key x).key = if x = p then some key else (heap x).key := modify_member ..
@[simp] theorem value_setKey : (heap.setKey p key x).value = (heap x).value :=
  modify_kept _ _ _ _ rfl

@[simp] theorem next_setValue : (heap.setValue p value x).next = (heap x).next :=
  modify_kept _ _ _ _ rfl
@[simp] theorem prev_setValue : (heap.setValue p value x).prev = (heap x).prev :=
  modify_kept _ _ _ _ rfl
@[simp] theorem key_setValue : (heap.setValue p value x).key = (heap x).key :=
  modify_kept _ _ _ _ rfl
@[simp] theorem value_setValue :
    (heap.setValue p value x).value = if x = p then some value else (heap x).value :=
  modify_member ..

@[simp] theorem next_makeDeleted : (heap.makeDeleted p x).next = (heap x).next :=
  modify_kept _ _ _ _ rfl
@[simp] theorem prev_makeDeleted : (heap.makeDeleted p x).prev = (heap x).prev :=
  modify_kept _ _ _ _ rfl
@[simp] theorem key_makeDeleted :
    (heap.makeDeleted p x).key = if x = p then none else (heap x).key := modify_member ..
@[simp] theorem value_makeDeleted :
    (heap.makeDeleted p x).value = if x = p then none else (heap x).value := modify_member ..

end Heap

structure HashMapImpl (K V : Type) where
  heap : Heap K V
  /-- The number of buckets that were ever created. -/
  created : ℕ
  m_head : Ptr
  m_tail : Ptr
  m_buffer : List Slot
  m_keyCount : ℕ
  m_deleteCount : ℕ
  m_capacity : ℕ

/-! ## Capacities -/

/-- Reduction to a `uint32_t`. -/
def uint32 (n : ℕ) : ℕ := n % 2 ^ 32

theorem uint32_of_lt {n : ℕ} (h : n < 2 ^ 32) : uint32 n = n := Nat.mod_eq_of_lt h

def hashMapInitialCapacity : ℕ := 4

def shouldShrink (capacity keyCount : ℕ) : Bool :=
  uint32 (8 * keyCount) ≤ capacity ∧ capacity > hashMapInitialCapacity

def shouldRehash (capacity keyCount deleteCount : ℕ) : Bool :=
  uint32 (2 * uint32 (keyCount + deleteCount)) ≥ capacity

def nextCapacity (capacity keyCount : ℕ) : Option ℕ :=
  if capacity = 0 then some hashMapInitialCapacity
  else if shouldShrink capacity keyCount then some (capacity / 2)
  else if uint32 (3 * keyCount) ≤ capacity ∧ capacity > 64 then some capacity
  else if capacity * 2 < 2 ^ 32 then some (capacity * 2)
  else none

/-- `roundUpToPowerOfTwo`. -/
def roundUpToPowerOfTwo (n : ℕ) : ℕ := 2 ^ Nat.clog 2 n

/-! ## Probing -/

/-- The element of a buffer at an index. -/
def slotAt (buffer : List Slot) (index : ℕ) : Slot := buffer.getD index .emptyValue

/-- `(index + 1) & mask`. -/
def nextIndex (capacity index : ℕ) : ℕ := (index + 1) &&& (capacity - 1)

/-- `hash & mask`. -/
def startIndex (capacity hash : ℕ) : ℕ := hash &&& (capacity - 1)

/-- The loops over the buffer: from the place of a hash on to the first element that passes a test.
After as many rounds as there are elements the loop is back where it started. -/
def probe (buffer : List Slot) (capacity : ℕ) (stop : Slot → Bool) (hash : ℕ) : Option ℕ :=
  firstHit (fun index => stop (slotAt buffer index)) (nextIndex capacity) capacity
    (startIndex capacity hash)

section
variable [DecidableEq K] (hash : K → ℕ)

/-- `!isDeleted(bucket) && areKeysEqual(key, bucket->key())`. -/
def hasKey (heap : Heap K V) (key : K) : Slot → Bool
  | .bucket p => (heap p).key = some key
  | _ => false

/-- How an operation that may throw ends. -/
inductive Completion
  | normal
  | outOfMemory
  deriving DecidableEq, Repr

/-! ## Creation -/

/-- `setUpHeadAndTail`, in a map without buckets. -/
def create : HashMapImpl K V where
  heap := (Heap.setNext (fun _ => Bucket.create) 0 1).setPrev 1 0
  created := 2
  m_head := 0
  m_tail := 1
  m_buffer := []
  m_keyCount := 0
  m_deleteCount := 0
  m_capacity := 0

/-- `makeAndSetNewBuffer`; `none` when the allocation fails. -/
def makeAndSetNewBuffer (memory : ℕ → Bool) (newCapacity : ℕ) (s : HashMapImpl K V) :
    Option (HashMapImpl K V) :=
  if memory newCapacity then
    some { s with m_buffer := List.replicate newCapacity .emptyValue, m_capacity := newCapacity }
  else none

/-! ## Lookup -/

/-- `findBucketAlreadyHashedAndNormalized`: the index of the bucket, if there is one. -/
def findBucket (s : HashMapImpl K V) (key : K) : Option (Option ℕ) :=
  if s.m_capacity = 0 then some none
  else do
    let index ← probe s.m_buffer s.m_capacity (fun x => isEmpty x || hasKey s.heap key x) (hash key)
    return if isEmpty (slotAt s.m_buffer index) then none else some index

def has (s : HashMapImpl K V) (key : K) : Option Bool := do
  let found ← findBucket hash s key
  return found.isSome

/-- `get`; `undefined` is `none`. -/
def get (s : HashMapImpl K V) (key : K) : Option (Option V) := do
  let found ← findBucket hash s key
  return found.bind fun index =>
    match slotAt s.m_buffer index with
    | .bucket p => (s.heap p).value
    | _ => none

/-! ## Rehashing -/

/-- The loop of `rehash` over the list, from `iter` on. -/
def rehashLoop (heap : Heap K V) (tail capacity : ℕ) : ℕ → Ptr → List Slot → Option (List Slot)
  | 0, _, _ => none
  | fuel + 1, iter, buffer =>
    if iter = tail then some buffer
    else do
      let key ← (heap iter).key
      let index ← probe buffer capacity isEmpty (hash key)
      let next ← (heap iter).next
      rehashLoop heap tail capacity fuel next (buffer.set index (.bucket iter))

inductive RehashMode
  | BeforeAddition
  | AfterRemoval
  deriving DecidableEq, Repr

/-- The new buffer of `rehash`: another one, or the old one reset. -/
def freshBuffer (memory : ℕ → Bool) (newCapacity : ℕ) (s : HashMapImpl K V) :
    Option (HashMapImpl K V) :=
  if newCapacity ≠ s.m_capacity then makeAndSetNewBuffer memory newCapacity s
  else some { s with m_buffer := List.replicate newCapacity .emptyValue }

def rehash (memory : ℕ → Bool) (mode : RehashMode) (s : HashMapImpl K V) :
    Option (Completion × HashMapImpl K V) := do
  let newCapacity ← nextCapacity s.m_capacity
    (uint32 (s.m_keyCount + if mode = .BeforeAddition then 1 else 0))
  match freshBuffer memory newCapacity s with
  | none => return (.outOfMemory, s)
  | some s =>
    if s.m_capacity &&& (s.m_capacity - 1) ≠ 0 then none
    else do
      let first ← (s.heap s.m_head).next
      let buffer ← rehashLoop hash s.heap s.m_tail s.m_capacity s.created first s.m_buffer
      return (.normal, { s with m_buffer := buffer, m_deleteCount := 0 })

/-! ## Addition -/

/-- The end of `addNormalizedInternal`: the tail becomes the new entry at `index`. -/
def appendEntry (key : K) (value : V) (index : ℕ) (s : HashMapImpl K V) : HashMapImpl K V :=
  let newEntry := s.m_tail
  let newTail := s.created
  let heap := (s.heap.setKey newEntry key).setValue newEntry value
  let heap := Heap.modify heap newTail fun _ => Bucket.create
  let heap := (heap.setPrev newTail newEntry).setNext newEntry newTail
  { s with
    heap := heap
    created := s.created + 1
    m_tail := newTail
    m_buffer := s.m_buffer.set index (.bucket newEntry)
    m_keyCount := uint32 (s.m_keyCount + 1) }

/-- `addNormalizedInternal` once there is a buffer; `canUseBucket` tells whether the bucket in a
slot already holds the key. -/
def addToBuffer (memory : ℕ → Bool) (canUseBucket : Slot → Bool) (key : K) (value : V)
    (s : HashMapImpl K V) : Option (Completion × HashMapImpl K V) := do
  let index ← probe s.m_buffer s.m_capacity (fun x => isEmpty x || canUseBucket x) (hash key)
  match slotAt s.m_buffer index with
  | .bucket p => return (.normal, { s with heap := s.heap.setValue p value })
  | _ =>
    if shouldRehash s.m_capacity (uint32 (s.m_keyCount + 1)) s.m_deleteCount then do
      let (completion, s) ← rehash hash memory .BeforeAddition s
      if completion = .outOfMemory then return (.outOfMemory, s)
      else do
        let index ← probe s.m_buffer s.m_capacity isEmpty (hash key)
        return (.normal, appendEntry key value index s)
    else return (.normal, appendEntry key value index s)

def addNormalizedInternal (memory : ℕ → Bool) (canUseBucket : Slot → Bool) (key : K) (value : V)
    (s : HashMapImpl K V) : Option (Completion × HashMapImpl K V) :=
  if s.m_capacity = 0 then
    match makeAndSetNewBuffer memory hashMapInitialCapacity s with
    | none => some (.outOfMemory, s)
    | some s => addToBuffer hash memory canUseBucket key value s
  else addToBuffer hash memory canUseBucket key value s

def add (memory : ℕ → Bool) (key : K) (value : V) (s : HashMapImpl K V) :
    Option (Completion × HashMapImpl K V) :=
  addNormalizedInternal hash memory (hasKey s.heap key) key value s

/-! ## Removal -/

/-- The part of `remove` that takes the bucket at an index out of the list and of the buffer. -/
def unlink (index : ℕ) (s : HashMapImpl K V) : Option (HashMapImpl K V) :=
  match slotAt s.m_buffer index with
  | .bucket impl => do
    let next ← (s.heap impl).next
    let prev ← (s.heap impl).prev
    let heap := (s.heap.setPrev next prev).setNext prev next
    return { s with
      heap := heap.makeDeleted impl
      m_buffer := s.m_buffer.set index .deletedValue
      m_deleteCount := uint32 (s.m_deleteCount + 1)
      m_keyCount := s.m_keyCount - 1 }
  | _ => none

/-- `remove`: whether the key was there, and whether shrinking ran out of memory. -/
def remove (memory : ℕ → Bool) (key : K) (s : HashMapImpl K V) :
    Option (Bool × Completion × HashMapImpl K V) := do
  match ← findBucket hash s key with
  | none => return (false, .normal, s)
  | some index =>
    let s ← unlink index s
    if shouldShrink s.m_capacity s.m_keyCount then do
      let (completion, s) ← rehash hash memory .AfterRemoval s
      return (true, completion, s)
    else return (true, .normal, s)

/-- The loop of `clear`, from `bucket` on: every bucket of the list is made to point to the head. -/
def clearLoop (head tail : Ptr) : ℕ → Ptr → Heap K V → Option (Heap K V)
  | 0, _, _ => none
  | fuel + 1, bucket, heap =>
    if bucket = tail then some heap
    else do
      let next ← (heap bucket).next
      clearLoop head tail fuel next ((heap.setNext bucket head).makeDeleted bucket)

def clear (s : HashMapImpl K V) : Option (HashMapImpl K V) := do
  let first ← (s.heap s.m_head).next
  let heap ← clearLoop s.m_head s.m_tail s.created first s.heap
  return { s with
    heap := (heap.setNext s.m_head s.m_tail).setPrev s.m_tail s.m_head
    m_buffer := []
    m_keyCount := 0
    m_deleteCount := 0
    m_capacity := 0 }

/-! ## Cloning -/

/-- The loop of the cloning constructor over the buckets of `base`, from `bucket` on. -/
def cloneLoop (memory : ℕ → Bool) (base : Heap K V) :
    ℕ → Option Ptr → HashMapImpl K V → Option (Completion × HashMapImpl K V)
  | 0, _, _ => none
  | _ + 1, none, s => some (.normal, s)
  | fuel + 1, some bucket, s =>
    match (base bucket).key, (base bucket).value with
    | some key, some value => do
      let (completion, s) ← addNormalizedInternal hash memory (fun _ => false) key value s
      if completion = .outOfMemory then return (.outOfMemory, s)
      else cloneLoop memory base fuel (base bucket).next s
    | _, _ => cloneLoop memory base fuel (base bucket).next s

/-- `finishCreation` from another map; `outOfMemory` comes without a map. -/
def clone (memory : ℕ → Bool) (base : HashMapImpl K V) :
    Option (Option (HashMapImpl K V)) :=
  let capacity := 2 * base.m_keyCount + 1
  if 2 ^ 31 < capacity then none
  else
    match makeAndSetNewBuffer memory (max (roundUpToPowerOfTwo capacity) hashMapInitialCapacity)
      create with
    | none => some none
    | some s => do
      let (completion, s) ← cloneLoop hash memory base.heap (base.created + 1)
        (base.heap base.m_head).next s
      return if completion = .outOfMemory then none else some s

/-! ## Iteration -/

/-- An iterator: the last bucket it returned (at first the head), or the sentinel (`none`). -/
abbrev Iterator := Option Ptr

/-- Where the loop of `advanceIter` ends: at the null pointer or at a bucket that is not deleted. -/
def advanceStop (heap : Heap K V) : Option Ptr → Bool
  | none => true
  | some p => !(heap p).deleted

/-- `bucket->next()`, null for null. -/
def advanceNext (heap : Heap K V) : Option Ptr → Option Ptr
  | none => none
  | some p => (heap p).next

/-- `advanceIter`: the bucket it returns, and the iterator after it. -/
def advanceIter (s : HashMapImpl K V) (iterator : Iterator) : Option (Option Ptr × Iterator) :=
  match iterator with
  | none => some (none, none)
  | some prev => do
    let bucket ← firstHit (advanceStop s.heap) (advanceNext s.heap) (s.created + 1)
      (s.heap prev).next
    return (bucket, bucket)
end

end JscAndroid.HashMap.Impl
