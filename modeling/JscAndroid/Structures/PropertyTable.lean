import Mathlib

/-!
# Property tables

A `PropertyTable` maps property names to offsets and attributes. Its entries stand in an array in
the order of their addition; removing one leaves a deleted slot, and the array is rebuilt without
these when there are too many or when it is full. The offsets of removed properties wait on a stack
for the next additions.

What a table is for is its `Layout`: the live entries in order, and the stack. The index over the
array is left out: it finds the slot of a key, and a key has one slot (`keysNodup`).
-/

namespace JscAndroid.Structures

open List

/-! ## Offsets -/

def invalidOffset : ℤ := -1

def firstOutOfLineOffset : ℤ := 64

def offsetForPropertyNumber (propertyNumber inlineCapacity : ℕ) : ℤ :=
  if inlineCapacity ≤ propertyNumber then propertyNumber + firstOutOfLineOffset - inlineCapacity
  else propertyNumber

def numberOfOutOfLineSlotsForMaxOffset (offset : ℤ) : ℕ :=
  if offset < firstOutOfLineOffset then 0 else (offset - firstOutOfLineOffset + 1).toNat

def numberOfSlotsForMaxOffset (offset : ℤ) (inlineCapacity : ℕ) : ℕ :=
  if offset < inlineCapacity then (offset + 1).toNat
  else inlineCapacity + numberOfOutOfLineSlotsForMaxOffset offset

/-- The largest of the first `n` offsets. -/
def lastOffset (inlineCapacity : ℕ) : ℕ → ℤ
  | 0 => invalidOffset
  | n + 1 => offsetForPropertyNumber n inlineCapacity

section
variable {inlineCapacity : ℕ}

section
variable (hcap : (inlineCapacity : ℤ) < firstOutOfLineOffset)
include hcap inlineCapacity

theorem numberOfSlotsForMaxOffset_lastOffset
    (n : ℕ) : numberOfSlotsForMaxOffset (lastOffset inlineCapacity n) inlineCapacity = n := by
  unfold firstOutOfLineOffset at hcap
  cases n with
  | zero =>
    have h : (-1 : ℤ) < inlineCapacity := by omega
    exact if_pos h
  | succ n =>
    simp only [lastOffset, numberOfSlotsForMaxOffset, offsetForPropertyNumber,
      numberOfOutOfLineSlotsForMaxOffset, firstOutOfLineOffset]
    split_ifs <;> omega

theorem lastOffset_mono (n : ℕ) :
    lastOffset inlineCapacity n < lastOffset inlineCapacity (n + 1) := by
  unfold firstOutOfLineOffset at hcap
  cases n with
  | zero =>
    simp only [lastOffset, invalidOffset, offsetForPropertyNumber, firstOutOfLineOffset]
    split_ifs <;> omega
  | succ n =>
    simp only [lastOffset, offsetForPropertyNumber, firstOutOfLineOffset]
    split_ifs <;> omega

theorem offset_le_lastOffset {m n : ℕ}
    (h : m < n) : offsetForPropertyNumber m inlineCapacity ≤ lastOffset inlineCapacity n := by
  unfold firstOutOfLineOffset at hcap
  obtain ⟨n, rfl⟩ : ∃ k, n = k + 1 := ⟨n - 1, by omega⟩
  simp only [lastOffset, offsetForPropertyNumber, firstOutOfLineOffset]
  split_ifs <;> omega
end

end

/-! ## Layouts -/

/-- `PropertyTableEntry`. -/
structure Entry (K : Type) where
  key : K
  offset : ℤ
  attributes : UInt8
  deriving DecidableEq

/-- The properties in the order in which they are enumerated, and the free offsets; the one to be
used next comes last. -/
@[ext] structure Layout (K : Type) where
  entries : List (Entry K)
  deletedOffsets : List ℤ

variable {K : Type}

namespace Layout

def empty : Layout K := ⟨[], []⟩

def nextOffset (l : Layout K) (inlineCapacity : ℕ) : ℤ :=
  l.deletedOffsets.getLast?.getD (offsetForPropertyNumber l.entries.length inlineCapacity)

def popOffset (l : Layout K) : Layout K := { l with deletedOffsets := l.deletedOffsets.dropLast }

def addDeletedOffset (l : Layout K) (offset : ℤ) : Layout K :=
  { l with deletedOffsets := l.deletedOffsets ++ [offset] }

def mapEntries (f : Entry K → Entry K) (l : Layout K) : Layout K :=
  { l with entries := l.entries.map f }

/-- The number of offsets in use or free. -/
def slots (l : Layout K) : ℕ := l.entries.length + l.deletedOffsets.length

/-- The offsets in use and the free ones are the first `slots` offsets, each once. -/
def Numbered (l : Layout K) (inlineCapacity : ℕ) : Prop :=
  (l.entries.map Entry.offset ++ l.deletedOffsets).Perm
    ((List.range l.slots).map (offsetForPropertyNumber · inlineCapacity))

variable [DecidableEq K]

def find (l : Layout K) (key : K) : Option (Entry K) :=
  l.entries.find? fun e => e.key = key

def add (l : Layout K) (e : Entry K) : Layout K :=
  if (l.find e.key).isSome then l else { l with entries := l.entries ++ [e] }

def remove (l : Layout K) (key : K) : Layout K :=
  { l with entries := l.entries.filter fun e => e.key ≠ key }

theorem find_eq_none {l : Layout K} {key : K} :
    l.find key = none ↔ key ∉ l.entries.map Entry.key := by
  simp [find]

theorem find_eq_some {l : Layout K} {key : K} {e : Entry K} (h : l.find key = some e) :
    e ∈ l.entries ∧ e.key = key := by
  exact ⟨mem_of_find?_eq_some h, by simpa using find?_some h⟩

end Layout

/-! ## The array of entries -/

theorem reduceOption_map_map (f : Entry K → Entry K) (slots : List (Option (Entry K))) :
    (slots.map (Option.map f)).reduceOption = slots.reduceOption.map f := by
  simp

theorem reduceOption_map_some (entries : List (Entry K)) :
    (entries.map some).reduceOption = entries := by
  induction entries with
  | nil => rfl
  | cons e entries ih => simp [ih]

section
variable [DecidableEq K]

/-- The attributes that `attributes` gives to the entry of `key`. -/
def setAttributesOf (key : K) (attributes : UInt8) (e : Entry K) : Entry K :=
  if e.key = key then { e with attributes := attributes } else e

/-- The slot of `key` becomes a deleted one. -/
def clearSlot (key : K) : Option (Entry K) → Option (Entry K)
  | none => none
  | some e => if e.key = key then none else some e

theorem key_setAttributesOf (key : K) (attributes : UInt8) (e : Entry K) :
    (setAttributesOf key attributes e).key = e.key := by
  unfold setAttributesOf
  split_ifs <;> rfl

theorem offset_setAttributesOf (key : K) (attributes : UInt8) (e : Entry K) :
    (setAttributesOf key attributes e).offset = e.offset := by
  unfold setAttributesOf
  split_ifs <;> rfl

theorem reduceOption_map_clearSlot (key : K) (slots : List (Option (Entry K))) :
    (slots.map (clearSlot key)).reduceOption = slots.reduceOption.filter fun e => e.key ≠ key := by
  induction slots with
  | nil => rfl
  | cons slot slots ih =>
    cases slot with
    | none => simpa [clearSlot] using ih
    | some e =>
      by_cases h : e.key = key
      · simpa [clearSlot, h] using ih
      · simpa [clearSlot, h] using ih
end

def nextPowerOf2 (v : ℕ) : ℕ := if v ≤ 1 then 1 else 2 ^ ((v - 1).log2 + 1)

def minimumTableSize : ℕ := 16

def sizeForCapacity (capacity : ℕ) : ℕ :=
  if capacity < minimumTableSize / 2 then minimumTableSize else nextPowerOf2 (capacity + 1) * 2

theorem lt_sizeForCapacity (capacity : ℕ) : capacity < sizeForCapacity capacity / 2 := by
  unfold sizeForCapacity minimumTableSize nextPowerOf2
  split_ifs with h h'
  · omega
  · omega
  · have := @Nat.lt_log2_self capacity
    rwa [Nat.mul_div_cancel _ (by decide)]

/-- `PropertyTable`. `none` is a deleted slot. A compact table keeps its index and the offsets of
its entries in bytes. -/
structure PropertyTable (K : Type) where
  indexSize : ℕ
  isCompact : Bool
  slots : List (Option (Entry K))
  deletedOffsets : List ℤ
  fits : slots.length ≤ indexSize / 2
  keysNodup : (slots.reduceOption.map Entry.key).Nodup
  compact : isCompact = true →
    indexSize / 2 < 255 ∧ ∀ e ∈ slots.reduceOption, e.offset ≤ 255

namespace PropertyTable

def layout (t : PropertyTable K) : Layout K := ⟨t.slots.reduceOption, t.deletedOffsets⟩

def tableCapacity (t : PropertyTable K) : ℕ := t.indexSize / 2

def size (t : PropertyTable K) : ℕ := t.slots.reduceOption.length

def usedCount (t : PropertyTable K) : ℕ := t.slots.length

def deletedCount (t : PropertyTable K) : ℕ := t.usedCount - t.size

def canFitInCompact (e : Entry K) : Bool := e.offset ≤ 255

def create (initialCapacity : ℕ) : PropertyTable K where
  indexSize := sizeForCapacity initialCapacity
  isCompact := sizeForCapacity initialCapacity / 2 < 255
  slots := []
  deletedOffsets := []
  fits := Nat.zero_le _
  keysNodup := nodup_nil
  compact h := ⟨of_decide_eq_true h, by simp⟩

/-- The live entries in an array of their own. -/
def rehash (t : PropertyTable K) (newCapacity : ℕ) (canStayCompact : Bool)
    (h : t.size ≤ newCapacity) : PropertyTable K where
  indexSize := sizeForCapacity newCapacity
  isCompact := canStayCompact && t.isCompact && sizeForCapacity newCapacity / 2 < 255
  slots := t.slots.reduceOption.map some
  deletedOffsets := t.deletedOffsets
  fits := by
    rw [length_map]
    exact h.trans (lt_sizeForCapacity newCapacity).le
  keysNodup := by
    rw [reduceOption_map_some]
    exact t.keysNodup
  compact hc := by
    simp only [Bool.and_eq_true, decide_eq_true_eq] at hc
    rw [reduceOption_map_some]
    exact ⟨hc.2, (t.compact hc.1.2).2⟩

/-- A copy for `newCapacity` entries; none if the entries do not fit. -/
def copy (t : PropertyTable K) (newCapacity : ℕ) : Option (PropertyTable K) :=
  if h : t.size ≤ newCapacity then
    if sizeForCapacity newCapacity = t.indexSize then some t
    else some (t.rehash newCapacity true h)
  else none

/-- Every live entry changed, but not its key or offset. -/
def mapEntries (t : PropertyTable K) (f : Entry K → Entry K) (hkey : ∀ e, (f e).key = e.key)
    (hoffset : ∀ e, (f e).offset = e.offset) : PropertyTable K where
  indexSize := t.indexSize
  isCompact := t.isCompact
  slots := t.slots.map (Option.map f)
  deletedOffsets := t.deletedOffsets
  fits := by
    rw [length_map]
    exact t.fits
  keysNodup := by
    have hkeys : Entry.key ∘ f = Entry.key := funext hkey
    rw [reduceOption_map_map, map_map, hkeys]
    exact t.keysNodup
  compact h := by
    refine ⟨(t.compact h).1, fun e he => ?_⟩
    rw [reduceOption_map_map, mem_map] at he
    obtain ⟨e, he, rfl⟩ := he
    rw [hoffset]
    exact (t.compact h).2 e he

def readOnly : UInt8 := 2
def dontDelete : UInt8 := 8
def accessor : UInt8 := 16

/-- What `seal` does to an entry. -/
def sealEntry (e : Entry K) : Entry K := { e with attributes := e.attributes ||| dontDelete }

/-- What `freeze` does to an entry. -/
def freezeEntry (e : Entry K) : Entry K :=
  { e with attributes :=
      if e.attributes &&& accessor = 0 then e.attributes ||| (dontDelete ||| readOnly)
      else e.attributes ||| dontDelete }

def «seal» (t : PropertyTable K) : PropertyTable K :=
  t.mapEntries sealEntry (fun _ => rfl) fun _ => rfl

def freeze (t : PropertyTable K) : PropertyTable K :=
  t.mapEntries freezeEntry (fun _ => rfl) fun _ => rfl

def addDeletedOffset (t : PropertyTable K) (offset : ℤ) : PropertyTable K :=
  { t with deletedOffsets := t.deletedOffsets ++ [offset] }

/-- The offset for the next property, and the table without it among its free offsets. -/
def nextOffset (t : PropertyTable K) (inlineCapacity : ℕ) : ℤ × PropertyTable K :=
  match t.deletedOffsets.getLast? with
  | some offset => (offset, { t with deletedOffsets := t.deletedOffsets.dropLast })
  | none => (offsetForPropertyNumber t.size inlineCapacity, t)

theorem layout_create (capacity : ℕ) : (create capacity : PropertyTable K).layout = Layout.empty :=
  rfl

section
variable (t : PropertyTable K)
include t

theorem layout_rehash (newCapacity : ℕ) (canStayCompact : Bool)
    (h : t.size ≤ newCapacity) : (t.rehash newCapacity canStayCompact h).layout = t.layout := by
  unfold rehash layout
  rw [reduceOption_map_some]

theorem copy_eq_some {newCapacity : ℕ} (h : t.size ≤ newCapacity) :
    ∃ t', t.copy newCapacity = some t' ∧ t'.layout = t.layout := by
  rw [copy, dif_pos h]
  by_cases hsize : sizeForCapacity newCapacity = t.indexSize
  · rw [if_pos hsize]
    exact ⟨t, rfl, rfl⟩
  · rw [if_neg hsize]
    exact ⟨_, rfl, layout_rehash t newCapacity true h⟩

theorem layout_mapEntries (f : Entry K → Entry K) (hkey hoffset) :
    (t.mapEntries f hkey hoffset).layout = t.layout.mapEntries f := by
  unfold mapEntries layout Layout.mapEntries
  rw [reduceOption_map_map]

theorem layout_addDeletedOffset (offset : ℤ) :
    (t.addDeletedOffset offset).layout = t.layout.addDeletedOffset offset := rfl

theorem nextOffset_fst (inlineCapacity : ℕ) :
    (t.nextOffset inlineCapacity).1 = t.layout.nextOffset inlineCapacity := by
  unfold nextOffset Layout.nextOffset layout
  split
  next h => rw [h]; rfl
  next h => rw [h]; rfl

theorem layout_nextOffset (inlineCapacity : ℕ) :
    (t.nextOffset inlineCapacity).2.layout = t.layout.popOffset := by
  unfold nextOffset
  split
  next => rfl
  next h =>
    rw [Layout.popOffset, layout, getLast?_eq_none_iff.mp h]
    rfl
end

section
variable [DecidableEq K]

def find (t : PropertyTable K) (key : K) : Option (Entry K) :=
  t.slots.reduceOption.find? fun e => e.key = key

/-- The offset and the attributes of `key`; `invalidOffset` is none. -/
def get (t : PropertyTable K) (key : K) : Option (ℤ × UInt8) :=
  (t.find key).map fun e => (e.offset, e.attributes)

def forEachProperty (t : PropertyTable K) : List (Entry K) := t.slots.reduceOption

def canInsert (t : PropertyTable K) (e : Entry K) : Bool :=
  t.usedCount < t.tableCapacity && (!t.isCompact || canFitInCompact e)

/-- `e` in a new slot. -/
def append (t : PropertyTable K) (e : Entry K) (hfits : t.slots.length < t.indexSize / 2)
    (hkey : t.find e.key = none) (hcompact : t.isCompact = true → e.offset ≤ 255) :
    PropertyTable K where
  indexSize := t.indexSize
  isCompact := t.isCompact
  slots := t.slots ++ [some e]
  deletedOffsets := t.deletedOffsets
  fits := by
    rw [length_append]
    exact hfits
  keysNodup := by
    have hnew : e.key ∉ t.slots.reduceOption.map Entry.key :=
      (Layout.find_eq_none (l := t.layout)).mp hkey
    rw [reduceOption_append, map_append, nodup_append]
    refine ⟨t.keysNodup, nodup_singleton _, ?_⟩
    rintro k hk k' hk' rfl
    obtain rfl : k = e.key := by simpa using hk'
    exact hnew hk
  compact h := by
    refine ⟨(t.compact h).1, fun e' he' => ?_⟩
    rw [reduceOption_append, mem_append] at he'
    rcases he' with he' | he'
    · exact (t.compact h).2 e' he'
    · obtain rfl : e' = e := by simpa using he'
      exact hcompact h

def addNew (t : PropertyTable K) (e : Entry K) (hkey : t.find e.key = none) : PropertyTable K :=
  if h : t.canInsert e = true then
    t.append e
      (by
        simp only [canInsert, Bool.and_eq_true, decide_eq_true_eq] at h
        exact h.1)
      hkey
      (by
        intro hc
        have hfit := (Bool.and_eq_true_iff.mp h).2
        simpa [hc, canFitInCompact] using hfit)
  else
    (t.rehash (t.size + 1) (canFitInCompact e) (Nat.le_succ _)).append e
      (by
        have h := lt_sizeForCapacity (t.size + 1)
        simp only [rehash, length_map]
        exact (Nat.lt_succ_self _).trans h)
      (by
        unfold find rehash
        rw [reduceOption_map_some]
        exact hkey)
      (by
        intro hc
        simp only [rehash, canFitInCompact, Bool.and_eq_true, decide_eq_true_eq] at hc
        exact hc.1.1)

/-- What is found for the key, whether the entry is new, and the table after. -/
def add (t : PropertyTable K) (e : Entry K) : (ℤ × UInt8 × Bool) × PropertyTable K :=
  match h : t.find e.key with
  | some found => ((found.offset, found.attributes, false), t)
  | none => ((e.offset, e.attributes, true), t.addNew e h)

/-- The slots with that of `key` deleted. -/
def clear (t : PropertyTable K) (key : K) : PropertyTable K where
  indexSize := t.indexSize
  isCompact := t.isCompact
  slots := t.slots.map (clearSlot key)
  deletedOffsets := t.deletedOffsets
  fits := by
    rw [length_map]
    exact t.fits
  keysNodup := by
    rw [reduceOption_map_clearSlot]
    exact t.keysNodup.sublist (filter_sublist.map _)
  compact h := by
    refine ⟨(t.compact h).1, fun e he => ?_⟩
    rw [reduceOption_map_clearSlot] at he
    exact (t.compact h).2 e (mem_of_mem_filter he)

def remove (t : PropertyTable K) (key : K) : PropertyTable K :=
  if t.indexSize ≤ (t.clear key).deletedCount * 4 then
    (t.clear key).rehash (t.clear key).size true le_rfl
  else t.clear key

def take (t : PropertyTable K) (key : K) : Option (ℤ × UInt8) × PropertyTable K :=
  match t.find key with
  | none => (none, t)
  | some e => (some (e.offset, e.attributes), t.remove key)

def updateAttributeIfExists (t : PropertyTable K) (key : K) (attributes : UInt8) :
    Option ℤ × PropertyTable K :=
  match t.find key with
  | none => (none, t)
  | some e => (some e.offset, t.mapEntries (setAttributesOf key attributes)
      (key_setAttributesOf key attributes) (offset_setAttributesOf key attributes))

/-! ## The table as its layout -/

section
variable (t : PropertyTable K)
include t

theorem find_eq_layout (key : K) : t.find key = t.layout.find key := rfl

theorem layout_addNew (e : Entry K) (h : t.find e.key = none) :
    (t.addNew e h).layout = { t.layout with entries := t.layout.entries ++ [e] } := by
  unfold addNew
  split_ifs with hc
  · simp [append, layout, reduceOption_append]
  · simp [append, layout, rehash, reduceOption_append, reduceOption_map_some]

theorem layout_add (e : Entry K) : (t.add e).2.layout = t.layout.add e := by
  rw [add, Layout.add, ← find_eq_layout]
  split
  next found h => rw [if_pos (by rw [h]; rfl)]
  next h => rw [if_neg (by rw [h]; exact Bool.false_ne_true), layout_addNew]

theorem layout_remove (key : K) : (t.remove key).layout = t.layout.remove key := by
  have hclear : (t.clear key).layout = t.layout.remove key := by
    unfold clear layout Layout.remove
    rw [reduceOption_map_clearSlot]
  unfold remove
  split_ifs
  · rw [layout_rehash, hclear]
  · exact hclear

theorem layout_take (key : K) : (t.take key).2.layout = t.layout.remove key := by
  unfold take
  split
  next h =>
    -- nothing is removed, and no entry has the key
    have hnone := Layout.find_eq_none.mp ((find_eq_layout t key).symm.trans h)
    have hall : ∀ e ∈ t.layout.entries, e.key ≠ key := by
      rintro e he rfl
      exact hnone (mem_map_of_mem he)
    rw [Layout.remove, filter_eq_self.mpr (by simpa using hall)]
  next => exact layout_remove t key

theorem layout_updateAttributeIfExists (key : K) (attributes : UInt8) :
    (t.updateAttributeIfExists key attributes).2.layout =
      t.layout.mapEntries (setAttributesOf key attributes) := by
  unfold updateAttributeIfExists
  split
  next h =>
    have hnone := Layout.find_eq_none.mp ((find_eq_layout t key).symm.trans h)
    have hall : ∀ e ∈ t.layout.entries, setAttributesOf key attributes e = e := by
      intro e he
      rw [setAttributesOf, if_neg]
      rintro rfl
      exact hnone (mem_map_of_mem he)
    rw [Layout.mapEntries, map_congr_left hall, map_id'']
    exact fun _ => rfl
  next => rw [layout_mapEntries]
end

end

end PropertyTable

end JscAndroid.Structures
