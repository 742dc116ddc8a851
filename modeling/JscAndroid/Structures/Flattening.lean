import JscAndroid.Structures.Materialize

/-!
# Flattening dictionaries

`flattenDictionaryStructure` makes an ordinary Structure of a dictionary. For an uncacheable one it
numbers the offsets anew, in the order of the properties. The values are moved along with them; the
storage of the object is left out here.

* `renumberPropertyOffsets_spec`: the new offsets are the first ones there are.
* `offsets_consistent`: however a Structure was reached, the offsets of its properties and the free
  ones are different, they are the first ones there are, and `maxOffset` is the last of them.
-/

namespace JscAndroid.Structures

open List

variable {K : Type}

/-! ## Renumbering -/

/-- What an entry keeps of an offset. -/
def storedOffset (isCompact : Bool) (offset : ℤ) : ℤ := if isCompact then offset % 256 else offset

/-- The loop of `renumberPropertyOffsets` from property `i` on, and the last offset given. -/
def renumberSlots (isCompact : Bool) (inlineCapacity : ℕ) :
    List (Option (Entry K)) → ℕ → ℤ → ℤ × List (Option (Entry K))
  | [], _, offset => (offset, [])
  | none :: slots, i, offset =>
    let rest := renumberSlots isCompact inlineCapacity slots i offset
    (rest.1, none :: rest.2)
  | some e :: slots, i, _ =>
    let offset := offsetForPropertyNumber i inlineCapacity
    let rest := renumberSlots isCompact inlineCapacity slots (i + 1) offset
    (rest.1, some { e with offset := storedOffset isCompact offset } :: rest.2)

theorem renumberSlots_spec (isCompact : Bool) (inlineCapacity : ℕ)
    (slots : List (Option (Entry K))) (i : ℕ) :
    (renumberSlots isCompact inlineCapacity slots i (lastOffset inlineCapacity i)).1 =
        lastOffset inlineCapacity (i + slots.reduceOption.length) ∧
      (renumberSlots isCompact inlineCapacity slots i (lastOffset inlineCapacity i)).2.length =
        slots.length ∧ (renumberSlots isCompact inlineCapacity slots i
          (lastOffset inlineCapacity i)).2.reduceOption.map Entry.key =
        slots.reduceOption.map Entry.key ∧ (renumberSlots isCompact inlineCapacity slots i
          (lastOffset inlineCapacity i)).2.reduceOption.map Entry.offset =
        (List.range' i slots.reduceOption.length).map fun n =>
          storedOffset isCompact (offsetForPropertyNumber n inlineCapacity) := by
  induction slots generalizing i with
  | nil => exact ⟨rfl, rfl, rfl, rfl⟩
  | cons slot slots ih =>
    cases slot with
    | none =>
      obtain ⟨h1, h2, h3, h4⟩ := ih i
      simp only [renumberSlots, length_cons]
      exact ⟨h1, by rw [h2], h3, h4⟩
    | some e =>
      obtain ⟨h1, h2, h3, h4⟩ := ih (i + 1)
      rw [show lastOffset inlineCapacity (i + 1) =
        offsetForPropertyNumber i inlineCapacity from rfl]
        at h1 h2 h3 h4
      simp only [renumberSlots, reduceOption_cons_of_some, length_cons, map_cons,
        range'_succ]
      refine ⟨?_, by rw [h2], by rw [h3], by rw [h4]⟩
      rw [h1, add_right_comm, add_assoc]

namespace PropertyTable

def propertyStorageSize (t : PropertyTable K) : ℕ := t.size + t.deletedOffsets.length

/-- The last offset given, and the table with the new offsets. -/
def renumberPropertyOffsets (t : PropertyTable K) (inlineCapacity : ℕ) : ℤ × PropertyTable K :=
  ((renumberSlots t.isCompact inlineCapacity t.slots 0 invalidOffset).1,
    { indexSize := t.indexSize
      isCompact := t.isCompact
      slots := (renumberSlots t.isCompact inlineCapacity t.slots 0 invalidOffset).2
      deletedOffsets := []
      fits := by
        have h := (renumberSlots_spec t.isCompact inlineCapacity t.slots 0).2.1
        exact h.trans_le t.fits
      keysNodup := by
        have h := (renumberSlots_spec t.isCompact inlineCapacity t.slots 0).2.2.1
        exact h ▸ t.keysNodup
      compact := by
        intro hc
        refine ⟨(t.compact hc).1, fun e he => ?_⟩
        have h := (renumberSlots_spec t.isCompact inlineCapacity t.slots 0).2.2.2
        have hmem := h ▸ mem_map_of_mem (f := Entry.offset) he
        obtain ⟨n, -, hn⟩ := mem_map.mp hmem
        rw [← hn, storedOffset, if_pos hc]
        omega })

end PropertyTable

/-! ## The first offsets -/

section
variable {inlineCapacity : ℕ} (hcap : (inlineCapacity : ℤ) < firstOutOfLineOffset)
include hcap

theorem offsetForPropertyNumber_lt_iff {m n : ℕ} :
    offsetForPropertyNumber m inlineCapacity < offsetForPropertyNumber n inlineCapacity ↔
      m < n := by
  unfold firstOutOfLineOffset at hcap
  unfold offsetForPropertyNumber firstOutOfLineOffset
  split_ifs <;> omega

theorem nodup_offsets (n : ℕ) :
    ((List.range n).map (offsetForPropertyNumber · inlineCapacity)).Nodup := by
  refine nodup_range.map fun m m' h => ?_
  have h1 := (offsetForPropertyNumber_lt_iff hcap).not.mp h.not_lt
  have h2 := (offsetForPropertyNumber_lt_iff hcap).not.mp h.not_gt
  omega

theorem Layout.Numbered.nodup {l : Layout K} (h : l.Numbered inlineCapacity) :
    (l.entries.map Entry.offset ++ l.deletedOffsets).Nodup :=
  h.nodup_iff.mpr (nodup_offsets hcap _)

/-- The entries of a table have no smaller offsets than the first ones there are. -/
theorem offset_le_of_entries {l : Layout K} (h : l.Numbered inlineCapacity) {bound : ℤ}
    (hbound : ∀ e ∈ l.entries, e.offset ≤ bound) {n : ℕ} (hn : n < l.entries.length) :
    offsetForPropertyNumber n inlineCapacity ≤ bound := by
  by_contra hbig
  have hsub : l.entries.map Entry.offset ⊆
      (range n).map (offsetForPropertyNumber · inlineCapacity) := by
    intro offset hoffset
    obtain ⟨m, -, rfl⟩ := mem_map.mp (h.mem_iff.mp (mem_append_left _ hoffset))
    obtain ⟨e, he, hm⟩ := mem_map.mp hoffset
    refine mem_map_of_mem (mem_range.mpr ((offsetForPropertyNumber_lt_iff hcap).mp ?_))
    have := hbound e he
    omega
  have hlength := (subperm_of_subset (h.nodup hcap).of_append_left hsub).length_le
  rw [length_map, length_map, length_range] at hlength
  omega

/-- **Renumbering** gives out the first offsets and leaves none free. -/
theorem renumberPropertyOffsets_spec {t : PropertyTable K} (h : t.layout.Numbered inlineCapacity) :
    (t.renumberPropertyOffsets inlineCapacity).1 =
        lastOffset inlineCapacity (t.renumberPropertyOffsets inlineCapacity).2.layout.slots ∧
      (t.renumberPropertyOffsets inlineCapacity).2.layout.Numbered inlineCapacity := by
  obtain ⟨h1, -, h3, h4⟩ := renumberSlots_spec t.isCompact inlineCapacity t.slots 0
  have hslots : (t.renumberPropertyOffsets inlineCapacity).2.layout.slots =
      t.slots.reduceOption.length := by
    have hlength := congrArg length h3
    rwa [length_map, length_map] at hlength
  rw [Layout.Numbered, hslots]
  refine ⟨by rw [zero_add] at h1; exact h1, ?_⟩
  have hstored : ∀ n ∈ range t.slots.reduceOption.length,
      storedOffset t.isCompact (offsetForPropertyNumber n inlineCapacity) =
        offsetForPropertyNumber n inlineCapacity := by
    intro n hn
    unfold storedOffset
    split_ifs with hc
    · have hle := offset_le_of_entries hcap h (t.compact hc).2 (mem_range.mp hn)
      have hpos : 0 ≤ offsetForPropertyNumber n inlineCapacity := by
        unfold offsetForPropertyNumber firstOutOfLineOffset
        split_ifs <;> omega
      exact Int.emod_eq_of_lt hpos (by omega)
    · rfl
  rw [← range_eq_range', map_congr_left hstored] at h4
  show ((renumberSlots t.isCompact inlineCapacity t.slots 0 invalidOffset).2.reduceOption.map
    Entry.offset ++ []).Perm _
  rw [append_nil]
  exact Perm.of_eq h4
end

/-! ## Runs -/

variable [DecidableEq K]

namespace Heap

/-- `toCacheableDictionaryTransition` or `toUncacheableDictionaryTransition`. -/
def toDictionary (h : Heap K) (id : ℕ) (cacheable : Bool) : Option (Heap K) := do
  let s ← h.structures[id]?
  if s.isUncacheableDictionary then none
  else
    let (_, transition) ← h.toDictionaryTransition id (if cacheable then .cached else .uncached)
    h.push transition

def flattenDictionaryStructure (h : Heap K) (id : ℕ) : Option (Heap K) := do
  let s ← h.structures[id]?
  if !s.isDictionary then none
  else if s.isUncacheableDictionary then
    let table ← s.propertyTable
    let (offset, table) := table.renumberPropertyOffsets s.inlineCapacity
    h.set id { s with maxOffset := offset, propertyTable := some table, dictionaryKind := .none }
  else h.set id { s with dictionaryKind := .none }

end Heap

/-- The actions on Structures, with those on whole dictionaries. -/
inductive DictionaryAction (K : Type)
  | action (a : Action K)
  | toDictionary (id : ℕ) (cacheable : Bool)
  | flattenDictionaryStructure (id : ℕ)

namespace Heap

def dictionaryStep (h : Heap K) : DictionaryAction K → Option (Heap K)
  | .action a => h.step a
  | .toDictionary id cacheable => h.toDictionary id cacheable
  | .flattenDictionaryStructure id => h.flattenDictionaryStructure id

def dictionaryRun (h : Heap K) (actions : List (DictionaryAction K)) : Option (Heap K) :=
  actions.foldlM dictionaryStep h

end Heap

variable {h h' : Heap K} {kept : List (Kept K)} {s : Structure K} {k : Kept K} {id : ℕ}

/-- A Structure does not mind if the one before is no longer a dictionary. -/
theorem Backed.relabel {k0 : Kept K} (hs : Backed kept s k) (hk0 : kept[id]? = some k0) :
    Backed (kept.set id { k0 with dictionaryKind := .none }) s k := by
  obtain ⟨hid, hget⟩ := List.getElem?_eq_some_iff.mp hk0
  have hprevious : previousLayout (kept.set id { k0 with dictionaryKind := .none }) k.previousID =
      previousLayout kept k.previousID := by
    unfold previousLayout
    cases k.previousID with
    | none => rfl
    | some p =>
      simp only [Option.bind_some]
      by_cases hp : id = p
      · rw [← hp, getElem?_set_self hid, hk0]
        rfl
      · rw [getElem?_set_ne hp]
  refine { hs with replayed := ?_, grown := ?_, unshared := fun p kp hp hkp => ?_ }
  · rw [hprevious]
    exact hs.replayed
  · rw [hprevious]
    exact hs.grown
  · by_cases hid' : id = p
    · rw [← hid', getElem?_set_self hid] at hkp
      obtain rfl := Option.some.inj hkp
      nofun
    · rw [getElem?_set_ne hid'] at hkp
      exact hs.unshared p kp hp hkp

namespace Rebuilt

section
variable (hh : Rebuilt h kept)
include hh

theorem toDictionary {cacheable : Bool}
    (hstep : h.toDictionary id cacheable = some h') : ∃ kept', Rebuilt h' kept' := by
  unfold Heap.toDictionary Heap.toDictionaryTransition at hstep
  rcases hh.lookup id with ⟨hs, -⟩ | ⟨s, k, hs, hk, hback⟩
  · rw [hs] at hstep
    cases hstep
  obtain ⟨t, ht, hlayout⟩ := hh.propertyTable hs hk
  generalize (if cacheable = true then DictionaryKind.cached else .uncached) = kind at hstep
  simp only [hs, ht, Option.bind_eq_bind, Option.bind_some] at hstep
  split_ifs at hstep
  have hpush : Backed kept
      { (s.createAfter id).pin t with maxOffset := s.maxOffset, dictionaryKind := kind }
      ⟨k.inlineCapacity, none, kind, k.table⟩ :=
    Backed.of_pinned rfl rfl hlayout hback.inlineCapacity hback.inlineCapacity_lt rfl rfl
      hback.maxOffset hback.numbered rfl
  obtain ⟨h'', hset, hh''⟩ := exists_of_rel_some (hh.push hpush nofun)
  obtain rfl := Option.some.inj (hset.symm.trans hstep)
  exact ⟨_, hh''⟩

/-- **Flattening** keeps the invariant: nothing comes after an uncacheable dictionary, and a
cacheable one keeps its offsets. -/
theorem flatten (hstep : h.flattenDictionaryStructure id = some h') :
    ∃ kept', Rebuilt h' kept' := by
  unfold Heap.flattenDictionaryStructure at hstep
  rcases hh.lookup id with ⟨hs, -⟩ | ⟨s, k, hs, hk, hback⟩
  · rw [hs] at hstep
    cases hstep
  have hid := (List.getElem?_eq_some_iff.mp hk).1
  rw [hs, Option.bind_eq_bind, Option.bind_some] at hstep
  split_ifs at hstep with hdictionary hkind
  · have hkind' := (isUncacheableDictionary hback).mp hkind
    obtain ⟨hpinned, hnone⟩ := hback.uncacheable hkind'
    obtain ⟨t, ht⟩ := Option.isSome_iff_exists.mp (hback.pinned hpinned)
    have hnumbered : t.layout.Numbered k.inlineCapacity := hback.owned t ht ▸ hback.numbered
    obtain ⟨h1, h2⟩ := renumberPropertyOffsets_spec hback.inlineCapacity_lt hnumbered
    have hsame : t.renumberPropertyOffsets s.inlineCapacity =
        t.renumberPropertyOffsets k.inlineCapacity := by rw [hback.inlineCapacity]
    rw [ht, Option.bind_eq_bind, Option.bind_some, hsame] at hstep
    have hset : Backed kept
        { s with
          maxOffset := (t.renumberPropertyOffsets k.inlineCapacity).1
          propertyTable := some (t.renumberPropertyOffsets k.inlineCapacity).2
          dictionaryKind := .none }
        ⟨k.inlineCapacity, none, .none, (t.renumberPropertyOffsets k.inlineCapacity).2⟩ :=
      Backed.of_pinned hpinned rfl rfl hback.inlineCapacity hback.inlineCapacity_lt
        (hback.previousID.trans hnone) rfl h1 h2 rfl
    obtain ⟨h'', hset', hh''⟩ := exists_of_rel_some
      (hh.set hset hid nofun (.inr ⟨hh.childless hk hkind', rfl⟩))
    obtain rfl := Option.some.inj (hset'.symm.trans hstep)
    exact ⟨_, hh''⟩
  · have hset : Backed kept { s with dictionaryKind := .none }
        { k with dictionaryKind := .none } :=
      { hback with dictionaryKind := rfl, uncacheable := nofun }
    obtain ⟨h'', hset', hh''⟩ := exists_of_rel_some (hh.replace hset hid
      (fun p hp => h.older id s p hs (hback.previousID ▸ hp))
      fun s k _ hback => hback.relabel hk)
    obtain rfl := Option.some.inj (hset'.symm.trans hstep)
    exact ⟨_, hh''⟩

theorem dictionaryStep {a : DictionaryAction K}
    (hstep : h.dictionaryStep a = some h') : ∃ kept', Rebuilt h' kept' := by
  cases a with
  | action a =>
    have hrel := hh.step a
    rw [show h.step a = some h' from hstep] at hrel
    generalize Kept.step kept a = x at hrel
    cases hrel with
    | some hh' => exact ⟨_, hh'⟩
  | toDictionary id cacheable => exact hh.toDictionary hstep
  | flattenDictionaryStructure id => exact hh.flatten hstep

theorem dictionaryRun {actions : List (DictionaryAction K)}
    (hrun : h.dictionaryRun actions = some h') : ∃ kept', Rebuilt h' kept' := by
  induction actions generalizing h kept with
  | nil =>
    obtain rfl := Option.some.inj hrun
    exact ⟨kept, hh⟩
  | cons a actions ih =>
    obtain ⟨h1, hstep, hrun⟩ := Option.bind_eq_some_iff.mp hrun
    obtain ⟨kept', hh'⟩ := hh.dictionaryStep hstep
    exact ih hh' hrun
end

end Rebuilt

/-! ## Offsets are used once -/

/-- The offsets of the properties and the free ones are the first ones there are, each once, and
`maxOffset` is the last of them. -/
structure OffsetsConsistent (s : Structure K) (t : PropertyTable K) : Prop where
  nodup : (t.forEachProperty.map Entry.offset ++ t.deletedOffsets).Nodup
  mem_iff : ∀ offset, offset ∈ t.forEachProperty.map Entry.offset ++ t.deletedOffsets ↔
    ∃ i < t.propertyStorageSize, offset = offsetForPropertyNumber i s.inlineCapacity
  maxOffset_eq_invalidOffset : s.maxOffset = invalidOffset ↔ t.propertyStorageSize = 0
  numberOfSlots : numberOfSlotsForMaxOffset s.maxOffset s.inlineCapacity = t.propertyStorageSize
  le_maxOffset : ∀ e ∈ t.forEachProperty, e.offset ≤ s.maxOffset

theorem Backed.offsetsConsistent (hs : Backed kept s k) {t : PropertyTable K}
    (ht : t.layout = k.table.layout) : OffsetsConsistent s t := by
  have hcap := hs.inlineCapacity_lt
  have hnumbered := hs.numbered
  have hmax := hs.maxOffset
  rw [← ht, ← hs.inlineCapacity] at hnumbered
  rw [← ht, ← hs.inlineCapacity] at hmax
  rw [← hs.inlineCapacity] at hcap
  have hslots : numberOfSlotsForMaxOffset s.maxOffset s.inlineCapacity = t.layout.slots := by
    rw [hmax]
    exact numberOfSlotsForMaxOffset_lastOffset hcap _
  refine ⟨hnumbered.nodup hcap, fun offset => ?_, ?_, hslots, fun e he => ?_⟩
  · rw [show t.forEachProperty.map Entry.offset ++ t.deletedOffsets =
      t.layout.entries.map Entry.offset ++ t.layout.deletedOffsets from rfl, hnumbered.mem_iff]
    simp only [mem_map, mem_range, eq_comm]
    rfl
  · constructor
    · intro h
      rw [h] at hslots
      refine hslots.symm.trans (if_pos ?_)
      exact lt_of_lt_of_le (by decide) (Int.natCast_nonneg s.inlineCapacity)
    · intro h
      rw [hmax, show t.layout.slots = 0 from h]
      rfl
  · rw [hmax]
    exact hnumbered.le_lastOffset hcap (mem_append_left _ (mem_map_of_mem he))

/-- **Property offsets never collide and never leak.** Every Structure has a table, its own or one
that is rebuilt, and the offsets in it are consistent with the Structure. -/
theorem offsets_consistent (actions : List (DictionaryAction K)) (h : Heap K)
    (hrun : Heap.empty.dictionaryRun actions = some h) (id : ℕ) (s : Structure K)
    (hs : h.structures[id]? = some s) :
    ∃ t, h.propertyTable id = some t ∧ (∀ t', s.propertyTable = some t' → t' = t) ∧
      OffsetsConsistent s t := by
  have hempty : Rebuilt (Heap.empty : Heap K) [] := ⟨rfl, by simp⟩
  obtain ⟨kept, hh⟩ := hempty.dictionaryRun hrun
  rcases hh.lookup id with ⟨hnone, -⟩ | ⟨s', k, hs', hk, hback⟩
  · rw [hnone] at hs
    cases hs
  obtain rfl := Option.some.inj (hs'.symm.trans hs)
  obtain ⟨t, ht, hlayout⟩ := hh.propertyTable hs hk
  refine ⟨t, ht, fun t' ht' => ?_, hback.offsetsConsistent hlayout⟩
  simp only [Heap.propertyTable, hs, ht', Option.bind_eq_bind, Option.bind_some,
    Option.pure_def, Option.some.injEq] at ht
  exact ht

/-- Two properties, a third in the place of the first, and the dictionary flattened. -/
def flattened : List (DictionaryAction String) :=
  [.action (.create 1), .action (.addProperty 0 "a" 0 false), .action (.addProperty 1 "b" 0 false),
    .toDictionary 2 false, .action (.removePropertyWithoutTransition 3 "a"),
    .flattenDictionaryStructure 3, .action (.addProperty 3 "c" 4 false)]

theorem offsets_consistent_flattened :
    ∃ h s t, Heap.empty.dictionaryRun flattened = some h ∧ h.structures[4]? = some s ∧
      h.propertyTable 4 = some t ∧ t.forEachProperty = [⟨"b", 0, 0⟩, ⟨"c", 64, 4⟩] ∧
      OffsetsConsistent s t := by
  have hrun : (((Heap.empty.dictionaryRun flattened).bind fun h =>
      (h.structures[4]?).bind fun _ => (h.propertyTable 4).map PropertyTable.forEachProperty)) =
        some [⟨"b", 0, 0⟩, ⟨"c", 64, 4⟩] := by
    decide +kernel
  obtain ⟨h, hh, hrun⟩ := Option.bind_eq_some_iff.mp hrun
  obtain ⟨s, hs, hrun⟩ := Option.bind_eq_some_iff.mp hrun
  obtain ⟨t, ht, htable⟩ := Option.map_eq_some_iff.mp hrun
  obtain ⟨t', ht', -, hconsistent⟩ := offsets_consistent flattened h hh 4 s hs
  obtain rfl := Option.some.inj (ht'.symm.trans ht)
  exact ⟨h, s, t', hh, hs, ht, htable, hconsistent⟩

end JscAndroid.Structures
