import JscAndroid.Structures.LayoutChanges

/-!
# A property table can always be rebuilt

`Rebuilt h kept` ties the heap to the tables that are never dropped: a table that a Structure owns
has the layout of the kept one, and one that may be dropped is what the transition of its Structure
makes of the layout of its parent. Every action keeps this.
-/

namespace JscAndroid.Structures

open List

variable {K : Type} [DecidableEq K]
variable {table : Option (PropertyTable K)} {c : PropertyChange K} {t : PropertyTable K}
variable {offset : ℤ} {shouldPin : ShouldPin}

/-! ## The invariant -/

/-- The layout of the Structure before, as it is kept. -/
def previousLayout (kept : List (Kept K)) (previousID : Option ℕ) : Layout K :=
  ((previousID.bind fun id => kept[id]?).map fun k => k.table.layout).getD Layout.empty

/-- What the heap holds of a Structure is enough for the table kept for it. -/
structure Backed (kept : List (Kept K)) (s : Structure K) (k : Kept K) : Prop where
  inlineCapacity : s.inlineCapacity = k.inlineCapacity
  inlineCapacity_lt : (k.inlineCapacity : ℤ) < firstOutOfLineOffset
  previousID : s.previousID = k.previousID
  dictionaryKind : s.dictionaryKind = k.dictionaryKind
  maxOffset : s.maxOffset = lastOffset k.inlineCapacity k.table.layout.slots
  numbered : k.table.layout.Numbered k.inlineCapacity
  owned : ∀ t, s.propertyTable = some t → t.layout = k.table.layout
  pinned : s.isPinnedPropertyTable = true → s.propertyTable.isSome = true
  replayed : s.isPinnedPropertyTable = false →
    Layout.replay s (previousLayout kept k.previousID) = k.table.layout
  grown : s.isPinnedPropertyTable = false →
    (previousLayout kept k.previousID).slots ≤ k.table.layout.slots
  unshared : ∀ p kp, k.previousID = some p → kept[p]? = some kp → kp.dictionaryKind ≠ .uncached
  uncacheable : k.dictionaryKind = .uncached →
    s.isPinnedPropertyTable = true ∧ k.previousID = none

structure Rebuilt (h : Heap K) (kept : List (Kept K)) : Prop where
  length_eq : h.structures.length = kept.length
  backed : ∀ (id : ℕ) (s : Structure K) (k : Kept K), h.structures[id]? = some s →
    kept[id]? = some k → Backed kept s k

variable {h h' : Heap K} {kept kept' : List (Kept K)} {s s' : Structure K} {k k' : Kept K} {id : ℕ}

theorem Backed.congr (hs : Backed kept s k)
    (hkept : ∀ p, k.previousID = some p → kept'[p]? = kept[p]?) : Backed kept' s k := by
  have hprevious : previousLayout kept' k.previousID = previousLayout kept k.previousID := by
    unfold previousLayout
    cases hp : k.previousID with
    | none => rfl
    | some p => simp only [Option.bind_some, hkept p hp]
  exact {
    inlineCapacity := hs.inlineCapacity
    inlineCapacity_lt := hs.inlineCapacity_lt
    previousID := hs.previousID
    dictionaryKind := hs.dictionaryKind
    maxOffset := hs.maxOffset
    numbered := hs.numbered
    owned := hs.owned
    pinned := hs.pinned
    replayed := by rw [hprevious]; exact hs.replayed
    grown := by rw [hprevious]; exact hs.grown
    unshared := fun p kp hp hkp => hs.unshared p kp hp (hkept p hp ▸ hkp)
    uncacheable := hs.uncacheable }

/-- Another table with the same layout, or none if the table is not pinned. -/
theorem Backed.setTable (hs : Backed kept s k)
    (htable : ∀ t, table = some t → t.layout = k.table.layout)
    (hpinned : s.isPinnedPropertyTable = true → table.isSome = true) :
    Backed kept { s with propertyTable := table } k :=
  { hs with owned := htable, pinned := hpinned }

theorem Backed.not_pinned (hs : Backed kept s k) (htable : s.propertyTable = none) :
    s.isPinnedPropertyTable = false := by
  by_contra hpinned
  have := hs.pinned (by simpa using hpinned)
  rw [htable] at this
  cases this

theorem rel_ite {c d : Prop} [Decidable c] [Decidable d] {x x' : Option (Heap K)}
    {y y' : Option (List (Kept K))} (hcd : c ↔ d) (h : d → Option.Rel Rebuilt x y)
    (h' : ¬ d → Option.Rel Rebuilt x' y') :
    Option.Rel Rebuilt (if c then x else x') (if d then y else y') := by
  simp only [hcd]
  split_ifs with hd
  exacts [h hd, h' hd]

theorem exists_of_rel_some {x : Option (Heap K)} (hx : Option.Rel Rebuilt x (some kept)) :
    ∃ h, x = some h ∧ Rebuilt h kept := by
  cases hx with
  | some hh => exact ⟨_, rfl, hh⟩

namespace Rebuilt

variable (hh : Rebuilt h kept)
include hh

theorem lookup (id : ℕ) : (h.structures[id]? = none ∧ kept[id]? = none) ∨
      ∃ s k, h.structures[id]? = some s ∧ kept[id]? = some k ∧ Backed kept s k := by
  by_cases hid : id < kept.length
  · have hid' : id < h.structures.length := hh.length_eq ▸ hid
    have hs := getElem?_eq_getElem hid'
    have hk := getElem?_eq_getElem hid
    exact .inr ⟨_, _, hs, hk, hh.backed id _ _ hs hk⟩
  · have hid' : ¬ id < h.structures.length := hh.length_eq ▸ hid
    exact .inl ⟨getElem?_eq_none (by omega), getElem?_eq_none (by omega)⟩

theorem bind (id : ℕ) {f : Structure K → Option (Heap K)} {g : Kept K → Option (List (Kept K))}
    (hfg : ∀ s k, h.structures[id]? = some s → kept[id]? = some k → Backed kept s k →
      Option.Rel Rebuilt (f s) (g k)) :
    Option.Rel Rebuilt (h.structures[id]? >>= f) (kept[id]? >>= g) := by
  rcases hh.lookup id with ⟨hs, hk⟩ | ⟨s, k, hs, hk, hback⟩
  · rw [hs, hk]
    exact .none
  · rw [hs, hk]
    exact hfg s k hs hk hback

section
variable (hs' : Backed kept s' k') (hid : id < kept.length)
  (hprevious : ∀ p, k'.previousID = some p → p < id)
include hs' hid hprevious

/-- A Structure is replaced; `hkeep` says that the others do not miss what was kept for it. -/
theorem replace
    (hkeep : ∀ s k, k ∈ kept.set id k' → Backed kept s k → Backed (kept.set id k') s k) :
    Option.Rel Rebuilt (h.set id s') (some (kept.set id k')) := by
  have hp : ∀ p ∈ s'.previousID, p < id := fun p hp => hprevious p (hs'.previousID ▸ hp)
  rw [Heap.set, dif_pos hp]
  refine .some ⟨?_, ?_⟩
  · simpa using hh.length_eq
  · intro id' s k hs hk
    refine hkeep s k (mem_of_getElem? hk) ?_
    by_cases heq : id = id'
    · subst heq
      rw [getElem?_set_self hid] at hk
      rw [getElem?_set_self (hh.length_eq ▸ hid)] at hs
      obtain rfl := Option.some.inj hk
      obtain rfl := Option.some.inj hs
      exact hs'
    · rw [getElem?_set_ne heq] at hs hk
      exact hh.backed id' s k hs hk

theorem set (hchildren : kept[id]? = some k' ∨
      (∀ k ∈ kept, k.previousID ≠ some id) ∧ k'.previousID = none) :
    Option.Rel Rebuilt (h.set id s') (some (kept.set id k')) := by
  refine hh.replace hs' hid hprevious fun s k hk hback => hback.congr fun p hp => ?_
  rcases hchildren with hsame | ⟨hchildren, hnone⟩
  · obtain ⟨hlt, rfl⟩ := List.getElem?_eq_some_iff.mp hsame
    rw [set_getElem_self]
  · refine getElem?_set_ne ?_
    rintro rfl
    rcases mem_or_eq_of_mem_set hk with hmem | rfl
    · exact hchildren k hmem hp
    · rw [hnone] at hp
      cases hp
end

theorem setTable (hs : h.structures[id]? = some s) (hk : kept[id]? = some k)
    (htable : ∀ t, table = some t → t.layout = k.table.layout)
    (hpinned : s.isPinnedPropertyTable = true → table.isSome = true) :
    Option.Rel Rebuilt (h.set id { s with propertyTable := table }) (some kept) := by
  have hback := hh.backed id s k hs hk
  obtain ⟨hid, rfl⟩ := List.getElem?_eq_some_iff.mp hk
  have hset := hh.set (hback.setTable htable hpinned) hid
    (fun p hp => h.older id s p hs (hback.previousID ▸ hp)) (.inl hk)
  rwa [set_getElem_self] at hset

theorem push (hs' : Backed kept s' k') (hprevious : ∀ p, k'.previousID = some p → p < kept.length) :
    Option.Rel Rebuilt (h.push s') (some (kept ++ [k'])) := by
  have hp : ∀ p ∈ s'.previousID, p < h.structures.length := by
    intro p hp
    rw [hh.length_eq]
    exact hprevious p (hs'.previousID ▸ hp)
  rw [Heap.push, dif_pos hp]
  refine .some ⟨?_, ?_⟩
  · simpa using hh.length_eq
  · intro id s k hs hk
    by_cases hid : id < kept.length
    · rw [getElem?_append_left hid] at hk
      rw [getElem?_append_left (hh.length_eq ▸ hid)] at hs
      have hback := hh.backed id s k hs hk
      refine hback.congr fun p hp => getElem?_append_left ?_
      exact (h.older id s p hs (hback.previousID ▸ hp)).trans hid
    · obtain rfl : id = kept.length := by
        have := (List.getElem?_eq_some_iff.mp hk).1
        rw [length_append, length_singleton] at this
        omega
      rw [getElem?_concat_length] at hk
      rw [← hh.length_eq, getElem?_concat_length] at hs
      obtain rfl := Option.some.inj hk
      obtain rfl := Option.some.inj hs
      exact hs'.congr fun p hp => getElem?_append_left (hprevious p hp)

/-! ## The replay -/

/-- The Structures found on the way up, replayed on the table found above them. -/
theorem walk (id : ℕ) (hs : h.structures[id]? = some s)
    (hk : kept[id]? = some k) : replayAll (h.findStructuresAndMapForMaterialization id).1
        (((h.findStructuresAndMapForMaterialization id).2.map PropertyTable.layout).getD
          Layout.empty) = k.table.layout ∧
      ∀ t, (h.findStructuresAndMapForMaterialization id).2 = some t →
        t.layout.slots ≤ k.table.layout.slots := by
  fun_induction Heap.findStructuresAndMapForMaterialization h id generalizing s k with
  | case1 id hnone =>
    rw [hnone] at hs
    cases hs
  | case2 id s' hs' table htable =>
    obtain rfl := Option.some.inj (hs'.symm.trans hs)
    have howned := (hh.backed id s' k hs hk).owned table htable
    exact ⟨howned, by rintro t ⟨⟩; exact howned ▸ le_rfl⟩
  | case3 id s' hs' htable hprevious =>
    obtain rfl := Option.some.inj (hs'.symm.trans hs)
    have hback := hh.backed id s' k hs hk
    have hreplayed := hback.replayed (hback.not_pinned htable)
    rw [← hback.previousID, hprevious] at hreplayed
    exact ⟨hreplayed, by rintro t ⟨⟩⟩
  | case4 id s' hs' htable previous hprevious hlt ih =>
    obtain rfl := Option.some.inj (hs'.symm.trans hs)
    have hback := hh.backed id s' k hs hk
    have hreplayed := hback.replayed (hback.not_pinned htable)
    have hgrown := hback.grown (hback.not_pinned htable)
    rcases hh.lookup previous with ⟨-, hnone⟩ | ⟨sp, kp, hsp, hkp, -⟩
    · have := (List.getElem?_eq_some_iff.mp hk).1
      have := getElem?_eq_none_iff.mp hnone
      omega
    · obtain ⟨hlayout, hslots⟩ := ih hsp hkp
      rw [← hback.previousID, hprevious] at hreplayed hgrown
      simp only [previousLayout, Option.bind_some, hkp] at hreplayed hgrown
      refine ⟨?_, fun t ht => (hslots t ht).trans hgrown⟩
      rwa [replayAll_cons, hlayout]

/-- **The table can be rebuilt**, with the layout it would have if it had never been dropped. -/
theorem materialize (hk : kept[id]? = some k) :
    ∃ t, h.materializePropertyTable id = some t ∧ t.layout = k.table.layout := by
  rcases hh.lookup id with ⟨-, hnone⟩ | ⟨s, k', hs, hk', hback⟩
  · rw [hnone] at hk
    cases hk
  obtain rfl := Option.some.inj (hk'.symm.trans hk)
  obtain ⟨hlayout, hslots⟩ := hh.walk id hs hk
  have hcapacity : numberOfSlotsForMaxOffset s.maxOffset s.inlineCapacity =
      k'.table.layout.slots := by
    rw [hback.maxOffset, hback.inlineCapacity]
    exact numberOfSlotsForMaxOffset_lastOffset hback.inlineCapacity_lt _
  obtain ⟨start, hstart, hstartLayout⟩ : ∃ t,
      Heap.startingTable (numberOfSlotsForMaxOffset s.maxOffset s.inlineCapacity)
        (h.findStructuresAndMapForMaterialization id).2 = some t ∧
      t.layout = ((h.findStructuresAndMapForMaterialization id).2.map
        PropertyTable.layout).getD Layout.empty := by
    cases hfound : (h.findStructuresAndMapForMaterialization id).2 with
    | none => exact ⟨_, rfl, PropertyTable.layout_create _⟩
    | some table =>
      refine table.copy_eq_some ?_
      rw [hcapacity]
      exact (Nat.le_add_right _ _).trans (hslots table hfound)
  refine ⟨(h.findStructuresAndMapForMaterialization id).1.reverse.foldl
    (fun table s => s.replay table) start, ?_, ?_⟩
  · rw [Heap.materializePropertyTable, hs, Option.bind_eq_bind, Option.bind_some]
    dsimp only
    rw [hstart]
    rfl
  · rwa [layout_foldl_replay, hstartLayout]

theorem propertyTable (hs : h.structures[id]? = some s)
    (hk : kept[id]? = some k) : ∃ t, h.propertyTable id = some t ∧ t.layout = k.table.layout := by
  rw [Heap.propertyTable, hs, Option.bind_eq_bind, Option.bind_some]
  cases htable : s.propertyTable with
  | none => exact hh.materialize hk
  | some table => exact ⟨table, rfl, (hh.backed id s k hs hk).owned table htable⟩

theorem take (hs : h.structures[id]? = some s) (hk : kept[id]? = some k) :
    ∃ t h', h.takePropertyTableOrCloneIfPinned id = some (t, h') ∧
      t.layout = k.table.layout ∧ Rebuilt h' kept := by
  rw [Heap.takePropertyTableOrCloneIfPinned, hs, Option.bind_eq_bind, Option.bind_some]
  cases htable : s.propertyTable with
  | none =>
    obtain ⟨t, ht, hlayout⟩ := hh.materialize hk
    exact ⟨t, h, by simp [ht], hlayout, hh⟩
  | some table =>
    have howned := (hh.backed id s k hs hk).owned table htable
    by_cases hpinned : s.isPinnedPropertyTable = true
    · obtain ⟨t, ht, hlayout⟩ := table.copy_eq_some (Nat.le_succ table.size)
      exact ⟨t, h, by simp [hpinned, ht], hlayout.trans howned, hh⟩
    · have hnone : ∀ t, (none : Option (PropertyTable K)) = some t →
          t.layout = k.table.layout := nofun
      obtain ⟨h', hset, hh'⟩ :=
        exists_of_rel_some (hh.setTable hs hk hnone fun h => absurd h hpinned)
      refine ⟨table, h', ?_, howned, hh'⟩
      dsimp only
      rw [if_neg hpinned, hset]
      rfl

end Rebuilt

/-! ## Transitions -/

theorem Backed.transition (hs : Backed kept s k) (hk : kept[id]? = some k)
    (hkind : k.dictionaryKind ≠ .uncached) {u u' : PropertyTable K} (hlayout : u.layout = u'.layout)
    (hc : k.table.layout.change k.inlineCapacity c = some (offset, u'.layout)) :
    Backed kept
      { s.createAfter id with
        transitionPropertyName := some c.name
        transitionPropertyAttributes := c.attributes
        transitionKind := c.kind
        propertyTable := some u
        maxOffset := c.newMaxOffset offset s.maxOffset
        transitionOffset := offset }
      ⟨k.inlineCapacity, some id, k.dictionaryKind, u'⟩ := by
  obtain ⟨hnumbered, hslots, hmax⟩ := hs.numbered.change hs.inlineCapacity_lt k.table.keysNodup hc
  have hprevious : previousLayout kept (some id) = k.table.layout := by
    simp [previousLayout, hk]
  exact {
    inlineCapacity := hs.inlineCapacity
    inlineCapacity_lt := hs.inlineCapacity_lt
    previousID := rfl
    dictionaryKind := hs.dictionaryKind
    maxOffset := by rw [← hmax, hs.maxOffset]
    numbered := hnumbered
    owned := by rintro t ⟨⟩; exact hlayout
    pinned := nofun
    replayed := by
      intro _
      rw [hprevious]
      refine Layout.replay_change ?_ rfl rfl rfl
      rw [← hc]
      simp only [Structure.createAfter, hs.inlineCapacity]
    grown := by
      intro _
      rwa [hprevious]
    unshared := by
      rintro p kp ⟨rfl⟩ hkp
      obtain rfl := Option.some.inj (hkp.symm.trans hk)
      exact hkind
    uncacheable := fun h => absurd h hkind }

theorem Backed.of_pinned (hpinned : s.isPinnedPropertyTable = true)
    (htable : s.propertyTable = some t) (hlayout : t.layout = k.table.layout)
    (hcapacity : s.inlineCapacity = k.inlineCapacity)
    (hlt : (k.inlineCapacity : ℤ) < firstOutOfLineOffset) (hprevious : s.previousID = k.previousID)
    (hkind : s.dictionaryKind = k.dictionaryKind)
    (hmax : s.maxOffset = lastOffset k.inlineCapacity k.table.layout.slots)
    (hnumbered : k.table.layout.Numbered k.inlineCapacity) (hnone : k.previousID = none) :
    Backed kept s k where
  inlineCapacity := hcapacity
  inlineCapacity_lt := hlt
  previousID := hprevious
  dictionaryKind := hkind
  maxOffset := hmax
  numbered := hnumbered
  owned t' ht' := by
    obtain rfl := Option.some.inj (ht'.symm.trans htable)
    exact hlayout
  pinned _ := by rw [htable]; rfl
  replayed h := by rw [hpinned] at h; cases h
  grown h := by rw [hpinned] at h; cases h
  unshared p kp hp := by rw [hnone] at hp; cases hp
  uncacheable _ := ⟨hpinned, hnone⟩

theorem Backed.pinnedChange (hs : Backed kept s k) (kind : DictionaryKind) {u u' : PropertyTable K}
    (hlayout : u.layout = u'.layout)
    (hc : k.table.layout.change k.inlineCapacity c = some (offset, u'.layout))
    (hpinned : s'.isPinnedPropertyTable = true) (htable : s'.propertyTable = some u)
    (hcapacity : s'.inlineCapacity = s.inlineCapacity) (hprevious : s'.previousID = none)
    (hkind : s'.dictionaryKind = kind) (hmax : s'.maxOffset = c.newMaxOffset offset s.maxOffset) :
    Backed kept s' ⟨k.inlineCapacity, none, kind, u'⟩ := by
  obtain ⟨hnumbered, -, hslots⟩ := hs.numbered.change hs.inlineCapacity_lt k.table.keysNodup hc
  refine Backed.of_pinned hpinned htable hlayout (hcapacity.trans hs.inlineCapacity)
    hs.inlineCapacity_lt hprevious hkind ?_ hnumbered rfl
  rw [hmax, hs.maxOffset, hslots]

theorem Structure.change_none (h : t.change s.inlineCapacity c = none) :
    s.change shouldPin t c = none := by
  simp [Structure.change, h]

theorem Structure.change_some {u : PropertyTable K}
    (h : t.change s.inlineCapacity c = some (offset, u)) :
    s.change shouldPin t c = some (offset, { s.setPropertyTable shouldPin u with
      maxOffset := c.newMaxOffset offset s.maxOffset }) := by
  simp [Structure.change, h]

namespace Rebuilt

variable (hh : Rebuilt h kept)
include hh

section
variable (hs : h.structures[id]? = some s) (hk : kept[id]? = some k)
include hs hk

theorem newTransition (hkind : k.dictionaryKind ≠ .uncached) (c : PropertyChange K) :
    Option.Rel Rebuilt (h.newTransition id c)
      (Kept.child kept id (some id) (fun kind => kind) c) := by
  have hback := hh.backed id s k hs hk
  obtain ⟨t, h', htake, hlayout, hh'⟩ := hh.take hs hk
  simp only [Heap.newTransition, Kept.child, hs, hk, htake, Option.bind_eq_bind, Option.bind_some]
  rcases PropertyTable.change_cases hlayout k.inlineCapacity c with ⟨ht, hk'⟩ |
    ⟨offset, u, u', hu, hu', hlayout', hc⟩
  · rw [hk', Structure.change_none (by rw [← ht, ← hback.inlineCapacity]; rfl)]
    exact .none
  · rw [hu', Structure.change_some (by rw [← hu, ← hback.inlineCapacity]; rfl)]
    refine hh'.push (hback.transition hk hkind hlayout' hc) ?_
    rintro p ⟨rfl⟩
    exact (List.getElem?_eq_some_iff.mp hk).1

/-- The pinned copy that a dictionary or a change of prototype starts from. -/
theorem newDictionary (kind : DictionaryKind) (c : PropertyChange K) :
    Option.Rel Rebuilt (h.newDictionary id kind c) (Kept.child kept id none (fun _ => kind) c) := by
  have hback := hh.backed id s k hs hk
  obtain ⟨t, ht, hlayout⟩ := hh.propertyTable hs hk
  simp only [Heap.newDictionary, Heap.toDictionaryTransition, Kept.child, hs, hk, ht,
    Option.bind_eq_bind, Option.bind_some, Option.pure_def]
  rcases PropertyTable.change_cases hlayout k.inlineCapacity c with ⟨ht, hk'⟩ |
    ⟨offset, u, u', hu, hu', hlayout', hc⟩
  · rw [hk', Structure.change_none (by rw [← ht, ← hback.inlineCapacity]; rfl)]
    exact .none
  · rw [hu', Structure.change_some (by rw [← hu, ← hback.inlineCapacity]; rfl)]
    exact hh.push (hback.pinnedChange kind hlayout' hc rfl rfl rfl rfl rfl rfl) nofun

theorem changeWithoutTransition (hchildren : ∀ k ∈ kept, k.previousID ≠ some id)
    (c : PropertyChange K) :
    Option.Rel Rebuilt (h.changeWithoutTransition id c) (Kept.changed kept id c) := by
  have hback := hh.backed id s k hs hk
  obtain ⟨t, ht, hlayout⟩ := hh.propertyTable hs hk
  simp only [Heap.changeWithoutTransition, Kept.changed, hs, hk, ht, Option.bind_eq_bind,
    Option.bind_some]
  rcases PropertyTable.change_cases hlayout k.inlineCapacity c with ⟨ht, hk'⟩ |
    ⟨offset, u, u', hu, hu', hlayout', hc⟩
  · rw [hk', Structure.change_none (by rw [← ht, ← hback.inlineCapacity])]
    exact .none
  · rw [hu', Structure.change_some (by rw [← hu, ← hback.inlineCapacity])]
    exact hh.set (hback.pinnedChange k.dictionaryKind hlayout' hc rfl rfl rfl rfl
      hback.dictionaryKind rfl) (List.getElem?_eq_some_iff.mp hk).1 nofun (.inr ⟨hchildren, rfl⟩)
end

theorem childless (hk : kept[id]? = some k)
    (hkind : k.dictionaryKind = .uncached) : ∀ k' ∈ kept, k'.previousID ≠ some id := by
  intro k' hk' hp
  obtain ⟨id', hid', rfl⟩ := mem_iff_getElem.mp hk'
  rcases hh.lookup id' with ⟨-, hnone⟩ | ⟨s, k'', -, hk'', hback⟩
  · rw [getElem?_eq_getElem hid'] at hnone
    cases hnone
  · obtain rfl := Option.some.inj (hk''.symm.trans (getElem?_eq_getElem hid'))
    exact hback.unshared id k hp hk hkind

theorem changePrototype (id : ℕ) : Option.Rel Rebuilt (h.changePrototypeTransition id)
      (Kept.copied kept id (fun _ => none) fun table => table) := by
  refine hh.bind id fun s k hs hk hback => ?_
  obtain ⟨t, ht, hlayout⟩ := hh.propertyTable hs hk
  rw [ht]
  have hpush : Backed kept { (s.createAfter id).pin t with maxOffset := s.maxOffset }
      ⟨k.inlineCapacity, none, k.dictionaryKind, k.table⟩ :=
    Backed.of_pinned rfl rfl hlayout hback.inlineCapacity hback.inlineCapacity_lt rfl
      hback.dictionaryKind hback.maxOffset hback.numbered rfl
  exact hh.push hpush nofun

end Rebuilt

/-! ## Transitions of the whole table -/

/-- What `editAll` does to an entry. -/
def editEntry (kind : TransitionKind) : Entry K → Entry K :=
  if kind = .seal then PropertyTable.sealEntry else PropertyTable.freezeEntry

omit [DecidableEq K] in
theorem offset_editEntry (kind : TransitionKind) (e : Entry K) :
    (editEntry kind e).offset = e.offset := by
  unfold editEntry
  split_ifs <;> rfl

omit [DecidableEq K] in
theorem layout_editAll (kind : TransitionKind) (t : PropertyTable K) :
    (Heap.editAll kind t).layout = t.layout.mapEntries (editEntry kind) := by
  unfold Heap.editAll editEntry
  split_ifs
  · exact PropertyTable.layout_mapEntries t _ _ _
  · exact PropertyTable.layout_mapEntries t _ _ _

/-- A Structure after `s` with a copy of its table; it forgets `s` if that is a dictionary. -/
theorem Backed.copied (hs : Backed kept s k) (hk : kept[id]? = some k) {u u' : PropertyTable K}
    (hlayout : u.layout = u'.layout) (hnumbered : u'.layout.Numbered k.inlineCapacity)
    (hslots : u'.layout.slots = k.table.layout.slots) (htable : s'.propertyTable = some u)
    (hcapacity : s'.inlineCapacity = s.inlineCapacity)
    (hkind : s'.dictionaryKind = s.dictionaryKind) (hmax : s'.maxOffset = s.maxOffset)
    (hprevious : s'.previousID = some id) (hreplay : s'.isPinnedPropertyTable = false →
      Layout.replay s' k.table.layout = u'.layout) : Backed kept (Heap.pinIfDictionary s' u)
      ⟨k.inlineCapacity, Kept.chained id k.dictionaryKind, k.dictionaryKind, u'⟩ := by
  have hdictionary : s'.isDictionary = true ↔ k.dictionaryKind ≠ .none := by
    rw [Structure.isDictionary, hkind, hs.dictionaryKind, decide_eq_true_eq]
  have hmax' : s'.maxOffset = lastOffset k.inlineCapacity u'.layout.slots := by
    rw [hmax, hs.maxOffset, hslots]
  unfold Heap.pinIfDictionary Kept.chained
  by_cases hnone : k.dictionaryKind = .none
  · rw [if_neg (by rw [hdictionary]; exact not_not.mpr hnone), if_pos hnone]
    have hlayout' : previousLayout kept (some id) = k.table.layout := by
      simp [previousLayout, hk]
    exact {
      inlineCapacity := hcapacity.trans hs.inlineCapacity
      inlineCapacity_lt := hs.inlineCapacity_lt
      previousID := hprevious
      dictionaryKind := hkind.trans hs.dictionaryKind
      maxOffset := hmax'
      numbered := hnumbered
      owned := by
        intro t ht
        obtain rfl := Option.some.inj (ht.symm.trans htable)
        exact hlayout
      pinned := fun _ => by rw [htable]; rfl
      replayed := by rw [hlayout']; exact hreplay
      grown := fun _ => by rw [hlayout']; exact hslots.ge
      unshared := by
        rintro p kp ⟨rfl⟩ hkp
        obtain rfl := Option.some.inj (hkp.symm.trans hk)
        rw [hnone]
        nofun
      uncacheable := fun h => nomatch hnone.symm.trans h }
  · rw [if_pos (hdictionary.mpr hnone), if_neg hnone]
    exact Backed.of_pinned rfl rfl hlayout (hcapacity.trans hs.inlineCapacity)
      hs.inlineCapacity_lt rfl (hkind.trans hs.dictionaryKind) hmax' hnumbered rfl

namespace Rebuilt

omit [DecidableEq K] in
theorem chained_lt (hk : kept[id]? = some k) :
    ∀ p, Kept.chained id k.dictionaryKind = some p → p < kept.length := by
  intro p hp
  unfold Kept.chained at hp
  split_ifs at hp
  obtain rfl := Option.some.inj hp
  exact (List.getElem?_eq_some_iff.mp hk).1

variable (hh : Rebuilt h kept)
include hh

theorem editAll (id : ℕ) (kind : TransitionKind) :
    Option.Rel Rebuilt
      (h.structures[id]? >>= fun s => h.propertyTable id >>= fun table =>
        h.push (Heap.pinIfDictionary
          { (s.createAfter id).pinForCaching (Heap.editAll kind table) with
            transitionKind := kind, maxOffset := s.maxOffset } (Heap.editAll kind table)))
      (Kept.copied kept id (Kept.chained id) (Heap.editAll kind)) := by
  refine hh.bind id fun s k hs hk hback => ?_
  obtain ⟨t, ht, hlayout⟩ := hh.propertyTable hs hk
  rw [ht]
  refine hh.push (hback.copied hk ?_ ?_ ?_ rfl rfl rfl rfl rfl nofun) (chained_lt hk)
  · rw [layout_editAll, layout_editAll, hlayout]
  · rw [layout_editAll]
    exact hback.numbered.mapEntries (offset_editEntry kind)
  · rw [layout_editAll]
    simp [Layout.slots, Layout.mapEntries]

theorem unedited (id : ℕ) {kind : TransitionKind} (name : Option K)
    (hkind : kind.isNonProperty = true ∧ name = none ∨ kind = .setBrand) :
    Option.Rel Rebuilt
      (h.structures[id]? >>= fun s => h.takePropertyTableOrCloneIfPinned id >>= fun taken =>
        taken.2.push (Heap.pinIfDictionary
          { s.createAfter id with
            transitionKind := kind, transitionPropertyName := name
            propertyTable := some taken.1, maxOffset := s.maxOffset } taken.1))
      (Kept.copied kept id (Kept.chained id) fun table => table) := by
  refine hh.bind id fun s k hs hk hback => ?_
  obtain ⟨t, h', htake, hlayout, hh'⟩ := hh.take hs hk
  rw [htake]
  refine hh'.push (hback.copied hk hlayout hback.numbered rfl rfl rfl rfl rfl rfl ?_)
    (chained_lt hk)
  intro _
  rcases hkind with ⟨-, rfl⟩ | rfl
  · rfl
  · cases name <;> rfl

theorem nonProperty (id : ℕ) (kind : TransitionKind) :
    Option.Rel Rebuilt (h.nonPropertyTransition id kind)
      (Kept.step kept (.nonProperty id kind)) := by
  unfold Heap.nonPropertyTransition Kept.step
  by_cases hkind : kind.isNonProperty = true
  · simp only [hkind]
    by_cases hedit : setsDontDeleteOnAllProperties kind = true
    · simp only [hedit]
      exact hh.editAll id kind
    · simp only [hedit]
      exact hh.unedited id none (.inl ⟨hkind, rfl⟩)
  · simp only [hkind]
    cases h.structures[id]? <;> exact .none

theorem setBrand (id : ℕ) (brand : K) : Option.Rel Rebuilt (h.setBrandTransition id brand)
      (Kept.copied kept id (Kept.chained id) fun table => table) :=
  hh.unedited id (some brand) (.inr rfl)

/-! ## Runs -/

theorem create {inlineCapacity : ℕ} (hcap : (inlineCapacity : ℤ) < firstOutOfLineOffset) :
    Option.Rel Rebuilt (h.push (Structure.root inlineCapacity))
      (some (kept ++ [⟨inlineCapacity, none, .none, PropertyTable.create 0⟩])) := by
  refine hh.push ?_ nofun
  exact {
    inlineCapacity := rfl
    inlineCapacity_lt := hcap
    previousID := rfl
    dictionaryKind := rfl
    maxOffset := rfl
    numbered := Perm.nil
    owned := nofun
    pinned := nofun
    replayed := fun _ => rfl
    grown := fun _ => le_rfl
    unshared := nofun
    uncacheable := nofun }

theorem ensurePropertyTable (id : ℕ) :
    Option.Rel Rebuilt (h.ensurePropertyTable id) (kept[id]?.map fun _ => kept) := by
  rw [Option.map_eq_bind]
  refine hh.bind id fun s k hs hk _ => ?_
  obtain ⟨t, ht, hlayout⟩ := hh.propertyTable hs hk
  rw [ht]
  exact hh.setTable hs hk (by rintro t ⟨⟩; exact hlayout) fun _ => rfl

theorem visitChildren (id : ℕ) :
    Option.Rel Rebuilt (h.visitChildren id) (kept[id]?.map fun _ => kept) := by
  rw [Option.map_eq_bind]
  refine hh.bind id fun s k hs hk _ => ?_
  by_cases hpinned : s.isPinnedPropertyTable = true
  · rw [if_pos hpinned]
    exact .some hh
  · rw [if_neg hpinned]
    exact hh.setTable hs hk nofun fun h => absurd h hpinned

omit hh in
theorem isUncacheableDictionary (hback : Backed kept s k) :
    s.isUncacheableDictionary = true ↔ k.dictionaryKind = .uncached := by
  rw [Structure.isUncacheableDictionary, hback.dictionaryKind, decide_eq_true_eq]

theorem addProperty (id : ℕ) (name : K) (attributes : UInt8) (overflowed : Bool) :
    Option.Rel Rebuilt (h.addNewPropertyTransition id name attributes overflowed)
      (Kept.step kept (.addProperty id name attributes overflowed)) := by
  refine hh.bind id fun s k hs hk hback => ?_
  have hdictionary : s.isDictionary = true ↔ k.dictionaryKind ≠ .none := by
    rw [Structure.isDictionary, hback.dictionaryKind, decide_eq_true_eq]
  refine rel_ite hdictionary (fun _ => .none) fun hnone => ?_
  cases overflowed with
  | false => exact hh.newTransition hs hk (by rw [not_not.mp hnone]; nofun) _
  | true => exact hh.newDictionary hs hk _ _

theorem removeProperty (id : ℕ) (name : K) (overflowed : Bool) :
    Option.Rel Rebuilt (h.removeNewPropertyTransition id name overflowed)
      (Kept.step kept (.removeProperty id name overflowed)) := by
  refine hh.bind id fun s k hs hk hback => ?_
  refine rel_ite (isUncacheableDictionary hback) (fun _ => .none) fun hkind => ?_
  cases overflowed with
  | false => exact hh.newTransition hs hk hkind _
  | true => exact hh.newDictionary hs hk _ _

theorem attributeChange (id : ℕ) (name : K) (attributes : UInt8) (overflowed : Bool) :
    Option.Rel Rebuilt (h.attributeChangeTransition id name attributes overflowed)
      (Kept.step kept (.attributeChange id name attributes overflowed)) := by
  refine hh.bind id fun s k hs hk hback => ?_
  refine rel_ite (isUncacheableDictionary hback) (fun hkind => ?_) fun hkind => ?_
  · exact hh.changeWithoutTransition hs hk (hh.childless hk hkind) _
  · cases overflowed with
    | false => exact hh.newTransition hs hk hkind _
    | true => exact hh.newDictionary hs hk _ _

theorem any_previousID (id : ℕ) : (h.structures.any fun s => s.previousID = some id) =
      kept.any fun k => k.previousID = some id := by
  rw [Bool.eq_iff_iff]
  have hprevious : h.structures.map Structure.previousID = kept.map Kept.previousID := by
    refine ext_getElem? fun i => ?_
    rw [getElem?_map, getElem?_map]
    rcases hh.lookup i with ⟨hs, hk⟩ | ⟨s, k, hs, hk, hback⟩
    · rw [hs, hk]
      rfl
    · rw [hs, hk, Option.map_some, Option.map_some, hback.previousID]
  have hmem := congrArg (some id ∈ ·) hprevious
  simpa using hmem

theorem addPropertyWithoutTransition (id : ℕ) (name : K)
    (attributes : UInt8) : Option.Rel Rebuilt (h.addPropertyWithoutTransition id name attributes)
      (Kept.step kept (.addPropertyWithoutTransition id name attributes)) := by
  rw [Heap.addPropertyWithoutTransition, Kept.step, hh.any_previousID]
  refine rel_ite Iff.rfl (fun _ => .none) fun hany => ?_
  have hchildren : ∀ k ∈ kept, k.previousID ≠ some id := by simpa using hany
  rcases hh.lookup id with ⟨hs, hk⟩ | ⟨s, k, hs, hk, -⟩
  · simp only [Heap.changeWithoutTransition, Kept.changed, hs, hk]
    exact .none
  · exact hh.changeWithoutTransition hs hk hchildren _

theorem removePropertyWithoutTransition (id : ℕ) (name : K) :
    Option.Rel Rebuilt (h.removePropertyWithoutTransition id name)
      (Kept.step kept (.removePropertyWithoutTransition id name)) := by
  refine hh.bind id fun s k hs hk hback => ?_
  exact rel_ite (isUncacheableDictionary hback)
    (fun hkind => hh.changeWithoutTransition hs hk (hh.childless hk hkind) _) fun _ => .none

/-- **One action** succeeds on the heap exactly when it does on the kept tables. -/
theorem step (a : Action K) : Option.Rel Rebuilt (h.step a) (Kept.step kept a) := by
  cases a with
  | create inlineCapacity =>
    exact rel_ite Iff.rfl hh.create fun _ => .none
  | addProperty id name attributes overflowed => exact hh.addProperty id name attributes overflowed
  | removeProperty id name overflowed => exact hh.removeProperty id name overflowed
  | attributeChange id name attributes overflowed =>
    exact hh.attributeChange id name attributes overflowed
  | addPropertyWithoutTransition id name attributes =>
    exact hh.addPropertyWithoutTransition id name attributes
  | removePropertyWithoutTransition id name => exact hh.removePropertyWithoutTransition id name
  | changePrototype id => exact hh.changePrototype id
  | nonProperty id kind => exact hh.nonProperty id kind
  | setBrand id brand => exact hh.setBrand id brand
  | ensurePropertyTable id => exact hh.ensurePropertyTable id
  | visitChildren id => exact hh.visitChildren id

theorem run (actions : List (Action K)) :
    Option.Rel Rebuilt (h.run actions) (Kept.run kept actions) := by
  induction actions generalizing h kept with
  | nil => exact .some hh
  | cons a actions ih =>
    have hstep := hh.step a
    rw [Heap.run, Kept.run, foldlM_cons, foldlM_cons]
    generalize h.step a = x at hstep ⊢
    generalize Kept.step kept a = y at hstep ⊢
    cases hstep with
    | none => exact .none
    | some hh' => exact ih hh'

end Rebuilt

/-- What can be seen of a table: the properties, the order in which they are enumerated, the free
offsets and the offset the next property gets. -/
structure SameTable (t t' : PropertyTable K) : Prop where
  get : ∀ key, t.get key = t'.get key
  forEachProperty : t.forEachProperty = t'.forEachProperty
  deletedOffsets : t.deletedOffsets = t'.deletedOffsets
  nextOffset : ∀ inlineCapacity, (t.nextOffset inlineCapacity).1 = (t'.nextOffset inlineCapacity).1

theorem SameTable.of_layout {t' : PropertyTable K} (ht : t.layout = t'.layout) :
    SameTable t t' where
  get key := by
    unfold PropertyTable.get
    rw [PropertyTable.find_eq_layout, PropertyTable.find_eq_layout, ht]
  forEachProperty := congrArg Layout.entries ht
  deletedOffsets := congrArg Layout.deletedOffsets ht
  nextOffset inlineCapacity := by
    rw [PropertyTable.nextOffset_fst, PropertyTable.nextOffset_fst, ht]

/-- **A property table can always be rebuilt.** Whatever the actions, they succeed on the heap when
they do with tables that are never stolen or dropped, and then `materializePropertyTable` gives for
each Structure a table that cannot be told from the kept one. -/
theorem materializePropertyTable_rebuilds (actions : List (Action K)) : Option.Rel
      (fun h kept => ∀ id,
        Option.Rel SameTable (h.materializePropertyTable id) (kept[id]?.map Kept.table))
      (Heap.empty.run actions) (Kept.run [] actions) := by
  have hempty : Rebuilt (Heap.empty : Heap K) [] := ⟨rfl, by simp⟩
  have hrun := hempty.run actions
  generalize Heap.empty.run actions = x at hrun ⊢
  generalize Kept.run [] actions = y at hrun ⊢
  cases hrun with
  | none => exact .none
  | some hh =>
    refine .some fun id => ?_
    rcases hh.lookup id with ⟨hs, hk⟩ | ⟨s, k, -, hk, -⟩
    · rw [hk]
      simp only [Heap.materializePropertyTable, hs]
      exact .none
    · obtain ⟨t, ht, hlayout⟩ := hh.materialize hk
      rw [ht, hk]
      exact .some (SameTable.of_layout hlayout)

end JscAndroid.Structures
