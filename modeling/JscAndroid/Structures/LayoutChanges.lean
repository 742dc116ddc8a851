import JscAndroid.Structures.Transitions

/-!
# Transitions on layouts

What a property transition does to a table depends on its layout only, and so does a step of the
replay; a Structure that remembers a change replays it (`Layout.replay_change`). The offsets in use
and the free ones are always the first ones there are (`Layout.Numbered`), so that `maxOffset` gives
the number of slots that a table for the Structure needs.
-/

namespace JscAndroid.Structures

open List

variable {K : Type} [DecidableEq K]

/-! ## Changes of a layout -/

namespace Layout

/-- `PropertyTable.change` on the layout. -/
def change (l : Layout K) (inlineCapacity : ℕ) : PropertyChange K → Option (ℤ × Layout K)
  | .addition name attributes =>
    if (l.find name).isSome then none
    else some (l.nextOffset inlineCapacity,
      l.popOffset.add ⟨name, l.nextOffset inlineCapacity, attributes⟩)
  | .deletion name =>
    (l.find name).map fun e => (e.offset, (l.remove name).addDeletedOffset e.offset)
  | .attributeChange name attributes =>
    (l.find name).map fun e => (e.offset, l.mapEntries (setAttributesOf name attributes))

/-- `Structure.replay` on the layout. -/
def replay (s : Structure K) (l : Layout K) : Layout K :=
  match s.transitionPropertyName with
  | none => l
  | some name =>
    match s.transitionKind with
    | .propertyAddition =>
      l.popOffset.add ⟨name, s.transitionOffset, s.transitionPropertyAttributes⟩
    | .propertyDeletion => (l.remove name).addDeletedOffset s.transitionOffset
    | .propertyAttributeChange =>
      l.mapEntries (setAttributesOf name s.transitionPropertyAttributes)
    | _ => l

theorem replay_change {l l' : Layout K} {s : Structure K} {c : PropertyChange K}
    (h : l.change s.inlineCapacity c = some (s.transitionOffset, l'))
    (hname : s.transitionPropertyName = some c.name) (hkind : s.transitionKind = c.kind)
    (hattributes : s.transitionPropertyAttributes = c.attributes) : replay s l = l' := by
  rw [replay, hname]
  cases c with
  | addition name attributes =>
    rw [hkind, hattributes]
    simp only [change] at h
    split_ifs at h
    obtain ⟨hoffset, rfl⟩ := Prod.mk.inj (Option.some.inj h)
    rw [← hoffset]
    rfl
  | deletion name =>
    rw [hkind]
    obtain ⟨e, -, he⟩ := Option.map_eq_some_iff.mp h
    obtain ⟨hoffset, rfl⟩ := Prod.mk.inj he
    rw [← hoffset]
    rfl
  | attributeChange name attributes =>
    rw [hkind, hattributes]
    obtain ⟨e, -, he⟩ := Option.map_eq_some_iff.mp h
    obtain ⟨-, rfl⟩ := Prod.mk.inj he
    rfl

/-! ## Offsets are used once -/

section
variable {inlineCapacity : ℕ} {l l' : Layout K}

section
variable (h : l.Numbered inlineCapacity) (hcap : (inlineCapacity : ℤ) < firstOutOfLineOffset)
include h hcap

omit [DecidableEq K] in
theorem Numbered.le_lastOffset {offset : ℤ}
    (hoffset : offset ∈ l.entries.map Entry.offset ++ l.deletedOffsets) :
    offset ≤ lastOffset inlineCapacity l.slots := by
  obtain ⟨n, hn, rfl⟩ := mem_map.mp (h.mem_iff.mp hoffset)
  exact offset_le_lastOffset hcap (mem_range.mp hn)

omit h hcap in
omit [DecidableEq K] in
theorem Numbered.mapEntries (h : l.Numbered inlineCapacity) {f : Entry K → Entry K}
    (hf : ∀ e, (f e).offset = e.offset) : (l.mapEntries f).Numbered inlineCapacity := by
  have hoffsets : Entry.offset ∘ f = Entry.offset := funext hf
  unfold Numbered slots Layout.mapEntries at *
  rwa [map_map, hoffsets, length_map]

/-- Taking an offset from the stack, or the next one there is, for a new name. -/
theorem Numbered.addition {name : K} {attributes : UInt8} (hnew : l.find name = none) :
    (l.popOffset.add ⟨name, l.nextOffset inlineCapacity, attributes⟩).Numbered inlineCapacity ∧
      l.slots ≤ (l.popOffset.add ⟨name, l.nextOffset inlineCapacity, attributes⟩).slots ∧
      max (l.nextOffset inlineCapacity) (lastOffset inlineCapacity l.slots) =
        lastOffset inlineCapacity
          (l.popOffset.add ⟨name, l.nextOffset inlineCapacity, attributes⟩).slots := by
  have hadd : l.popOffset.add ⟨name, l.nextOffset inlineCapacity, attributes⟩ =
      ⟨l.entries ++ [⟨name, l.nextOffset inlineCapacity, attributes⟩],
        l.deletedOffsets.dropLast⟩ := by
    rw [Layout.add, if_neg]
    · rfl
    · show ¬ (l.find name).isSome = true
      rw [hnew]
      exact Bool.false_ne_true
  rw [hadd]
  rcases eq_nil_or_concat l.deletedOffsets with hnil | ⟨offsets, offset, hoffsets⟩
  · -- no offset is free
    have hnext : l.nextOffset inlineCapacity =
        offsetForPropertyNumber l.entries.length inlineCapacity := by
      rw [nextOffset, hnil]
      rfl
    have hslots : l.slots = l.entries.length := by
      rw [slots, hnil]
      rfl
    unfold Numbered at h ⊢
    rw [hslots, hnil, append_nil] at h
    rw [hslots, hnil, hnext]
    refine ⟨?_, ?_, ?_⟩
    · simp only [slots, dropLast_nil, append_nil, length_append, length_nil, length_singleton,
        range_succ, map_append]
      exact h.append_right _
    · simp [slots]
    · rw [max_eq_left]
      · simp [slots, lastOffset]
      · exact (lastOffset_mono hcap l.entries.length).le
  · rw [concat_eq_append] at hoffsets
    have hnext : l.nextOffset inlineCapacity = offset := by
      rw [nextOffset, hoffsets]
      simp
    have hle : offset ≤ lastOffset inlineCapacity l.slots :=
      h.le_lastOffset hcap (by rw [hoffsets]; simp)
    have hslots : slots ⟨l.entries ++ [⟨name, offset, attributes⟩],
        l.deletedOffsets.dropLast⟩ = l.slots := by
      unfold slots
      rw [hoffsets]
      simp only [length_append, length_singleton, dropLast_concat]
      omega
    rw [hnext, max_eq_right hle]
    refine ⟨?_, hslots.ge, by rw [hslots]⟩
    unfold Numbered at h ⊢
    rw [hslots]
    refine Perm.trans ?_ h
    rw [hoffsets, dropLast_concat, map_append, append_assoc]
    exact (perm_append_comm).append_left _

omit h hcap in
theorem Numbered.deletion (h : l.Numbered inlineCapacity)
    (hkeys : (l.entries.map Entry.key).Nodup) {name : K} {e : Entry K} (he : l.find name = some e) :
    ((l.remove name).addDeletedOffset e.offset).Numbered inlineCapacity ∧
      ((l.remove name).addDeletedOffset e.offset).slots = l.slots := by
  obtain ⟨hmem, rfl⟩ := find_eq_some he
  have hperm : l.entries.Perm (e :: l.entries.filter fun e' => e'.key ≠ e.key) := by
    obtain ⟨front, back, hsplit⟩ := append_of_mem hmem
    rw [hsplit] at hkeys ⊢
    have hother : ∀ e' ∈ front ++ back, e'.key ≠ e.key := by
      intro e' he' hkey
      have hnodup := (perm_middle.map Entry.key).nodup_iff.mp hkeys
      rw [map_cons, nodup_cons] at hnodup
      exact hnodup.1 (hkey ▸ mem_map_of_mem he')
    have hfilter : (front ++ e :: back).filter (fun e' => e'.key ≠ e.key) = front ++ back := by
      rw [filter_append, filter_cons_of_neg (by simp), ← filter_append]
      exact filter_eq_self.mpr (by simpa using hother)
    rw [hfilter]
    exact perm_middle
  have hlength := hperm.length_eq
  have hslots : ((l.remove e.key).addDeletedOffset e.offset).slots = l.slots := by
    simp only [slots, remove, addDeletedOffset, length_append, length_singleton] at *
    rw [hlength, length_cons]
    omega
  refine ⟨?_, hslots⟩
  unfold Numbered at h ⊢
  rw [hslots]
  refine Perm.trans ?_ h
  rw [remove, addDeletedOffset, ← append_assoc]
  refine (perm_append_singleton _ _).trans ?_
  exact ((hperm.map Entry.offset).symm).append_right _

/-- **One change** keeps the offsets numbered and frees none of the slots. -/
theorem Numbered.change
    (hkeys : (l.entries.map Entry.key).Nodup) {c : PropertyChange K} {offset : ℤ}
    (hc : l.change inlineCapacity c = some (offset, l')) :
    l'.Numbered inlineCapacity ∧ l.slots ≤ l'.slots ∧
      c.newMaxOffset offset (lastOffset inlineCapacity l.slots) =
        lastOffset inlineCapacity l'.slots := by
  cases c with
  | addition name attributes =>
    simp only [Layout.change] at hc
    split_ifs at hc with hnew
    obtain ⟨rfl, rfl⟩ := Prod.mk.inj (Option.some.inj hc)
    exact h.addition hcap (by simpa using hnew)
  | deletion name =>
    obtain ⟨e, he, heq⟩ := Option.map_eq_some_iff.mp hc
    obtain ⟨rfl, rfl⟩ := Prod.mk.inj heq
    obtain ⟨hnumbered, hslots⟩ := h.deletion hkeys he
    exact ⟨hnumbered, hslots.ge, by rw [hslots]; rfl⟩
  | attributeChange name attributes =>
    obtain ⟨e, he, heq⟩ := Option.map_eq_some_iff.mp hc
    obtain ⟨rfl, rfl⟩ := Prod.mk.inj heq
    have hslots : (l.mapEntries (setAttributesOf name attributes)).slots = l.slots := by
      unfold slots Layout.mapEntries
      rw [length_map]
    exact ⟨h.mapEntries (offset_setAttributesOf name attributes), hslots.ge, by rw [hslots]; rfl⟩
end

end

end Layout

/-! ## Tables with one layout -/

section
variable {t t' : PropertyTable K}

theorem PropertyTable.change_layout (t : PropertyTable K) (inlineCapacity : ℕ)
    (c : PropertyChange K) : (t.change inlineCapacity c).map (Prod.map id PropertyTable.layout) =
      t.layout.change inlineCapacity c := by
  cases c with
  | addition name attributes =>
    simp only [change, addProperty, Layout.change, get, Option.isSome_map, find_eq_layout]
    split_ifs
    · rfl
    · simp only [Option.map_some, Prod.map, id, layout_add, layout_nextOffset, nextOffset_fst]
  | deletion name =>
    have htake : (t.take name).1 = (t.layout.find name).map fun e => (e.offset, e.attributes) := by
      rw [take, ← find_eq_layout]
      cases t.find name <;> rfl
    simp only [change, removeProperty, Option.map_map, htake]
    congr 1
    funext e
    simp [layout_addDeletedOffset, layout_take]
  | attributeChange name attributes =>
    have hupdate : (t.updateAttributeIfExists name attributes).1 =
        (t.layout.find name).map Entry.offset := by
      rw [updateAttributeIfExists, ← find_eq_layout]
      cases t.find name <;> rfl
    simp only [change, changeAttributes, Option.map_map, hupdate]
    congr 1
    funext e
    simp [layout_updateAttributeIfExists]

/-- On tables with one layout a change is possible for both or for none of them. -/
theorem PropertyTable.change_cases (h : t.layout = t'.layout) (inlineCapacity : ℕ)
    (c : PropertyChange K) :
    (t.change inlineCapacity c = none ∧ t'.change inlineCapacity c = none) ∨
      ∃ offset u u', t.change inlineCapacity c = some (offset, u) ∧
        t'.change inlineCapacity c = some (offset, u') ∧ u.layout = u'.layout ∧
        t'.layout.change inlineCapacity c = some (offset, u'.layout) := by
  have ht := t.change_layout inlineCapacity c
  have ht' := t'.change_layout inlineCapacity c
  rw [h] at ht
  rcases hc : t'.layout.change inlineCapacity c with _ | ⟨offset, l⟩
  · rw [hc, Option.map_eq_none_iff] at ht ht'
    exact .inl ⟨ht, ht'⟩
  · rw [hc] at ht ht'
    obtain ⟨⟨o, u⟩, hu, hou⟩ := Option.map_eq_some_iff.mp ht
    obtain ⟨⟨o', u'⟩, hu', hou'⟩ := Option.map_eq_some_iff.mp ht'
    obtain ⟨rfl, rfl⟩ := Prod.mk.inj hou
    obtain ⟨rfl, hl⟩ := Prod.mk.inj hou'
    refine .inr ⟨_, u, u', hu, hu', hl.symm, ?_⟩
    rw [hl]
    rfl

theorem Structure.layout_replay (s : Structure K) (t : PropertyTable K) :
    (s.replay t).layout = Layout.replay s t.layout := by
  unfold replay Layout.replay
  cases s.transitionPropertyName with
  | none => rfl
  | some name =>
    cases s.transitionKind with
    | propertyAddition =>
      exact (PropertyTable.layout_add _ _).trans
        (by rw [PropertyTable.layout_nextOffset])
    | propertyDeletion =>
      exact (PropertyTable.layout_addDeletedOffset _ _).trans
        (by rw [PropertyTable.layout_take])
    | propertyAttributeChange => exact PropertyTable.layout_updateAttributeIfExists _ _ _
    | _ => rfl

/-- The layout the replay of the Structures, newest first, makes of this one. -/
def replayAll (structures : List (Structure K)) (l : Layout K) : Layout K :=
  structures.reverse.foldl (fun l s => l.replay s) l

theorem replayAll_cons (s : Structure K) (structures : List (Structure K)) (l : Layout K) :
    replayAll (s :: structures) l = Layout.replay s (replayAll structures l) := by
  simp [replayAll]

theorem layout_foldl_replay (structures : List (Structure K)) (t : PropertyTable K) :
    (structures.foldl (fun table s => s.replay table) t).layout =
      structures.foldl (fun l s => Layout.replay s l) t.layout := by
  induction structures generalizing t with
  | nil => rfl
  | cons s structures ih =>
    rw [foldl_cons, foldl_cons, ih, Structure.layout_replay]
end

end JscAndroid.Structures
