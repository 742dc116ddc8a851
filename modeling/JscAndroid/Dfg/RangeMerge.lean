import JscAndroid.Dfg.Relationships

/-!
# Merging at the head of a block

The relationships at the head of a block have to hold whichever predecessor control comes from.
`mergeTo` copies what is live into a block it has not seen, and later merges each relationship at
the head with each incoming one over the same left node. A `RelationshipMap` is the list of its
entries.
-/

namespace JscAndroid.Dfg.RangeMerge

open Node Relationships List Option

variable {node : NodeFlowProjection} {relationships atHead : List Relationship} {r : Relationship}
variable {live : NodeFlowProjection → Bool}

abbrev RelationshipMap := List (NodeFlowProjection × List Relationship)

variable {map : RelationshipMap}

/-- `find`, the relationships of a node. -/
def find (map : RelationshipMap) (node : NodeFlowProjection) : Option (List Relationship) :=
  List.lookup node map

/-- `std::sort`. -/
def sorted (relationships : List Relationship) : List Relationship :=
  relationships.mergeSort fun a b => ¬ b.less a

/-- The relationships at the head of a block, and whether it is in `m_seenBlocks`. -/
structure Head where
  seen : Bool
  relationships : RelationshipMap

section
variable (graph : Graph)

/-- A merged relationship in the form that is at the head already, if there is one. -/
def preferExisting (constantRelationshipsAtHead : List Relationship)
    (newRelationship : Relationship) : Relationship :=
  if (asInt32 graph newRelationship.right.node).isSome then
    (constantRelationshipsAtHead.find? fun existing =>
      existing.isEquivalentTo graph newRelationship).getD newRelationship
  else newRelationship

/-- Filters a relationship into the first of the list that takes it; `none` if none does. -/
def filterInto (newRelationship : Relationship) :
    List Relationship → Option (List Relationship)
  | [] => none
  | existing :: rest =>
    match if existing.sameNodesAs newRelationship then existing.filter newRelationship
      else none with
    | some filtered => some (filtered :: rest)
    | none => (filterInto newRelationship rest).map (existing :: ·)

/-- The functor that `mergeTo` gives to `merge`. -/
def addMerged (constantRelationshipsAtHead mergedRelationships : List Relationship)
    (newRelationship : Relationship) : List Relationship :=
  let newRelationship := preferExisting graph constantRelationshipsAtHead newRelationship
  (filterInto newRelationship mergedRelationships).getD (mergedRelationships ++ [newRelationship])

/-- The new relationships of one node, before they are sorted. -/
def mergeEntry (atHead incoming : List Relationship) : List Relationship :=
  let constantRelationshipsAtHead := atHead.filter fun r => (asInt32 graph r.right.node).isSome
  (atHead.flatMap fun target => incoming.flatMap fun source => target.merge graph source).foldl
    (addMerged graph constantRelationshipsAtHead) []

/-- `mergeTo`, for the head of one block with the nodes that are live there: whether it changed, and
the new head. -/
def mergeTo (m_zero : NodeId) (liveAtHead : NodeFlowProjection → Bool)
    (relationshipMap : RelationshipMap) (head : Head) : Bool × Head :=
  let isLive := fun node => node = .primary m_zero || liveAtHead node
  if ¬ head.seen then
    let copied := (relationshipMap.filter fun entry => isLive entry.1).map fun entry =>
      (entry.1, sorted (entry.2.filter fun r => isLive r.right))
    (true, ⟨true, head.relationships ++
      copied.filter fun entry => (find head.relationships entry.1).isNone⟩)
  else
    let merged := head.relationships.filterMap fun entry =>
      (find relationshipMap entry.1).map fun incoming =>
        (entry.1, sorted (mergeEntry graph entry.2 incoming))
    (merged ≠ head.relationships, ⟨true, merged⟩)
end

/-! ## Soundness -/

section
variable {graph : Graph}

/-- All relationships of the map are true of the values. -/
def Satisfies (env : Env graph) (map : RelationshipMap) : Prop :=
  ∀ entry ∈ map, ∀ r ∈ entry.2, r.Holds env

theorem mem_of_find (h : find map node = some relationships) : (node, relationships) ∈ map := by
  induction map with
  | nil => simp [find] at h
  | cons entry map ih =>
    unfold find at h ih
    rw [lookup_cons] at h
    split at h
    case h_1 heq =>
      obtain rfl := beq_iff_eq.mp heq
      obtain rfl := some.inj h
      exact mem_cons_self
    case h_2 => exact mem_cons_of_mem _ (ih h)

theorem mem_sorted : r ∈ sorted relationships ↔ r ∈ relationships := mem_mergeSort

variable {env : Env graph}

theorem Satisfies.find (h : Satisfies env map) (hfind : find map node = some relationships) :
    ∀ r ∈ relationships, r.Holds env :=
  h _ (mem_of_find hfind)

theorem holds_preferExisting (hr : r.Holds env) : (preferExisting graph atHead r).Holds env := by
  unfold preferExisting
  split_ifs
  · cases hfind : atHead.find? fun existing => existing.isEquivalentTo graph r with
    | none => exact hr
    | some existing =>
      have hequiv := find?_some hfind
      exact (holds_of_isEquivalentTo hequiv).mpr hr
  · exact hr

section
variable {P : Relationship → Prop}
  (hfilter : ∀ {r other result : Relationship}, r.sameNodesAs other = true →
    r.filter other = some result → P r → P other → P result)
include hfilter

theorem filterInto_forall {list result : List Relationship} (h : filterInto r list = some result)
    (hr : P r) (hlist : ∀ x ∈ list, P x) : ∀ x ∈ result, P x := by
  induction list generalizing result with
  | nil => simp [filterInto] at h
  | cons existing rest ih =>
    rw [forall_mem_cons] at hlist
    obtain ⟨hexisting, hrest⟩ := hlist
    unfold filterInto at h
    split at h
    case h_1 filtered hfiltered =>
      obtain rfl := some.inj h
      split_ifs at hfiltered with hsame
      rw [forall_mem_cons]
      exact ⟨hfilter hsame hfiltered hexisting hr, hrest⟩
    case h_2 =>
      obtain ⟨rest', hrest', rfl⟩ := map_eq_some_iff.mp h
      rw [forall_mem_cons]
      exact ⟨hexisting, ih hrest' hrest⟩

/-- The functor keeps what is true of all that is merged so far. -/
theorem addMerged_forall {merged : List Relationship} (hmerged : ∀ x ∈ merged, P x)
    (hr : P (preferExisting graph atHead r)) : ∀ x ∈ addMerged graph atHead merged r, P x := by
  unfold addMerged
  dsimp only
  cases hinto : filterInto (preferExisting graph atHead r) merged with
  | none =>
    rw [getD_none, forall_mem_append]
    exact ⟨hmerged, by simpa using hr⟩
  | some result => exact filterInto_forall hfilter hinto hr hmerged

theorem foldl_addMerged_forall {merged list : List Relationship} (hmerged : ∀ x ∈ merged, P x)
    (hlist : ∀ x ∈ list, P (preferExisting graph atHead x)) :
    ∀ x ∈ list.foldl (addMerged graph atHead) merged, P x := by
  refine foldlRecOn (motive := fun merged => ∀ x ∈ merged, P x) list _ hmerged ?_
  intro _ hmerged r hr
  exact addMerged_forall hfilter hmerged (hlist r hr)

/-- A property of the relationships that `merge` gives is one of the merged ones. -/
theorem mergeEntry_forall {incoming : List Relationship}
    (h : ∀ target ∈ atHead, ∀ source ∈ incoming, ∀ r ∈ target.merge graph source,
      P (preferExisting graph (atHead.filter fun r => (asInt32 graph r.right.node).isSome) r)) :
    ∀ r ∈ mergeEntry graph atHead incoming, P r := by
  refine foldl_addMerged_forall hfilter (by simp) fun r hr => ?_
  obtain ⟨target, htarget, hr⟩ := mem_flatMap.mp hr
  obtain ⟨source, hsource, hr⟩ := mem_flatMap.mp hr
  exact h target htarget source hsource r hr
end

/-- The merged relationships of a node are true if all that were at the head are, or all that
come in. -/
theorem holds_mergeEntry {incoming : List Relationship}
    (h : (∀ r ∈ atHead, r.Holds env) ∨ ∀ r ∈ incoming, r.Holds env) :
    ∀ r ∈ mergeEntry graph atHead incoming, r.Holds env := by
  refine mergeEntry_forall holds_filter fun target htarget source hsource r hr => ?_
  exact holds_preferExisting
    (holds_merge hr (h.imp (fun h => h target htarget) fun h => h source hsource))

theorem satisfies_merged {m_zero : NodeId} {atHead incoming : RelationshipMap}
    (h : Satisfies env atHead ∨ Satisfies env incoming) :
    Satisfies env (mergeTo graph m_zero live incoming ⟨true, atHead⟩).2.relationships := by
  intro entry hentry r hr
  obtain ⟨old, hold, hmerged⟩ := mem_filterMap.mp hentry
  obtain ⟨source, hsource, rfl⟩ := map_eq_some_iff.mp hmerged
  exact holds_mergeEntry (h.imp (fun h => h old hold) fun h => h.find hsource) r
    (mem_sorted.mp hr)

theorem satisfies_copied {m_zero : NodeId} {incoming : RelationshipMap}
    (h : Satisfies env incoming) :
    Satisfies env (mergeTo graph m_zero live incoming ⟨false, []⟩).2.relationships := by
  intro entry hentry r hr
  obtain ⟨hcopied, -⟩ := mem_filter.mp hentry
  obtain ⟨old, hold, rfl⟩ := mem_map.mp hcopied
  exact h old (mem_of_mem_filter hold) r (mem_of_mem_filter (mem_sorted.mp hr))

/-- **Merging at the head of a block is sound.** What is stored there is true of all values of
which all relationships at the head were true, or all incoming ones; at the head of a new block, of
all values of which the incoming ones are. -/
theorem mergeTo_sound (graph : Graph) (m_zero : NodeId) (live : NodeFlowProjection → Bool)
    (atHead incoming : RelationshipMap) (env : Env graph) :
    (Satisfies env atHead ∨ Satisfies env incoming →
      Satisfies env (mergeTo graph m_zero live incoming ⟨true, atHead⟩).2.relationships) ∧
    (Satisfies env incoming →
      Satisfies env (mergeTo graph m_zero live incoming ⟨false, []⟩).2.relationships) :=
  ⟨satisfies_merged, satisfies_copied⟩
end

/-- All values are zero. -/
def zeroEnv : Env fun _ => .other where
  value _ := 0
  int _ := ⟨by decide, by decide⟩
  constant _ _ h := nomatch h

/-- The second node is below the third one plus 1. -/
def belowNext : RelationshipMap :=
  [(.primary 1, [⟨.primary 1, .primary 2, .LessThan, 1, by decide, by decide, by decide⟩])]

theorem mergeTo_sound_zero :
    Satisfies zeroEnv (mergeTo (fun _ => .other) 0 (fun _ => true) belowNext
      ⟨true, belowNext⟩).2.relationships ∧
    Satisfies zeroEnv (mergeTo (fun _ => .other) 0 (fun _ => true) belowNext
      ⟨false, []⟩).2.relationships := by
  have hbelow : Satisfies zeroEnv belowNext := by
    simp [Satisfies, belowNext, Relationship.Holds, Kind.Holds, zeroEnv]
  have hsound := mergeTo_sound (fun _ => .other) 0 (fun _ => true) belowNext belowNext zeroEnv
  exact ⟨hsound.1 (.inl hbelow), hsound.2 hbelow⟩

end JscAndroid.Dfg.RangeMerge
