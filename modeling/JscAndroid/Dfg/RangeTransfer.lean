import JscAndroid.Dfg.RangeMerge

/-!
# What a node does to the relationships

`executeNode` adds what is known once a node has executed without an exit, and follows one equality
on either side. The last pass rewrites nodes by the relationships before them. A property of all
relationships before a node holds of those after it, once it is kept by the ways the phase derives
one relationship from others and holds of what the node adds.
-/

namespace JscAndroid.Dfg.RangeTransfer

open Node Relationships RangeMerge List
open NodeFlowProjection (primary shadow)

variable {node : NodeFlowProjection} {relationships : List Relationship} {r : Relationship}

/-! ## Adding a relationship -/

/-- Stores the relationships of a node. -/
def store (map : RelationshipMap) (node : NodeFlowProjection) (relationships : List Relationship) :
    RelationshipMap :=
  if (find map node).isSome then
    map.map fun entry => if entry.1 = node then (node, relationships) else entry
  else map ++ [(node, relationships)]

section
variable (graph : Graph)

/-- `right()->isInt32Constant()`. -/
def constantRight (r : Relationship) : Bool := (asInt32 graph r.right.node).isSome

/-- Refines a relationship by a less vague one over a constant. -/
def refineBy (relationship other : Relationship) : Relationship :=
  if other.kind.vagueness < relationship.kind.vagueness ∧ constantRight graph other then
    relationship.filterConstant graph other
  else relationship

/-- Refines a relationship by what is known already. -/
def refineSelf (relationships : List Relationship) (relationship : Relationship) : Relationship :=
  if relationship.kind.vagueness ≠ minVagueness then
    relationships.foldl (refineBy graph) relationship
  else relationship

/-- Refines what is known by a relationship. -/
def refineOthers (relationship : Relationship) (relationships : List Relationship) :
    List Relationship :=
  if relationship.kind.vagueness ≠ maxVagueness then
    relationships.map fun other =>
      if other.kind.vagueness > relationship.kind.vagueness ∧ constantRight graph other then
        other.filterConstant graph relationship
      else other
  else relationships

/-- What `setOneSide` does first with relationships over constants. -/
def refineConstants (relationships : List Relationship) (relationship : Relationship) :
    Relationship × List Relationship :=
  if constantRight graph relationship then
    let relationship := refineSelf graph relationships relationship
    (relationship, refineOthers graph relationship relationships)
  else (relationship, relationships)

/-- A relationship that takes another one over the same nodes in. -/
def takeIn (other relationship : Relationship) : Option Relationship :=
  if other.sameNodesAs relationship then other.filter relationship else none

/-- From `@a op @b + C` and `@a == @c + D`: `@c op @b + C - D`. -/
def throughLeft (relationship other : Relationship) : Option Relationship :=
  if other.offset ≠ minInt ∧ relationship.right ≠ other.right then
    (relationship.setLeft other.right).bind (·.addToOffset (-other.offset))
  else none

/-- From `@a op @b + C` and `@b == @c + D`: `@a op @c + (C + D)`. -/
def throughRight (relationship possibleEquality : Relationship) : Option Relationship :=
  if possibleEquality.kind ≠ .Equal ∨ possibleEquality.offset = minInt ∨
      possibleEquality.right = relationship.left then none
  else (relationship.setRight possibleEquality.right).bind (·.addToOffset possibleEquality.offset)

/-- The loop of `setOneSide`: the relationships of the left node, whether one of them took the new
one in, and what follows through equalities. -/
def filterAll (alive : Bool) (relationship : Relationship) :
    List Relationship → List Relationship × Bool × List Relationship
  | [] => ([], false, [])
  | other :: rest =>
    let filtered := takeIn other relationship
    let other := filtered.getD other
    let toAdd := if alive ∧ other.kind = .Equal then (throughLeft relationship other).toList else []
    let (relationships, found, more) := filterAll alive relationship rest
    (other :: relationships, filtered.isSome || found, toAdd ++ more)

/-- `setOneSide` without the relationships it goes on with, which are returned; `alive` says that
`timeToLive` is not zero. -/
def oneSide (alive : Bool) (map : RelationshipMap) (relationship : Relationship) :
    RelationshipMap × List Relationship :=
  let (relationship, relationships) := refineConstants graph
    ((find map relationship.left).getD []) relationship
  let (relationships, found, toAdd) := filterAll alive relationship relationships
  let more := if alive ∧ relationship.kind ≠ .Equal then
    ((find map relationship.right).getD []).filterMap (throughRight relationship) else []
  (store map relationship.left (if found then relationships else relationships ++ [relationship]),
    toAdd ++ more)

/-- `setOneSide`. -/
def setOneSide : ℕ → RelationshipMap → Relationship → RelationshipMap
  | 0, map, relationship => (oneSide graph false map relationship).1
  | timeToLive + 1, map, relationship =>
    let (map, toAdd) := oneSide graph true map relationship
    toAdd.foldl (setOneSide timeToLive) map

/-- `setRelationship`; a null relationship changes nothing. -/
def setRelationship (timeToLive : ℕ) (map : RelationshipMap) (relationship : Option Relationship) :
    RelationshipMap :=
  match relationship with
  | none => map
  | some relationship =>
    let map := setOneSide graph timeToLive map relationship
    match relationship.flipped with
    | none => map
    | some flipped => setOneSide graph timeToLive map flipped

/-- Sets relationships one after another. -/
def setAll (timeToLive : ℕ) (map : RelationshipMap) (toAdd : List Relationship) : RelationshipMap :=
  toAdd.foldl (fun map r => setRelationship graph timeToLive map (some r)) map

/-! ## Nodes -/

def kill (node : NodeFlowProjection) (map : RelationshipMap) : RelationshipMap :=
  (map.filter fun entry => entry.1 ≠ node).map fun entry =>
    (entry.1, entry.2.filter fun r => r.right ≠ node)

def setEquivalence (oldNode newNode : NodeFlowProjection) (map : RelationshipMap) :
    RelationshipMap :=
  let map := setRelationship graph 1 map (safeCreate graph oldNode newNode .Equal 0)
  match find map oldNode with
  | none => map
  | some relationships =>
    setAll graph 1 map (relationships.filterMap fun r =>
      if newNode.node = r.right.node then none else r.setLeft newNode)

/-- The largest of the lower bounds. -/
def minValue (relationships : List Relationship) : ℤ :=
  relationships.foldl (fun bound r => max bound (r.minValueOfLeft graph)) minInt

/-- The smallest of the upper bounds. -/
def maxValue (relationships : List Relationship) : ℤ :=
  relationships.foldl (fun bound r => min bound (r.maxValueOfLeft graph)) maxInt

/-- Copies what is known of the operand of an addition to the addition. -/
def copyThroughAdd (node child1 : NodeId) (offset : ℤ) (map : RelationshipMap) : RelationshipMap :=
  match find map (primary child1) with
  | none => map
  | some relationships =>
    setAll graph 0 map (relationships.filterMap fun r =>
      if r.right = primary node then none
      else (r.setLeft (primary node)).bind (·.addToOffset offset))

/-- Compares a node with the sum of the terms, unless the sum overflows. -/
def setBound (m_zero : NodeId) (left : NodeFlowProjection) (kind : Kind) (terms : List ℤ)
    (map : RelationshipMap) : RelationshipMap :=
  if sumOverflows terms then map
  else setRelationship graph 0 map (safeCreate graph left (primary m_zero) kind terms.sum)

/-- The case `ArithAdd` of `executeNode`, for the addition of a constant. -/
def executeAddConstant (m_zero node child1 : NodeId) (offset : ℤ) (map : RelationshipMap) :
    RelationshipMap :=
  let map := setRelationship graph 1 map
    (safeCreate graph (primary node) (primary child1) .Equal offset)
  let map := copyThroughAdd graph node child1 offset map
  let map := if offset > 0 then
      setBound graph m_zero (primary node) .GreaterThan [minInt, offset, -1]
        (setBound graph m_zero (primary child1) .LessThan [maxInt, -offset, 1] map)
    else map
  if offset < 0 ∧ offset ≠ minInt then
    setBound graph m_zero (primary node) .LessThan [maxInt, -offset, 1]
      (setBound graph m_zero (primary child1) .GreaterThan [minInt, offset, -1] map)
  else map

/-- `executeNode`, of a node with the operation `op`. -/
def executeNode (m_zero node : NodeId) (op : Op) (map : RelationshipMap) : RelationshipMap :=
  match op with
  | .CheckInBounds child1 child2 =>
    let map := setRelationship graph 1 map
      (safeCreate graph (primary child1) (primary child2) .LessThan 0)
    setRelationship graph 1 map
      (safeCreate graph (primary child1) (primary m_zero) .GreaterThan (-1))
  | .ArithAbs child1 int32Use mode =>
    if ¬ int32Use then map
    else if shouldCheckOverflow mode then
      setRelationship graph 1 map
        (safeCreate graph (primary node) (primary m_zero) .GreaterThan (-1))
    else if minValue graph ((find map (primary child1)).getD []) > minInt then
      setRelationship graph 1 map
        (safeCreate graph (primary node) (primary m_zero) .GreaterThan (-1))
    else map
  | .ArithAdd child1 child2 int32Use mode =>
    if ¬ int32Use ∨ mode ≠ .CheckOverflow then map
    else
      match asInt32 graph child2 with
      | none => map
      | some offset => executeAddConstant graph m_zero node child1 offset map
  | .GetArrayLength | .GetVectorLength =>
    setRelationship graph 1 map
      (safeCreate graph (primary node) (primary m_zero) .GreaterThan (-1))
  | .Upsilon child1 phi =>
    setEquivalence graph (primary child1) (shadow phi) (kill (shadow phi) map)
  | .Phi => setEquivalence graph (shadow node) (primary node) map
  | _ => map

/-! ## Rewriting -/

/-- The rewriting of an `ArithAbs` whose operand is between the bounds. -/
def rewriteAbs (child1 : NodeId) (mode : ArithMode) (minValue maxValue : ℤ) : Op :=
  let absIsUnchecked : Bool := ¬ shouldCheckOverflow mode
  if minValue ≥ 0 then .Identity child1
  else if maxValue < 0 ∨ absIsUnchecked ∧ maxValue ≤ 0 then
    .ArithNegate child1 (if absIsUnchecked ∨ minValue > minInt then .Unchecked else mode)
  else if minValue > minInt then .ArithAbs child1 true .Unchecked
  else .ArithAbs child1 true mode

/-- What makes a bounds check redundant. -/
def provesInBounds (length : NodeId) (relationships : List Relationship) : Bool :=
  (relationships.any fun r => r.minValueOfLeft graph ≥ 0) &&
  relationships.any fun r => r.right = primary length ∧
    (r.kind = .Equal ∧ r.offset < 0 ∨ r.kind = .LessThan ∧ r.offset ≤ 0)

/-- A round of the last loop of `run`: the operation of the node after it, and the relationships. -/
def transformNode (m_zero node : NodeId) (op : Op) (map : RelationshipMap) :
    Op × RelationshipMap :=
  let unchanged := (op, executeNode graph m_zero node op map)
  -- the node executes once before it is changed, and once after
  let rewritten := fun newOp =>
    (newOp, executeNode graph m_zero node newOp (executeNode graph m_zero node op map))
  match op with
  | .ArithAbs child1 int32Use mode =>
    if ¬ int32Use then unchanged
    else
      match find map (primary child1) with
      | none => unchanged
      | some relationships =>
        rewritten (rewriteAbs child1 mode (minValue graph relationships)
          (maxValue graph relationships))
  | .ArithAdd child1 child2 int32Use mode =>
    if ¬ int32Use ∨ mode ≠ .CheckOverflow then unchanged
    else
      match asInt32 graph child2, find map (primary child1) with
      | some offset, some relationships =>
        if sumOverflows [minValue graph relationships, offset] ∨
            sumOverflows [maxValue graph relationships, offset] then unchanged
        else rewritten (.ArithAdd child1 child2 int32Use .Unchecked)
      | _, _ => unchanged
  | .CheckInBounds child1 child2 =>
    match find map (primary child1) with
    | none => unchanged
    | some relationships =>
      if provesInBounds graph child2 relationships then rewritten (.Identity child1) else unchanged
  | _ => unchanged
end

variable {graph : Graph}

/-! ## Properties of all relationships -/

/-- A property of relationships that is kept by what the phase does with them. -/
structure Closed (graph : Graph) (P : Relationship → Prop) : Prop where
  filter : ∀ {r other result}, r.sameNodesAs other = true → r.filter other = some result →
    P r → P other → P result
  filterConstant : ∀ {r other}, r.left = other.left → P r → P other →
    P (r.filterConstant graph other)
  throughLeft : ∀ {r other result}, r.left = other.left → other.kind = .Equal → P r → P other →
    throughLeft r other = some result → P result
  throughRight : ∀ {r other result}, r.right = other.left → P r → P other →
    throughRight r other = some result → P result
  flipped : ∀ {r result}, r.flipped = some result → P r → P result

/-- Every relationship is stored under its left node and has the property. -/
def Holding (P : Relationship → Prop) (map : RelationshipMap) : Prop :=
  ∀ entry ∈ map, ∀ r ∈ entry.2, r.left = entry.1 ∧ P r

section
variable {P : Relationship → Prop} {map : RelationshipMap}

theorem Holding.find (h : Holding P map) (hfind : RangeMerge.find map node = some relationships) :
    ∀ r ∈ relationships, r.left = node ∧ P r :=
  h _ (mem_of_find hfind)

theorem Holding.getD (h : Holding P map) (node : NodeFlowProjection) :
    ∀ r ∈ (RangeMerge.find map node).getD [], r.left = node ∧ P r := by
  cases hfind : RangeMerge.find map node with
  | none => simp
  | some relationships => exact h.find hfind

theorem holding_store (h : Holding P map) (hr : ∀ r ∈ relationships, r.left = node ∧ P r) :
    Holding P (store map node relationships) := by
  unfold store
  split_ifs
  · intro entry hentry
    obtain ⟨old, hold, rfl⟩ := mem_map.mp hentry
    split_ifs
    · exact hr
    · exact h old hold
  · intro entry hentry
    rcases mem_append.mp hentry with hentry | hentry
    · exact h entry hentry
    · obtain rfl := mem_singleton.mp hentry
      exact hr

variable (hP : Closed graph P)
include hP

theorem refineBy_spec {other : Relationship} (hl : other.left = r.left) (hr : P r)
    (hother : P other) : P (refineBy graph r other) ∧ (refineBy graph r other).left = r.left := by
  unfold refineBy
  split_ifs
  · exact ⟨hP.filterConstant hl.symm hr hother, (follows_filterConstant hl.symm).left⟩
  · exact ⟨hr, rfl⟩

section
variable (h : ∀ x ∈ relationships, x.left = r.left ∧ P x) (hr : P r)
include h hr

theorem refineSelf_spec :
    P (refineSelf graph relationships r) ∧ (refineSelf graph relationships r).left = r.left := by
  unfold refineSelf
  split_ifs with hvague
  · -- the left node stays, so the relationships are about it all along
    clear hvague
    induction relationships generalizing r with
    | nil => exact ⟨hr, rfl⟩
    | cons x relationships ih =>
      rw [forall_mem_cons] at h
      obtain ⟨hr', hl'⟩ := refineBy_spec hP h.1.1 hr h.1.2
      obtain ⟨h₁, h₂⟩ := ih (fun y hy => hl'.symm ▸ h.2 y hy) hr'
      exact ⟨h₁, h₂.trans hl'⟩
  · exact ⟨hr, rfl⟩

theorem refineOthers_spec : ∀ x ∈ refineOthers graph r relationships, x.left = r.left ∧ P x := by
  unfold refineOthers
  split_ifs
  · intro x hx
    obtain ⟨y, hy, rfl⟩ := mem_map.mp hx
    obtain ⟨hyl, hyP⟩ := h y hy
    split_ifs
    · exact ⟨(follows_filterConstant hyl).left.trans hyl, hP.filterConstant hyl hyP hr⟩
    · exact ⟨hyl, hyP⟩
  · exact h

theorem refineConstants_spec :
    P (refineConstants graph relationships r).1 ∧ ∀ x ∈ (refineConstants graph relationships r).2,
        x.left = (refineConstants graph relationships r).1.left ∧ P x := by
  unfold refineConstants
  split_ifs
  · obtain ⟨hr', hl'⟩ := refineSelf_spec hP h hr
    exact ⟨hr', refineOthers_spec hP (fun x hx => hl'.symm ▸ h x hx) hr'⟩
  · exact ⟨hr, h⟩
end

theorem takeIn_spec {other : Relationship} (h : other.left = r.left ∧ P other) (hr : P r) :
    ((takeIn other r).getD other).left = r.left ∧ P ((takeIn other r).getD other) := by
  unfold takeIn
  split_ifs with hsame
  · cases hfilter : other.filter r with
    | none => exact h
    | some result =>
      exact ⟨(filter_nodes hsame hfilter).1.trans h.1, hP.filter hsame hfilter h.2 hr⟩
  · exact h

theorem filterAll_spec (alive : Bool) (h : ∀ x ∈ relationships, x.left = r.left ∧ P x) (hr : P r) :
    (∀ x ∈ (filterAll alive r relationships).1, x.left = r.left ∧ P x) ∧
      ∀ x ∈ (filterAll alive r relationships).2.2, P x := by
  induction relationships with
  | nil => simp [filterAll]
  | cons other rest ih =>
    rw [forall_mem_cons] at h
    obtain ⟨ih₁, ih₂⟩ := ih h.2
    have hother := takeIn_spec hP h.1 hr
    refine ⟨forall_mem_cons.mpr ⟨hother, ih₁⟩, forall_mem_append.mpr ⟨fun x hx => ?_, ih₂⟩⟩
    split_ifs at hx with halive
    · exact hP.throughLeft hother.1.symm halive.2 hr hother.2 (Option.mem_toList.mp hx)
    · simp at hx

theorem oneSide_spec (alive : Bool) (h : Holding P map) (hr : P r) :
    Holding P (oneSide graph alive map r).1 ∧ ∀ x ∈ (oneSide graph alive map r).2, P x := by
  obtain ⟨hr', hothers⟩ := refineConstants_spec hP (h.getD r.left) hr
  unfold oneSide
  dsimp only
  generalize (refineConstants graph ((RangeMerge.find map r.left).getD []) r).1 = refined at *
  obtain ⟨hlist, htoAdd⟩ := filterAll_spec hP alive hothers hr'
  refine ⟨holding_store h ?_, forall_mem_append.mpr ⟨htoAdd, fun x hx => ?_⟩⟩
  · split_ifs
    · exact hlist
    · rw [forall_mem_append]
      exact ⟨hlist, by simpa using hr'⟩
  · split_ifs at hx
    · obtain ⟨other, hother, hthrough⟩ := mem_filterMap.mp hx
      obtain ⟨hother₁, hother₂⟩ := h.getD refined.right other hother
      exact hP.throughRight hother₁.symm hr' hother₂ hthrough
    · simp at hx

/-- **`setOneSide`** keeps a property that is closed. -/
theorem holding_setOneSide (timeToLive : ℕ) (h : Holding P map) (hr : P r) :
    Holding P (setOneSide graph timeToLive map r) := by
  induction timeToLive generalizing map r with
  | zero => exact (oneSide_spec hP false h hr).1
  | succ timeToLive ih =>
    obtain ⟨hmap, htoAdd⟩ := oneSide_spec hP true h hr
    unfold setOneSide
    dsimp only
    generalize (oneSide graph true map r).1 = map' at *
    generalize (oneSide graph true map r).2 = toAdd at *
    induction toAdd generalizing map' with
    | nil => exact hmap
    | cons x toAdd ih' =>
      rw [forall_mem_cons] at htoAdd
      exact ih' (setOneSide graph timeToLive map' x) (ih hmap htoAdd.1) htoAdd.2

theorem holding_setRelationship (timeToLive : ℕ) {relationship : Option Relationship}
    (h : Holding P map) (hr : ∀ r, relationship = some r → P r) :
    Holding P (setRelationship graph timeToLive map relationship) := by
  unfold setRelationship
  cases relationship with
  | none => exact h
  | some r =>
    have hset := holding_setOneSide hP timeToLive h (hr r rfl)
    dsimp only
    cases hflip : r.flipped with
    | none => exact hset
    | some flipped => exact holding_setOneSide hP timeToLive hset (hP.flipped hflip (hr r rfl))

theorem holding_setAll {timeToLive : ℕ} {toAdd : List Relationship} (h : Holding P map)
    (hr : ∀ r ∈ toAdd, P r) : Holding P (setAll graph timeToLive map toAdd) := by
  induction toAdd generalizing map with
  | nil => exact h
  | cons r toAdd ih =>
    rw [forall_mem_cons] at hr
    refine ih (holding_setRelationship hP timeToLive h ?_) hr.2
    rintro r' ⟨rfl⟩
    exact hr.1

/-- `setEquivalence` keeps the property if the equality and the copies have it. -/
theorem holding_setEquivalence {oldNode newNode : NodeFlowProjection} (h : Holding P map)
    (hequal : ∀ r, safeCreate graph oldNode newNode .Equal 0 = some r → P r)
    (hcopy : ∀ r r', r.left = oldNode → P r → r.setLeft newNode = some r' → P r') :
    Holding P (setEquivalence graph oldNode newNode map) := by
  have hset := holding_setRelationship hP 1 h hequal
  unfold setEquivalence
  dsimp only
  split
  case h_1 => exact hset
  case h_2 relationships hfind =>
    refine holding_setAll hP hset fun r' hr' => ?_
    obtain ⟨r, hr, heq⟩ := mem_filterMap.mp hr'
    split_ifs at heq
    obtain ⟨hl, hr⟩ := hset.find hfind r hr
    exact hcopy r r' hl hr heq
end

theorem holding_kill {P : Relationship → Prop} {map : RelationshipMap} (h : Holding P map)
    (node : NodeFlowProjection) :
    Holding (fun r => P r ∧ r.left ≠ node ∧ r.right ≠ node) (kill node map) := by
  intro entry hentry r hr
  obtain ⟨old, hold, rfl⟩ := mem_map.mp hentry
  obtain ⟨hmem, hkey⟩ := mem_filter.mp hold
  obtain ⟨hr, hright⟩ := mem_filter.mp hr
  obtain ⟨hl, hrP⟩ := h old hmem r hr
  refine ⟨hl, hrP, ?_, by simpa using hright⟩
  rw [hl]
  simpa using hkey

/-! ## What a node adds -/

/-- The relationships that `executeNode` sets for a node. -/
inductive Fact (graph : Graph) (m_zero node : NodeId) (map : RelationshipMap) :
    Op → NodeFlowProjection → Kind → NodeFlowProjection → ℤ → Prop
  | belowLength (child1 child2 : NodeId) : Fact graph m_zero node map (.CheckInBounds child1 child2)
      (primary child1) .LessThan (primary child2) 0
  | nonNegative (child1 child2 : NodeId) : Fact graph m_zero node map (.CheckInBounds child1 child2)
      (primary child1) .GreaterThan (primary m_zero) (-1)
  | abs (child1 : NodeId) (mode : ArithMode)
      (h : shouldCheckOverflow mode = true ∨
        minValue graph ((find map (primary child1)).getD []) > minInt) :
      Fact graph m_zero node map (.ArithAbs child1 true mode)
        (primary node) .GreaterThan (primary m_zero) (-1)
  | add (child1 child2 : NodeId) (offset : ℤ) (h : asInt32 graph child2 = some offset) :
      Fact graph m_zero node map (.ArithAdd child1 child2 true .CheckOverflow)
        (primary node) .Equal (primary child1) offset
  | addBelow (child1 child2 : NodeId) (offset : ℤ) (left : NodeId)
      (h : asInt32 graph child2 = some offset)
      (hleft : 0 < offset ∧ left = child1 ∨ offset < 0 ∧ left = node) :
      Fact graph m_zero node map (.ArithAdd child1 child2 true .CheckOverflow)
        (primary left) .LessThan (primary m_zero) (maxInt - offset + 1)
  | addAbove (child1 child2 : NodeId) (offset : ℤ) (left : NodeId)
      (h : asInt32 graph child2 = some offset)
      (hleft : 0 < offset ∧ left = node ∨ offset < 0 ∧ left = child1) :
      Fact graph m_zero node map (.ArithAdd child1 child2 true .CheckOverflow)
        (primary left) .GreaterThan (primary m_zero) (minInt + offset - 1)
  | arrayLength : Fact graph m_zero node map .GetArrayLength
      (primary node) .GreaterThan (primary m_zero) (-1)
  | vectorLength : Fact graph m_zero node map .GetVectorLength
      (primary node) .GreaterThan (primary m_zero) (-1)
  | upsilon (child1 phi : NodeId) : Fact graph m_zero node map (.Upsilon child1 phi)
      (primary child1) .Equal (shadow phi) 0
  | phi : Fact graph m_zero node map .Phi (shadow node) .Equal (primary node) 0

/-- The nodes whose relationships `executeNode` copies, with the node they are copied to and the
difference of the two. -/
inductive Copies (graph : Graph) (node : NodeId) :
    Op → NodeFlowProjection → NodeFlowProjection → ℤ → Prop
  | add (child1 child2 : NodeId) (offset : ℤ) (h : asInt32 graph child2 = some offset) :
      Copies graph node (.ArithAdd child1 child2 true .CheckOverflow)
        (primary child1) (primary node) offset
  | upsilon (child1 phi : NodeId) :
      Copies graph node (.Upsilon child1 phi) (primary child1) (shadow phi) 0
  | phi : Copies graph node .Phi (shadow node) (primary node) 0

/-- The relationships that are left of those before the node. -/
def kept (op : Op) (map : RelationshipMap) : RelationshipMap :=
  match op with
  | .Upsilon _ phi => kill (shadow phi) map
  | _ => map

section
variable {P : Relationship → Prop} (hP : Closed graph P) {map : RelationshipMap}
include hP

theorem holding_copyThroughAdd {node child1 : NodeId} {offset : ℤ} (h : Holding P map)
    (hcopy : ∀ r r' : Relationship, r.left = primary child1 → P r → r'.left = primary node →
      r'.right = r.right → r'.kind = r.kind → r'.offset = r.offset + offset → P r') :
    Holding P (copyThroughAdd graph node child1 offset map) := by
  unfold copyThroughAdd
  split
  case h_1 => exact h
  case h_2 relationships hfind =>
    refine holding_setAll hP h fun r' hr' => ?_
    obtain ⟨r, hr, heq⟩ := mem_filterMap.mp hr'
    split_ifs at heq
    obtain ⟨hl, hrP⟩ := h.find hfind r hr
    obtain ⟨moved, hmoved, hadd⟩ := Option.bind_eq_some_iff.mp heq
    obtain ⟨hl₁, hr₁, hk₁, ho₁⟩ := setLeft_some hmoved
    obtain ⟨hl₂, hr₂, hk₂, ho₂⟩ := addToOffset_some hadd
    exact hcopy r r' hl hrP (hl₂.trans hl₁) (hr₂.trans hr₁) (hk₂.trans hk₁) (by rw [ho₂, ho₁])

theorem holding_setBound {m_zero : NodeId} {left : NodeFlowProjection} {kind : Kind}
    {terms : List ℤ} (h : Holding P map)
    (hbound : ∀ r, safeCreate graph left (primary m_zero) kind terms.sum = some r → P r) :
    Holding P (setBound graph m_zero left kind terms map) := by
  unfold setBound
  split_ifs
  · exact h
  · exact holding_setRelationship hP 0 h hbound

variable {m_zero node : NodeId}

theorem holding_executeAddConstant {child1 child2 : NodeId} {offset : ℤ}
    (hconstant : asInt32 graph child2 = some offset) (h : Holding P map)
    (hfact : ∀ left kind right offset,
      Fact graph m_zero node map (.ArithAdd child1 child2 true .CheckOverflow)
        left kind right offset → ∀ r, safeCreate graph left right kind offset = some r → P r)
    (hcopy : ∀ r r' : Relationship, r.left = primary child1 → P r → r'.left = primary node →
      r'.right = r.right → r'.kind = r.kind → r'.offset = r.offset + offset → P r') :
    Holding P (executeAddConstant graph m_zero node child1 offset map) := by
  have hset : Holding P (copyThroughAdd graph node child1 offset (setRelationship graph 1 map
      (safeCreate graph (primary node) (primary child1) .Equal offset))) :=
    holding_copyThroughAdd hP
      (holding_setRelationship hP 1 h (hfact _ _ _ _ (.add child1 child2 offset hconstant))) hcopy
  have hbelow : ∀ {left : NodeId} {m : RelationshipMap},
      0 < offset ∧ left = child1 ∨ offset < 0 ∧ left = node → Holding P m →
      Holding P (setBound graph m_zero (primary left) .LessThan [maxInt, -offset, 1] m) := by
    intro left m hleft hm
    refine holding_setBound hP hm ?_
    have hsum : [maxInt, -offset, 1].sum = maxInt - offset + 1 := by
      simp only [sum_cons, sum_nil]
      omega
    rw [hsum]
    exact hfact _ _ _ _ (.addBelow child1 child2 offset left hconstant hleft)
  have habove : ∀ {left : NodeId} {m : RelationshipMap},
      0 < offset ∧ left = node ∨ offset < 0 ∧ left = child1 → Holding P m →
      Holding P (setBound graph m_zero (primary left) .GreaterThan [minInt, offset, -1] m) := by
    intro left m hleft hm
    refine holding_setBound hP hm ?_
    have hsum : [minInt, offset, -1].sum = minInt + offset - 1 := by
      simp only [sum_cons, sum_nil]
      omega
    rw [hsum]
    exact hfact _ _ _ _ (.addAbove child1 child2 offset left hconstant hleft)
  unfold executeAddConstant
  dsimp only
  split_ifs with hneg hpos hpos
  · omega
  · exact hbelow (Or.inr ⟨hneg.1, rfl⟩) (habove (Or.inr ⟨hneg.1, rfl⟩) hset)
  · exact habove (Or.inl ⟨hpos, rfl⟩) (hbelow (Or.inl ⟨hpos, rfl⟩) hset)
  · exact hset

/-- **`executeNode`** keeps the property if what it sets and what it copies have it. -/
theorem holding_executeNode {op : Op} (h : Holding P (kept op map))
    (hfact : ∀ left kind right offset, Fact graph m_zero node map op left kind right offset →
      ∀ r, safeCreate graph left right kind offset = some r → P r)
    (hcopy : ∀ left left' offset, Copies graph node op left left' offset →
      ∀ r r' : Relationship, r.left = left → P r → r'.left = left' →
        r'.right = r.right → r'.kind = r.kind → r'.offset = r.offset + offset → P r') :
    Holding P (executeNode graph m_zero node op map) := by
  have hmoved : ∀ {oldNode newNode : NodeFlowProjection}, Copies graph node op oldNode newNode 0 →
      ∀ r r' : Relationship, r.left = oldNode → P r → r.setLeft newNode = some r' → P r' := by
    intro oldNode newNode hcopies r r' hl hr hset
    obtain ⟨hl', hr', hk', ho'⟩ := setLeft_some hset
    exact hcopy _ _ _ hcopies r r' hl hr hl' hr' hk' (by rw [ho', add_zero])
  cases op with
  | CheckInBounds child1 child2 =>
    exact holding_setRelationship hP 1
      (holding_setRelationship hP 1 h (hfact _ _ _ _ (.belowLength child1 child2)))
      (hfact _ _ _ _ (.nonNegative child1 child2))
  | ArithAbs child1 int32Use mode =>
    cases int32Use with
    | false => exact h
    | true =>
      simp only [executeNode, not_true_eq_false, if_false]
      split_ifs with hmode hmin
      · exact holding_setRelationship hP 1 h (hfact _ _ _ _ (.abs child1 mode (Or.inl hmode)))
      · exact holding_setRelationship hP 1 h (hfact _ _ _ _ (.abs child1 mode (Or.inr hmin)))
      · exact h
  | ArithAdd child1 child2 int32Use mode =>
    unfold executeNode
    dsimp only
    split_ifs with huse
    · exact h
    · obtain ⟨rfl, rfl⟩ : int32Use = true ∧ mode = .CheckOverflow := by simpa using huse
      cases hconstant : asInt32 graph child2 with
      | none => exact h
      | some offset =>
        exact holding_executeAddConstant hP hconstant h hfact
          (hcopy _ _ _ (.add child1 child2 offset hconstant))
  | GetArrayLength => exact holding_setRelationship hP 1 h (hfact _ _ _ _ .arrayLength)
  | GetVectorLength => exact holding_setRelationship hP 1 h (hfact _ _ _ _ .vectorLength)
  | Upsilon child1 phi =>
    exact holding_setEquivalence hP h (hfact _ _ _ _ (.upsilon child1 phi))
      (hmoved (.upsilon child1 phi))
  | Phi => exact holding_setEquivalence hP h (hfact _ _ _ _ .phi) (hmoved .phi)
  | _ => exact h
end

end JscAndroid.Dfg.RangeTransfer
