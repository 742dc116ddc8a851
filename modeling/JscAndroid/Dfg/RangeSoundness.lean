import JscAndroid.Dfg.RangeTransfer

/-!
# Soundness of the range optimization

The relationships before a node are true of the values before it; those after it are true of the
values after it, and a rewritten node does what the node did. A node that executes gets a new value,
so nothing may be said of it before: relationships at the head of a block are about nodes that are
live there, and in SSA form the nodes of the block are not.
-/

namespace JscAndroid.Dfg.RangeSoundness

open Node Relationships RangeMerge RangeTransfer Relationship List Function
open NodeFlowProjection (primary shadow)

variable {graph : Graph}
variable {offset x : ℤ} {kind : Kind} {relationships : List Relationship}
variable {node : NodeFlowProjection} {mode : ArithMode} {newOp : Op}
variable {incoming : List RelationshipMap}

/-! ## Values -/

/-- `ArithAbs` of an `int`; `none` is an exit. -/
def absInt32 (mode : ArithMode) (x : ℤ) : Option ℤ :=
  let result := wrapInt32 |x|
  if shouldCheckOverflow mode ∧ result < 0 then none else some result

/-- `ArithAdd` of `int`s; `none` is an exit. -/
def addInt32 (mode : ArithMode) (x y : ℤ) : Option ℤ :=
  if shouldCheckOverflow mode ∧ ¬ IsInt32 (x + y) then none else some (wrapInt32 (x + y))

/-- `ArithNegate` of an `int`; `none` is an exit. -/
def negateInt32 (mode : ArithMode) (x : ℤ) : Option ℤ :=
  if shouldCheckOverflow mode ∧ (¬ IsInt32 (-x) ∨ shouldCheckNegativeZero mode ∧ x = 0) then none
  else some (wrapInt32 (-x))

/-- An `int` as `uint32_t`. -/
def unsigned (x : ℤ) : ℤ := x % 2 ^ 32

/-- The length that a `CheckInBounds` compares with is not negative. -/
def LengthNotNegative (env : Env graph) (op : Op) : Prop :=
  ∀ child1 child2, op = .CheckInBounds child1 child2 → 0 ≤ env.value (primary child2)

/-- The node may have the value `v` when it executes without an exit. Nothing uses the value of a
`CheckInBounds`, which makes an unsigned comparison. -/
def Produces (env : Env graph) (node : NodeId) : Op → ℤ → Prop
  | .JSConstant value, v => v = value
  | .ArithAbs child1 true mode, v => absInt32 mode (env.value (primary child1)) = some v
  | .ArithAdd child1 child2 true mode, v =>
    addInt32 mode (env.value (primary child1)) (env.value (primary child2)) = some v
  | .ArithNegate child1 mode, v => negateInt32 mode (env.value (primary child1)) = some v
  | .Identity child1, v => v = env.value (primary child1)
  | .CheckInBounds child1 child2, _ =>
    unsigned (env.value (primary child1)) < unsigned (env.value (primary child2))
  | .GetArrayLength, v | .GetVectorLength, v => 0 ≤ v
  | .Phi, v => v = env.value (shadow node)
  | .Upsilon _ _, _ => False
  | _, _ => True

/-- Executing a node without an exit: it gets a value, or, for `Upsilon`, its `Phi` gets a shadow
value. -/
inductive Executes (graph : Graph) (node : NodeId) (op : Op) (env env' : Env graph) : Prop
  | value (v : ℤ) (produces : Produces env node op v)
      (update : env'.value = update env.value (primary node) v)
  | upsilon (child1 phi : NodeId) (is : op = .Upsilon child1 phi)
      (update : env'.value = update env.value (shadow phi) (env.value (primary child1)))

/-! ## Truth is closed -/

section
variable {env : Env graph} {r other result : Relationship}

/-- A relationship moved to another left node, with the offset changed by as much as the node. -/
theorem holds_moveLeft (hvalue : env.value result.left = env.value r.left + offset)
    (hright : result.right = r.right) (hkind : result.kind = r.kind)
    (hoffset : result.offset = r.offset + offset) (hr : r.Holds env) : result.Holds env := by
  rw [Holds] at hr ⊢
  rw [hkind, hright]
  revert hr
  cases r.kind <;> simp only [Kind.Holds] <;> omega

theorem holds_throughLeft (hl : r.left = other.left) (hk : other.kind = .Equal) (hr : r.Holds env)
    (hother : other.Holds env) (h : throughLeft r other = some result) : result.Holds env := by
  unfold throughLeft at h
  split_ifs at h
  obtain ⟨moved, hmoved, hadd⟩ := Option.bind_eq_some_iff.mp h
  obtain ⟨hl₁, hr₁, hk₁, ho₁⟩ := setLeft_some hmoved
  obtain ⟨hl₂, hr₂, hk₂, ho₂⟩ := addToOffset_some hadd
  refine holds_moveLeft ?_ (hr₂.trans hr₁) (hk₂.trans hk₁) (by rw [ho₂, ho₁]) hr
  rw [holds_iff env hk] at hother
  simp only [Kind.Holds] at hother
  rw [hl₂, hl₁, hl]
  omega

theorem holds_throughRight (hright : r.right = other.left) (hr : r.Holds env)
    (hother : other.Holds env) (h : throughRight r other = some result) : result.Holds env := by
  unfold throughRight at h
  split_ifs at h with hguard
  have hk : other.kind = .Equal := by
    by_contra hne
    exact hguard (Or.inl hne)
  obtain ⟨moved, hmoved, hadd⟩ := Option.bind_eq_some_iff.mp h
  obtain ⟨hl₁, hr₁, hk₁, ho₁⟩ := setRight_some hmoved
  obtain ⟨hl₂, hr₂, hk₂, ho₂⟩ := addToOffset_some hadd
  rw [holds_iff env hk] at hother
  rw [Holds] at hr ⊢
  rw [hk₂, hl₂, hr₂, hk₁, hl₁, hr₁]
  rw [hright, hother] at hr
  revert hr
  cases r.kind <;> simp only [Kind.Holds] <;> omega

/-- **Truth** is kept by everything the phase does with relationships. -/
theorem closed_holds (env : Env graph) : Closed graph (Holds env) where
  filter := holds_filter
  filterConstant := holds_filterConstant
  throughLeft := holds_throughLeft
  throughRight := holds_throughRight
  flipped h hr := (holds_flipped h).mpr hr

theorem holds_safeCreate {left right : NodeFlowProjection}
    (h : kind.Holds (env.value left) (env.value right + offset)) :
    ∀ r, safeCreate graph left right kind offset = some r → r.Holds env := by
  intro r hr
  obtain ⟨hl, hright, hk, ho⟩ := safeCreate_some hr
  rwa [Holds, hl, hright, hk, ho]

variable {map : RelationshipMap}

theorem minValue_le (h : ∀ r ∈ relationships, r.left = node ∧ r.Holds env) :
    minValue graph relationships ≤ env.value node := by
  refine foldlRecOn (motive := (· ≤ env.value node)) relationships _ (env.int node).1 ?_
  intro bound hbound r hr
  obtain ⟨rfl, hholds⟩ := h r hr
  exact max_le hbound (minValueOfLeft_le hholds)

theorem le_maxValue (h : ∀ r ∈ relationships, r.left = node ∧ r.Holds env) :
    env.value node ≤ maxValue graph relationships := by
  refine foldlRecOn relationships _ (env.int node).2 ?_
  intro bound hbound r hr
  obtain ⟨rfl, hholds⟩ := h r hr
  exact le_min hbound (le_maxValueOfLeft hholds)

theorem value_zero {m_zero : NodeId} (hzero : graph m_zero = .JSConstant 0) :
    env.value (primary m_zero) = 0 :=
  env.constant (primary m_zero) 0 (by simp [asInt32, primary, hzero])
end

/-! ## One node -/

section
variable {env env' : Env graph} {m_zero node : NodeId} {op : Op} {map : RelationshipMap}

theorem absInt32_nonneg {v : ℤ} (hx : IsInt32 x) (h : absInt32 mode x = some v)
    (hne : shouldCheckOverflow mode = true ∨ minInt < x) : 0 ≤ v := by
  rw [isInt32_iff] at hx
  unfold absInt32 at h
  dsimp only at h
  split_ifs at h with hcheck
  obtain rfl := Option.some.inj h
  rcases hne with hne | hne
  · exact not_lt.mp fun hlt => hcheck ⟨hne, hlt⟩
  · have hmin : minInt = -2 ^ 31 := rfl
    rw [wrapInt32_of_isInt32 (isInt32_iff.mpr _)]
    · exact abs_nonneg x
    · rcases abs_cases x with ⟨habs, -⟩ | ⟨habs, -⟩ <;> rw [habs] <;> omega

theorem addInt32_checked {y v : ℤ} (h : addInt32 .CheckOverflow x y = some v) : v = x + y := by
  unfold addInt32 at h
  split_ifs at h with hcheck
  have hint : IsInt32 (x + y) := by
    by_contra hne
    exact hcheck ⟨rfl, hne⟩
  rw [wrapInt32_of_isInt32 hint] at h
  exact (Option.some.inj h).symm

theorem unsigned_lt {y : ℤ} (hx : IsInt32 x) (hy : IsInt32 y) (hnonneg : 0 ≤ y)
    (h : unsigned x < unsigned y) : 0 ≤ x ∧ x < y := by
  rw [isInt32_iff] at hx hy
  unfold unsigned at h
  omega

theorem value_of_ne {v : ℤ} (update : env'.value = update env.value (primary node) v)
    {child : NodeId} (hne : child ≠ node) :
    env'.value (primary child) = env.value (primary child) := by
  rw [update, update_of_ne (by simpa [primary] using hne)]

/-- The node that relationships are copied to differs from the other by the offset. -/
theorem value_copies (hchildren : node ∉ op.children) (hexec : Executes graph node op env env')
    {left left' : NodeFlowProjection} (hcopies : Copies graph node op left left' offset) :
    env'.value left' = env'.value left + offset := by
  cases hexec with
  | upsilon child1 phi is update =>
    subst is
    cases hcopies
    simp [update, primary, shadow]
  | value v produces update =>
    have hnode : env'.value (primary node) = v := by rw [update, update_self]
    cases hcopies with
    | add child1 child2 offset hconstant =>
      have hne : child1 ≠ node := by
        rintro rfl
        simp [Op.children] at hchildren
      have hv := addInt32_checked produces
      rw [env.constant (primary child2) offset hconstant] at hv
      rw [hnode, hv, value_of_ne update hne]
    | upsilon child1 phi => exact produces.elim
    | phi =>
      have hshadow : env'.value (shadow node) = env.value (shadow node) := by
        rw [update, update_of_ne (by simp [primary, shadow])]
      rwa [hshadow, hnode, add_zero]

section
variable (hzero : graph m_zero = .JSConstant 0) (hchildren : node ∉ op.children)
variable (hexec : Executes graph node op env env') (hlength : LengthNotNegative env op)
include hzero hchildren hexec hlength

theorem fact_holds (h : Holding (Holds env') map) {left right : NodeFlowProjection}
    (hfact : Fact graph m_zero node map op left kind right offset) :
    kind.Holds (env'.value left) (env'.value right + offset) := by
  have hz : env'.value (primary m_zero) = 0 := value_zero hzero
  cases hexec with
  | upsilon child1 phi is update =>
    subst is
    cases hfact
    simp [Kind.Holds, update, primary, shadow]
  | value v produces update =>
    have hnode : env'.value (primary node) = v := by rw [update, update_self]
    have hother := @value_of_ne _ env env' node v update
    have hint := fun p => isInt32_iff.mp (env'.int p)
    have hmin : minInt = -2 ^ 31 := rfl
    have hmax : maxInt = 2 ^ 31 - 1 := rfl
    cases hfact with
    | belowLength child1 child2 =>
      simp only [Op.children, mem_cons, not_mem_nil, or_false, not_or] at hchildren
      have := unsigned_lt (env.int _) (env.int _) (hlength child1 child2 rfl) produces
      rw [hother (Ne.symm hchildren.1), hother (Ne.symm hchildren.2)]
      simp only [Kind.Holds]
      omega
    | nonNegative child1 child2 =>
      simp only [Op.children, mem_cons, not_or] at hchildren
      have := unsigned_lt (env.int _) (env.int _) (hlength child1 child2 rfl) produces
      rw [hother (Ne.symm hchildren.1)]
      simp only [Kind.Holds]
      omega
    | abs child1 mode hmode =>
      have hne : child1 ≠ node := by
        simpa [Op.children, eq_comm] using hchildren
      have hnonneg : 0 ≤ v := by
        refine absInt32_nonneg (env.int _) produces (hmode.imp id fun hmin => ?_)
        rw [← hother hne]
        exact lt_of_lt_of_le hmin (minValue_le (h.getD _))
      simp only [Kind.Holds]
      omega
    | add child1 child2 c hc =>
      exact value_copies hchildren (.value v produces update) (.add child1 child2 _ hc)
    | addBelow child1 child2 c left hc hleft =>
      have hsum := value_copies hchildren (.value v produces update) (.add child1 child2 c hc)
      have hnode' := hint (primary node)
      simp only [Kind.Holds]
      rcases hleft with ⟨hpos, rfl⟩ | ⟨hneg, rfl⟩ <;> omega
    | addAbove child1 child2 c left hc hleft =>
      have hsum := value_copies hchildren (.value v produces update) (.add child1 child2 c hc)
      have hchild' := hint (primary child1)
      simp only [Kind.Holds]
      rcases hleft with ⟨hpos, rfl⟩ | ⟨hneg, rfl⟩ <;> omega
    | arrayLength =>
      have hnonneg : 0 ≤ v := produces
      simp only [Kind.Holds]
      omega
    | vectorLength =>
      have hnonneg : 0 ≤ v := produces
      simp only [Kind.Holds]
      omega
    | upsilon child1 phi => exact produces.elim
    | phi =>
      have hcopies := value_copies hchildren (.value v produces update) .phi
      simp only [Kind.Holds]
      omega

/-- **A node that executes** leaves true relationships, if those that are kept are. -/
theorem holding_execute (h : Holding (Holds env') (kept op map)) :
    Holding (Holds env') (executeNode graph m_zero node op map) := by
  refine holding_executeNode (closed_holds env') h ?_ ?_
  · intro left kind right offset hfact
    refine holds_safeCreate ?_
    cases op with
    | Upsilon child1 phi =>
      cases hfact
      have hcopies := value_copies hchildren hexec (.upsilon child1 phi)
      simp only [Kind.Holds]
      omega
    | _ => exact fact_holds hzero hchildren hexec hlength h hfact
  · intro left left' offset hcopies r r' hl hr hl' hright hkind hoffset
    refine holds_moveLeft ?_ hright hkind hoffset hr
    rw [hl', hl]
    exact value_copies hchildren hexec hcopies
end

/-- Nothing is said of the node, unless it is a constant. -/
def Fresh (graph : Graph) (node : NodeId) (map : RelationshipMap) : Prop :=
  (asInt32 graph node).isSome ∨
    Holding (fun r => r.left ≠ primary node ∧ r.right ≠ primary node) map

/-- What is kept of the relationships before a node is about values that it does not change. -/
theorem holding_kept (hfresh : Fresh graph node map)
    (hexec : Executes graph node op env env') (h : Holding (Holds env) map) :
    Holding (Holds env') (kept op map) := by
  have hframe : ∀ {p : NodeFlowProjection} {v : ℤ} {r : Relationship},
      env'.value = update env.value p v → r.left ≠ p → r.right ≠ p → r.Holds env →
      r.Holds env' := by
    intro p v r update hl hr hholds
    rwa [Holds, update, update_of_ne hl, update_of_ne hr]
  cases hexec with
  | upsilon child1 phi is update =>
    subst is
    intro entry hentry r hr
    obtain ⟨hl, hholds, hne⟩ := holding_kill h (shadow phi) entry hentry r hr
    exact ⟨hl, hframe update hne.1 hne.2 hholds⟩
  | value v produces update =>
    have hkept : kept op map = map := by
      cases op with
      | Upsilon child1 phi => exact produces.elim
      | _ => rfl
    rw [hkept]
    intro entry hentry r hr
    obtain ⟨hl, hholds⟩ := h entry hentry r hr
    refine ⟨hl, ?_⟩
    rcases hfresh with hconstant | hfresh
    · obtain ⟨c, hc⟩ := Option.isSome_iff_exists.mp hconstant
      have hsame : env'.value = env.value := by
        funext p
        by_cases hp : p = primary node
        · rw [hp, env'.constant _ c hc, env.constant _ c hc]
        · rw [update, update_of_ne hp]
      rwa [Holds, hsame]
    · obtain ⟨-, hne⟩ := hfresh entry hentry r hr
      exact hframe update hne.1 hne.2 hholds

/-! ## Rewriting a node -/

/-- The rewritings of `transformNode`, with what it knows when it makes them. -/
inductive Rewrites (graph : Graph) (map : RelationshipMap) : Op → Op → Prop
  | abs (child1 : NodeId) (mode : ArithMode) (relationships : List Relationship)
      (hfind : find map (primary child1) = some relationships) :
      Rewrites graph map (.ArithAbs child1 true mode)
        (rewriteAbs child1 mode (minValue graph relationships) (maxValue graph relationships))
  | add (child1 child2 : NodeId) (offset : ℤ) (relationships : List Relationship)
      (hconstant : asInt32 graph child2 = some offset)
      (hfind : find map (primary child1) = some relationships)
      (hmin : sumOverflows [minValue graph relationships, offset] = false)
      (hmax : sumOverflows [maxValue graph relationships, offset] = false) :
      Rewrites graph map (.ArithAdd child1 child2 true .CheckOverflow)
        (.ArithAdd child1 child2 true .Unchecked)
  | inBounds (child1 child2 : NodeId) (relationships : List Relationship)
      (hfind : find map (primary child1) = some relationships)
      (hbounds : provesInBounds graph child2 relationships = true) :
      Rewrites graph map (.CheckInBounds child1 child2) (.Identity child1)

/-- A node is left as it is, or executes, is rewritten and executes again. -/
theorem transformNode_cases (m_zero node : NodeId) (op : Op) (map : RelationshipMap) :
    transformNode graph m_zero node op map = (op, executeNode graph m_zero node op map) ∨
    ∃ newOp, Rewrites graph map op newOp ∧ transformNode graph m_zero node op map =
      (newOp, executeNode graph m_zero node newOp (executeNode graph m_zero node op map)) := by
  cases op with
  | ArithAbs child1 int32Use mode =>
    cases int32Use with
    | false => exact Or.inl rfl
    | true =>
      cases hfind : find map (primary child1) with
      | none => exact Or.inl (by simp [transformNode, hfind])
      | some relationships =>
        exact Or.inr ⟨_, .abs child1 mode relationships hfind, by simp [transformNode, hfind]⟩
  | ArithAdd child1 child2 int32Use mode =>
    by_cases huse : int32Use = true ∧ mode = .CheckOverflow
    · obtain ⟨rfl, rfl⟩ := huse
      cases hconstant : asInt32 graph child2 with
      | none => exact Or.inl (by simp [transformNode, hconstant])
      | some offset =>
        cases hfind : find map (primary child1) with
        | none => exact Or.inl (by simp [transformNode, hfind])
        | some relationships =>
          by_cases hover : sumOverflows [minValue graph relationships, offset] = true ∨
              sumOverflows [maxValue graph relationships, offset] = true
          · exact Or.inl (by simp [transformNode, hconstant, hfind, hover])
          · rw [not_or, Bool.not_eq_true, Bool.not_eq_true] at hover
            exact Or.inr ⟨_, .add child1 child2 offset relationships hconstant hfind
              hover.1 hover.2, by simp [transformNode, hconstant, hfind, hover]⟩
    · refine Or.inl ?_
      have hor : ¬ int32Use = true ∨ mode ≠ .CheckOverflow := by tauto
      simp only [transformNode, if_pos hor]
  | CheckInBounds child1 child2 =>
    cases hfind : find map (primary child1) with
    | none => exact Or.inl (by simp [transformNode, hfind])
    | some relationships =>
      by_cases hbounds : provesInBounds graph child2 relationships = true
      · exact Or.inr ⟨_, .inBounds child1 child2 relationships hfind hbounds,
          by simp [transformNode, hfind, hbounds]⟩
      · exact Or.inl (by simp [transformNode, hfind, hbounds])
  | _ => exact Or.inl rfl

/-- What it means that a node may be rewritten when it executes with these values. -/
inductive SameOutcome (env : Env graph) : Op → Op → Prop
  | same (op : Op) : SameOutcome env op op
  | inBounds (index length : NodeId) (hnonneg : 0 ≤ env.value (primary index))
      (hlt : env.value (primary index) < env.value (primary length)) :
      SameOutcome env (.CheckInBounds index length) (.Identity index)
  | add (child1 child2 : NodeId)
      (hint : IsInt32 (env.value (primary child1) + env.value (primary child2))) :
      SameOutcome env (.ArithAdd child1 child2 true .CheckOverflow)
        (.ArithAdd child1 child2 true .Unchecked)
  | absIdentity (child1 : NodeId) (mode : ArithMode)
      (h : absInt32 mode (env.value (primary child1)) = some (env.value (primary child1))) :
      SameOutcome env (.ArithAbs child1 true mode) (.Identity child1)
  | absNegate (child1 : NodeId) (mode newMode : ArithMode)
      (h : absInt32 mode (env.value (primary child1)) =
        negateInt32 newMode (env.value (primary child1))) :
      SameOutcome env (.ArithAbs child1 true mode) (.ArithNegate child1 newMode)
  | absUnchecked (child1 : NodeId) (mode : ArithMode)
      (h : absInt32 mode (env.value (primary child1)) =
        absInt32 .Unchecked (env.value (primary child1))) :
      SameOutcome env (.ArithAbs child1 true mode) (.ArithAbs child1 true .Unchecked)

theorem absInt32_of_isInt32 (h : IsInt32 |x|) : absInt32 mode x = some |x| := by
  rw [absInt32, wrapInt32_of_isInt32 h, if_neg fun hlt => not_lt.mpr (abs_nonneg x) hlt.2]

theorem absInt32_eq_negateInt32 (hx : IsInt32 x) (hnonpos : x ≤ 0)
    (h : x < 0 ∨ shouldCheckOverflow mode = false) : absInt32 mode x = negateInt32 mode x := by
  rw [isInt32_iff] at hx
  have habs : |x| = -x := abs_of_nonpos hnonpos
  have hoverflow : wrapInt32 (-x) < 0 ↔ ¬ IsInt32 (-x) := by
    rw [isInt32_iff]
    unfold wrapInt32
    omega
  rw [absInt32, negateInt32, habs]
  rcases h with hneg | hmode
  · have hzero : x ≠ 0 := by omega
    simp only [hoverflow, hzero, and_false, or_false]
  · simp [hmode]

theorem absInt32_eq_negateInt32_unchecked (hx : IsInt32 x) (hnonpos : x ≤ 0)
    (h : shouldCheckOverflow mode = false ∨ minInt < x) :
    absInt32 mode x = negateInt32 .Unchecked x := by
  rw [← absInt32_eq_negateInt32 hx hnonpos (Or.inr rfl)]
  rcases h with hmode | hmin
  · have hunchecked : shouldCheckOverflow .Unchecked = false := rfl
    simp [absInt32, hmode, hunchecked]
  · have hint : IsInt32 |x| := by
      have hmin' : minInt = -2 ^ 31 := rfl
      rw [abs_of_nonpos hnonpos, isInt32_iff]
      omega
    rw [absInt32_of_isInt32 hint, absInt32_of_isInt32 hint]

theorem rewriteAbs_sound {child1 : NodeId} {lower upper : ℤ}
    (hlower : lower ≤ env.value (primary child1)) (hupper : env.value (primary child1) ≤ upper) :
    SameOutcome env (.ArithAbs child1 true mode) (rewriteAbs child1 mode lower upper) := by
  have hint := isInt32_iff.mp (env.int (primary child1))
  have hmin : minInt = -2 ^ 31 := rfl
  unfold rewriteAbs
  dsimp only
  split_ifs with hpos hneg hlow hlow
  · refine .absIdentity _ _ ?_
    have habs : |env.value (primary child1)| = env.value (primary child1) :=
      abs_of_nonneg (by omega)
    rw [absInt32_of_isInt32 (by rw [habs]; exact env.int _), habs]
  · have hmode : shouldCheckOverflow mode = false ∨ minInt < env.value (primary child1) :=
      hlow.imp (by simp) fun hlt => by omega
    exact .absNegate _ _ _
      (absInt32_eq_negateInt32_unchecked (env.int _) (by omega) hmode)
  · have hneg' : env.value (primary child1) < 0 := by
      rcases hneg with hneg | ⟨hmode, -⟩
      · omega
      · exact (hlow (Or.inl hmode)).elim
    exact .absNegate _ _ _
      (absInt32_eq_negateInt32 (env.int _) (le_of_lt hneg') (Or.inl hneg'))
  · have habs : IsInt32 |env.value (primary child1)| := by
      rw [isInt32_iff]
      rcases abs_cases (env.value (primary child1)) with ⟨habs, -⟩ | ⟨habs, -⟩ <;>
        rw [habs] <;> omega
    exact .absUnchecked _ _ (by rw [absInt32_of_isInt32 habs, absInt32_of_isInt32 habs])
  · exact .same _

theorem provesInBounds_sound {index length : NodeId}
    (h : ∀ r ∈ relationships, r.left = primary index ∧ r.Holds env)
    (hbounds : provesInBounds graph length relationships = true) : 0 ≤ env.value (primary index) ∧
      env.value (primary index) < env.value (primary length) := by
  simp only [provesInBounds, Bool.and_eq_true, any_eq_true, decide_eq_true_eq] at hbounds
  obtain ⟨⟨lower, hlower, hmin⟩, upper, hupper, hright, hkind⟩ := hbounds
  constructor
  · obtain ⟨hl, hholds⟩ := h lower hlower
    have := minValueOfLeft_le hholds
    rw [hl] at this
    omega
  · obtain ⟨hl, hholds⟩ := h upper hupper
    rw [Holds, hl, hright] at hholds
    rcases hkind with ⟨hkind, hoffset⟩ | ⟨hkind, hoffset⟩
    · rw [hkind] at hholds
      simp only [Kind.Holds] at hholds
      omega
    · rw [hkind] at hholds
      simp only [Kind.Holds] at hholds
      omega

/-- **A rewriting** is made only where the relationships before the node justify it. -/
theorem rewrites_sound (h : Rewrites graph map op newOp)
    (hmap : Holding (Holds env) map) : SameOutcome env op newOp := by
  cases h with
  | abs child1 mode relationships hfind =>
    exact rewriteAbs_sound (minValue_le (hmap.find hfind)) (le_maxValue (hmap.find hfind))
  | add child1 child2 offset relationships hconstant hfind hmin hmax =>
    refine .add _ _ ?_
    have hlower := minValue_le (hmap.find hfind)
    have hupper := le_maxValue (hmap.find hfind)
    have hoffset : env.value (primary child2) = offset := env.constant _ _ hconstant
    have h₁ := isInt32_iff.mp (isInt32_of_not_sumOverflows hmin)
    have h₂ := isInt32_iff.mp (isInt32_of_not_sumOverflows hmax)
    simp only [sum_cons, sum_nil] at h₁ h₂
    rw [isInt32_iff]
    omega
  | inBounds child1 child2 relationships hfind hbounds =>
    obtain ⟨hnonneg, hlt⟩ := provesInBounds_sound (hmap.find hfind) hbounds
    exact .inBounds _ _ hnonneg hlt

/-- The rewritten node executes with the same values, or adds no relationship. -/
theorem executes_rewritten (m_zero : NodeId) (h : SameOutcome env op newOp)
    (hexec : Executes graph node op env env') (hlength : LengthNotNegative env op) :
    Executes graph node newOp env env' ∧ LengthNotNegative env newOp ∨
      ∀ map, executeNode graph m_zero node newOp map = map := by
  cases h with
  | same => exact Or.inl ⟨hexec, hlength⟩
  | inBounds | add | absIdentity | absNegate => exact Or.inr fun _ => rfl
  | absUnchecked child1 mode habs =>
    refine Or.inl ⟨?_, nofun⟩
    cases hexec with
    | upsilon _ _ is _ => cases is
    | value v produces update => exact .value v (habs.symm.trans produces) update

theorem kept_rewritten (h : Rewrites graph map op newOp) (after : RelationshipMap) :
    kept newOp after = after := by
  cases h with
  | abs =>
    unfold rewriteAbs
    dsimp only
    split_ifs <;> rfl
  | add | inBounds => rfl

theorem rewrites_children (h : Rewrites graph map op newOp) : newOp.children ⊆ op.children := by
  cases h with
  | abs =>
    unfold rewriteAbs
    dsimp only
    split_ifs <;> exact Subset.refl _
  | add => exact Subset.refl _
  | inBounds => simp [Op.children]

/-- The relationships after a round of the last loop are true of the values after the node. -/
theorem holding_transform (hzero : graph m_zero = .JSConstant 0) (hchildren : node ∉ op.children)
    (hfresh : Fresh graph node map) (hexec : Executes graph node op env env')
    (hlength : LengthNotNegative env op) (h : Holding (Holds env) map) :
    Holding (Holds env') (transformNode graph m_zero node op map).2 := by
  have hexecuted := holding_execute hzero hchildren hexec hlength (holding_kept hfresh hexec h)
  rcases transformNode_cases m_zero node op map with heq | ⟨newOp, hrewrites, heq⟩
  · rwa [heq]
  · rw [heq]
    have hsame := rewrites_sound hrewrites h
    rcases executes_rewritten m_zero hsame hexec hlength with ⟨hexec', hlength'⟩ | hnothing
    · refine holding_execute hzero (fun hmem => hchildren (rewrites_children hrewrites hmem)) hexec'
        hlength' ?_
      rwa [kept_rewritten hrewrites]
    · rwa [hnothing]
end

/-! ## What the relationships are about -/

section
/-- Both nodes of the relationship are in the set. -/
def Within (S : NodeFlowProjection → Prop) (r : Relationship) : Prop := S r.left ∧ S r.right

variable {S : NodeFlowProjection → Prop} {m_zero node : NodeId} {op : Op} {map : RelationshipMap}

theorem closed_within (graph : Graph) (S : NodeFlowProjection → Prop) :
    Closed graph (Within S) where
  filter hsame h hr _ := by
    obtain ⟨hl, hright⟩ := filter_nodes hsame h
    rwa [Within, hl, hright]
  filterConstant hl hr _ := by
    have hfollows : Follows (Both graph _ _) _ _ _ := follows_filterConstant hl
    rwa [Within, hfollows.left, hfollows.right]
  throughLeft _ _ hr hother h := by
    unfold throughLeft at h
    split_ifs at h
    obtain ⟨moved, hmoved, hadd⟩ := Option.bind_eq_some_iff.mp h
    obtain ⟨hl₁, hr₁, -, -⟩ := setLeft_some hmoved
    obtain ⟨hl₂, hr₂, -, -⟩ := addToOffset_some hadd
    rw [Within, hl₂, hl₁, hr₂, hr₁]
    exact ⟨hother.2, hr.2⟩
  throughRight _ hr hother h := by
    unfold throughRight at h
    split_ifs at h
    obtain ⟨moved, hmoved, hadd⟩ := Option.bind_eq_some_iff.mp h
    obtain ⟨hl₁, hr₁, -, -⟩ := setRight_some hmoved
    obtain ⟨hl₂, hr₂, -, -⟩ := addToOffset_some hadd
    rw [Within, hl₂, hl₁, hr₂, hr₁]
    exact ⟨hr.1, hother.2⟩
  flipped h hr := by
    obtain ⟨hl, hright, -⟩ := flipped_some h
    rw [Within, hl, hright]
    exact hr.symm

/-- The projections that executing a node may relate. -/
structure Touched (S : NodeFlowProjection → Prop) (m_zero node : NodeId) (op : Op) : Prop where
  zero : S (primary m_zero)
  self : S (primary node)
  child : ∀ child ∈ op.children, S (primary child)
  shadow : ∀ n, S (shadow n)

section
variable (hS : Touched S m_zero node op)
include hS

theorem fact_within {left right : NodeFlowProjection}
    (hfact : Fact graph m_zero node map op left kind right offset) : S left ∧ S right := by
  obtain ⟨hzero, hself, hchild, hshadow⟩ := hS
  cases hfact with
  | addBelow child1 child2 c l hc hleft =>
    rcases hleft with ⟨-, rfl⟩ | ⟨-, rfl⟩
    · exact ⟨hchild _ (by simp [Op.children]), hzero⟩
    · exact ⟨hself, hzero⟩
  | addAbove child1 child2 c l hc hleft =>
    rcases hleft with ⟨-, rfl⟩ | ⟨-, rfl⟩
    · exact ⟨hself, hzero⟩
    · exact ⟨hchild _ (by simp [Op.children]), hzero⟩
  | _ => simp_all [Op.children]

theorem holding_within_execute (h : Holding (Within S) map) :
    Holding (Within S) (executeNode graph m_zero node op map) := by
  refine holding_executeNode (closed_within graph S) ?_ ?_ ?_
  · unfold kept
    split
    · intro entry hentry r hr
      obtain ⟨hl, hwithin, -⟩ := holding_kill h _ entry hentry r hr
      exact ⟨hl, hwithin⟩
    · exact h
  · intro left kind right offset hfact r hr
    obtain ⟨hl, hright, -, -⟩ := safeCreate_some hr
    rw [Within, hl, hright]
    exact fact_within hS hfact
  · intro left left' offset hcopies r r' hl hr hl' hright _ _
    rw [Within, hl', hright]
    refine ⟨?_, hr.2⟩
    cases hcopies with
    | add => exact hS.self
    | upsilon => exact hS.shadow _
    | phi => exact hS.self

theorem transform_within (h : Holding (Within S) map) :
    Holding (Within S) (transformNode graph m_zero node op map).2 := by
  rcases transformNode_cases m_zero node op map with heq | ⟨newOp, hrewrites, heq⟩
  · rw [heq]
    exact holding_within_execute hS h
  · rw [heq]
    refine holding_within_execute ⟨hS.zero, hS.self, fun child hchild => ?_, hS.shadow⟩
      (holding_within_execute hS h)
    exact hS.child child (rewrites_children hrewrites hchild)
end

/-- Every relationship is stored under its left node. -/
def Keyed (map : RelationshipMap) : Prop := Holding (fun _ => True) map

/-- Relationships at a head are over what is live there, and over constants. -/
theorem mergeTo_within {live : NodeFlowProjection → Bool} {head : Head} {incoming : RelationshipMap}
    (hzero : S (primary m_zero)) (hlive : ∀ p, live p = true → S p)
    (hconstant : ∀ p : NodeFlowProjection, (asInt32 graph p.node).isSome = true → S p)
    (hkeyed : Keyed incoming) (h : Holding (Within S) head.relationships) :
    Holding (Within S) (mergeTo graph m_zero live incoming head).2.relationships := by
  have hisLive : ∀ p : NodeFlowProjection,
      (decide (p = primary m_zero) || live p) = true → S p := by
    intro p hp
    rcases Bool.or_eq_true _ _ ▸ hp with hp | hp
    · rwa [of_decide_eq_true hp]
    · exact hlive p hp
  unfold mergeTo
  split_ifs
  · intro entry hentry r hr
    obtain ⟨old, hold, hmerged⟩ := mem_filterMap.mp hentry
    obtain ⟨source, hsource, rfl⟩ := Option.map_eq_some_iff.mp hmerged
    refine mergeEntry_forall (P := fun r => r.left = old.1 ∧ Within S r) ?_ ?_ r
      (mem_sorted.mp hr)
    · intro r other result hsame hfilter hr hother
      obtain ⟨hl, hright⟩ := filter_nodes hsame hfilter
      rwa [Within, hl, hright]
    · intro target htarget source _ r hr
      unfold preferExisting
      have hmerged : r.left = old.1 ∧ Within S r := by
        obtain ⟨hl, hright⟩ := merge_nodes hr
        obtain ⟨htl, hwithin⟩ := h old hold target htarget
        rw [Within, hl]
        refine ⟨htl, hwithin.1, ?_⟩
        rcases hright with hright | ⟨hright, hconst⟩
        · rw [hright]
          exact hwithin.2
        · rw [hright]
          exact hconstant _ hconst
      split_ifs
      · cases hexisting : (old.2.filter fun r => (asInt32 graph r.right.node).isSome).find?
            fun existing => existing.isEquivalentTo graph r with
        | none => exact hmerged
        | some existing =>
          exact h old hold existing (mem_of_mem_filter (mem_of_find?_eq_some hexisting))
      · exact hmerged
  · refine forall_mem_append.mpr ⟨h, fun entry hentry r hr => ?_⟩
    obtain ⟨old, hold, rfl⟩ := mem_map.mp (mem_of_mem_filter hentry)
    obtain ⟨hmem, hkeyLive⟩ := mem_filter.mp hold
    obtain ⟨hr, hrightLive⟩ := mem_filter.mp (mem_sorted.mp hr)
    obtain ⟨hl, -⟩ := hkeyed old hmem r hr
    exact ⟨hl, by rw [hl]; exact hisLive _ hkeyLive, hisLive _ hrightLive⟩
end

/-! ## Blocks -/

section
variable (graph : Graph) (m_zero : NodeId)

/-- The relationships at the head of a block after these merges. -/
def headAfter (live : NodeFlowProjection → Bool) (incoming : List RelationshipMap) :
    RelationshipMap :=
  (incoming.foldl (fun head map => (mergeTo graph m_zero live map head).2)
    ⟨false, []⟩).relationships

/-- The block is in SSA form: none of its nodes is live at its head, and none is used or occurs
before its place in the block. -/
def InSsa (live : NodeFlowProjection → Bool) (block : List NodeId) : Prop :=
  (∀ node ∈ block, live (primary node) = false ∧ node ∉ (graph node).children) ∧
  block.Pairwise fun earlier node => node ≠ earlier ∧ node ∉ (graph earlier).children

instance (live : NodeFlowProjection → Bool) (block : List NodeId) :
    Decidable (InSsa graph live block) := inferInstanceAs (Decidable (_ ∧ _))

/-- The relationships may be these after the nodes `done` of a block; `analyze` is the loop that
computes them, `transform` the one that rewrites. -/
inductive Reaches (head : RelationshipMap) : List NodeId → RelationshipMap → Prop
  | head : Reaches head [] head
  | analyze (done : List NodeId) (map : RelationshipMap) (node : NodeId)
      (reached : Reaches head done map) :
      Reaches head (done ++ [node]) (executeNode graph m_zero node (graph node) map)
  | transform (done : List NodeId) (map : RelationshipMap) (node : NodeId)
      (reached : Reaches head done map) :
      Reaches head (done ++ [node]) (transformNode graph m_zero node (graph node) map).2

/-- What the relationships after some nodes of a block may be about. -/
def Mentionable (live : NodeFlowProjection → Bool) (done : List NodeId)
    (p : NodeFlowProjection) : Prop :=
  p.kind = .Shadow ∨ live p = true ∨ (asInt32 graph p.node).isSome = true ∨
    ∃ n ∈ done, p.node = n ∨ p.node ∈ (graph n).children

variable {graph m_zero} {live : NodeFlowProjection → Bool}

theorem headAfter_within (hzero : graph m_zero = .JSConstant 0)
    (hkeyed : ∀ map ∈ incoming, Keyed map) :
    Holding (Within (Mentionable graph live [])) (headAfter graph m_zero live incoming) := by
  have hfold : ∀ (maps : List RelationshipMap) (head : Head), (∀ map ∈ maps, Keyed map) →
      Holding (Within (Mentionable graph live [])) head.relationships →
      Holding (Within (Mentionable graph live []))
        (maps.foldl (fun head map => (mergeTo graph m_zero live map head).2)
          head).relationships := by
    intro maps
    induction maps with
    | nil => exact fun _ _ h => h
    | cons map maps ih =>
      intro head hmaps h
      rw [forall_mem_cons] at hmaps
      refine ih _ hmaps.2 (mergeTo_within ?_ ?_ ?_ hmaps.1 h)
      · exact Or.inr (Or.inr (Or.inl (by simp [asInt32, primary, hzero])))
      · exact fun p hp => Or.inr (Or.inl hp)
      · exact fun p hp => Or.inr (Or.inr (Or.inl hp))
  exact hfold incoming ⟨false, []⟩ hkeyed (by simp [Holding])

theorem Mentionable.mono {done done' : List NodeId} (hsub : done ⊆ done') {p : NodeFlowProjection}
    (h : Mentionable graph live done p) : Mentionable graph live done' p := by
  rcases h with h | h | h | ⟨n, hn, h⟩
  · exact Or.inl h
  · exact Or.inr (Or.inl h)
  · exact Or.inr (Or.inr (Or.inl h))
  · exact Or.inr (Or.inr (Or.inr ⟨n, hsub hn, h⟩))

theorem reaches_within (hzero : graph m_zero = .JSConstant 0) {head map : RelationshipMap}
    {done : List NodeId} (hhead : Holding (Within (Mentionable graph live [])) head)
    (h : Reaches graph m_zero head done map) :
    Holding (Within (Mentionable graph live done)) map := by
  have hwider : ∀ {done : List NodeId} {node : NodeId} {map : RelationshipMap},
      Holding (Within (Mentionable graph live done)) map →
      Holding (Within (Mentionable graph live (done ++ [node]))) map := by
    intro done node map hmap entry hentry r hr
    obtain ⟨hl, hleft, hright⟩ := hmap entry hentry r hr
    have hsub : done ⊆ done ++ [node] := subset_append_left done [node]
    exact ⟨hl, hleft.mono hsub, hright.mono hsub⟩
  have htouched : ∀ (done : List NodeId) (node : NodeId),
      Touched (Mentionable graph live (done ++ [node])) m_zero node (graph node) := by
    intro done node
    refine ⟨Or.inr (Or.inr (Or.inl (by simp [asInt32, primary, hzero]))), ?_, ?_,
      fun _ => Or.inl rfl⟩
    · exact Or.inr (Or.inr (Or.inr ⟨node, by simp, Or.inl rfl⟩))
    · exact fun child hchild => Or.inr (Or.inr (Or.inr ⟨node, by simp, Or.inr hchild⟩))
  induction h with
  | head => exact hhead
  | analyze done map node _ ih => exact holding_within_execute (htouched done node) (hwider ih)
  | transform done map node _ ih => exact transform_within (htouched done node) (hwider ih)

/-- In SSA form the relationships before a node do not speak of it. -/
theorem fresh_of_ssa (hzero : graph m_zero = .JSConstant 0) (hkeyed : ∀ map ∈ incoming, Keyed map)
    {done rest : List NodeId} {node : NodeId} (hssa : InSsa graph live (done ++ node :: rest))
    {map : RelationshipMap}
    (h : Reaches graph m_zero (headAfter graph m_zero live incoming) done map) :
    Fresh graph node map := by
  obtain ⟨hnodes, hpairs⟩ := hssa
  obtain ⟨hdead, -⟩ := hnodes node (by simp)
  have hearlier := fun n hn => (pairwise_append.mp hpairs).2.2 n hn node mem_cons_self
  by_cases hconstant : (asInt32 graph node).isSome = true
  · exact Or.inl hconstant
  · refine Or.inr fun entry hentry r hr => ?_
    obtain ⟨hl, hwithin⟩ := reaches_within hzero (headAfter_within hzero hkeyed) h entry hentry r hr
    have hnot : ¬ Mentionable graph live done (primary node) := by
      rintro (hshadow | hlive | hconst | ⟨n, hn, heq | hmem⟩)
      · cases hshadow
      · rw [hdead] at hlive
        cases hlive
      · exact hconstant hconst
      · exact (hearlier n hn).1 heq
      · exact (hearlier n hn).2 hmem
    exact ⟨hl, fun heq => hnot (heq ▸ hwithin.1), fun heq => hnot (heq ▸ hwithin.2)⟩

/-- **The range optimization is sound.** Before each node of a block in SSA form, and for all values
of which the relationships there are true: if the node executes without an exit, and a length that
it compares with is not negative, then those after it are true of the values after it, in the
analysis and when the block is rewritten; and if the node is rewritten then the check it loses could
not have failed. -/
theorem rangeOptimization_sound (hzero : graph m_zero = .JSConstant 0)
    (incoming : List RelationshipMap) (hkeyed : ∀ map ∈ incoming, Keyed map)
    (done rest : List NodeId) (node : NodeId) (hssa : InSsa graph live (done ++ node :: rest))
    (map : RelationshipMap)
    (hreached : Reaches graph m_zero (headAfter graph m_zero live incoming) done map)
    (env : Env graph) (hlength : LengthNotNegative env (graph node)) (h : Satisfies env map) :
    (∀ env', Executes graph node (graph node) env env' →
      Satisfies env' (executeNode graph m_zero node (graph node) map) ∧
      Satisfies env' (transformNode graph m_zero node (graph node) map).2) ∧
    SameOutcome env (graph node) (transformNode graph m_zero node (graph node) map).1 := by
  have hfresh := fresh_of_ssa hzero hkeyed hssa hreached
  have hchildren := (hssa.1 node (by simp)).2
  have hmap : Holding (Holds env) map := fun entry hentry r hr =>
    ⟨(reaches_within hzero (headAfter_within hzero hkeyed) hreached entry hentry r hr).1,
      h entry hentry r hr⟩
  refine ⟨fun env' hexec => ⟨?_, ?_⟩, ?_⟩
  · exact fun entry hentry r hr => (holding_execute hzero hchildren hexec hlength
      (holding_kept hfresh hexec hmap) entry hentry r hr).2
  · exact fun entry hentry r hr => (holding_transform hzero hchildren hfresh hexec hlength hmap
      entry hentry r hr).2
  · rcases transformNode_cases m_zero node (graph node) map with heq | ⟨newOp, hrewrites, heq⟩
    · rw [heq]
      exact .same _
    · rw [heq]
      exact rewrites_sound hrewrites hmap
end

/-- The absolute value of an array length. -/
def lengthGraph : Graph
  | 0 => .JSConstant 0
  | 1 => .GetArrayLength
  | 2 => .ArithAbs 1 true .CheckOverflow
  | _ => .other

/-- The array has seven elements. -/
def lengthEnv : Env lengthGraph where
  value p := if p = primary 1 then 7 else 0
  int p := by
    split_ifs <;> exact ⟨by decide, by decide⟩
  constant p c h := by
    obtain ⟨node, kind⟩ := p
    match node with
    | 0 =>
      obtain rfl := Option.some.inj h
      rfl
    | 1 | 2 | _ + 3 => cases h

theorem rangeOptimization_sound_length :
    SameOutcome lengthEnv (.ArithAbs 1 true .CheckOverflow) (.Identity 1) := by
  have hlength : Executes lengthGraph 1 .GetArrayLength lengthEnv lengthEnv :=
    .value 7 (show (0 : ℤ) ≤ 7 by decide) (update_eq_self (primary 1) _).symm
  have hsatisfied : Satisfies lengthEnv (executeNode lengthGraph 0 1 (lengthGraph 1) []) :=
    fun entry hentry r hr => (holding_execute rfl (by decide) hlength nofun
      (by simp [Holding, kept]) entry hentry r hr).2
  have hrewritten : (transformNode lengthGraph 0 2 (lengthGraph 2)
      (executeNode lengthGraph 0 1 (lengthGraph 1) [])).1 = .Identity 1 := by decide
  have hssa : InSsa lengthGraph (fun _ => false) [1, 2] := by decide
  have hsound : SameOutcome lengthEnv (lengthGraph 2) (transformNode lengthGraph 0 2 (lengthGraph 2)
      (executeNode lengthGraph 0 1 (lengthGraph 1) [])).1 :=
    (rangeOptimization_sound rfl [] (by simp) [1] [] 2 hssa _ (.analyze [] _ 1 .head) lengthEnv
      nofun hsatisfied).2
  rwa [hrewritten] at hsound

end JscAndroid.Dfg.RangeSoundness
