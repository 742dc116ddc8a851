import JscAndroid.Dfg.Node

/-!
# Relationships between nodes

A relationship says how a node compares to another one plus an offset. Its meaning is over the
integers. `merge` has to be implied by either of two relationships and `filter` by both; a null
relationship is `none`, and the functor of `merge` is the list of its arguments.
-/

namespace JscAndroid.Dfg.Relationships

open Node

variable {offset : ℤ}

inductive Kind
  | LessThan
  | Equal
  | NotEqual
  | GreaterThan
  deriving DecidableEq, Repr

variable {kind : Kind}

namespace Kind

def vagueness : Kind → ℕ
  | .Equal => 0
  | .LessThan | .GreaterThan => 1
  | .NotEqual => 2

def flipped : Kind → Kind
  | .LessThan => .GreaterThan
  | .Equal => .Equal
  | .NotEqual => .NotEqual
  | .GreaterThan => .LessThan

/-- The value of the enumerator. -/
def toNat : Kind → ℕ
  | .LessThan => 0
  | .Equal => 1
  | .NotEqual => 2
  | .GreaterThan => 3

end Kind

def minVagueness : ℕ := 0

def maxVagueness : ℕ := 2

/-- A relationship that is not null: the constructor asserts that the nodes differ, and the offset
is an `int`. -/
structure Relationship where
  left : NodeFlowProjection
  right : NodeFlowProjection
  kind : Kind
  offset : ℤ
  distinct : left ≠ right
  int : IsInt32 offset
  deriving DecidableEq

/-- `safeCreate`; the constructor, too, where its assertion is not known to hold. -/
def safeCreate (graph : Graph) (left right : NodeFlowProjection) (kind : Kind) (offset : ℤ) :
    Option Relationship :=
  if h : left ≠ right ∧ IsInt32 offset then
    if left.isStillValid graph ∧ right.isStillValid graph then
      some ⟨left, right, kind, offset, h.1, h.2⟩
    else none
  else none

def isGeneralOffset (offset : ℤ) : Bool := -1 ≤ offset ∧ offset ≤ 1

namespace Relationship

/-- The same nodes with another kind and offset. -/
def restate (r : Relationship) (kind : Kind) (offset : ℤ) : Option Relationship :=
  if h : IsInt32 offset then some { r with kind := kind, offset := offset, int := h } else none

def flipped (r : Relationship) : Option Relationship :=
  if h : r.offset = minInt then none
  else some {
    left := r.right
    right := r.left
    kind := r.kind.flipped
    offset := -r.offset
    distinct := r.distinct.symm
    int := by
      have := isInt32_iff.mp r.int
      rw [isInt32_iff]
      unfold minInt at h
      omega }

def sameNodesAs (r other : Relationship) : Bool := r.left = other.left ∧ r.right = other.right

def isEquivalentTo (graph : Graph) (r other : Relationship) : Bool :=
  if r.left ≠ other.left ∨ r.kind ≠ other.kind then false
  else if r = other then true
  else
    match asInt32 graph r.right.node, asInt32 graph other.right.node with
    | some thisRight, some otherRight =>
      if sumOverflows [thisRight, r.offset] then false
      else if sumOverflows [otherRight, other.offset] then false
      else thisRight + r.offset = otherRight + other.offset
    | _, _ => false

/-- `operator<`. -/
def less (r other : Relationship) : Bool :=
  if r.left ≠ other.left then r.left.less other.left
  else if r.right ≠ other.right then r.right.less other.right
  else if r.kind ≠ other.kind then r.kind.toNat < other.kind.toNat
  else r.offset < other.offset

/-- `setLeft`; its assertion fails as `none`. -/
def setLeft (r : Relationship) (left : NodeFlowProjection) : Option Relationship :=
  if h : left ≠ r.right then some { r with left := left, distinct := h } else none

/-- `setRight`; its assertion fails as `none`. -/
def setRight (r : Relationship) (right : NodeFlowProjection) : Option Relationship :=
  if h : right ≠ r.left then some { r with right := right, distinct := h.symm } else none

/-- `addToOffset`, `none` if it would overflow. -/
def addToOffset (r : Relationship) (offset : ℤ) : Option Relationship :=
  if sumOverflows [r.offset, offset] then none else r.restate r.kind (r.offset + offset)

/-! ## Merging -/

/-- `mergeImpl`, after `merge` has ordered the kinds. -/
def mergeImpl (r other : Relationship) : Option Relationship :=
  match r.kind, other.kind with
  | .NotEqual, .NotEqual => none
  | .NotEqual, .Equal => if r.offset ≠ other.offset then some r else none
  | .NotEqual, .LessThan => if r.offset < other.offset then none else some r
  | .LessThan, .LessThan =>
    let bestOffset := max r.offset other.offset
    if isGeneralOffset bestOffset then r.restate .LessThan (max bestOffset (-1)) else none
  | .LessThan, .Equal =>
    if sumOverflows [other.offset, 1] then none
    else
      let bestOffset := max r.offset (other.offset + 1)
      if isGeneralOffset bestOffset then r.restate .LessThan (max bestOffset (-1)) else none
  | .Equal, .Equal =>
    let lessThanEqOffset := max r.offset other.offset
    let greaterThanEqOffset := min r.offset other.offset
    if -2 ≤ lessThanEqOffset ∧ lessThanEqOffset ≤ 0 then
      other.restate .LessThan (lessThanEqOffset + 1)
    else if 0 ≤ greaterThanEqOffset ∧ greaterThanEqOffset ≤ 2 then
      other.restate .GreaterThan (greaterThanEqOffset - 1)
    else none
  | _, _ => none

/-- `makeUpper`: the left node is at most `upper`, said with either constant. -/
def makeUpper (r other : Relationship) (thisRight otherRight upper : ℤ) : List Relationship :=
  (if upper ≤ thisRight then (r.restate .LessThan (max (1 + upper - thisRight) (-1))).toList
    else []) ++
  (if upper ≤ otherRight then
    (other.restate .LessThan (max (1 + upper - otherRight) (-1))).toList else [])

/-- `makeLower`: the left node is at least `lower`, said with either constant. -/
def makeLower (r other : Relationship) (thisRight otherRight lower : ℤ) : List Relationship :=
  (if lower ≥ thisRight then (r.restate .GreaterThan (min (-1 + lower - thisRight) 1)).toList
    else []) ++
  (if lower ≥ otherRight then
    (other.restate .GreaterThan (min (-1 + lower - otherRight) 1)).toList else [])

/-- The cases of `mergeConstantsImpl` in which the first relationship is an equality. -/
def mergeEqualConstant (r other : Relationship) (thisRight otherRight : ℤ) : List Relationship :=
  let thisEffectiveRight := thisRight + r.offset
  let otherEffectiveRight := otherRight + other.offset
  match other.kind with
  | .Equal =>
    if thisEffectiveRight = otherEffectiveRight then
      (if isGeneralOffset r.offset then [r] else []) ++
      (if isGeneralOffset other.offset then [other] else [])
    else
      makeUpper r other thisRight otherRight (max thisEffectiveRight otherEffectiveRight) ++
      makeLower r other thisRight otherRight (min thisEffectiveRight otherEffectiveRight)
  | .LessThan =>
    makeUpper r other thisRight otherRight (max thisEffectiveRight (otherEffectiveRight - 1))
  | .GreaterThan =>
    makeLower r other thisRight otherRight (min thisEffectiveRight (otherEffectiveRight + 1))
  | .NotEqual =>
    if otherEffectiveRight = thisEffectiveRight then []
    else if ¬ isGeneralOffset other.offset then []
    else [other]

def mergeConstantsImpl (graph : Graph) (r other : Relationship) : List Relationship :=
  match asInt32 graph r.right.node, asInt32 graph other.right.node with
  | some thisRight, some otherRight =>
    if sumOverflows [thisRight, r.offset] then []
    else if sumOverflows [otherRight, other.offset] then []
    else
      let thisEffectiveRight := thisRight + r.offset
      let otherEffectiveRight := otherRight + other.offset
      match r.kind, other.kind with
      | .Equal, _ => mergeEqualConstant r other thisRight otherRight
      | _, .Equal => mergeEqualConstant other r otherRight thisRight
      | .LessThan, .LessThan =>
        makeUpper r other thisRight otherRight
          (max (thisEffectiveRight - 1) (otherEffectiveRight - 1))
      | .GreaterThan, .GreaterThan =>
        makeLower r other thisRight otherRight
          (min (thisEffectiveRight + 1) (otherEffectiveRight + 1))
      | _, _ => []
  | _, _ => []

/-- The second swap of `merge`: a `NotEqual` comes first. -/
def mergeNotEqualFirst (a b : Relationship) : Option Relationship :=
  if b.kind = .NotEqual then b.mergeImpl a else a.mergeImpl b

/-- The end of `merge`, when no `GreaterThan` is left: a `LessThan` comes first, then a
`NotEqual`. -/
def mergeOrdered (a b : Relationship) : Option Relationship :=
  if b.kind = .LessThan then mergeNotEqualFirst b a else mergeNotEqualFirst a b

/-- What `merge` calls its functor with. -/
def merge (graph : Graph) (r other : Relationship) : List Relationship :=
  if r = other then [r]
  else if r.left ≠ other.left then []
  else if r.right ≠ other.right then mergeConstantsImpl graph r other
  else if r.kind = .GreaterThan ∨ other.kind = .GreaterThan then
    match r.flipped, other.flipped with
    | some a, some b =>
      if a.kind = .GreaterThan ∨ b.kind = .GreaterThan then []
      else
        match mergeOrdered a b with
        | some result => result.flipped.toList
        | none => []
    | _, _ => []
  else (mergeOrdered r other).toList

/-! ## Filtering -/

/-- `NotEqual` filtered with `LessThan`. -/
def filterNotEqualLess (r other : Relationship) : Option Relationship :=
  if r.offset = wrapInt32 (other.offset - 1) then r.restate .LessThan r.offset else some other

/-- `LessThan` filtered with `LessThan`. -/
def filterLessLess (r other : Relationship) : Option Relationship :=
  r.restate .LessThan (min r.offset other.offset)

/-- `LessThan` filtered with `GreaterThan`. -/
def filterLessGreater (r other : Relationship) : Option Relationship :=
  if sumOverflows [r.offset, -1] then none
  else if sumOverflows [other.offset, 1] then none
  else if r.offset - 1 = other.offset + 1 then r.restate .Equal (r.offset - 1)
  else none

/-- `filterFlipped`, around the case that the flipped relationships are in. -/
def filterFlipped (filter : Relationship → Relationship → Option Relationship)
    (r other : Relationship) : Option Relationship :=
  match r.flipped, other.flipped with
  | some a, some b =>
    match filter a b with
    | none => none
    | some result =>
      match result.flipped with
      | none => some r
      | some result => some result
  | _, _ => some r

/-- `filter`, of relationships over the same nodes. -/
def filter (r other : Relationship) : Option Relationship :=
  if r = other then some r
  else
    match r.kind, other.kind with
    | .Equal, _ => some r
    | _, .Equal => some other
    | .NotEqual, .NotEqual => some r
    | .NotEqual, .GreaterThan => filterFlipped filterNotEqualLess r other
    | .NotEqual, .LessThan => filterNotEqualLess r other
    | .GreaterThan, .NotEqual => filterFlipped filterNotEqualLess other r
    | .LessThan, .NotEqual => filterNotEqualLess other r
    | .LessThan, .LessThan => filterLessLess r other
    | .LessThan, .GreaterThan => filterLessGreater r other
    | .GreaterThan, .LessThan => filterFlipped filterLessGreater r other
    | .GreaterThan, .GreaterThan => filterFlipped filterLessLess r other

/-- `filterConstant`, of relationships with the same left node and constants on the right. -/
def filterConstant (graph : Graph) (r other : Relationship) : Relationship :=
  if r.kind.vagueness = other.kind.vagueness then r
  else
    match asInt32 graph r.right.node, asInt32 graph other.right.node with
    | some thisRight, some otherRight =>
      if sumOverflows [otherRight, other.offset] then r
      else
        let otherEffectiveRight := otherRight + other.offset
        match other.kind with
        | .Equal =>
          if differenceOverflows otherEffectiveRight thisRight then r
          else (r.restate .Equal (otherEffectiveRight - thisRight)).getD r
        | _ => r
    | _, _ => r

/-! ## Bounds -/

def minValueOfLeft (graph : Graph) (r : Relationship) : ℤ :=
  match asInt32 graph r.left.node with
  | some value => value
  | none =>
    let minRightValue := (asInt32 graph r.right.node).getD minInt
    match r.kind with
    | .LessThan | .NotEqual => minInt
    | .GreaterThan => clampedSum [minRightValue, r.offset, 1]
    | .Equal => clampedSum [minRightValue, r.offset]

def maxValueOfLeft (graph : Graph) (r : Relationship) : ℤ :=
  match asInt32 graph r.left.node with
  | some value => value
  | none =>
    let maxRightValue := (asInt32 graph r.right.node).getD maxInt
    match r.kind with
    | .GreaterThan | .NotEqual => maxInt
    | .LessThan => clampedSum [maxRightValue, r.offset, -1]
    | .Equal => clampedSum [maxRightValue, r.offset]

end Relationship

/-! ## Meaning -/

open Relationship

/-- An assignment of `int` values to the projections, in which constants have their value. -/
structure Env (graph : Graph) where
  value : NodeFlowProjection → ℤ
  int : ∀ p, IsInt32 (value p)
  constant : ∀ p c, asInt32 graph p.node = some c → value p = c

def Kind.Holds : Kind → ℤ → ℤ → Prop
  | .LessThan, x, y => x < y
  | .Equal, x, y => x = y
  | .NotEqual, x, y => x ≠ y
  | .GreaterThan, x, y => x > y

/-- The relationship is true of the values. -/
def Relationship.Holds {graph : Graph} (env : Env graph) (r : Relationship) : Prop :=
  r.kind.Holds (env.value r.left) (env.value r.right + r.offset)

section
variable {graph : Graph} {env : Env graph} {r other result : Relationship}

theorem safeCreate_some {left right : NodeFlowProjection}
    (h : safeCreate graph left right kind offset = some r) :
    r.left = left ∧ r.right = right ∧ r.kind = kind ∧ r.offset = offset := by
  unfold safeCreate at h
  split_ifs at h
  obtain rfl := Option.some.inj h
  exact ⟨rfl, rfl, rfl, rfl⟩

theorem restate_some (h : r.restate kind offset = some result) :
    result.left = r.left ∧ result.right = r.right ∧ result.kind = kind ∧ result.offset =
      offset := by
  unfold restate at h
  split_ifs at h
  obtain rfl := Option.some.inj h
  exact ⟨rfl, rfl, rfl, rfl⟩

theorem holds_iff (env : Env graph) (hk : r.kind = kind) :
    r.Holds env ↔ kind.Holds (env.value r.left) (env.value r.right + r.offset) := by
  rw [Holds, hk]

theorem holds_restate (h : r.restate kind offset = some result) :
    result.Holds env ↔ kind.Holds (env.value r.left) (env.value r.right + offset) := by
  obtain ⟨hl, hr, hk, ho⟩ := restate_some h
  rw [holds_iff env hk, hl, hr, ho]

theorem Kind.holds_flipped (kind : Kind) (x y d : ℤ) :
    kind.flipped.Holds y (x + -d) ↔ kind.Holds x (y + d) := by
  cases kind <;> simp only [Kind.flipped, Kind.Holds] <;> omega

theorem flipped_some (h : r.flipped = some result) : result.left = r.right ∧
    result.right = r.left ∧ result.kind = r.kind.flipped ∧ result.offset = -r.offset := by
  unfold flipped at h
  split_ifs at h
  obtain rfl := Option.some.inj h
  exact ⟨rfl, rfl, rfl, rfl⟩

theorem holds_flipped (h : r.flipped = some result) : result.Holds env ↔ r.Holds env := by
  obtain ⟨hl, hr, hk, ho⟩ := flipped_some h
  rw [holds_iff env hk, hl, hr, ho]
  exact Kind.holds_flipped _ _ _ _

theorem setLeft_some {left : NodeFlowProjection} (h : r.setLeft left = some result) :
    result.left = left ∧ result.right = r.right ∧ result.kind = r.kind ∧
      result.offset = r.offset := by
  unfold setLeft at h
  split_ifs at h
  obtain rfl := Option.some.inj h
  exact ⟨rfl, rfl, rfl, rfl⟩

theorem setRight_some {right : NodeFlowProjection} (h : r.setRight right = some result) :
    result.left = r.left ∧ result.right = right ∧ result.kind = r.kind ∧
      result.offset = r.offset := by
  unfold setRight at h
  split_ifs at h
  obtain rfl := Option.some.inj h
  exact ⟨rfl, rfl, rfl, rfl⟩

theorem addToOffset_some (h : r.addToOffset offset = some result) :
    result.left = r.left ∧ result.right = r.right ∧ result.kind = r.kind ∧
      result.offset = r.offset + offset := by
  unfold addToOffset at h
  split_ifs at h
  exact restate_some h

theorem value_right (env : Env graph) {c : ℤ} (h : asInt32 graph r.right.node = some c) :
    env.value r.right = c :=
  env.constant r.right c h

/-- What a computed relationship is about, and when it is true. -/
structure Follows (P : Env graph → Prop) (a b : NodeFlowProjection) (result : Relationship) :
    Prop where
  left : result.left = a
  right : result.right = b
  holds : ∀ env, P env → result.Holds env

section
variable {P : Env graph → Prop} {a b : NodeFlowProjection}

theorem Follows.flipped (h : Follows P a b r) (hf : r.flipped = some result) :
    Follows P b a result := by
  obtain ⟨hl, hr, -, -⟩ := flipped_some hf
  exact ⟨hl.trans h.right, hr.trans h.left, fun env hP => (holds_flipped hf).mpr (h.holds env hP)⟩

theorem follows_restate (h : r.restate kind offset = some result)
    (hP : ∀ env, P env → kind.Holds (env.value r.left) (env.value r.right + offset)) :
    Follows P r.left r.right result := by
  obtain ⟨hl, hr, -, -⟩ := restate_some h
  exact ⟨hl, hr, fun env hp => (holds_restate h).mpr (hP env hp)⟩
end

/-! ## Merging -/

variable (graph) in
/-- One of the relationships is true. -/
def Either (r other : Relationship) (env : Env graph) : Prop := r.Holds env ∨ other.Holds env

theorem either_comm (r other : Relationship) : Either graph r other = Either graph other r :=
  funext fun _ => propext or_comm

theorem follows_mergeImpl (hl : r.left = other.left) (hr : r.right = other.right)
    (h : r.mergeImpl other = some result) :
    Follows (Either graph r other) r.left r.right result := by
  unfold mergeImpl at h
  cases hk : r.kind <;> cases hk' : other.kind <;> simp only [hk, hk', reduceCtorEq] at h
  all_goals
    have hor : ∀ env : Env graph, Either graph r other env → _ := fun env h => by
      simp only [Either, Holds, hk, hk', ← hl, ← hr, Kind.Holds] at h
      exact h
  -- `LessThan` with `LessThan` and with `Equal`
  case LessThan.LessThan | LessThan.Equal =>
    split_ifs at h
    refine follows_restate h fun env hP => ?_
    have := hor env hP
    simp only [Kind.Holds]
    omega
  case Equal.Equal =>
    split_ifs at h
    all_goals
      rw [hl, hr]
      refine follows_restate h fun env hP => ?_
      have := hor env hP
      simp only [Kind.Holds, ← hl, ← hr]
      omega
  -- `NotEqual` stays what it is
  all_goals
    split_ifs at h
    obtain rfl := Option.some.inj h
    refine ⟨rfl, rfl, fun env hP => ?_⟩
    have := hor env hP
    rw [holds_iff env hk]
    simp only [Kind.Holds]
    omega

theorem follows_mergeOrdered (hl : r.left = other.left) (hr : r.right = other.right)
    (h : mergeOrdered r other = some result) :
    Follows (Either graph r other) r.left r.right result := by
  unfold mergeOrdered mergeNotEqualFirst at h
  split_ifs at h
  all_goals
    first
      | exact follows_mergeImpl hl hr h
      | (rw [hl, hr, either_comm]
         exact follows_mergeImpl hl.symm hr.symm h)

section
variable {thisRight otherRight : ℤ}
variable (hthis : asInt32 graph r.right.node = some thisRight)
variable (hother : asInt32 graph other.right.node = some otherRight) (hl : r.left = other.left)

/-- A relationship with one of the two constants. -/
def OverConstants (P : Env graph → Prop) (r other result : Relationship) : Prop :=
  Follows P r.left r.right result ∨ Follows P r.left other.right result

theorem mem_either {c c' : Prop} [Decidable c] [Decidable c'] {a b : Option Relationship}
    (h : result ∈ (if c then a.toList else []) ++ (if c' then b.toList else [])) :
    c ∧ a = some result ∨ c' ∧ b = some result := by
  rcases List.mem_append.mp h with h | h
  · split_ifs at h with hc
    · exact Or.inl ⟨hc, Option.mem_toList.mp h⟩
    · simp at h
  · split_ifs at h with hc
    · exact Or.inr ⟨hc, Option.mem_toList.mp h⟩
    · simp at h

section
variable {P : Env graph → Prop} {bound : ℤ}
include hthis hother hl

theorem overConstants_makeUpper (h : ∀ env, P env → env.value r.left ≤ bound)
    (hmem : result ∈ makeUpper r other thisRight otherRight bound) :
    OverConstants P r other result := by
  rcases mem_either hmem with ⟨_, hmem⟩ | ⟨_, hmem⟩
  · refine Or.inl (follows_restate hmem fun env hP => ?_)
    have := h env hP
    rw [value_right env hthis]
    simp only [Kind.Holds]
    omega
  · refine Or.inr (hl ▸ follows_restate hmem fun env hP => ?_)
    have := h env hP
    rw [value_right env hother, ← hl]
    simp only [Kind.Holds]
    omega

theorem overConstants_makeLower (h : ∀ env, P env → bound ≤ env.value r.left)
    (hmem : result ∈ makeLower r other thisRight otherRight bound) :
    OverConstants P r other result := by
  rcases mem_either hmem with ⟨_, hmem⟩ | ⟨_, hmem⟩
  · refine Or.inl (follows_restate hmem fun env hP => ?_)
    have := h env hP
    rw [value_right env hthis]
    simp only [Kind.Holds]
    omega
  · refine Or.inr (hl ▸ follows_restate hmem fun env hP => ?_)
    have := h env hP
    rw [value_right env hother, ← hl]
    simp only [Kind.Holds]
    omega
end

include hthis hother hl

theorem overConstants_mergeEqualConstant (hk : r.kind = .Equal)
    (hmem : result ∈ mergeEqualConstant r other thisRight otherRight) :
    OverConstants (Either graph r other) r other result := by
  unfold mergeEqualConstant at hmem
  cases hk' : other.kind <;> simp only [hk'] at hmem
  all_goals
    have hor : ∀ env : Env graph, Either graph r other env → _ := fun env h => by
      simp only [Either, Holds, hk, hk', ← hl, value_right env hthis,
        value_right env hother, Kind.Holds] at h
      exact h
  · exact overConstants_makeUpper hthis hother hl (fun env hP => by have := hor env hP; omega) hmem
  · by_cases heq : thisRight + r.offset = otherRight + other.offset
    · -- both say the same
      have hmem' : result = r ∨ result = other := by
        split_ifs at hmem <;> simp at hmem <;> tauto
      have hsame : ∀ env : Env graph, r.Holds env ↔ other.Holds env := fun env => by
        rw [holds_iff env hk, holds_iff env hk', value_right env hthis, value_right env hother, heq,
          hl]
      rcases hmem' with rfl | rfl
      · exact Or.inl ⟨rfl, rfl, fun env hP => hP.elim id (hsame env).mpr⟩
      · exact Or.inr ⟨hl.symm, rfl, fun env hP => hP.elim (hsame env).mp id⟩
    · rw [if_neg heq] at hmem
      rcases List.mem_append.mp hmem with hmem | hmem
      · exact overConstants_makeUpper hthis hother hl
          (fun env hP => by have := hor env hP; omega) hmem
      · exact overConstants_makeLower hthis hother hl
          (fun env hP => by have := hor env hP; omega) hmem
  · split_ifs at hmem with heq hgeneral
    · simp at hmem
    · obtain rfl := List.mem_singleton.mp hmem
      refine Or.inr ⟨hl.symm, rfl, fun env hP => ?_⟩
      have := hor env hP
      rw [holds_iff env hk', value_right env hother, ← hl]
      simp only [Kind.Holds]
      omega
    · simp at hmem
  · exact overConstants_makeLower hthis hother hl (fun env hP => by have := hor env hP; omega) hmem
end

theorem overConstants_mergeConstantsImpl (hl : r.left = other.left)
    (hmem : result ∈ mergeConstantsImpl graph r other) :
    OverConstants (Either graph r other) r other result ∧
      (asInt32 graph other.right.node).isSome = true := by
  unfold mergeConstantsImpl at hmem
  split at hmem
  case h_2 => simp at hmem
  case h_1 thisRight otherRight hthis hother =>
    refine ⟨?_, by rw [hother]; rfl⟩
    split_ifs at hmem
    · simp at hmem
    · simp at hmem
    · cases hk : r.kind <;> cases hk' : other.kind <;>
        simp only [hk, hk', List.not_mem_nil] at hmem
      -- an equality on either side
      case Equal.LessThan | Equal.Equal | Equal.NotEqual | Equal.GreaterThan =>
        exact overConstants_mergeEqualConstant hthis hother hl hk hmem
      case LessThan.Equal | NotEqual.Equal | GreaterThan.Equal =>
        have := overConstants_mergeEqualConstant hother hthis hl.symm hk' hmem
        unfold OverConstants at this ⊢
        rwa [either_comm, ← hl, or_comm] at this
      all_goals
        have hor : ∀ env : Env graph, Either graph r other env → _ := fun env h => by
          simp only [Either, Holds, hk, hk', ← hl, value_right env hthis,
            value_right env hother, Kind.Holds] at h
          exact h
      case LessThan.LessThan =>
        exact overConstants_makeUpper hthis hother hl
          (fun env hP => by have := hor env hP; omega) hmem
      case GreaterThan.GreaterThan =>
        exact overConstants_makeLower hthis hother hl
          (fun env hP => by have := hor env hP; omega) hmem

section
variable (hmem : result ∈ merge graph r other)
include hmem

/-- **`merge`** is implied by either relationship, and is about the nodes of the first or a constant
of the second. -/
theorem follows_merge : Follows (Either graph r other) r.left r.right result ∨
      Follows (Either graph r other) r.left other.right result ∧
        (asInt32 graph other.right.node).isSome = true := by
  unfold merge at hmem
  split_ifs at hmem with heq hl hr hflip
  · obtain rfl := List.mem_singleton.mp hmem
    exact Or.inl ⟨rfl, rfl, fun env hP => hP.elim id fun h => heq ▸ h⟩
  · simp at hmem
  · obtain ⟨h | h, hsome⟩ := overConstants_mergeConstantsImpl (not_not.mp hl) hmem
    · exact Or.inl h
    · exact Or.inr ⟨h, hsome⟩
  · split at hmem
    case h_2 => simp at hmem
    case h_1 a b ha hb =>
      obtain ⟨hal, har, -, -⟩ := flipped_some ha
      obtain ⟨hbl, hbr, -, -⟩ := flipped_some hb
      split_ifs at hmem
      · simp at hmem
      · split at hmem
        case h_2 => simp at hmem
        case h_1 merged hmerged =>
          have hab : Either graph a b = Either graph r other :=
            funext fun env => propext (or_congr (holds_flipped ha) (holds_flipped hb))
          have hordered : Follows (Either graph a b) a.left a.right merged :=
            follows_mergeOrdered (by rw [hal, hbl, not_not.mp hr])
              (by rw [har, hbr, not_not.mp hl]) hmerged
          rw [hab, hal, har] at hordered
          exact Or.inl (hordered.flipped (Option.mem_toList.mp hmem))
  · exact Or.inl (follows_mergeOrdered (not_not.mp hl) (not_not.mp hr) (Option.mem_toList.mp hmem))

theorem holds_merge (hor : r.Holds env ∨ other.Holds env) : result.Holds env :=
  (follows_merge hmem).elim (fun h => h.holds env hor) fun h => h.1.holds env hor

theorem merge_nodes : result.left = r.left ∧ (result.right = r.right ∨
      result.right = other.right ∧ (asInt32 graph other.right.node).isSome = true) :=
  (follows_merge hmem).elim (fun h => ⟨h.left, Or.inl h.right⟩)
    fun h => ⟨h.1.left, Or.inr ⟨h.1.right, h.2⟩⟩
end

/-! ## Filtering -/

variable (graph) in
/-- Both relationships are true. -/
def Both (r other : Relationship) (env : Env graph) : Prop := r.Holds env ∧ other.Holds env

theorem both_comm (r other : Relationship) : Both graph r other = Both graph other r :=
  funext fun _ => propext and_comm

section
variable (hl : r.left = other.left) (hr : r.right = other.right)
include hl hr

theorem follows_filterNotEqualLess (hk : r.kind = .NotEqual) (hk' : other.kind = .LessThan)
    (h : filterNotEqualLess r other = some result) :
    Follows (Both graph r other) r.left r.right result := by
  unfold filterNotEqualLess at h
  split_ifs at h with hoffset
  · refine follows_restate h fun env hP => ?_
    have := isInt32_iff.mp other.int
    unfold wrapInt32 at hoffset
    simp only [Both, Holds, hk, hk', ← hl, ← hr, Kind.Holds] at hP ⊢
    omega
  · obtain rfl := Option.some.inj h
    exact ⟨hl.symm, hr.symm, fun _ => And.right⟩

theorem follows_filterLessLess (hk : r.kind = .LessThan) (hk' : other.kind = .LessThan)
    (h : filterLessLess r other = some result) :
    Follows (Both graph r other) r.left r.right result := by
  refine follows_restate h fun env hP => ?_
  simp only [Both, Holds, hk, hk', ← hl, ← hr, Kind.Holds] at hP ⊢
  omega

theorem follows_filterLessGreater (hk : r.kind = .LessThan) (hk' : other.kind = .GreaterThan)
    (h : filterLessGreater r other = some result) :
    Follows (Both graph r other) r.left r.right result := by
  unfold filterLessGreater at h
  split_ifs at h
  refine follows_restate h fun env hP => ?_
  simp only [Both, Holds, hk, hk', ← hl, ← hr, Kind.Holds] at hP ⊢
  omega

/-- Filtering the flipped relationships, whatever their kinds. -/
theorem follows_filterFlipped {filter : Relationship → Relationship → Option Relationship}
    {kind' : Kind} (hk : r.kind.flipped = kind) (hk' : other.kind.flipped = kind')
    (hfilter : ∀ {a b c : Relationship}, a.left = b.left → a.right = b.right → a.kind = kind →
      b.kind = kind' → filter a b = some c → Follows (Both graph a b) a.left a.right c)
    (h : filterFlipped filter r other = some result) :
    Follows (Both graph r other) r.left r.right result := by
  unfold filterFlipped at h
  split at h
  case h_2 =>
    obtain rfl := Option.some.inj h
    exact ⟨rfl, rfl, fun _ => And.left⟩
  case h_1 a b ha hb =>
    obtain ⟨hal, har, hak, -⟩ := flipped_some ha
    obtain ⟨hbl, hbr, hbk, -⟩ := flipped_some hb
    split at h
    case h_1 => simp at h
    case h_2 c hc =>
      have hfollows := hfilter (by rw [hal, hbl, hr]) (by rw [har, hbr, hl]) (hak.trans hk)
        (hbk.trans hk') hc
      have hab : Both graph a b = Both graph r other :=
        funext fun env => propext (and_congr (holds_flipped ha) (holds_flipped hb))
      rw [hab, hal, har] at hfollows
      split at h
      case h_1 =>
        obtain rfl := Option.some.inj h
        exact ⟨rfl, rfl, fun _ => And.left⟩
      case h_2 d hd =>
        obtain rfl := Option.some.inj h
        exact hfollows.flipped hd
end

section
variable (hsame : r.sameNodesAs other = true) (h : r.filter other = some result)
include hsame h

/-- **`filter`** is implied by both relationships, and is about the same nodes. -/
theorem follows_filter : Follows (Both graph r other) r.left r.right result := by
  obtain ⟨hl, hr⟩ : r.left = other.left ∧ r.right = other.right := by
    simpa [sameNodesAs] using hsame
  unfold filter at h
  split_ifs at h
  · obtain rfl := Option.some.inj h
    exact ⟨rfl, rfl, fun _ => And.left⟩
  · cases hk : r.kind <;> cases hk' : other.kind <;> simp only [hk, hk'] at h
    case LessThan.LessThan => exact follows_filterLessLess hl hr hk hk' h
    case LessThan.GreaterThan => exact follows_filterLessGreater hl hr hk hk' h
    case NotEqual.LessThan => exact follows_filterNotEqualLess hl hr hk hk' h
    case LessThan.NotEqual =>
      rw [hl, hr, both_comm]
      exact follows_filterNotEqualLess hl.symm hr.symm hk' hk h
    case NotEqual.GreaterThan =>
      exact follows_filterFlipped hl hr (by rw [hk]; rfl) (by rw [hk']; rfl)
        follows_filterNotEqualLess h
    case GreaterThan.NotEqual =>
      rw [hl, hr, both_comm]
      exact follows_filterFlipped hl.symm hr.symm (by rw [hk']; rfl) (by rw [hk]; rfl)
        follows_filterNotEqualLess h
    case GreaterThan.LessThan =>
      exact follows_filterFlipped hl hr (by rw [hk]; rfl) (by rw [hk']; rfl)
        follows_filterLessGreater h
    case GreaterThan.GreaterThan =>
      exact follows_filterFlipped hl hr (by rw [hk]; rfl) (by rw [hk']; rfl)
        follows_filterLessLess h
    all_goals
      obtain rfl := Option.some.inj h
      first
        | exact ⟨rfl, rfl, fun _ => And.left⟩
        | exact ⟨hl.symm, hr.symm, fun _ => And.right⟩

theorem holds_filter (h₁ : r.Holds env) (h₂ : other.Holds env) : result.Holds env :=
  (follows_filter hsame h).holds env ⟨h₁, h₂⟩

theorem filter_nodes : result.left = r.left ∧ result.right = r.right :=
  have hfollows : Follows (Both (fun _ => .JSConstant 0) r other) _ _ result :=
    follows_filter hsame h
  ⟨hfollows.left, hfollows.right⟩
end

theorem follows_filterConstant (hl : r.left = other.left) : Follows (Both graph r other)
    r.left r.right (filterConstant graph r other) := by
  have hself : Follows (Both graph r other) r.left r.right r :=
    ⟨rfl, rfl, fun _ => And.left⟩
  unfold filterConstant
  split_ifs
  · exact hself
  · split
    case h_2 => exact hself
    case h_1 thisRight otherRight hthis hother =>
      split_ifs
      · exact hself
      · cases hk' : other.kind
        case Equal =>
          dsimp only
          split_ifs
          · exact hself
          · cases hrestate : r.restate .Equal (otherRight + other.offset - thisRight) with
            | none => exact hself
            | some result =>
              refine follows_restate hrestate fun env hP => ?_
              have h := hP.2
              rw [holds_iff env hk', value_right env hother, ← hl] at h
              rw [value_right env hthis]
              simp only [Kind.Holds] at h ⊢
              omega
        all_goals exact hself

theorem holds_filterConstant (hl : r.left = other.left) (h₁ : r.Holds env) (h₂ : other.Holds env) :
    (filterConstant graph r other).Holds env :=
  (follows_filterConstant hl).holds env ⟨h₁, h₂⟩

theorem holds_of_isEquivalentTo (hequiv : r.isEquivalentTo graph other = true) :
    r.Holds env ↔ other.Holds env := by
  unfold isEquivalentTo at hequiv
  split_ifs at hequiv with h₁ h₂
  · rw [h₂]
  · simp only [not_or, not_not] at h₁
    split at hequiv
    case h_2 => simp at hequiv
    case h_1 thisRight otherRight hthis hother =>
      split_ifs at hequiv
      have heq : thisRight + r.offset = otherRight + other.offset := by simpa using hequiv
      rw [holds_iff env h₁.2, Holds, value_right env hthis, value_right env hother, heq, h₁.1]

/-! ## Bounds -/

theorem minValueOfLeft_le (h : r.Holds env) : r.minValueOfLeft graph ≤ env.value r.left := by
  have hint := isInt32_iff.mp (env.int r.left)
  unfold minValueOfLeft
  split
  case h_1 value hvalue => exact (env.constant r.left value hvalue).ge
  case h_2 =>
    have hmin : (asInt32 graph r.right.node).getD minInt ≤ env.value r.right := by
      cases hc : asInt32 graph r.right.node with
      | none => exact (env.int r.right).1
      | some c => exact (value_right env hc).ge
    unfold minInt at hmin
    cases hk : r.kind
    all_goals
      rw [holds_iff env hk] at h
      simp only [Kind.Holds] at h
      simp only [clampedSum, List.sum_cons, List.sum_nil, minInt]
      omega

theorem le_maxValueOfLeft (h : r.Holds env) : env.value r.left ≤ r.maxValueOfLeft graph := by
  have hint := isInt32_iff.mp (env.int r.left)
  unfold maxValueOfLeft
  split
  case h_1 value hvalue => exact (env.constant r.left value hvalue).le
  case h_2 =>
    have hmax : env.value r.right ≤ (asInt32 graph r.right.node).getD maxInt := by
      cases hc : asInt32 graph r.right.node with
      | none => exact (env.int r.right).2
      | some c => exact (value_right env hc).le
    unfold maxInt at hmax
    cases hk : r.kind
    all_goals
      rw [holds_iff env hk] at h
      simp only [Kind.Holds] at h
      simp only [clampedSum, List.sum_cons, List.sum_nil, maxInt]
      omega
end

end JscAndroid.Dfg.Relationships
