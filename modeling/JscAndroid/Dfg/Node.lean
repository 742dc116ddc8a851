import Mathlib

/-!
# Nodes of the DFG graph

What the integer range optimization reads of a graph in SSA form: the operations it knows, with
their operands and arithmetic mode, and the projections of a node. A node has a value, and a `Phi`
has a second one, its shadow, which is what `Upsilon` writes.
-/

namespace JscAndroid.Dfg.Node

open Option

/-! ## 32-bit integers -/

def minInt : ℤ := -2 ^ 31

def maxInt : ℤ := 2 ^ 31 - 1

/-- The number is an `int`. -/
def IsInt32 (x : ℤ) : Prop := minInt ≤ x ∧ x ≤ maxInt

instance (x : ℤ) : Decidable (IsInt32 x) := inferInstanceAs (Decidable (_ ∧ _))

/-- Reduction to an `int`. -/
def wrapInt32 (x : ℤ) : ℤ := (x + 2 ^ 31) % 2 ^ 32 - 2 ^ 31

theorem isInt32_iff {x : ℤ} : IsInt32 x ↔ -2147483648 ≤ x ∧ x ≤ 2147483647 := by
  unfold IsInt32 minInt maxInt
  norm_num

theorem wrapInt32_of_isInt32 {x : ℤ} (h : IsInt32 x) : wrapInt32 x = x := by
  rw [isInt32_iff] at h
  unfold wrapInt32
  omega

/-- `checkedSum`: from the last summand on, `none` after an overflow. -/
def checkedSum : List ℤ → Option ℤ
  | [] => some 0
  | x :: rest => do
    let sum ← checkedSum rest
    if IsInt32 (x + sum) then some (x + sum) else none

def sumOverflows (summands : List ℤ) : Bool := (checkedSum summands).isNone

def differenceOverflows (left right : ℤ) : Bool := ¬ IsInt32 (left - right)

/-- `clampedSum`. -/
def clampedSum (summands : List ℤ) : ℤ := min maxInt (max minInt summands.sum)

theorem checkedSum_eq {summands : List ℤ} {sum : ℤ} (h : checkedSum summands = some sum) :
    sum = summands.sum := by
  induction summands generalizing sum with
  | nil => exact (some.inj h).symm
  | cons x rest ih =>
    obtain ⟨y, hy, h⟩ := bind_eq_some_iff.mp h
    split_ifs at h
    rw [List.sum_cons, ← ih hy]
    exact (some.inj h).symm

theorem isInt32_of_not_sumOverflows {summands : List ℤ} (h : sumOverflows summands = false) :
    IsInt32 summands.sum := by
  obtain ⟨sum, hsum⟩ : ∃ sum, checkedSum summands = some sum := by
    rw [← isSome_iff_exists]
    simpa [sumOverflows] using h
  rw [← checkedSum_eq hsum]
  cases summands with
  | nil =>
    obtain rfl : 0 = sum := some.inj hsum
    exact ⟨by decide, by decide⟩
  | cons x rest =>
    obtain ⟨y, hy, h⟩ := bind_eq_some_iff.mp hsum
    split_ifs at h with hint
    rwa [← some.inj h]

/-! ## Nodes -/

abbrev NodeId := ℕ

/-- `Arith::Mode`. -/
inductive ArithMode
  | NotSet
  | Unchecked
  | CheckOverflow
  | CheckOverflowAndNegativeZero
  | DoOverflow
  deriving DecidableEq, Repr

def shouldCheckOverflow : ArithMode → Bool
  | .Unchecked => false
  | _ => true

def shouldCheckNegativeZero : ArithMode → Bool
  | .Unchecked | .CheckOverflow => false
  | _ => true

/-- The operation of a node; `int32Use` says that all operands are used as `Int32Use`. -/
inductive Op
  | JSConstant (value : ℤ)
  | ArithAbs (child1 : NodeId) (int32Use : Bool) (mode : ArithMode)
  | ArithAdd (child1 child2 : NodeId) (int32Use : Bool) (mode : ArithMode)
  | ArithNegate (child1 : NodeId) (mode : ArithMode)
  | Identity (child1 : NodeId)
  | CheckInBounds (child1 child2 : NodeId)
  | GetArrayLength
  | GetVectorLength
  | Upsilon (child1 phi : NodeId)
  | Phi
  | other
  deriving DecidableEq, Repr

/-- The nodes whose values an operation uses. -/
def Op.children : Op → List NodeId
  | .ArithAbs child1 _ _ | .ArithNegate child1 _ | .Identity child1 | .Upsilon child1 _ => [child1]
  | .ArithAdd child1 child2 _ _ | .CheckInBounds child1 child2 => [child1, child2]
  | _ => []

abbrev Graph := NodeId → Op

/-- `asInt32`, for a node that is an `int` constant. -/
def asInt32 (graph : Graph) (node : NodeId) : Option ℤ :=
  match graph node with
  | .JSConstant value => some value
  | _ => none

inductive ProjectionKind
  | Primary
  | Shadow
  deriving DecidableEq, Repr

structure NodeFlowProjection where
  node : NodeId
  kind : ProjectionKind
  deriving DecidableEq, Repr

namespace NodeFlowProjection

def primary (node : NodeId) : NodeFlowProjection := ⟨node, .Primary⟩

def shadow (node : NodeId) : NodeFlowProjection := ⟨node, .Shadow⟩

def isStillValid (graph : Graph) (p : NodeFlowProjection) : Bool :=
  p.kind = .Primary ∨ graph p.node = .Phi

/-- `operator<`, with the nodes in the order of their numbers. -/
def less (p q : NodeFlowProjection) : Bool :=
  if p.kind ≠ q.kind then p.kind = .Primary else p.node < q.node

end NodeFlowProjection

end JscAndroid.Dfg.Node
