import JscAndroid.Dfg.Node

/-!
# Backwards propagation of uses

The phase goes through a block backwards and tells each node how its value is used. An addition,
subtraction or multiplication whose value is not used as a number is computed with wrap-around,
which nobody can see as long as the exact value is below `2 ^ 53` in magnitude.

The bound rests on `isWithinPowerOfTwo`, a syntactic test of the operands, which takes a negative
constant for a bound of a bitwise and; and it is lost where an addition has a product under it.
-/

namespace JscAndroid.Dfg.BackwardsPropagation

open Node (IsInt32 isInt32_iff wrapInt32 wrapInt32_of_isInt32)
open List

variable {i : ℕ} {x : ℤ}

/-! ## Nodes and flags -/

inductive BitOp
  | And
  | Or
  | Xor
  | LShift
  | RShift
  | URShift
  deriving DecidableEq, Repr

/-- The operation of a node, with the positions of its operands in the block. `Leaf` is a node with
an `int` value that is not computed here. -/
inductive Op
  | Leaf
  | JSConstant (value : ℤ)
  | Bit (op : BitOp) (child1 child2 : ℕ)
  | ArithAdd (child1 child2 : ℕ)
  | ArithSub (child1 child2 : ℕ)
  | ArithMul (child1 child2 : ℕ)
  deriving DecidableEq, Repr

def Op.children : Op → List ℕ
  | .Leaf | .JSConstant _ => []
  | .Bit _ child1 child2 | .ArithAdd child1 child2 | .ArithSub child1 child2
  | .ArithMul child1 child2 => [child1, child2]

/-- A basic block; operands come before the node. -/
structure Block where
  ops : List Op
  ordered : ∀ i < ops.length, ∀ child ∈ (ops.getD i .Leaf).children, child < i

/-- The node at a position. -/
def Block.at (block : Block) (i : ℕ) : Op := block.ops.getD i .Leaf

/-- The flags of `NodeBytecodeBackPropMask`. -/
structure NodeFlags where
  usesAsNumber : Bool
  needsNegZero : Bool
  usesAsOther : Bool
  usesAsInt : Bool
  usesAsArrayIndex : Bool
  deriving DecidableEq, Repr

def NodeFlags.merge (flags newFlags : NodeFlags) : NodeFlags where
  usesAsNumber := flags.usesAsNumber || newFlags.usesAsNumber
  needsNegZero := flags.needsNegZero || newFlags.needsNegZero
  usesAsOther := flags.usesAsOther || newFlags.usesAsOther
  usesAsInt := flags.usesAsInt || newFlags.usesAsInt
  usesAsArrayIndex := flags.usesAsArrayIndex || newFlags.usesAsArrayIndex

/-- The flags of the nodes of a block. -/
abbrev Flags := ℕ → NodeFlags

def mergeFlags (flags : Flags) (node : ℕ) (newFlags : NodeFlags) : Flags :=
  Function.update flags node ((flags node).merge newFlags)

/-! ## Syntactic bounds -/

section
variable (block : Block)

def isNumberConstant (node : ℕ) : Option ℤ :=
  match block.at node with
  | .JSConstant value => some value
  | _ => none

/-- An integer constant is never `-0`. -/
def isNotNegZero (node : ℕ) : Bool := (isNumberConstant block node).isSome

def isNotPosZero (node : ℕ) : Bool := (isNumberConstant block node).any fun value => value ≠ 0

/-- The constant is strictly less than the power of two in magnitude. -/
def withinForConstant (power : ℕ) (value : ℤ) : Bool :=
  value > -(2 ^ power) && value < 2 ^ power

def isWithinPowerOfTwoNonRecursive (power node : ℕ) : Bool :=
  (isNumberConstant block node).any (withinForConstant power)

/-- The test that `isWithinPowerOfTwo` makes for a shift to the right; it asks whether the shift
itself is a constant. -/
def isWithinForShift (power node shiftAmount : ℕ) : Bool :=
  if power > 31 then true
  else if (isNumberConstant block node).isNone then false
  else (isNumberConstant block shiftAmount).any fun value => value > 32 - (power : ℤ)

def isWithinPowerOfTwo (power node : ℕ) : Bool :=
  match block.at node with
  | .JSConstant value => withinForConstant power value
  | .Bit .And child1 child2 =>
    if power > 31 then true
    else isWithinPowerOfTwoNonRecursive block power child1 ||
      isWithinPowerOfTwoNonRecursive block power child2
  | .Bit .Or _ _ | .Bit .Xor _ _ | .Bit .LShift _ _ => power > 31
  | .Bit .RShift _ child2 | .Bit .URShift _ child2 => isWithinForShift block power node child2
  | _ => false

/-! ## Propagation -/

/-- The flags that an addition or subtraction gives to its operands. -/
def additionFlags (allowNestedOverflowingAdditions notNegZero : Bool) (child1 child2 : ℕ)
    (flags : NodeFlags) : NodeFlags :=
  { flags with
    usesAsOther := false
    needsNegZero := flags.needsNegZero && !notNegZero
    usesAsNumber := flags.usesAsNumber ||
      (!isWithinPowerOfTwo block 32 child1 && !isWithinPowerOfTwo block 32 child2) ||
      !allowNestedOverflowingAdditions }

/-- `propagate`, for the nodes modelled here. -/
def propagate (allowNestedOverflowingAdditions : Bool) (flags : Flags) (node : ℕ) : Flags :=
  let nodeFlags := flags node
  match block.at node with
  | .Leaf | .JSConstant _ => flags
  | .Bit _ child1 child2 =>
    let newFlags : NodeFlags := ⟨false, false, false, true, false⟩
    mergeFlags (mergeFlags flags child1 newFlags) child2 newFlags
  | .ArithAdd child1 child2 =>
    let newFlags := additionFlags block allowNestedOverflowingAdditions
      (isNotNegZero block child1 || isNotNegZero block child2) child1 child2 nodeFlags
    mergeFlags (mergeFlags flags child1 newFlags) child2 newFlags
  | .ArithSub child1 child2 =>
    let newFlags := additionFlags block allowNestedOverflowingAdditions
      (isNotNegZero block child1 || isNotPosZero block child2) child1 child2 nodeFlags
    mergeFlags (mergeFlags flags child1 newFlags) child2 newFlags
  | .ArithMul child1 child2 =>
    let ownFlags := { nodeFlags with
      usesAsNumber := nodeFlags.usesAsNumber ||
        (!isWithinPowerOfTwo block 22 child1 && !isWithinPowerOfTwo block 22 child2) }
    let newFlags := { ownFlags with
      usesAsNumber := true
      needsNegZero := true
      usesAsOther := false }
    mergeFlags (mergeFlags (mergeFlags flags node ownFlags) child1 newFlags) child2 newFlags

/-- The pass over a block, from its last node to its first. The flags it starts with are those that
nodes of other kinds and earlier passes have merged. -/
def run (flags : Flags) : Flags :=
  (List.range block.ops.length).reverse.foldl
    (propagate block (block.ops.length < 2 ^ 16)) flags
end

/-! ## What the pass leaves -/

section
variable {block : Block}

theorem Block.lt_length (block : Block) (h : block.at i ≠ .Leaf) : i < block.ops.length := by
  by_contra hlt
  refine h ?_
  rw [Block.at, getD_eq_getElem?_getD, getElem?_eq_none (not_lt.mp hlt), Option.getD_none]

theorem Block.lt_of_mem (block : Block) {child : ℕ} (h : child ∈ (block.at i).children) :
    child < i := by
  have hne : block.at i ≠ .Leaf := by
    intro hleaf
    rw [hleaf] at h
    cases h
  exact block.ordered i (block.lt_length hne) child h

/-- The flag that matters. -/
def Uses (flags : Flags) (node : ℕ) : Prop := (flags node).usesAsNumber = true

theorem uses_mergeFlags (flags : Flags) (node : ℕ) (newFlags : NodeFlags) (i : ℕ) :
    Uses (mergeFlags flags node newFlags) i ↔
      Uses flags i ∨ i = node ∧ newFlags.usesAsNumber = true := by
  unfold Uses mergeFlags
  by_cases h : i = node
  · subst h
    simp [NodeFlags.merge]
  · simp [h]

/-- The operands get the flag from an addition or subtraction. -/
def Passes (block : Block) (allow : Bool) (flags : Flags) (node child1 child2 : ℕ) : Prop :=
  Uses flags node ∨
    isWithinPowerOfTwo block 32 child1 = false ∧ isWithinPowerOfTwo block 32 child2 = false ∨
    allow = false

section
variable (allow : Bool)
include allow

theorem uses_propagate (flags : Flags) (node i : ℕ) :
    Uses (propagate block allow flags node) i ↔ Uses flags i ∨
      match block.at node with
      | .Leaf | .JSConstant _ | .Bit _ _ _ => False
      | .ArithAdd child1 child2 | .ArithSub child1 child2 =>
        (i = child1 ∨ i = child2) ∧ Passes block allow flags node child1 child2
      | .ArithMul child1 child2 => i = child1 ∨ i = child2 ∨ i = node ∧
        (Uses flags node ∨ isWithinPowerOfTwo block 22 child1 = false ∧
          isWithinPowerOfTwo block 22 child2 = false) := by
  unfold propagate
  cases block.at node with
  | Leaf | JSConstant => simp
  | Bit =>
    simp only [uses_mergeFlags]
    simp
  | ArithAdd child1 child2 | ArithSub child1 child2 =>
    simp only [uses_mergeFlags, additionFlags, Passes]
    simp [Uses]
    tauto
  | ArithMul child1 child2 =>
    simp only [uses_mergeFlags]
    simp [Uses]
    tauto

/-- The pass over the first `n` nodes, from the last of them on. -/
def pass (block : Block) (allow : Bool) (n : ℕ) (flags : Flags) : Flags :=
  (List.range n).reverse.foldl (propagate block allow) flags

theorem pass_succ (n : ℕ) (flags : Flags) :
    pass block allow (n + 1) flags = pass block allow n (propagate block allow flags n) := by
  unfold pass
  rw [range_succ, reverse_append, reverse_singleton, singleton_append,
    foldl_cons]

/-- A node changes the flag of itself and of its operands only. -/
theorem uses_propagate_of_lt (flags : Flags) {node : ℕ} (h : node < i) :
    Uses (propagate block allow flags node) i ↔ Uses flags i := by
  have hchild := fun child (hmem : child ∈ (block.at node).children) => block.lt_of_mem hmem
  rw [uses_propagate]
  cases hop : block.at node with
  | Leaf | JSConstant | Bit => simp
  | ArithAdd child1 child2 | ArithSub child1 child2 =>
    simp only [hop, Op.children, mem_cons, forall_eq_or_imp] at hchild
    simp only [or_iff_left_iff_imp]
    omega
  | ArithMul child1 child2 =>
    simp only [hop, Op.children, mem_cons, forall_eq_or_imp] at hchild
    simp only [or_iff_left_iff_imp]
    omega

theorem uses_pass_of_le (flags : Flags) {n : ℕ} (h : n ≤ i) :
    Uses (pass block allow n flags) i ↔ Uses flags i := by
  induction n generalizing flags with
  | zero => rfl
  | succ n ih => rw [pass_succ, ih _ (by omega), uses_propagate_of_lt allow flags (by omega)]

theorem uses_pass_of_uses (n : ℕ) {flags : Flags} (h : Uses flags i) :
    Uses (pass block allow n flags) i := by
  induction n generalizing flags with
  | zero => exact h
  | succ n ih =>
    rw [pass_succ]
    exact ih ((uses_propagate allow flags n i).mpr (Or.inl h))

/-- The node is an addition or subtraction of these operands. -/
def IsAddition (block : Block) (i child1 child2 : ℕ) : Prop :=
  block.at i = .ArithAdd child1 child2 ∨ block.at i = .ArithSub child1 child2

omit allow in
theorem IsAddition.lt {child1 child2 : ℕ} (h : IsAddition block i child1 child2) :
    child1 < i ∧ child2 < i := by
  have hchild := fun child (hmem : child ∈ (block.at i).children) => block.lt_of_mem hmem
  rcases h with hop | hop
  · simpa [hop, Op.children] using hchild
  · simpa [hop, Op.children] using hchild

theorem IsAddition.uses_propagate (flags : Flags) {node child1 child2 : ℕ}
    (h : IsAddition block node child1 child2) (i : ℕ) : Uses (propagate block allow flags node) i ↔
      Uses flags i ∨ (i = child1 ∨ i = child2) ∧ Passes block allow flags node child1 child2 := by
  rw [BackwardsPropagation.uses_propagate]
  rcases h with hop | hop <;> rw [hop]

/-- What holds of the flags after a pass over the first `n` nodes. -/
structure Settled (block : Block) (allow : Bool) (n : ℕ) (flags : Flags) : Prop where
  addition : ∀ i < n, ∀ child1 child2, IsAddition block i child1 child2 →
    Passes block allow flags i child1 child2 → Uses flags child1 ∧ Uses flags child2
  product : ∀ i < n, ∀ child1 child2, block.at i = .ArithMul child1 child2 →
    Uses flags child1 ∧ Uses flags child2 ∧
    (isWithinPowerOfTwo block 22 child1 = false → isWithinPowerOfTwo block 22 child2 = false →
      Uses flags i)

/-- **The pass settles the flags.** -/
theorem settled_pass (n : ℕ) (flags : Flags) :
    Settled block allow n (pass block allow n flags) := by
  induction n generalizing flags with
  | zero => exact ⟨fun i hi => by omega, fun i hi => by omega⟩
  | succ n ih =>
    rw [pass_succ]
    obtain ⟨haddition, hproduct⟩ := ih (propagate block allow flags n)
    -- the flag of the node `n` does not change any more, and its operands keep what it gave them
    have hself : Uses (pass block allow n (propagate block allow flags n)) n ↔
        Uses (propagate block allow flags n) n := uses_pass_of_le allow _ (le_refl n)
    have hkeep : ∀ {i : ℕ}, Uses (propagate block allow flags n) i →
        Uses (pass block allow n (propagate block allow flags n)) i := uses_pass_of_uses allow n
    refine ⟨fun i hi child1 child2 hadd hpasses => ?_, fun i hi child1 child2 hmul => ?_⟩
    · rcases Nat.lt_succ_iff_lt_or_eq.mp hi with hlt | rfl
      · exact haddition i hlt child1 child2 hadd hpasses
      · have hstep := hadd.uses_propagate allow flags
        have hpasses' : Passes block allow flags i child1 child2 := by
          refine hpasses.imp_left fun huses => ?_
          rcases (hstep i).mp (hself.mp huses) with huses | ⟨heq, -⟩
          · exact huses
          · have := hadd.lt
            omega
        exact ⟨hkeep ((hstep child1).mpr (Or.inr ⟨Or.inl rfl, hpasses'⟩)),
          hkeep ((hstep child2).mpr (Or.inr ⟨Or.inr rfl, hpasses'⟩))⟩
    · rcases Nat.lt_succ_iff_lt_or_eq.mp hi with hlt | rfl
      · exact hproduct i hlt child1 child2 hmul
      · have hstep : ∀ j, Uses (propagate block allow flags i) j ↔ _ := uses_propagate allow flags i
        rw [hmul] at hstep
        refine ⟨hkeep ((hstep child1).mpr (Or.inr (Or.inl rfl))),
          hkeep ((hstep child2).mpr (Or.inr (Or.inr (Or.inl rfl)))), fun h1 h2 => ?_⟩
        exact hkeep ((hstep i).mpr (Or.inr (Or.inr (Or.inr ⟨rfl, Or.inr ⟨h1, h2⟩⟩))))
end

theorem settled_run (flags : Flags) :
    Settled block (block.ops.length < 2 ^ 16) block.ops.length (run block flags) :=
  settled_pass _ _ flags
end

/-! ## Exact values -/

def BitOp.eval (op : BitOp) (x y : ℤ) : ℤ :=
  let a := BitVec.ofInt 32 x
  let b := BitVec.ofInt 32 y
  match op with
  | .And => (a &&& b).toInt
  | .Or => (a ||| b).toInt
  | .Xor => (a ^^^ b).toInt
  | .LShift => (a <<< (b.toNat % 32)).toInt
  | .RShift => (a.sshiftRight (b.toNat % 32)).toInt
  | .URShift => (a >>> (b.toNat % 32)).toInt

/-- The exact values of the nodes of a block: leaves and constants are `int`s, and an addition,
subtraction or multiplication whose value is used as a number is checked, so its value is an `int`
too, or the code exits. -/
structure Exact (block : Block) (flags : Flags) (value : ℕ → ℤ) : Prop where
  leaf : ∀ i, block.at i = .Leaf → IsInt32 (value i)
  constant : ∀ i c, block.at i = .JSConstant c → value i = c ∧ IsInt32 c
  bit : ∀ i op child1 child2, block.at i = .Bit op child1 child2 →
    value i = op.eval (value child1) (value child2)
  add : ∀ i child1 child2, block.at i = .ArithAdd child1 child2 →
    value i = value child1 + value child2
  sub : ∀ i child1 child2, block.at i = .ArithSub child1 child2 →
    value i = value child1 - value child2
  mul : ∀ i child1 child2, block.at i = .ArithMul child1 child2 →
    value i = value child1 * value child2
  checked : ∀ i, Uses flags i → IsInt32 (value i)

/-- The double nearest to an integer, the even one of two. -/
def roundToDouble (x : ℤ) : ℤ :=
  let unit := 2 ^ (x.natAbs.size - 53)
  let quotient := x.natAbs / unit
  let remainder := x.natAbs % unit
  let rounded := if 2 * remainder > unit ∨ 2 * remainder = unit ∧ quotient % 2 = 1 then
    quotient + 1 else quotient
  x.sign * (rounded * unit : ℕ)

theorem roundToDouble_eq (h : |x| < 2 ^ 53) : roundToDouble x = x := by
  have hsize : x.natAbs.size - 53 = 0 := by
    rw [Nat.sub_eq_zero_iff_le, Nat.size_le]
    rw [Int.abs_eq_natAbs] at h
    exact_mod_cast h
  simp only [roundToDouble, hsize, pow_zero, Nat.mod_one, Nat.div_one, mul_one]
  exact Int.sign_mul_natAbs x

theorem isInt32_toInt (x : BitVec 32) : IsInt32 x.toInt := by
  rw [isInt32_iff, BitVec.toInt_eq_toNat_cond]
  split_ifs <;> omega

theorem isInt32_bitOp (op : BitOp) (x y : ℤ) : IsInt32 (op.eval x y) := by
  cases op <;> exact isInt32_toInt _

/-- A bitwise and with a constant that is not negative is between zero and the constant. -/
theorem and_le {c : ℤ} (h0 : 0 ≤ c) (h31 : c < 2 ^ 31) :
    0 ≤ BitOp.And.eval x c ∧ BitOp.And.eval x c ≤ c := by
  have hc : (BitVec.ofInt 32 c).toNat = c.toNat := by
    rw [BitVec.toNat_ofInt]
    omega
  have hle : (BitVec.ofInt 32 x &&& BitVec.ofInt 32 c).toNat ≤ c.toNat := by
    rw [BitVec.toNat_and, hc]
    exact Nat.and_le_right
  have htoInt : BitOp.And.eval x c = (BitVec.ofInt 32 x &&& BitVec.ofInt 32 c).toNat := by
    unfold BitOp.eval
    dsimp only
    rw [BitVec.toInt_eq_toNat_cond, if_pos (by omega)]
  omega

theorem and_comm_eval (x y : ℤ) : BitOp.And.eval x y = BitOp.And.eval y x := by
  unfold BitOp.eval
  dsimp only
  rw [BitVec.and_comm]

/-! ## The bounds -/

section
variable {block : Block} {flags : Flags} {value : ℕ → ℤ}

theorem abs_lt_of_isInt32 (h : IsInt32 x) : |x| < 2 ^ 32 := by
  rw [isInt32_iff] at h
  rw [abs_lt]
  omega

/-- The operand is a constant by which a bitwise and is bounded. -/
def smallMask (block : Block) (child : ℕ) : Bool :=
  (isNumberConstant block child).any fun c => 0 ≤ c && c < 2 ^ 22

/-- A bitwise and that is taken to be small because of a negative constant only. -/
def negativeMask (block : Block) (i : ℕ) : Bool :=
  match block.at i with
  | .Bit .And child1 child2 =>
    isWithinPowerOfTwo block 22 i && !(smallMask block child1 || smallMask block child2)
  | _ => false

section
variable (h : Exact block flags value)
include h

theorem constant_value {child : ℕ} {c : ℤ}
    (hc : isNumberConstant block child = some c) : value child = c ∧ IsInt32 c := by
  unfold isNumberConstant at hc
  split at hc
  case h_1 d hop =>
    obtain rfl := Option.some.inj hc
    exact h.constant child d hop
  case h_2 => cases hc

theorem and_small {child : ℕ} (hsmall : smallMask block child = true) :
    |BitOp.And.eval x (value child)| < 2 ^ 22 := by
  rw [smallMask, Option.any_eq_true] at hsmall
  obtain ⟨c, hc, hbounds⟩ := hsmall
  simp only [Bool.and_eq_true, decide_eq_true_eq] at hbounds
  rw [(constant_value h hc).1, abs_lt]
  have := and_le (x := x) hbounds.1 (by omega)
  omega

omit h in
theorem abs_lt_of_withinForConstant {power : ℕ} {c : ℤ} (h : withinForConstant power c = true) :
    |c| < 2 ^ power := by
  simp only [withinForConstant, Bool.and_eq_true, decide_eq_true_eq] at h
  rwa [abs_lt]

/-- **The test for `2 ^ 32`** is right. -/
theorem within32 (hwithin : isWithinPowerOfTwo block 32 i = true) :
    |value i| < 2 ^ 32 := by
  cases hop : block.at i with
  | JSConstant c =>
    rw [(h.constant i c hop).1]
    simp only [isWithinPowerOfTwo, hop] at hwithin
    exact abs_lt_of_withinForConstant hwithin
  | Bit op child1 child2 =>
    rw [h.bit i op child1 child2 hop]
    exact abs_lt_of_isInt32 (isInt32_bitOp op _ _)
  | _ => simp [isWithinPowerOfTwo, hop] at hwithin

/-- **The test for `2 ^ 22`** is right, but for a bitwise and with a negative constant. -/
theorem within22 (hwithin : isWithinPowerOfTwo block 22 i = true)
    (hmask : negativeMask block i = false) :
    |value i| < 2 ^ 22 := by
  cases hop : block.at i with
  | JSConstant c =>
    rw [(h.constant i c hop).1]
    simp only [isWithinPowerOfTwo, hop] at hwithin
    exact abs_lt_of_withinForConstant hwithin
  | Bit op child1 child2 =>
    rw [h.bit i op child1 child2 hop]
    cases op with
    | And =>
      have hsmall : smallMask block child1 = true ∨ smallMask block child2 = true := by
        by_contra hnot
        rw [not_or] at hnot
        simp [negativeMask, hop, hwithin, hnot] at hmask
      rcases hsmall with hsmall | hsmall
      · rw [and_comm_eval]
        exact and_small h hsmall
      · exact and_small h hsmall
    | Or | Xor | LShift => simp [isWithinPowerOfTwo, hop] at hwithin
    | RShift | URShift =>
      simp [isWithinPowerOfTwo, hop, isWithinForShift, isNumberConstant] at hwithin
  | _ => simp [isWithinPowerOfTwo, hop] at hwithin

/-- An addition or subtraction with a product under it, through additions and subtractions. -/
inductive OverProduct (block : Block) : ℕ → Prop
  | product {i child1 child2 child factor1 factor2 : ℕ} (hadd : IsAddition block i child1 child2)
      (hchild : child = child1 ∨ child = child2)
      (hmul : block.at child = .ArithMul factor1 factor2) : OverProduct block i
  | addition {i child1 child2 child : ℕ} (hadd : IsAddition block i child1 child2)
      (hchild : child = child1 ∨ child = child2) (h : OverProduct block child) : OverProduct block i

/-- What has to hold of the values of a block: nodes that are computed with wrap-around are
below `2 ^ 53`, so that conversion of the double gives the wrapped value, and the syntactic bounds
are bounds. -/
structure Sound (block : Block) (flags : Flags) (value : ℕ → ℤ) : Prop where
  bounded : ∀ i, ¬ Uses flags i → |value i| < 2 ^ 53
  unobservable : ∀ i, ¬ Uses flags i → wrapInt32 (roundToDouble (value i)) = wrapInt32 (value i)
  within22 : ∀ i, isWithinPowerOfTwo block 22 i = true → |value i| < 2 ^ 22
  within32 : ∀ i, isWithinPowerOfTwo block 32 i = true → |value i| < 2 ^ 32

/-- What the phase misses: operands beside a negative constant that the bitwise and does not bring
below `2 ^ 22`, and the values of additions over products. -/
structure Small (block : Block) (value : ℕ → ℤ) : Prop where
  mask : ∀ i child1 child2, block.at i = .Bit .And child1 child2 → negativeMask block i = true →
    |BitOp.And.eval (value child1) (value child2)| < 2 ^ 22
  sum : ∀ i, OverProduct block i → |value i| < 2 ^ 53

omit h in
theorem exists_of_negativeMask (h : negativeMask block i = true) :
    isWithinPowerOfTwo block 22 i = true ∧
      ∃ child1 child2, block.at i = .Bit .And child1 child2 := by
  unfold negativeMask at h
  split at h
  case h_1 child1 child2 hop => exact ⟨(Bool.and_eq_true_iff.mp h).1, child1, child2, hop⟩
  case h_2 => cases h

theorem Small.within22 (hsmall : Small block value)
    (hwithin : isWithinPowerOfTwo block 22 i = true) : |value i| < 2 ^ 22 := by
  cases hmask : negativeMask block i with
  | true =>
    obtain ⟨-, child1, child2, hop⟩ := exists_of_negativeMask hmask
    rw [h.bit i _ child1 child2 hop]
    exact hsmall.mask i child1 child2 hop hmask
  | false => exact BackwardsPropagation.within22 h hwithin hmask

theorem Exact.addition {child1 child2 : ℕ}
    (hadd : IsAddition block i child1 child2) : |value i| ≤ |value child1| + |value child2| := by
  rcases hadd with hop | hop
  · rw [h.add i child1 child2 hop]
    exact abs_add_le _ _
  · rw [h.sub i child1 child2 hop]
    exact abs_sub _ _

theorem Exact.isInt32_or (i : ℕ) : IsInt32 (value i) ∨
    (∃ child1 child2, IsAddition block i child1 child2) ∨
      ∃ child1 child2, block.at i = .ArithMul child1 child2 := by
  cases hop : block.at i with
  | Leaf => exact Or.inl (h.leaf i hop)
  | JSConstant c =>
    obtain ⟨hvalue, hc⟩ := h.constant i c hop
    exact Or.inl (by rwa [hvalue])
  | Bit op child1 child2 =>
    rw [h.bit i op child1 child2 hop]
    exact Or.inl (isInt32_bitOp op _ _)
  | ArithAdd child1 child2 => exact Or.inr (Or.inl ⟨child1, child2, Or.inl hop⟩)
  | ArithSub child1 child2 => exact Or.inr (Or.inl ⟨child1, child2, Or.inr hop⟩)
  | ArithMul child1 child2 => exact Or.inr (Or.inr ⟨child1, child2, rfl⟩)

omit h in
/-- A product with a factor below `2 ^ 22` and `int` factors. -/
theorem abs_mul_lt {y : ℤ} (hx : |x| < 2 ^ 22) (hy : IsInt32 y) : |x * y| < 2 ^ 53 := by
  have hy' : |y| ≤ 2 ^ 31 := by
    rw [isInt32_iff] at hy
    rw [abs_le]
    omega
  calc |x * y| = |x| * |y| := abs_mul x y
    _ ≤ |x| * 2 ^ 31 := mul_le_mul_of_nonneg_left hy' (abs_nonneg x)
    _ < 2 ^ 53 := by omega

theorem mul_bounded (hsmall : Small block value) {allow : Bool}
    {n : ℕ} (hsettled : Settled block allow n flags) {child1 child2 : ℕ} (hi : i < n)
    (hop : block.at i = .ArithMul child1 child2) (huses : ¬ Uses flags i) : |value i| < 2 ^ 53 := by
  obtain ⟨huses1, huses2, hwithin⟩ := hsettled.product i hi child1 child2 hop
  rw [h.mul i child1 child2 hop]
  cases h1 : isWithinPowerOfTwo block 22 child1 with
  | true => exact abs_mul_lt (hsmall.within22 h h1) (h.checked child2 huses2)
  | false =>
    cases h2 : isWithinPowerOfTwo block 22 child2 with
    | true =>
      rw [mul_comm]
      exact abs_mul_lt (hsmall.within22 h h2) (h.checked child1 huses1)
    | false => exact (huses (hwithin h1 h2)).elim

/-- **Chains of additions** without products grow by less than `2 ^ 32` with each addition. -/
theorem chain_bounded {allow : Bool} {n : ℕ} (hsettled : Settled block allow n flags) (hi : i < n)
    (hproduct : ∀ child1 child2, block.at i ≠ .ArithMul child1 child2)
    (hover : ¬ OverProduct block i) : |value i| < 2 ^ 32 * (i + 1) := by
  induction i using Nat.strong_induction_on with
  | _ i ih =>
    have hint : IsInt32 (value i) → |value i| < 2 ^ 32 * (i + 1) := by
      intro hint
      have := abs_lt_of_isInt32 hint
      omega
    by_cases huses : Uses flags i
    · exact hint (h.checked i huses)
    rcases h.isInt32_or i with hvalue | ⟨child1, child2, hadd⟩ | ⟨child1, child2, hmul⟩
    · exact hint hvalue
    · obtain ⟨hlt1, hlt2⟩ := hadd.lt
      have hsum := h.addition hadd
      have hchild : ∀ child, child = child1 ∨ child = child2 →
          |value child| < 2 ^ 32 * (child + 1) := by
        intro child hchild
        refine ih child (by omega) (by omega) (fun _ _ hmul => ?_) fun hover' => ?_
        · exact hover (.product hadd hchild hmul)
        · exact hover (.addition hadd hchild hover')
      by_cases hpasses : Passes block allow flags i child1 child2
      · obtain ⟨huses1, huses2⟩ := hsettled.addition i hi child1 child2 hadd hpasses
        have hchild1 := abs_lt_of_isInt32 (h.checked child1 huses1)
        have hchild2 := abs_lt_of_isInt32 (h.checked child2 huses2)
        omega
      · -- one operand is bounded, the other is a shorter chain
        have hchild1 := hchild child1 (Or.inl rfl)
        have hchild2 := hchild child2 (Or.inr rfl)
        cases h1 : isWithinPowerOfTwo block 32 child1 with
        | true =>
          have := BackwardsPropagation.within32 h h1
          omega
        | false =>
          cases h2 : isWithinPowerOfTwo block 32 child2 with
          | true =>
            have := BackwardsPropagation.within32 h h2
            omega
          | false => exact (hpasses (Or.inr (Or.inl ⟨h1, h2⟩))).elim
    · exact (hproduct child1 child2 hmul).elim
end

theorem addition_bounded (h : Exact block (run block flags) value) {child1 child2 : ℕ}
    (hadd : IsAddition block i child1 child2) (hover : ¬ OverProduct block i) :
    |value i| < 2 ^ 53 := by
  have hne : block.at i ≠ .Leaf := by
    rcases hadd with hop | hop <;> rw [hop] <;> exact Op.noConfusion
  have hi := block.lt_length hne
  have hsettled : Settled block _ _ (run block flags) := settled_run flags
  have hproduct : ∀ a b, block.at i ≠ .ArithMul a b := by
    intro a b
    rcases hadd with hop | hop <;> rw [hop] <;> exact Op.noConfusion
  have hchain := chain_bounded h hsettled hi hproduct hover
  by_cases hallow : block.ops.length < 2 ^ 16
  · omega
  · -- in a block this long all operands of additions are checked
    have hpasses : Passes block (block.ops.length < 2 ^ 16) (run block flags) i child1 child2 :=
      Or.inr (Or.inr (decide_eq_false hallow))
    obtain ⟨huses1, huses2⟩ := hsettled.addition i hi child1 child2 hadd hpasses
    have hsum := h.addition hadd
    have hchild1 := abs_lt_of_isInt32 (h.checked child1 huses1)
    have hchild2 := abs_lt_of_isInt32 (h.checked child2 huses2)
    omega

theorem bounded_of_small (h : Exact block (run block flags) value) (hsmall : Small block value)
    (huses : ¬ Uses (run block flags) i) : |value i| < 2 ^ 53 := by
  rcases h.isInt32_or i with hvalue | ⟨child1, child2, hadd⟩ | ⟨child1, child2, hmul⟩
  · have := abs_lt_of_isInt32 hvalue
    omega
  · by_cases hover : OverProduct block i
    · exact hsmall.sum i hover
    · exact addition_bounded h hadd hover
  · have hne : block.at i ≠ .Leaf := by rw [hmul]; exact Op.noConfusion
    exact mul_bounded h hsmall (settled_run flags) (block.lt_length hne) hmul huses

theorem sound_of_small (h : Exact block (run block flags) value) (hsmall : Small block value) :
    Sound block (run block flags) value := by
  refine ⟨fun i huses => bounded_of_small h hsmall huses, fun i huses => ?_,
    fun i hwithin => hsmall.within22 h hwithin, fun i hwithin => within32 h hwithin⟩
  rw [roundToDouble_eq (bounded_of_small h hsmall huses)]

/-- A block with neither shape: no bitwise and with a negative constant, no addition over a
product. -/
theorem sound_of_no_shape (h : Exact block (run block flags) value)
    (hmask : ∀ i, negativeMask block i = false) (hsum : ∀ i, ¬ OverProduct block i) :
    Sound block (run block flags) value := by
  refine sound_of_small h ⟨fun i _ _ _ hi => ?_, fun i hi => absurd hi (hsum i)⟩
  rw [hmask i] at hi
  cases hi

/-- **Dropping the checks is unobservable** exactly if the bitwise ands with negative constants are
below `2 ^ 22`, and no addition over a product leaves the range of exact doubles. -/
theorem sound_iff_small (block : Block) (flags : Flags) (value : ℕ → ℤ)
    (h : Exact block (run block flags) value) :
    Sound block (run block flags) value ↔ Small block value := by
  refine ⟨fun hsound => ⟨fun i child1 child2 hop hmask => ?_, fun i _ => ?_⟩, sound_of_small h⟩
  · rw [← h.bit i _ child1 child2 hop]
    exact hsound.within22 i (exists_of_negativeMask hmask).1
  · by_cases huses : Uses (run block flags) i
    · have := abs_lt_of_isInt32 (h.checked i huses)
      omega
    · exact hsound.bounded i huses
end

/-! ## Two blocks that go wrong -/

/-- No flag is merged by other nodes. -/
def noFlags : Flags := fun _ => ⟨false, false, false, false, false⟩

/-- `(x & -1) * y | 0`. -/
def maskBlock : Block where
  ops := [.Leaf, .JSConstant (-1), .Bit .And 0 1, .Leaf, .ArithMul 2 3, .JSConstant 0, .Bit .Or 4 5]
  ordered := by decide

/-- `x = y = 2147483647`. -/
def maskValue (i : ℕ) : ℤ :=
  [2147483647, -1, 2147483647, 2147483647, 4611686014132420609, 0, 1].getD i 0

/-- `x * 4194303 + (z | 0) + (w | 0) | 0`. -/
def sumBlock : Block where
  ops := [.Leaf, .JSConstant 4194303, .ArithMul 0 1, .Leaf, .JSConstant 0, .Bit .Or 3 4,
    .ArithAdd 2 5, .Leaf, .Bit .Or 7 4, .ArithAdd 6 8, .Bit .Or 9 4]
  ordered := by decide

/-- `x = z = -2147483648` and `w = -1`. -/
def sumValue (i : ℕ) : ℤ :=
  [-2147483648, 4194303, -9007197107257344, -2147483648, 0, -2147483648, -9007199254740992, -1, -1,
    -9007199254740993, -1].getD i 0

/-- The conditions of `Exact` for one node. -/
def exactAt (block : Block) (flags : Flags) (value : ℕ → ℤ) (i : ℕ) : Bool :=
  (!(flags i).usesAsNumber || IsInt32 (value i)) &&
  match block.at i with
  | .Leaf => IsInt32 (value i)
  | .JSConstant c => value i = c ∧ IsInt32 c
  | .Bit op child1 child2 => value i = op.eval (value child1) (value child2)
  | .ArithAdd child1 child2 => value i = value child1 + value child2
  | .ArithSub child1 child2 => value i = value child1 - value child2
  | .ArithMul child1 child2 => value i = value child1 * value child2

theorem exact_of_exactAt {block : Block} {flags : Flags} {value : ℕ → ℤ}
    (h : ∀ i < block.ops.length, exactAt block flags value i = true)
    (hrest : ∀ i, block.ops.length ≤ i → IsInt32 (value i)) : Exact block flags value := by
  have hop : ∀ i, block.at i ≠ .Leaf → exactAt block flags value i = true := fun i hi =>
    h i (block.lt_length hi)
  refine ⟨fun i hi => ?leaf, fun i c hi => ?_, fun i op a b hi => ?_, fun i a b hi => ?_,
    fun i a b hi => ?_, fun i a b hi => ?_, fun i huses => ?checked⟩
  case leaf =>
    rcases lt_or_ge i block.ops.length with hlt | hge
    · have := h i hlt
      simp only [exactAt, hi, Bool.and_eq_true, decide_eq_true_eq] at this
      exact this.2
    · exact hrest i hge
  case checked =>
    rcases lt_or_ge i block.ops.length with hlt | hge
    · have := h i hlt
      rw [Uses] at huses
      simp only [exactAt, huses, Bool.and_eq_true, Bool.not_true, Bool.false_or,
        decide_eq_true_eq] at this
      exact this.1
    · exact hrest i hge
  all_goals
    have := hop i (by rw [hi]; exact Op.noConfusion)
    simp only [exactAt, hi, Bool.and_eq_true, decide_eq_true_eq] at this
    exact this.2

theorem isInt32_getD {values : List ℤ} {i : ℕ} (h : values.length ≤ i) :
    IsInt32 (values.getD i 0) := by
  rw [getD_eq_getElem?_getD, getElem?_eq_none h]
  exact ⟨by decide, by decide⟩

theorem exact_maskBlock : Exact maskBlock (run maskBlock noFlags) maskValue :=
  exact_of_exactAt (by decide +kernel) fun _ hi => isInt32_getD hi

theorem exact_sumBlock : Exact sumBlock (run sumBlock noFlags) sumValue :=
  exact_of_exactAt (by decide +kernel) fun _ hi => isInt32_getD hi

/-- In both blocks a result of wrap-around is not the wrapped value of the double. -/
theorem wrapped_values_differ : (Exact maskBlock (run maskBlock noFlags) maskValue ∧
      ¬ Sound maskBlock (run maskBlock noFlags) maskValue ∧
      wrapInt32 (roundToDouble (maskValue 4)) = 0 ∧ wrapInt32 (maskValue 4) = 1) ∧
    Exact sumBlock (run sumBlock noFlags) sumValue ∧
      ¬ Sound sumBlock (run sumBlock noFlags) sumValue ∧
      wrapInt32 (roundToDouble (sumValue 9)) = 0 ∧ wrapInt32 (sumValue 9) = -1 := by
  refine ⟨⟨exact_maskBlock, fun hsound => ?_, by decide +kernel, by decide +kernel⟩,
    exact_sumBlock, fun hsound => ?_, by decide +kernel, by decide +kernel⟩
  · have huses : ¬ Uses (run maskBlock noFlags) 4 := by
      unfold Uses
      decide +kernel
    exact absurd (hsound.bounded 4 huses) (by decide +kernel)
  · have huses : ¬ Uses (run sumBlock noFlags) 9 := by
      unfold Uses
      decide +kernel
    exact absurd (hsound.bounded 9 huses) (by decide +kernel)

/-- The condition fails for the first block, at the bitwise and. -/
theorem sound_iff_small_maskBlock :
    Exact maskBlock (run maskBlock noFlags) maskValue ∧ negativeMask maskBlock 2 = true ∧
      (Sound maskBlock (run maskBlock noFlags) maskValue ↔ Small maskBlock maskValue) :=
  ⟨exact_maskBlock, by decide, sound_iff_small maskBlock noFlags maskValue exact_maskBlock⟩

end JscAndroid.Dfg.BackwardsPropagation
