import Mathlib

/-!
# Operand tables

`Operands` keeps arguments, locals and tmps in one vector, in this order. Growing the locals moves
the tmps up and then sets the gap, but only under a condition on the new value and the element type.

* `ensure_keeps_contents`: when growing keeps what was there, sets what is new and leaves
  `operandForIndex` and `operandIndex` inverse to each other.
-/

namespace JscAndroid.Bytecode.Operands

open List

/-! ## The source -/

/-- What the vector knows of its element type: whether `grow` writes `T()`, and what the memory it
does not write holds. -/
structure VectorTraits (T : Type) where
  needsInitialization : Bool
  initial : T
  uninitialized : ℕ → T

inductive OperandKind
  | Argument
  | Local
  | Tmp
  deriving DecidableEq, Repr

structure Operand where
  kind : OperandKind
  value : ℤ
  deriving DecidableEq, Repr

/-- `CallFrame::thisArgumentOffset`, with two registers for the caller's frame and pc. -/
def thisArgumentOffset : ℤ := 5

/-- An `Operand` from a virtual register. -/
def ofVirtualRegister (operand : ℤ) : Operand :=
  ⟨if operand < 0 then .Local else .Argument, operand⟩

def virtualRegisterForArgumentIncludingThis (argument : ℤ) : ℤ := argument + thisArgumentOffset

def virtualRegisterForLocal (l : ℤ) : ℤ := -1 - l

structure Table (T : Type) where
  m_values : List T
  m_numArguments : ℕ
  m_numLocals : ℕ
  fits : m_numArguments + m_numLocals ≤ m_values.length

variable {T : Type}

namespace Table

def numberOfTmps (o : Table T) : ℕ := o.m_values.length - o.m_numArguments - o.m_numLocals

def tmpIndex (o : Table T) (idx : ℕ) : ℕ := idx + o.m_numArguments + o.m_numLocals

def localIndex (o : Table T) (idx : ℕ) : ℕ := o.m_numArguments + idx

def sizeFor (o : Table T) : OperandKind → ℕ
  | .Tmp => o.numberOfTmps
  | .Argument => o.m_numArguments
  | .Local => o.m_numLocals

def atFor (o : Table T) (kind : OperandKind) (idx : ℕ) : Option T :=
  match kind with
  | .Tmp => o.m_values[o.tmpIndex idx]?
  | .Argument => o.m_values[idx]?
  | .Local => o.m_values[o.localIndex idx]?

def operandForIndex (o : Table T) (index : ℕ) : Operand :=
  if index < o.m_numArguments then
    ofVirtualRegister (virtualRegisterForArgumentIncludingThis index)
  else if index < o.m_numLocals + o.m_numArguments then
    ofVirtualRegister (virtualRegisterForLocal (index - o.m_numArguments))
  else ⟨.Tmp, index - (o.m_numLocals + o.m_numArguments)⟩

def operandIndex (o : Table T) (op : Operand) : ℕ :=
  if op.kind = .Tmp then o.tmpIndex op.value.toNat
  else if 0 ≤ op.value then (op.value - thisArgumentOffset).toNat
  else o.localIndex (-1 - op.value).toNat

end Table

/-- `m_values.grow`. -/
def grow (t : VectorTraits T) (newSize : ℕ) (values : List T) : List T :=
  values ++ (range (newSize - values.length)).map fun i =>
    if t.needsInitialization then t.initial else t.uninitialized (values.length + i)

/-- `m_values[i] = m_values[k]`. -/
def copyElement (i k : ℕ) (values : List T) : List T :=
  match values[k]? with
  | some value => values.set i value
  | none => values

/-- The loop that moves the tmps, from the last one down. -/
def moveTmps (newSize first oldNumTmps : ℕ) (values : List T) : List T :=
  (range oldNumTmps).foldl
    (fun values i => copyElement (newSize - 1 - i) (first + (oldNumTmps - 1 - i)) values) values

/-- The loops that set what is new. -/
def setFrom (first count : ℕ) (value : T) (values : List T) : List T :=
  (range count).foldl (fun values i => values.set (first + i) value) values

section
variable {newSize i j k : ℕ} {values : List T}

theorem grow_spec (t : VectorTraits T) (h : values.length ≤ newSize) :
    (grow t newSize values).length = newSize ∧ ∀ j < newSize, (grow t newSize values)[j]? =
      if j < values.length then values[j]?
      else some (if t.needsInitialization then t.initial else t.uninitialized j) := by
  unfold grow
  refine ⟨by simp [h], fun j hj => ?_⟩
  by_cases hlt : j < values.length
  · rw [getElem?_append_left hlt, if_pos hlt]
  · rw [getElem?_append_right (by omega), getElem?_map, getElem?_range (by omega)]
    simp [not_lt.mp hlt]

@[simp] theorem length_copyElement : (copyElement i k values).length = values.length := by
  unfold copyElement
  split <;> simp

theorem getElem?_copyElement (hi : i < values.length) (hk : k < values.length) :
    (copyElement i k values)[j]? = if j = i then values[k]? else values[j]? := by
  rw [copyElement, getElem?_eq_getElem hk]
  by_cases h : j = i
  · rw [if_pos h, h, getElem?_set_self hi]
  · rw [if_neg h, getElem?_set_ne (Ne.symm h)]

/-- **The loop over the tmps** leaves each of them `d` places higher. -/
theorem moveTmps_spec (first n d : ℕ) (hsize : newSize = first + n + d)
    (hlen : values.length = newSize) :
    (moveTmps newSize first n values).length = newSize ∧ ∀ j < newSize,
      (moveTmps newSize first n values)[j]? =
        if first + d ≤ j then values[j - d]? else values[j]? := by
  -- after `k` rounds the last `k` places are done
  suffices h : ∀ k ≤ n, ∀ moved, (range k).foldl (fun values i =>
      copyElement (newSize - 1 - i) (first + (n - 1 - i)) values) values = moved →
      moved.length = newSize ∧ ∀ j < newSize,
        moved[j]? = if newSize - k ≤ j then values[j - d]? else values[j]? by
    obtain ⟨h₁, h₂⟩ := h n (le_refl n) _ rfl
    refine ⟨h₁, fun j hj => ?_⟩
    rw [moveTmps, h₂ j hj, show newSize - n = first + d by omega]
  intro k
  induction k with
  | zero =>
    rintro _ _ rfl
    refine ⟨hlen, fun j hj => ?_⟩
    rw [if_neg (by omega)]
    rfl
  | succ k ih =>
    rintro hk _ rfl
    obtain ⟨h₁, h₂⟩ := ih (by omega) _ rfl
    rw [range_succ, foldl_append, foldl_cons, foldl_nil]
    refine ⟨by rw [length_copyElement, h₁], fun j hj => ?_⟩
    rw [getElem?_copyElement (by omega) (by omega), h₂ j hj, h₂ _ (by omega)]
    split_ifs <;> first | rfl | omega | (congr 1; omega)

theorem setFrom_spec (first n : ℕ) (value : T) (values : List T) :
    (setFrom first n value values).length = values.length ∧ ∀ j < values.length,
      (setFrom first n value values)[j]? =
        if first ≤ j ∧ j < first + n then some value else values[j]? := by
  unfold setFrom
  induction n with
  | zero =>
    refine ⟨rfl, fun j _ => ?_⟩
    rw [if_neg (by omega)]
    rfl
  | succ n ih =>
    rw [range_succ, foldl_append, foldl_cons, foldl_nil]
    refine ⟨by rw [length_set, ih.1], fun j hj => ?_⟩
    rw [getElem?_set, ih.2 j hj]
    split_ifs <;> first | rfl | omega
end

namespace Table

theorem length_eq (o : Table T) :
    o.m_values.length = o.m_numArguments + o.m_numLocals + o.numberOfTmps := by
  have := o.fits
  unfold numberOfTmps
  omega

variable [DecidableEq T]

/-- What `ensureLocals` does to the values. -/
def valuesForLocals (t : VectorTraits T) (o : Table T) (size : ℕ) (ensuredValue : T) : List T :=
  let newSize := o.m_numArguments + o.numberOfTmps + size
  let values := moveTmps newSize (o.m_numArguments + o.m_numLocals) o.numberOfTmps
    (grow t newSize o.m_values)
  if ensuredValue ≠ t.initial ∨ ¬ t.needsInitialization then
    setFrom (o.localIndex o.m_numLocals) (size - o.m_numLocals) ensuredValue values
  else values

/-- The values after `ensureLocals`: only the gap depends on the new value and the type. -/
theorem valuesForLocals_spec (t : VectorTraits T) (o : Table T) {size : ℕ}
    (h : o.m_numLocals < size) (v : T) :
    (o.valuesForLocals t size v).length = o.m_numArguments + o.numberOfTmps + size ∧
    ∀ j < o.m_numArguments + o.numberOfTmps + size, (o.valuesForLocals t size v)[j]? =
      if o.m_numArguments + size ≤ j then o.m_values[j - (size - o.m_numLocals)]?
      else if j < o.m_numArguments + o.m_numLocals then o.m_values[j]?
      else if v ≠ t.initial ∨ ¬ t.needsInitialization then some v
      else if j < o.m_values.length then o.m_values[j]? else some t.initial := by
  have hsize := o.length_eq
  obtain ⟨hgrow, hget⟩ := grow_spec t
    (show o.m_values.length ≤ o.m_numArguments + o.numberOfTmps + size by omega)
  obtain ⟨hlen, hmove⟩ := moveTmps_spec (o.m_numArguments + o.m_numLocals) o.numberOfTmps
    (size - o.m_numLocals) (by omega) hgrow
  unfold valuesForLocals
  split_ifs with hv
  · obtain ⟨hlen', hset⟩ := setFrom_spec (o.localIndex o.m_numLocals) (size - o.m_numLocals) v
      (moveTmps (o.m_numArguments + o.numberOfTmps + size) (o.m_numArguments + o.m_numLocals)
        o.numberOfTmps (grow t (o.m_numArguments + o.numberOfTmps + size) o.m_values))
    rw [hlen] at hlen' hset
    refine ⟨hlen', fun j hj => ?_⟩
    rw [hset j hj, hmove j hj, hget j hj, hget (j - (size - o.m_numLocals)) (by omega), localIndex]
    split_ifs <;> first | rfl | omega
  · refine ⟨hlen, fun j hj => ?_⟩
    rw [hmove j hj, hget j hj, hget (j - (size - o.m_numLocals)) (by omega)]
    split_ifs <;> first | rfl | omega | tauto

def ensureLocals (t : VectorTraits T) (o : Table T) (size : ℕ) (ensuredValue : T) : Table T :=
  if h : size ≤ o.m_numLocals then o
  else { o with
    m_values := o.valuesForLocals t size ensuredValue
    m_numLocals := size
    fits := by
      have := (valuesForLocals_spec t o (Nat.lt_of_not_le h) ensuredValue).1
      omega }

/-- What `ensureTmps` does to the values. -/
def valuesForTmps (t : VectorTraits T) (o : Table T) (size : ℕ) (ensuredValue : T) : List T :=
  let oldSize := o.m_values.length
  let newSize := o.m_numArguments + o.m_numLocals + size
  let values := grow t newSize o.m_values
  if ensuredValue ≠ t.initial ∨ ¬ t.needsInitialization then
    setFrom oldSize (newSize - oldSize) ensuredValue values
  else values

theorem valuesForTmps_spec (t : VectorTraits T) (o : Table T) {size : ℕ}
    (h : o.numberOfTmps < size) (v : T) :
    (o.valuesForTmps t size v).length = o.m_numArguments + o.m_numLocals + size ∧
    ∀ j < o.m_numArguments + o.m_numLocals + size, (o.valuesForTmps t size v)[j]? =
      if j < o.m_values.length then o.m_values[j]? else some v := by
  have hsize := o.length_eq
  obtain ⟨hgrow, hget⟩ := grow_spec t
    (show o.m_values.length ≤ o.m_numArguments + o.m_numLocals + size by omega)
  unfold valuesForTmps
  split_ifs with hv
  · obtain ⟨hlen, hset⟩ := setFrom_spec o.m_values.length
      (o.m_numArguments + o.m_numLocals + size - o.m_values.length) v
      (grow t (o.m_numArguments + o.m_numLocals + size) o.m_values)
    rw [hgrow] at hlen hset
    refine ⟨hlen, fun j hj => ?_⟩
    rw [hset j hj, hget j hj]
    split_ifs <;> first | rfl | omega
  · refine ⟨hgrow, fun j hj => ?_⟩
    simp_all

def ensureTmps (t : VectorTraits T) (o : Table T) (size : ℕ) (ensuredValue : T) : Table T :=
  if h : size ≤ o.numberOfTmps then o
  else { o with
    m_values := o.valuesForTmps t size ensuredValue
    fits := by
      have := (valuesForTmps_spec t o (Nat.lt_of_not_le h) ensuredValue).1
      omega }

omit [DecidableEq T]

/-- The operands that have a place in the table. -/
def hasOperand (o : Table T) (op : Operand) : Prop :=
  match op.kind with
  | .Argument => thisArgumentOffset ≤ op.value ∧ op.value < thisArgumentOffset + o.m_numArguments
  | .Local => -o.m_numLocals ≤ op.value ∧ op.value < 0
  | .Tmp => 0 ≤ op.value ∧ op.value < o.numberOfTmps

/-- `operandForIndex` and `operandIndex` are inverse to each other. -/
def Inverse (o : Table T) : Prop :=
  (∀ index < o.m_values.length, o.hasOperand (o.operandForIndex index) ∧
    o.operandIndex (o.operandForIndex index) = index) ∧
  ∀ op, o.hasOperand op → o.operandIndex op < o.m_values.length ∧
    o.operandForIndex (o.operandIndex op) = op

theorem inverse (o : Table T) : o.Inverse := by
  have hlen := o.length_eq
  refine ⟨fun index hindex => ?_, fun ⟨kind, value⟩ hop => ?_⟩
  · unfold operandForIndex ofVirtualRegister virtualRegisterForArgumentIncludingThis
      virtualRegisterForLocal hasOperand operandIndex thisArgumentOffset tmpIndex localIndex
    split_ifs <;> simp_all <;> omega
  · cases kind <;> obtain ⟨hlo, hhi⟩ := hop <;>
      simp only [thisArgumentOffset] at hlo hhi
    all_goals
      simp only [operandForIndex, ofVirtualRegister, virtualRegisterForArgumentIncludingThis,
        virtualRegisterForLocal, operandIndex, thisArgumentOffset, tmpIndex, localIndex]
      split_ifs <;> simp <;> omega

end Table

/-! ## Growing -/

/-- The table `o'` is `o` with new locals and tmps that are `v`. -/
structure Ensured (o o' : Table T) (numLocals numTmps : ℕ) (v : T) : Prop where
  numArguments : o'.m_numArguments = o.m_numArguments
  numLocals : o'.m_numLocals = numLocals
  numTmps : o'.numberOfTmps = numTmps
  old : ∀ kind, ∀ i < o.sizeFor kind, o'.atFor kind i = o.atFor kind i
  new : ∀ kind i, o.sizeFor kind ≤ i → i < o'.sizeFor kind → o'.atFor kind i = some v

theorem ensured_refl (o : Table T) (v : T) : Ensured o o o.m_numLocals o.numberOfTmps v :=
  ⟨rfl, rfl, rfl, fun _ _ _ => rfl, fun _ _ h h' => absurd h' (Nat.not_lt.mpr h)⟩

variable [DecidableEq T] (t : VectorTraits T) (o : Table T) (n : ℕ) (v : T)

theorem ensured_ensureTmps :
    Ensured o (o.ensureTmps t n v) o.m_numLocals (max o.numberOfTmps n) v := by
  have hlen := o.length_eq
  unfold Table.ensureTmps
  split_ifs with h
  · rw [max_eq_left h]
    exact ensured_refl o v
  · obtain ⟨hsize, hget⟩ := o.valuesForTmps_spec t (Nat.lt_of_not_le h) v
    have htmps : (o.valuesForTmps t n v).length - o.m_numArguments - o.m_numLocals = n := by omega
    rw [max_eq_right (by omega)]
    refine ⟨rfl, rfl, htmps, fun kind i hi => ?_, fun kind i hi hnew => ?_⟩
    · cases kind <;> refine (hget _ ?_).trans (if_pos ?_) <;>
        simp only [Table.sizeFor, Table.localIndex, Table.tmpIndex] at hi ⊢ <;> omega
    · cases kind with
      | Argument | Local => exact absurd hnew (not_lt.mpr hi)
      | Tmp =>
        have hlt : i < n := htmps ▸ hnew
        have hle : o.numberOfTmps ≤ i := hi
        show (o.valuesForTmps t n v)[i + o.m_numArguments + o.m_numLocals]? = some v
        rw [hget _ (by omega), if_neg (by omega)]

/-- The new locals lie where there were tmps, and are not written. -/
def LeavesTmps : Prop :=
  t.needsInitialization = true ∧ v = t.initial ∧
    ∃ i < min o.numberOfTmps (n - o.m_numLocals), o.atFor .Tmp i ≠ some t.initial

theorem ensured_ensureLocals_iff :
    Ensured o (o.ensureLocals t n v) (max o.m_numLocals n) o.numberOfTmps v ↔
      ¬ LeavesTmps t o n v := by
  have hlen := o.length_eq
  unfold Table.ensureLocals LeavesTmps
  split_ifs with h
  · rw [max_eq_left h]
    refine iff_of_true (ensured_refl o v) ?_
    rintro ⟨-, -, i, hi, -⟩
    omega
  · obtain ⟨hsize, hget⟩ := o.valuesForLocals_spec t (Nat.lt_of_not_le h) v
    have htmps : (o.valuesForLocals t n v).length - o.m_numArguments - n = o.numberOfTmps := by
      omega
    -- the tmp in whose place a new local lies
    have htmp : ∀ i, o.m_numLocals ≤ i →
        o.m_values[o.m_numArguments + i]? = o.atFor .Tmp (i - o.m_numLocals) := by
      intro i hi
      show _ = o.m_values[i - o.m_numLocals + o.m_numArguments + o.m_numLocals]?
      congr 1
      omega
    rw [max_eq_right (by omega)]
    constructor
    · rintro hensured ⟨ht, rfl, i, hi, hne⟩
      have hlocal := hensured.new .Local (o.m_numLocals + i) (Nat.le_add_right _ _)
        (show o.m_numLocals + i < n by omega)
      have hvalue := hget (o.m_numArguments + (o.m_numLocals + i)) (by omega)
      rw [if_neg (by omega), if_neg (by omega), if_neg (by simp [ht]), if_pos (by omega),
        htmp _ (by omega), Nat.add_sub_cancel_left] at hvalue
      exact hne (hvalue.symm.trans hlocal)
    · intro hleaves
      refine ⟨rfl, rfl, htmps, fun kind i hi => ?_, fun kind i hi hnew => ?_⟩
      · cases kind with
        | Tmp =>
          have hlt : i < o.numberOfTmps := hi
          show (o.valuesForLocals t n v)[i + o.m_numArguments + n]? =
            o.m_values[i + o.m_numArguments + o.m_numLocals]?
          rw [hget _ (by omega), if_pos (by omega)]
          congr 1
          omega
        | Argument | Local =>
          refine (hget _ ?_).trans ((if_neg ?_).trans (if_pos ?_)) <;>
            simp only [Table.sizeFor, Table.localIndex] at hi ⊢ <;> omega
      · cases kind with
        | Argument => exact absurd hnew (not_lt.mpr hi)
        | Tmp => exact absurd hnew (not_lt.mpr (le_trans (le_of_eq htmps) hi))
        | Local =>
          have hlt : i < n := hnew
          have hle : o.m_numLocals ≤ i := hi
          refine (hget (o.m_numArguments + i) (by omega)).trans ?_
          rw [if_neg (by omega), if_neg (by omega), htmp i hle]
          split_ifs with hv hi'
          · rfl
          all_goals simp only [not_or, not_not] at hv
          · rw [hv.1]
            by_contra hne
            exact hleaves ⟨hv.2, hv.1, i - o.m_numLocals, by omega, hne⟩
          · rw [hv.1]

/-- **When growing keeps the contents.** `ensureTmps` always does; `ensureLocals` does unless a tmp
that is not `T()` lies where new locals should be `T()` and the type is one that is initialized. -/
theorem ensure_keeps_contents :
    (Ensured o (o.ensureLocals t n v) (max o.m_numLocals n) o.numberOfTmps v ∧
      (o.ensureLocals t n v).Inverse ↔ ¬ LeavesTmps t o n v) ∧
    Ensured o (o.ensureTmps t n v) o.m_numLocals (max o.numberOfTmps n) v ∧
      (o.ensureTmps t n v).Inverse :=
  ⟨(and_iff_left (Table.inverse _)).trans (ensured_ensureLocals_iff t o n v),
    ensured_ensureTmps t o n v, Table.inverse _⟩

/-- A tmp stays behind as the new local. -/
theorem ensureLocals_leaves_tmp : ((⟨[7], 0, 0, by decide⟩ : Table ℕ).ensureLocals
    ⟨true, 0, fun _ => 0⟩ 1 0).atFor .Local 0 = some 7 := by
  decide

end JscAndroid.Bytecode.Operands
