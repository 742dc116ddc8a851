import JscAndroid.Arith.Limbs
import JscAndroid.BigInt.DigitArith

/-!
# BigInt cells

A `JSBigInt` is a sign and a list of digits, least significant first. An allocation can fail, and
fresh storage holds arbitrary digits until they are written. Both are decided by the `VM`, so that
what is proved for every `VM` never depends on uninitialized storage. Operations run in the monad
`Op`: they consume allocations and end with a value or an exception.

`Normalized` is the invariant of BigInt values, and `rightTrim` restores it (`rightTrim_returns`).
`Returns` says what an operation returns, and when. `USE(BIGINT32)` is 0, so a `JSValue` that is a
BigInt is always a `JSBigInt`.
-/

namespace JscAndroid.BigInt.Heap

open Arith.Limbs DigitArith List Nat

/-- A BigInt on the heap; `m_length` is the length of the list. -/
structure JSBigInt (P : Platform) where
  sign : Bool
  digits : List P.Digit
  deriving DecidableEq, Repr

/-- The exceptions that the operations throw. An out-of-memory error is a `RangeError` that is
marked as one. -/
inductive Exception
  | rangeError (message : String)
  | syntaxError (message : String)
  | outOfMemoryError (message : Option String)
  deriving DecidableEq, Repr

/-- The outcomes of the allocations to come: the `k`-th one fails, or returns storage that holds
arbitrary digits. -/
abbrev VM (P : Platform) : Type := ℕ → Option (ℕ → P.Digit)

/-- An operation: it takes allocations from the `VM` and returns a value or throws. -/
abbrev Op (P : Platform) (α : Type) : Type := StateT (VM P) (Except Exception) α

variable {P : Platform}
variable {ds : List P.Digit} {op : Op P (JSBigInt P)}

namespace JSBigInt

/-- The number of digits. -/
def length (x : JSBigInt P) : ℕ := x.digits.length

/-- Digit `n`, counted from the least significant one. -/
def digit (x : JSBigInt P) (n : ℕ) : P.Digit := x.digits.getD n 0

/-- Zero is the BigInt without digits. -/
def isZero (x : JSBigInt P) : Bool := x.length == 0

def setSign (x : JSBigInt P) (sign : Bool) : JSBigInt P := { x with sign := sign }

/-- Writes the digits `ds` at the positions from `n` on. -/
def setDigits (x : JSBigInt P) (n : ℕ) (ds : List P.Digit) : JSBigInt P :=
  { x with digits := overwrite x.digits n ds }

/-- The integer denoted. -/
def toInt (x : JSBigInt P) : ℤ := if x.sign then -(value x.digits : ℤ) else value x.digits

/-- The invariant of BigInt values. -/
structure Normalized (x : JSBigInt P) : Prop where
  top : ∀ h : x.digits ≠ [], x.digits.getLast h ≠ 0
  zero : x.digits = [] → x.sign = false

@[simp] theorem setSign_sign (x : JSBigInt P) (b : Bool) : (x.setSign b).sign = b := rfl
@[simp] theorem setSign_digits (x : JSBigInt P) (b : Bool) :
    (x.setSign b).digits = x.digits := rfl
@[simp] theorem setDigits_digits (x : JSBigInt P) (n : ℕ) (ds : List P.Digit) :
    (x.setDigits n ds).digits = overwrite x.digits n ds := rfl

theorem isZero_iff {x : JSBigInt P} : x.isZero = true ↔ x.digits = [] := by
  simp [isZero, length]

theorem natAbs_toInt (x : JSBigInt P) : x.toInt.natAbs = value x.digits := by
  unfold toInt
  split_ifs <;> simp

instance (x : JSBigInt P) : Decidable x.Normalized :=
  decidable_of_iff ((∀ h : x.digits ≠ [], x.digits.getLast h ≠ 0) ∧
      (x.digits = [] → x.sign = false))
    ⟨fun h => ⟨h.1, h.2⟩, fun h => ⟨h.top, h.zero⟩⟩

section
variable {x y : JSBigInt P} (hx : x.Normalized)
include hx

theorem Normalized.value_pos (h : x.digits ≠ []) : 0 < value x.digits :=
  Arith.Limbs.value_pos h (hx.top h)

theorem Normalized.value_eq_zero_iff : value x.digits = 0 ↔ x.digits = [] := by
  constructor
  · intro h
    by_contra hne
    have := hx.value_pos hne
    omega
  · intro h
    rw [h]; rfl

theorem Normalized.toInt_eq_zero_iff : x.toInt = 0 ↔ x.digits = [] := by
  rw [← hx.value_eq_zero_iff, ← natAbs_toInt, Int.natAbs_eq_zero]

theorem Normalized.toInt_neg_iff : x.toInt < 0 ↔ x.sign = true := by
  unfold toInt
  split_ifs with h
  · have : x.digits ≠ [] := fun h0 => by simp [hx.zero h0] at h
    have := hx.value_pos this
    simp [h]
    omega
  · simp only [h]
    simp

theorem Normalized.pow_le_value (h : x.digits ≠ []) :
    (2 ^ P.digitBits) ^ (x.digits.length - 1) ≤ value x.digits :=
  Arith.Limbs.pow_le_value h (hx.top h)

/-- A normalized BigInt is determined by the integer it denotes. -/
theorem Normalized.ext (hy : y.Normalized) (h : x.toInt = y.toInt) : x = y := by
  have hB := P.one_lt_base
  have hval : value x.digits = value y.digits := by rw [← natAbs_toInt, ← natAbs_toInt, h]
  have hlen : x.digits.length = y.digits.length := by
    rcases eq_or_ne x.digits [] with h1 | h1
    · rw [h1] at hval
      rw [h1, hy.value_eq_zero_iff.mp (by rw [← hval]; rfl)]
    · have h2 : y.digits ≠ [] := fun h2 => by
        have := hx.value_pos h1
        rw [hval, h2] at this
        simp at this
      have a1 := hx.pow_le_value h1
      have a2 := value_lt y.digits
      have b1 := hy.pow_le_value h2
      have b2 := value_lt x.digits
      have c1 := (Nat.pow_lt_pow_iff_right hB).mp (lt_of_le_of_lt (hval ▸ a1) a2)
      have c2 := (Nat.pow_lt_pow_iff_right hB).mp (lt_of_le_of_lt (hval ▸ b1) b2)
      omega
  have hdig := value_inj hlen hval
  have hsign : x.sign = y.sign := by
    have e1 := hx.toInt_neg_iff
    have e2 := hy.toInt_neg_iff
    rw [h] at e1
    rw [Bool.eq_iff_iff, ← e1, ← e2]
  cases x; cases y
  simp only [mk.injEq]
  exact ⟨hsign, hdig⟩
end

/-- The BigInt that denotes `n`. -/
def ofNat (P : Platform) (n : ℕ) : JSBigInt P :=
  ⟨false, (Nat.digits (2 ^ P.digitBits) n).map (BitVec.ofNat P.digitBits)⟩

theorem value_ofNat (n : ℕ) : value (ofNat P n).digits = n := by
  have hB := P.one_lt_base
  rw [value, ofNat, map_map, map_congr_left, map_id, ofDigits_digits]
  intro d hd
  rw [Function.comp_apply, BitVec.toNat_ofNat, mod_eq_of_lt (digits_lt_base hB hd), id]

theorem toInt_ofNat (n : ℕ) : (ofNat P n).toInt = n := by
  rw [toInt, value_ofNat]
  rfl

theorem normalized_ofNat (n : ℕ) : (ofNat P n).Normalized := by
  have hB := P.one_lt_base
  refine ⟨fun h => ?_, fun _ => rfl⟩
  have hne : Nat.digits (2 ^ P.digitBits) n ≠ [] := fun h0 => h (by unfold ofNat; rw [h0]; rfl)
  have hlast := getLast_digit_ne_zero (2 ^ P.digitBits)
    (digits_ne_nil_iff_ne_zero.mp hne)
  have hlt := digits_lt_base hB (getLast_mem hne)
  simp only [ofNat, getLast_map]
  intro h0
  have := congrArg BitVec.toNat h0
  rw [BitVec.toNat_ofNat, mod_eq_of_lt hlt] at this
  exact hlast (by simpa using this)

theorem length_ofNat_le {n k : ℕ} (h : n < (2 ^ P.digitBits) ^ k) : (ofNat P n).length ≤ k := by
  have hB := P.one_lt_base
  rw [length, ofNat, length_map]
  exact (digits_length_le_iff hB n).mpr h

end JSBigInt

/-! ## Allocation -/

/-- At most one million bits. -/
def maxLengthBits : ℕ := 1024 * 1024

def maxLength (P : Platform) : ℕ := maxLengthBits / P.digitBits

def tooBigMessage : String := "BigInt generated from this operation is too big"

/-- Allocates a BigInt with room for `length` digits. -/
def createWithLength (length : ℕ) : Op P (JSBigInt P) := fun vm =>
  if length > maxLength P then
    .error (.outOfMemoryError (some tooBigMessage))
  else
    match vm 0 with
    | none => .error (.outOfMemoryError none)
    | some contents =>
      .ok (⟨false, (List.range length).map contents⟩, fun k => vm (k + 1))

def createZero : Op P (JSBigInt P) := createWithLength 0

/-- Drops the zero digits at the top; a BigInt that has none is returned as it is. -/
def rightTrim (x : JSBigInt P) : Op P (JSBigInt P) := do
  if x.isZero then
    return x
  let trimmed := x.digits.rdropWhile (· == 0)
  if trimmed.length = 0 then
    createZero
  else if trimmed.length = x.length then
    return x
  else
    let trimmedBigInt ← createWithLength trimmed.length
    return (trimmedBigInt.setDigits 0 trimmed).setSign x.sign

/-- No allocation fails. -/
def VM.Unlimited (vm : VM P) : Prop := ∀ k, (vm k).isSome

/-- Every allocation returns zeroed storage. -/
def VM.zeroed : VM P := fun _ => some fun _ => 0

theorem VM.zeroed_unlimited : VM.Unlimited (VM.zeroed : VM P) := fun _ => rfl

/-! ## What operations return -/

/-- The only exceptions that `op` throws are out-of-memory errors. -/
def OnlyOutOfMemory {α : Type} (op : Op P α) : Prop :=
  ∀ vm e, op vm = .error e → ∃ message, e = .outOfMemoryError message

/-- Whatever `op` returns satisfies `Q`, and only memory can be the reason to throw. With `room` for
what it allocates it returns unless an allocation fails, which is thrown without a message. -/
structure Returns {α : Type} (room : Prop) (op : Op P α) (Q : α → Prop) : Prop where
  ok : ∀ {vm vm' : VM P} {a : α}, op vm = .ok (a, vm') → Q a
  unlimited : room → ∀ {vm : VM P}, VM.Unlimited vm →
    ∃ a vm', op vm = .ok (a, vm') ∧ VM.Unlimited vm'
  memory : OnlyOutOfMemory op
  quiet : room → ∀ {vm : VM P} {e : Exception}, op vm = .error e → e = .outOfMemoryError none

/-- **Inversion of sequencing.** -/
theorem bind_ok {α β : Type} {m : Op P α} {f : α → Op P β} {vm vm' : VM P} {b : β} :
    (m >>= f) vm = .ok (b, vm') ↔ ∃ a vm1, m vm = .ok (a, vm1) ∧ f a vm1 = .ok (b, vm') := by
  simp only [bind, StateT.bind, Except.bind]
  cases hm : m vm with
  | error e => simp
  | ok r => cases r; simp

theorem bind_error {α β : Type} {m : Op P α} {f : α → Op P β} {vm : VM P} {e : Exception} :
    (m >>= f) vm = .error e ↔
      m vm = .error e ∨ ∃ a vm1, m vm = .ok (a, vm1) ∧ f a vm1 = .error e := by
  simp only [bind, StateT.bind, Except.bind]
  cases hm : m vm with
  | error e => simp
  | ok r => cases r; simp

@[simp] theorem pure_ok {α : Type} {a b : α} {vm vm' : VM P} :
    (pure a : Op P α) vm = .ok (b, vm') ↔ a = b ∧ vm = vm' := by
  show Except.ok (a, vm) = .ok (b, vm') ↔ _
  simp

namespace Returns

variable {α β : Type} {room room' : Prop} {op : Op P α} {f : α → Op P β} {Q R : α → Prop}
  {S : β → Prop}

theorem pure {a : α} (h : Q a) : Returns room (Pure.pure a : Op P α) Q where
  ok hr := (pure_ok.mp hr).1 ▸ h
  unlimited _ vm hvm := ⟨a, vm, rfl, hvm⟩
  memory _ _ h := nomatch h
  quiet _ _ _ h := nomatch h

theorem throw {message : Option String} (h : ¬ room) :
    Returns room (MonadExcept.throw (Exception.outOfMemoryError message) : Op P α) Q where
  ok hr := nomatch hr
  unlimited hroom := absurd hroom h
  memory vm e he := by
    cases he
    exact ⟨message, rfl⟩
  quiet hroom := absurd hroom h

theorem bind (hop : Returns room op Q) (hf : ∀ a, Q a → Returns room (f a) S) :
    Returns room (op >>= f) S where
  ok h := by
    obtain ⟨a, vm1, ha, hb⟩ := bind_ok.mp h
    exact (hf a (hop.ok ha)).ok hb
  unlimited hroom vm hvm := by
    obtain ⟨a, vm1, ha, hvm1⟩ := hop.unlimited hroom hvm
    obtain ⟨b, vm2, hb, hvm2⟩ := (hf a (hop.ok ha)).unlimited hroom hvm1
    exact ⟨b, vm2, bind_ok.mpr ⟨a, vm1, ha, hb⟩, hvm2⟩
  memory vm e h := by
    rcases bind_error.mp h with h | ⟨a, vm1, ha, h⟩
    · exact hop.memory vm e h
    · exact (hf a (hop.ok ha)).memory vm1 e h
  quiet hroom vm e h := by
    rcases bind_error.mp h with h | ⟨a, vm1, ha, h⟩
    · exact hop.quiet hroom h
    · exact (hf a (hop.ok ha)).quiet hroom h

theorem mono (h : Returns room op Q) (hroom : room' → room) (hQ : ∀ a, Q a → R a) :
    Returns room' op R where
  ok hr := hQ _ (h.ok hr)
  unlimited hr := h.unlimited (hroom hr)
  memory := h.memory
  quiet hr := h.quiet (hroom hr)

theorem ite {c : Prop} [Decidable c] {op' : Op P α} (h : c → Returns room op Q)
    (h' : ¬ c → Returns room op' Q) : Returns room (if c then op else op') Q := by
  split_ifs with hc
  exacts [h hc, h' hc]

theorem imp (h : Returns room op Q) (hQ : ∀ a, Q a → R a) : Returns room op R := h.mono id hQ

theorem room_of (h : Returns room op Q) (hroom : room' → room) : Returns room' op Q :=
  h.mono hroom fun _ => id

end Returns

theorem createWithLength_returns (length : ℕ) :
    Returns (length ≤ maxLength P) (createWithLength length : Op P (JSBigInt P))
      fun r => r.digits.length = length ∧ r.sign = false where
  ok {vm vm' r} h := by
    unfold createWithLength at h
    split_ifs at h
    split at h
    · cases h
    · cases h
      simp
  unlimited hl vm hvm := by
    rw [createWithLength, if_neg (by omega)]
    obtain ⟨c, hc⟩ := Option.isSome_iff_exists.mp (hvm 0)
    rw [hc]
    exact ⟨_, _, rfl, fun k => hvm (k + 1)⟩
  memory vm e h := by
    unfold createWithLength at h
    split_ifs at h
    · cases h
      exact ⟨_, rfl⟩
    · split at h <;> cases h
      exact ⟨_, rfl⟩
  quiet hl vm e h := by
    rw [createWithLength, if_neg (by omega)] at h
    split at h <;> cases h
    rfl

theorem value_rdropWhile_zero (ds : List P.Digit) : value (ds.rdropWhile (· == 0)) = value ds := by
  induction ds using reverseRecOn with
  | nil => rfl
  | append_singleton ds d ih =>
    rw [rdropWhile_concat]
    split_ifs with h
    · rw [ih, value_append, beq_iff_eq.mp h]
      simp
    · rfl

/-- The normalized BigInt of an integer. -/
def Denotes (z : ℤ) (r : JSBigInt P) : Prop := r.Normalized ∧ r.toInt = z

theorem createZero_returns (room : Prop) : Returns room (createZero : Op P (JSBigInt P))
    (Denotes 0) := by
  refine (createWithLength_returns 0).mono (fun _ => zero_le _) ?_
  rintro r ⟨hlen, hs⟩
  have hd : r.digits = [] := eq_nil_of_length_eq_zero hlen
  refine ⟨⟨fun hne => absurd hd hne, fun _ => hs⟩, ?_⟩
  rw [JSBigInt.toInt, hs, hd]
  rfl

theorem setDigits_all {c : JSBigInt P} (h : c.digits.length = ds.length) :
    c.setDigits 0 ds = ⟨c.sign, ds⟩ := by
  rw [JSBigInt.setDigits, overwrite_all h]

/-- **Trimming normalizes and keeps the value.** -/
theorem rightTrim_returns {x : JSBigInt P} (hx : x.digits = [] → x.sign = false) :
    Returns (x.length ≤ maxLength P) (rightTrim x) (Denotes x.toInt) := by
  have hfront := rdropWhile_prefix (p := (· == 0)) x.digits
  unfold rightTrim
  dsimp only
  split_ifs with hz h0 hl
  · exact .pure ⟨⟨fun h => absurd (JSBigInt.isZero_iff.mp hz) h, hx⟩, rfl⟩
  · have hv : x.toInt = 0 := by
      rw [← Int.natAbs_eq_zero, JSBigInt.natAbs_toInt, ← value_rdropWhile_zero,
        eq_nil_of_length_eq_zero h0]
      rfl
    rw [hv]
    exact createZero_returns _
  · have heq : x.digits.rdropWhile (· == 0) = x.digits := hfront.eq_of_length hl
    refine .pure ⟨⟨fun h => ?_, hx⟩, rfl⟩
    simpa using rdropWhile_eq_self_iff.mp heq h
  · refine ((createWithLength_returns _).room_of hfront.length_le.trans).bind ?_
    rintro t ⟨hlen, -⟩
    rw [setDigits_all hlen]
    refine .pure ⟨⟨fun h => ?_, fun h => absurd (congrArg length h) h0⟩, ?_⟩
    · simpa using rdropWhile_last_not (p := (· == 0)) x.digits h
    · unfold JSBigInt.toInt JSBigInt.setSign
      rw [value_rdropWhile_zero]

/-- Filling a fresh BigInt completely, signing and trimming it: how most operations end. -/
theorem fill_returns {n : ℕ} {b : Bool} (hn : n = ds.length) (hb : ds = [] → b = false) :
    Returns (n ≤ maxLength P) (do let result ← createWithLength n
                                  rightTrim ((result.setDigits 0 ds).setSign b))
      (Denotes (⟨b, ds⟩ : JSBigInt P).toInt) := by
  refine (createWithLength_returns n).bind ?_
  rintro c ⟨hlen, -⟩
  rw [setDigits_all (hlen.trans hn)]
  refine (rightTrim_returns hb).room_of fun h => ?_
  rwa [hn] at h

theorem fillUnsigned_returns {n : ℕ} (hn : n = ds.length) :
    Returns (n ≤ maxLength P) (do let result ← createWithLength n
                                  rightTrim (result.setDigits 0 ds))
      (Denotes (value ds : ℕ)) := by
  refine (createWithLength_returns n).bind ?_
  rintro c ⟨hlen, hs⟩
  rw [setDigits_all (hlen.trans hn), hs]
  refine (rightTrim_returns fun _ => rfl).room_of fun h => ?_
  rwa [hn] at h

/-! ## Exact operations -/

/-- Whatever `op` returns is the normalized BigInt that denotes `z`; for zero this is the one
without digits and with a positive sign. -/
def Exact (op : Op P (JSBigInt P)) (z : ℤ) : Prop :=
  ∀ vm r vm', op vm = .ok (r, vm') →
    r.Normalized ∧ r.toInt = z ∧ (z = 0 → r.length = 0 ∧ r.sign = false)

/-- `op` returns a value unless an allocation fails. -/
def Total (op : Op P (JSBigInt P)) : Prop :=
  ∀ vm, VM.Unlimited vm → ∃ r vm', op vm = .ok (r, vm') ∧ VM.Unlimited vm'

theorem Returns.exact {room : Prop} {z : ℤ} (h : Returns room op (Denotes z)) : Exact op z := by
  intro vm r vm' hr
  obtain ⟨h1, h2⟩ := h.ok hr
  refine ⟨h1, h2, fun hz => ?_⟩
  have hd := h1.toInt_eq_zero_iff.mp (h2.trans hz)
  exact ⟨length_eq_zero_iff.mpr hd, h1.zero hd⟩

theorem Returns.total {room : Prop} {Q : JSBigInt P → Prop} (h : Returns room op Q) (hroom : room) :
    Total op := fun _ hvm => h.unlimited hroom hvm

end JscAndroid.BigInt.Heap
