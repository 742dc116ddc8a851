import Mathlib

/-!
# Little-endian lists of machine words

A number is stored as a list of words of `w` bits, least significant word first. `value` is the
number such a list denotes, in terms of Mathlib's `Nat.ofDigits`; the lemmas say how it goes through
the constructions that loops over word arrays are made of.
-/

namespace JscAndroid.Arith.Limbs

open List Nat

variable {w : ℕ}
variable {k start : ℕ} {ds : List (BitVec w)}

/-- The number denoted by a little-endian list of words. -/
def value (ds : List (BitVec w)) : ℕ := ofDigits (2 ^ w) (ds.map BitVec.toNat)

@[simp] theorem value_nil : value ([] : List (BitVec w)) = 0 := rfl

@[simp] theorem value_cons (d : BitVec w) (ds : List (BitVec w)) :
    value (d :: ds) = d.toNat + 2 ^ w * value ds := by
  simp [value, ofDigits_cons]

theorem value_append (xs ys : List (BitVec w)) :
    value (xs ++ ys) = value xs + (2 ^ w) ^ xs.length * value ys := by
  simp [value, ofDigits_append]

@[simp] theorem value_singleton (d : BitVec w) : value [d] = d.toNat := by simp

/-- A list of `n` words is below the `n`-th power of the base. -/
theorem value_lt : ∀ ds : List (BitVec w), value ds < (2 ^ w) ^ ds.length
  | [] => by simp
  | d :: ds => by
    have ih := value_lt ds
    have hd := d.isLt
    rw [value_cons, length_cons, pow_succ']
    calc d.toNat + 2 ^ w * value ds < 2 ^ w + 2 ^ w * value ds := by omega
      _ = 2 ^ w * (value ds + 1) := by ring
      _ ≤ 2 ^ w * (2 ^ w) ^ ds.length := Nat.mul_le_mul_left _ ih

@[simp] theorem value_replicate_zero (n : ℕ) : value (List.replicate n (0 : BitVec w)) = 0 := by
  induction n with
  | zero => rfl
  | succ n ih => rw [replicate_succ, value_cons, ih]; simp

theorem value_take_add_drop (ds : List (BitVec w)) (hk : k ≤ ds.length) :
    value ds = value (ds.take k) + (2 ^ w) ^ k * value (ds.drop k) := by
  conv_lhs => rw [← take_append_drop k ds]
  rw [value_append, length_take, min_eq_left hk]

/-- The top word of a nonempty list, at its weight, is a lower bound of the value. -/
theorem getLast_mul_le_value : ∀ (ds : List (BitVec w)) (h : ds ≠ []),
    (ds.getLast h).toNat * (2 ^ w) ^ (ds.length - 1) ≤ value ds
  | [d], _ => by simp
  | d :: e :: ds, _ => by
    have ih := getLast_mul_le_value (e :: ds) (by simp)
    rw [getLast_cons (by simp), value_cons]
    have hl : (d :: e :: ds).length - 1 = ((e :: ds).length - 1) + 1 := by simp
    rw [hl, pow_succ]
    calc ((e :: ds).getLast (by simp)).toNat * ((2 ^ w) ^ ((e :: ds).length - 1) * 2 ^ w)
        = 2 ^ w * (((e :: ds).getLast (by simp)).toNat * (2 ^ w) ^ ((e :: ds).length - 1)) := by
          ring
      _ ≤ 2 ^ w * value (e :: ds) := mul_le_mul_left _ ih
      _ ≤ d.toNat + 2 ^ w * value (e :: ds) := le_add_left _ _

theorem eq_zero_of_toNat {d : BitVec w} (h : d.toNat = 0) : d = 0 :=
  BitVec.eq_of_toNat_eq (by rw [h]; simp)

theorem toNat_pos_of_ne {d : BitVec w} (h : d ≠ 0) : 0 < d.toNat :=
  Nat.pos_of_ne_zero fun h0 => h (eq_zero_of_toNat h0)

/-- A multiple of `b` that is below `b`, as a carry that finds room, is zero. -/
theorem eq_zero_of_mul_lt {b c : ℕ} (h : b * c < b) : c = 0 := by
  by_contra hc
  exact absurd h (not_lt.mpr (Nat.le_mul_of_pos_right b (pos_of_ne_zero hc)))

theorem eq_of_add_mul {a b c s : ℕ} (h : a + b * c = s) (hs : s < b) : a = s := by
  have hc : c = 0 := eq_zero_of_mul_lt (b := b) (by omega)
  rw [← h, hc, mul_zero, add_zero]

/-- A nonzero top word puts the value at or above its weight. -/
theorem pow_le_value (h : ds ≠ []) (htop : ds.getLast h ≠ 0) :
    (2 ^ w) ^ (ds.length - 1) ≤ value ds := by
  have h1 := getLast_mul_le_value ds h
  calc (2 ^ w) ^ (ds.length - 1) = 1 * (2 ^ w) ^ (ds.length - 1) := (one_mul _).symm
    _ ≤ (ds.getLast h).toNat * (2 ^ w) ^ (ds.length - 1) :=
      mul_le_mul_right _ (toNat_pos_of_ne htop)
    _ ≤ value ds := h1

theorem value_pos (h : ds ≠ []) (htop : ds.getLast h ≠ 0) : 0 < value ds :=
  lt_of_lt_of_le (by positivity) (pow_le_value h htop)

theorem value_lt_getLast (ds : List (BitVec w)) (h : ds ≠ []) :
    value ds < ((ds.getLast h).toNat + 1) * (2 ^ w) ^ (ds.length - 1) := by
  have h1 := value_lt ds.dropLast
  rw [length_dropLast] at h1
  conv_lhs => rw [← dropLast_append_getLast h]
  rw [value_append, value_singleton, length_dropLast, add_mul, mul_comm]
  omega

theorem value_inj : ∀ {xs ys : List (BitVec w)}, xs.length = ys.length → value xs = value ys →
    xs = ys
  | [], [], _, _ => rfl
  | x :: xs, y :: ys, hl, hv => by
    rw [value_cons, value_cons] at hv
    have hx := x.isLt
    have hy := y.isLt
    have h1 : x.toNat = y.toNat := by
      have := congrArg (· % 2 ^ w) hv
      simpa [mod_eq_of_lt hy] using this
    have h2 : value xs = value ys := by
      have : 2 ^ w * value xs = 2 ^ w * value ys := by omega
      exact Nat.eq_of_mul_eq_mul_left (by positivity) this
    rw [BitVec.eq_of_toNat_eq h1, value_inj (by simpa using hl) h2]

/-- A list whose value is below a power of the base has nothing from there on. -/
theorem value_drop_eq_zero (hk : k ≤ ds.length) (h : value ds < (2 ^ w) ^ k) :
    value (ds.drop k) = 0 := by
  rw [value_take_add_drop ds hk] at h
  by_contra hne
  have h1 : 1 ≤ value (ds.drop k) := one_le_iff_ne_zero.mpr hne
  have h2 := mul_le_mul_left ((2 ^ w) ^ k) h1
  omega

/-- The words from a position on, with the first of them split off. -/
theorem value_drop_succ (hk : k < ds.length) :
    value (ds.drop k) = (ds.getD k 0).toNat + 2 ^ w * value (ds.drop (k + 1)) := by
  rw [drop_eq_getElem_cons hk, value_cons, getD_eq_getElem _ _ hk]

theorem value_drop_last (hk : ds.length = k + 1) : value (ds.drop k) = (ds.getD k 0).toNat := by
  rw [value_drop_succ (by omega), drop_of_length_le hk.le, value_nil, mul_zero, add_zero]

theorem value_take (ds : List (BitVec w)) (hk : k ≤ ds.length) :
    value (ds.take k) = value ds % (2 ^ w) ^ k := by
  have h := value_lt (ds.take k)
  rw [length_take, min_eq_left hk] at h
  rw [value_take_add_drop ds hk, add_mul_mod_self_left, mod_eq_of_lt h]

/-- The value of the words from a position on, as a quotient. -/
theorem value_drop (ds : List (BitVec w)) (hk : k ≤ ds.length) :
    value (ds.drop k) = value ds / (2 ^ w) ^ k := by
  have h := value_lt (ds.take k)
  rw [length_take, min_eq_left hk] at h
  rw [value_take_add_drop ds hk, add_mul_div_left _ _ (by positivity), div_eq_of_lt h,
    zero_add]

theorem value_mod (ds : List (BitVec w)) (q : ℕ) {b : ℕ} (hb : b ≤ w) :
    value ds % ((2 ^ w) ^ q * 2 ^ b) =
      value (ds.take q) + (2 ^ w) ^ q * ((ds.getD q 0).toNat % 2 ^ b) := by
  rcases lt_or_ge q ds.length with hq | hq
  · have hB : 2 ^ w = 2 ^ b * 2 ^ (w - b) := by rw [← pow_add, Nat.add_sub_cancel' hb]
    have hword : value (ds.drop q) % 2 ^ b = (ds.getD q 0).toNat % 2 ^ b := by
      rw [value_drop_succ hq, hB, mul_assoc, add_mul_mod_self_left]
    rw [mod_mul, ← value_take _ hq.le, ← value_drop _ hq.le, hword]
  · rw [take_of_length_le hq, getD_eq_default _ _ hq]
    have h1 : (2 ^ w) ^ ds.length ≤ (2 ^ w) ^ q := Nat.pow_le_pow_right (by positivity) hq
    have h2 : (2 ^ w) ^ q * 1 ≤ (2 ^ w) ^ q * 2 ^ b := mul_le_mul_left _ Nat.one_le_two_pow
    have h3 := value_lt ds
    rw [mod_eq_of_lt (by omega)]
    simp

/-! ### Overwriting a block -/

/-- `overwrite l start ds` is `l` with the words from `start` on replaced by `ds`. -/
def overwrite {α : Type} (l : List α) (start : ℕ) (ds : List α) : List α :=
  l.take start ++ ds ++ l.drop (start + ds.length)

theorem length_overwrite {α : Type} {l ds : List α} (h : start + ds.length ≤ l.length) :
    (overwrite l start ds).length = l.length := by
  simp only [overwrite, length_append, length_take, length_drop]
  omega

theorem take_overwrite {α : Type} {l ds : List α} (h : start ≤ l.length) :
    (overwrite l start ds).take start = l.take start := by
  rw [overwrite, append_assoc, take_append_of_le_length (by simp [h]),
    take_take, min_self]

theorem drop_overwrite {α : Type} {l ds : List α} (h : start ≤ l.length) :
    (overwrite l start ds).drop start = ds ++ l.drop (start + ds.length) := by
  rw [overwrite, append_assoc, drop_append_of_le_length (by simp [h])]
  simp

theorem overwrite_nil {α : Type} (l : List α) (start : ℕ) : overwrite l start [] = l := by
  simp [overwrite]

theorem overwrite_set {α : Type} {l ds : List α} {d : α} (h : start < l.length) :
    overwrite (l.set start d) (start + 1) ds = overwrite l start (d :: ds) := by
  have htake : (l.set start d).take (start + 1) = l.take start ++ [d] := by
    rw [take_add_one, take_set_of_le (le_refl start), getElem?_set_self h]
    rfl
  have hdrop : (l.set start d).drop (start + 1 + ds.length) = l.drop (start + 1 + ds.length) :=
    drop_set_of_lt (by omega)
  rw [overwrite, overwrite, htake, hdrop, length_cons, append_assoc _ [d],
    singleton_append, add_right_comm start 1 ds.length, add_assoc]

theorem overwrite_append {α : Type} {l ds es : List α} (h : start + ds.length ≤ l.length) :
    overwrite (overwrite l start ds) (start + ds.length) es = overwrite l start (ds ++ es) := by
  have hlength : (l.take start ++ ds).length = start + ds.length := by
    rw [length_append, length_take, min_eq_left (by omega)]
  have htake : (overwrite l start ds).take (start + ds.length) = l.take start ++ ds := by
    rw [overwrite, ← hlength, take_left]
  have hdrop : (overwrite l start ds).drop (start + ds.length + es.length) =
      l.drop (start + ds.length + es.length) := by
    have hblock : (overwrite l start ds).drop (start + ds.length) =
        l.drop (start + ds.length) := by
      rw [overwrite, ← hlength, drop_left]
    have hsplit := fun m : List α => drop_drop (i := es.length) (j := start + ds.length) (l := m)
    rw [← hsplit, hblock, hsplit]
  rw [overwrite, htake, hdrop, overwrite, append_assoc (l.take start), length_append,
    add_assoc start]

theorem overwrite_all {α : Type} {l ds : List α} (h : l.length = ds.length) :
    overwrite l 0 ds = ds := by
  simp [overwrite, h]

end JscAndroid.Arith.Limbs
