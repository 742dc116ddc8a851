import Mathlib

/-!
# Numerals

Numerals to a base `r`, least significant digit first. `IsNumeral r L n` says that `L` is the
numeral of `n` without leading zeros; there is only one (`IsNumeral.eq_digits`). The last section
compares lengths of numerals to different bases through a rounded logarithm: `m` with `r ^ 32 ≤ 2 ^
m` or `2 ^ m ≤ r ^ 32`.
-/

namespace JscAndroid.Arith.Numerals

open Nat

variable {r : ℕ}

/-- `L` is the numeral of `n` to base `r`, without leading zeros. -/
structure IsNumeral (r : ℕ) (L : List ℕ) (n : ℕ) : Prop where
  lt : ∀ d ∈ L, d < r
  top : ∀ h : L ≠ [], L.getLast h ≠ 0
  eq : ofDigits r L = n

theorem IsNumeral.eq_digits {n : ℕ} {L : List ℕ} (hr : 1 < r) (h : IsNumeral r L n) :
    L = digits r n := by
  rw [← h.eq, digits_ofDigits r hr L h.lt h.top]

theorem isNumeral_digits (hr : 1 < r) (n : ℕ) : IsNumeral r (digits r n) n :=
  ⟨fun _ hd => digits_lt_base hr hd,
    fun h => getLast_digit_ne_zero r (digits_ne_nil_iff_ne_zero.mp h),
    ofDigits_digits r n⟩

theorem IsNumeral.append {n : ℕ} {L cs : List ℕ} (h : IsNumeral r L n) (hL : L ≠ [])
    (hcs : ∀ d ∈ cs, d < r) : IsNumeral r (cs ++ L) (ofDigits r cs + r ^ cs.length * n) := by
  refine ⟨fun d hd => ?_, fun hne => ?_, ?_⟩
  · rcases List.mem_append.mp hd with hd | hd
    · exact hcs d hd
    · exact h.lt d hd
  · rw [List.getLast_append_of_right_ne_nil _ _ hL]
    exact h.top hL
  · rw [ofDigits_append, h.eq]

/-! ### A fixed number of digits -/

/-- The `k` least significant digits of `n`. -/
def lowDigits (r : ℕ) : ℕ → ℕ → List ℕ
  | 0, _ => []
  | k + 1, n => n % r :: lowDigits r k (n / r)

@[simp] theorem length_lowDigits (r : ℕ) : ∀ k n : ℕ, (lowDigits r k n).length = k
  | 0, _ => rfl
  | k + 1, n => by rw [lowDigits, List.length_cons, length_lowDigits]

theorem lowDigits_lt (hr : 0 < r) : ∀ (k n : ℕ), ∀ d ∈ lowDigits r k n, d < r
  | 0, _, d, hd => by simp [lowDigits] at hd
  | k + 1, n, d, hd => by
    rcases List.mem_cons.mp hd with rfl | hd
    · exact mod_lt _ hr
    · exact lowDigits_lt hr k _ d hd

theorem ofDigits_lowDigits (r : ℕ) : ∀ k n : ℕ, ofDigits r (lowDigits r k n) = n % r ^ k
  | 0, n => by simp [lowDigits, mod_one]
  | k + 1, n => by
    rw [lowDigits, ofDigits_cons, ofDigits_lowDigits r k, pow_succ', mod_mul]

/-! ### The digits of what is left -/

/-- The loop `do { emit n % r; n /= r } while (n > 0)`. -/
def printLoop (r : ℕ) : ℕ → ℕ → List ℕ
  | 0, _ => []
  | fuel + 1, n => n % r :: if n / r > 0 then printLoop r fuel (n / r) else []

theorem printLoop_eq (hr : 1 < r) : ∀ {fuel n : ℕ}, n < 2 ^ fuel → 0 < n →
    printLoop r fuel n = digits r n
  | 0, n, h, h0 => by simp at h; omega
  | fuel + 1, n, h, h0 => by
    rw [printLoop, digits_def' hr h0]
    split_ifs with hd
    · have hlt : n / r < 2 ^ fuel := by
        refine Nat.div_lt_of_lt_mul (lt_of_lt_of_le h ?_)
        rw [pow_succ']
        exact mul_le_mul_right _ hr
      rw [printLoop_eq hr hlt hd]
    · rw [le_zero.mp (Nat.le_of_not_lt hd), digits_zero]

/-! ### Reading from the top -/

/-- Reading digits, most significant first, onto what has been read. -/
def readOnto (r : ℕ) (acc : ℕ) (ds : List ℕ) : ℕ := ds.foldl (fun a d => a * r + d) acc

@[simp] theorem readOnto_nil (r acc : ℕ) : readOnto r acc [] = acc := rfl

@[simp] theorem readOnto_cons (r acc d : ℕ) (ds : List ℕ) :
    readOnto r acc (d :: ds) = readOnto r (acc * r + d) ds := rfl

theorem readOnto_append (r acc : ℕ) (cs ds : List ℕ) :
    readOnto r acc (cs ++ ds) = readOnto r (readOnto r acc cs) ds :=
  List.foldl_append

theorem readOnto_eq (r : ℕ) : ∀ (ds : List ℕ) (acc : ℕ),
    readOnto r acc ds = acc * r ^ ds.length + readOnto r 0 ds
  | [], acc => by simp
  | d :: ds, acc => by
    rw [readOnto_cons, readOnto_cons, readOnto_eq r ds (acc * r + d),
      readOnto_eq r ds (0 * r + d), List.length_cons, pow_succ]
    ring

theorem readOnto_reverse (r : ℕ) : ∀ L : List ℕ, readOnto r 0 L.reverse = ofDigits r L
  | [] => rfl
  | d :: L => by
    rw [List.reverse_cons, readOnto_append, readOnto_reverse r L, ofDigits_cons]
    simp only [readOnto_cons, readOnto_nil]
    ring

theorem readOnto_lt : ∀ {ds : List ℕ}, (∀ d ∈ ds, d < r) → readOnto r 0 ds < r ^ ds.length
  | [], _ => by simp
  | d :: ds, h => by
    have hd := h d (List.mem_cons_self ..)
    have ih := readOnto_lt (fun e he => h e (List.mem_cons_of_mem _ he))
    rw [readOnto_cons, readOnto_eq, List.length_cons, pow_succ']
    have := Nat.mul_le_mul_right (r ^ ds.length) (show 0 * r + d + 1 ≤ r by omega)
    rw [Nat.add_mul, Nat.one_mul] at this
    omega

/-! ### Lengths through a rounded logarithm -/

theorem pow_le_two_pow {m c b : ℕ} (hr : r ^ 32 ≤ 2 ^ m) (h : m * c ≤ 32 * b) : r ^ c ≤ 2 ^ b := by
  have h1 : (r ^ c) ^ 32 ≤ (2 ^ b) ^ 32 := by
    calc (r ^ c) ^ 32 = (r ^ 32) ^ c := by rw [← pow_mul, ← pow_mul, mul_comm]
      _ ≤ (2 ^ m) ^ c := Nat.pow_le_pow_left hr c
      _ = 2 ^ (m * c) := (pow_mul 2 m c).symm
      _ ≤ 2 ^ (32 * b) := Nat.pow_le_pow_right (by norm_num) h
      _ = (2 ^ b) ^ 32 := by rw [← pow_mul, mul_comm]
  exact (Nat.pow_le_pow_iff_left (by norm_num)).mp h1

theorem mul_lt_of_pow_lt {m k b : ℕ} (hr : 2 ^ m ≤ r ^ 32) (h : r ^ k < 2 ^ b) :
    m * k < 32 * b := by
  have h1 : 2 ^ (m * k) < 2 ^ (32 * b) := by
    calc 2 ^ (m * k) = (2 ^ m) ^ k := pow_mul 2 m k
      _ ≤ (r ^ 32) ^ k := Nat.pow_le_pow_left hr k
      _ = (r ^ k) ^ 32 := by rw [← pow_mul, ← pow_mul, mul_comm]
      _ < (2 ^ b) ^ 32 := Nat.pow_lt_pow_left h (by norm_num)
      _ = 2 ^ (32 * b) := by rw [← pow_mul, mul_comm]
  exact (Nat.pow_lt_pow_iff_right (by norm_num)).mp h1

end JscAndroid.Arith.Numerals
