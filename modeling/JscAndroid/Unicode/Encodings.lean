import Mathlib

/-!
# UTF-8 and UTF-16

The two encodings of a Unicode scalar value, as lists of bytes and of 16-bit code units, the reading
of the first scalar value of a byte sequence, and the surrogates of a sequence of code units.
-/

namespace JscAndroid.Unicode.Encodings

open List

variable {c : ℕ} {cs : List ℕ}

/-- A code point that is not a surrogate. -/
def IsScalar (c : ℕ) : Prop := c < 0xD800 ∨ 0xE000 ≤ c ∧ c < 0x110000

instance (c : ℕ) : Decidable (IsScalar c) := inferInstanceAs (Decidable (_ ∨ _))

/-- The UTF-8 encoding of a scalar value. -/
def utf8 (c : ℕ) : List ℕ :=
  if c < 0x80 then [c]
  else if c < 0x800 then [0xC0 + c / 0x40, 0x80 + c % 0x40]
  else if c < 0x10000 then [0xE0 + c / 0x1000, 0x80 + c / 0x40 % 0x40, 0x80 + c % 0x40]
  else [0xF0 + c / 0x40000, 0x80 + c / 0x1000 % 0x40, 0x80 + c / 0x40 % 0x40, 0x80 + c % 0x40]

/-- The UTF-16 encoding of a scalar value. -/
def utf16 (c : ℕ) : List ℕ :=
  if c < 0x10000 then [c] else [0xD7C0 + c / 0x400, 0xDC00 + c % 0x400]

theorem IsScalar.lt (h : IsScalar c) : c < 0x110000 := by
  rcases h with h | h
  · omega
  · exact h.2

theorem utf8_ne_nil (c : ℕ) : utf8 c ≠ [] := by
  unfold utf8
  split_ifs <;> exact cons_ne_nil _ _

theorem utf8_lt (h : c < 0x110000) : ∀ b ∈ utf8 c, b < 256 := by
  intro b hb
  unfold utf8 at hb
  split_ifs at hb <;> simp only [mem_cons, not_mem_nil, or_false] at hb <;> omega

/-! ## Reading the first scalar value -/

/-- The value that the bits of the first bytes spell. -/
def spelledUtf8 (bytes : List ℕ) : ℕ :=
  let b (i : ℕ) := bytes.getD i 0
  if b 0 < 0x80 then b 0
  else if b 0 < 0xE0 then (b 0 - 0xC0) * 0x40 + (b 1 - 0x80)
  else if b 0 < 0xF0 then (b 0 - 0xE0) * 0x1000 + (b 1 - 0x80) * 0x40 + (b 2 - 0x80)
  else (b 0 - 0xF0) * 0x40000 + (b 1 - 0x80) * 0x1000 + (b 2 - 0x80) * 0x40 + (b 3 - 0x80)

/-- **The scalar value** whose encoding the bytes begin with. -/
def firstUtf8 (bytes : List ℕ) : Option ℕ :=
  if IsScalar (spelledUtf8 bytes) ∧ utf8 (spelledUtf8 bytes) <+: bytes then
    some (spelledUtf8 bytes)
  else none

theorem spelledUtf8_append (h : c < 0x110000) (rest : List ℕ) :
    spelledUtf8 (utf8 c ++ rest) = c := by
  unfold utf8 spelledUtf8
  split_ifs with h1 h2 h3 <;> simp only [cons_append, getD_cons_zero, getD_cons_succ]
  · rw [if_pos h1]
  · rw [if_neg (by omega), if_pos (by omega)]
    omega
  · rw [if_neg (by omega), if_neg (by omega), if_pos (by omega)]
    omega
  · rw [if_neg (by omega), if_neg (by omega), if_neg (by omega)]
    omega

theorem firstUtf8_append (h : IsScalar c) (rest : List ℕ) :
    firstUtf8 (utf8 c ++ rest) = some c := by
  rw [firstUtf8, spelledUtf8_append h.lt, if_pos ⟨h, prefix_append _ _⟩]

theorem firstUtf8_eq_some {bytes : List ℕ} (h : firstUtf8 bytes = some c) :
    IsScalar c ∧ ∃ rest, bytes = utf8 c ++ rest := by
  unfold firstUtf8 at h
  split_ifs at h with hc
  obtain rfl := Option.some.inj h
  obtain ⟨rest, hrest⟩ := hc.2
  exact ⟨hc.1, rest, hrest.symm⟩

/-! ## Lengths -/

theorem length_utf16_pos (c : ℕ) : 0 < (utf16 c).length := by
  unfold utf16
  split_ifs <;> exact Nat.zero_lt_succ _

/-- Outside of ASCII the UTF-8 encoding has more bytes than the UTF-16 encoding has units. -/
theorem length_utf16_le (c : ℕ) : (utf16 c).length ≤ (utf8 c).length ∧
    ((utf16 c).length = (utf8 c).length ↔ c < 0x80) := by
  by_cases h : c < 0x80
  · have h' : c < 0x10000 := by omega
    simp [utf16, utf8, h, h']
  · unfold utf16 utf8
    split_ifs <;> first | omega | simp [not_lt.mp h]

theorem length_flatMap_utf16_le (cs : List ℕ) :
    (cs.flatMap utf16).length ≤ (cs.flatMap utf8).length ∧
      ((cs.flatMap utf16).length = (cs.flatMap utf8).length ↔ ∀ c ∈ cs, c < 0x80) := by
  induction cs with
  | nil => simp
  | cons c cs ih =>
    obtain ⟨hle, hiff⟩ := length_utf16_le c
    simp only [flatMap_cons, length_append, forall_mem_cons]
    rw [← ih.2]
    omega

theorem flatMap_utf8_ascii (h : ∀ c ∈ cs, c < 0x80) : cs.flatMap utf8 = cs := by
  induction cs with
  | nil => rfl
  | cons c cs ih =>
    rw [forall_mem_cons] at h
    rw [flatMap_cons, ih h.2, utf8, if_pos h.1]
    rfl

theorem flatMap_utf16_bmp (h : ∀ c ∈ cs, c < 0x10000) : cs.flatMap utf16 = cs := by
  induction cs with
  | nil => rfl
  | cons c cs ih =>
    rw [forall_mem_cons] at h
    rw [flatMap_cons, ih h.2, utf16, if_pos h.1]
    rfl

/-! ## Surrogates -/

def IsLead (c : ℕ) : Prop := 0xD800 ≤ c ∧ c < 0xDC00

def IsTrail (c : ℕ) : Prop := 0xDC00 ≤ c ∧ c < 0xE000

instance (c : ℕ) : Decidable (IsLead c) := inferInstanceAs (Decidable (_ ∧ _))

instance (c : ℕ) : Decidable (IsTrail c) := inferInstanceAs (Decidable (_ ∧ _))

/-- There is a lead surrogate before something else than a trail surrogate, or a trail surrogate
after something else than a lead surrogate. -/
def HasUnpairedSurrogate (units : List ℕ) : Prop :=
  ∃ front c rest, units = front ++ c :: rest ∧
    (IsLead c ∧ (∀ t ∈ rest.head?, ¬ IsTrail t) ∨ IsTrail c ∧ ∀ l ∈ front.getLast?, ¬ IsLead l)

/-- The first unit is not part of the encoding of a scalar value. -/
def StartsUnpaired (units : List ℕ) : Prop :=
  ∃ c rest, units = c :: rest ∧ (IsTrail c ∨ IsLead c ∧ ∀ t ∈ rest.head?, ¬ IsTrail t)

/-- A scalar value that is not a pair of surrogates, or one that is. -/
theorem utf16_cases (hc : IsScalar c) : utf16 c = [c] ∧ ¬ IsLead c ∧ ¬ IsTrail c ∨
      ∃ l t, utf16 c = [l, t] ∧ IsLead l ∧ IsTrail t := by
  unfold IsScalar at hc
  unfold utf16 IsLead IsTrail
  split_ifs with hbmp
  · exact .inl ⟨rfl, by omega, by omega⟩
  · exact .inr ⟨_, _, rfl, by omega, by omega⟩

theorem exists_utf16_of_pair {l t : ℕ} (hl : IsLead l) (ht : IsTrail t) :
    ∃ c, IsScalar c ∧ utf16 c = [l, t] := by
  unfold IsLead at hl
  unfold IsTrail at ht
  refine ⟨(l - 0xD7C0) * 0x400 + (t - 0xDC00), ?_, ?_⟩
  · unfold IsScalar
    omega
  · rw [utf16, if_neg (by omega),
      show 0xD7C0 + ((l - 0xD7C0) * 0x400 + (t - 0xDC00)) / 0x400 = l by omega,
      show 0xDC00 + ((l - 0xD7C0) * 0x400 + (t - 0xDC00)) % 0x400 = t by omega]

theorem exists_utf16_front {units : List ℕ} (hunits : ∀ c ∈ units, c < 0x10000) :
    ∃ cs rest : List ℕ, units = cs.flatMap utf16 ++ rest ∧ (∀ c ∈ cs, IsScalar c) ∧
      (rest = [] ∨ StartsUnpaired rest) := by
  induction hn : units.length using Nat.strong_induction_on generalizing units with
  | _ n ih =>
  subst hn
  match units with
  | [] => exact ⟨[], [], rfl, by simp, .inl rfl⟩
  | c :: units =>
    rw [forall_mem_cons] at hunits
    by_cases htrail : IsTrail c
    · exact ⟨[], _, rfl, by simp, .inr ⟨c, units, rfl, .inl htrail⟩⟩
    by_cases hlead : IsLead c
    swap
    · obtain ⟨cs, rest, rfl, hcs, hrest⟩ := ih units.length (by simp) hunits.2 rfl
      have hc : IsScalar c := by
        unfold IsScalar
        unfold IsTrail at htrail
        unfold IsLead at hlead
        omega
      refine ⟨c :: cs, rest, ?_, forall_mem_cons.mpr ⟨hc, hcs⟩, hrest⟩
      rw [flatMap_cons, utf16, if_pos hunits.1]
      rfl
    match units with
    | [] => exact ⟨[], _, rfl, by simp, .inr ⟨c, [], rfl, .inr ⟨hlead, by simp⟩⟩⟩
    | t :: units =>
      by_cases ht : IsTrail t
      swap
      · exact ⟨[], _, rfl, by simp, .inr ⟨c, t :: units, rfl, .inr ⟨hlead, by simpa using ht⟩⟩⟩
      obtain ⟨cs, rest, rfl, hcs, hrest⟩ := ih units.length (by simp)
        (forall_mem_cons.mp hunits.2).2 rfl
      obtain ⟨c', hc', heq⟩ := exists_utf16_of_pair hlead ht
      refine ⟨c' :: cs, rest, ?_, forall_mem_cons.mpr ⟨hc', hcs⟩, hrest⟩
      rw [flatMap_cons, heq]
      rfl

/-- In UTF-16 a lead surrogate stands before a trail surrogate, and a trail surrogate after a lead
surrogate. -/
theorem paired_of_utf16 (hcs : ∀ c ∈ cs, IsScalar c) {front rest : List ℕ} {x : ℕ}
    (h : cs.flatMap utf16 = front ++ x :: rest) :
    (IsLead x → ∃ t ∈ rest.head?, IsTrail t) ∧ (IsTrail x → ∃ l ∈ front.getLast?, IsLead l) := by
  induction cs generalizing front with
  | nil => simp at h
  | cons c cs ih =>
    rw [forall_mem_cons] at hcs
    have hboth : ∀ l, IsLead l → ¬ IsTrail l := by
      unfold IsLead IsTrail
      omega
    rw [flatMap_cons] at h
    rcases utf16_cases hcs.1 with ⟨heq, hlead, htrail⟩ | ⟨l, t, heq, hlead, htrail⟩
    · rw [heq] at h
      match front with
      | [] =>
        simp only [cons_append, nil_append, cons.injEq] at h
        rw [← h.1]
        exact ⟨fun h => absurd h hlead, fun h => absurd h htrail⟩
      | y :: front =>
        simp only [cons_append, cons.injEq] at h
        refine ⟨(ih hcs.2 h.2).1, fun hx => ?_⟩
        obtain ⟨l, hl, hlead⟩ := (ih hcs.2 h.2).2 hx
        have hlast : l ∈ ([y] ++ front).getLast? := mem_getLast?_append_of_mem_getLast? hl
        exact ⟨l, hlast, hlead⟩
    · rw [heq] at h
      match front with
      | [] =>
        simp only [cons_append, nil_append, cons.injEq] at h
        rw [← h.1, ← h.2]
        exact ⟨fun _ => ⟨t, rfl, htrail⟩, fun h => absurd h (hboth _ hlead)⟩
      | [y] =>
        simp only [cons_append, nil_append, cons.injEq] at h
        rw [← h.2.1, ← h.1]
        exact ⟨fun h => absurd htrail (hboth _ h), fun _ => ⟨l, rfl, hlead⟩⟩
      | y :: z :: front =>
        simp only [cons_append, cons.injEq] at h
        refine ⟨(ih hcs.2 h.2.2).1, fun hx => ?_⟩
        obtain ⟨l, hl, hlead⟩ := (ih hcs.2 h.2.2).2 hx
        have hlast : l ∈ ([y, z] ++ front).getLast? := mem_getLast?_append_of_mem_getLast? hl
        exact ⟨l, hlast, hlead⟩

/-- **A front that is UTF-16 and what is left**: there is an unpaired surrogate exactly if something
is left. -/
theorem hasUnpairedSurrogate_append {rest : List ℕ} (hcs : ∀ c ∈ cs, IsScalar c)
    (hrest : rest = [] ∨ StartsUnpaired rest) :
    HasUnpairedSurrogate (cs.flatMap utf16 ++ rest) ↔ rest ≠ [] := by
  constructor
  · rintro ⟨front, c, tail, heq, hc⟩ rfl
    rw [append_nil] at heq
    have hpaired := paired_of_utf16 hcs heq
    rcases hc with ⟨hlead, hnone⟩ | ⟨htrail, hnone⟩
    · obtain ⟨t, ht, htrail⟩ := hpaired.1 hlead
      exact hnone t ht htrail
    · obtain ⟨l, hl, hlead⟩ := hpaired.2 htrail
      exact hnone l hl hlead
  · intro hne
    obtain ⟨c, tail, rfl, hc⟩ := hrest.resolve_left hne
    refine ⟨_, c, tail, rfl, ?_⟩
    rcases hc with htrail | hlead
    swap
    · exact .inl hlead
    refine .inr ⟨htrail, fun l hl hlead => ?_⟩
    obtain ⟨front, hfront⟩ := getLast?_eq_some_iff.mp hl
    obtain ⟨t, ht, -⟩ := (paired_of_utf16 hcs hfront).1 hlead
    cases ht

end JscAndroid.Unicode.Encodings
