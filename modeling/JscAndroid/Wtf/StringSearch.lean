import JscAndroid.Wtf.StringBuilders

/-!
# `BoyerMooreHorspoolTable`

The table has an entry for each value of the low eight bits of a character. Characters that share an
entry share the smallest of their shifts, which the last position to write it leaves there.
-/

namespace JscAndroid.Wtf.StringSearch

open StringBuilders List

/-- The largest value of an unsigned `OffsetType` of `w` bits. -/
def maxPatternLength (w : ℕ) : ℕ := 2 ^ w - 1

/-- `m_table` after `i` rounds of the second loop of `initializeTable`. -/
def fillTable (w : ℕ) (pattern : List ℕ) : ℕ → ℕ → ℕ
  | 0 => fun _ => pattern.length % 2 ^ w
  | i + 1 => Function.update (fillTable w pattern i) (pattern.getD i 0 &&& 0xff)
      ((pattern.length - 1 - i) % 2 ^ w)

/-- `m_table`; it is not used if the pattern is empty. -/
def initializeTable (w : ℕ) (pattern : List ℕ) : ℕ → ℕ :=
  fillTable w pattern (pattern.length - 1)

/-- `none` is a read behind the end of the text. -/
def equal (characters : List ℕ) (cursor : ℕ) (matchCharacters : List ℕ) : Option Bool :=
  if cursor + matchCharacters.length ≤ characters.length then
    some ((characters.drop cursor).take matchCharacters.length = matchCharacters)
  else none

/-- The loop of `findInner`. The outer `none` is a read behind the end of the text or the end of
the fuel, the inner one `notFound`. -/
def findInner (m_table : ℕ → ℕ) (characters matchCharacters : List ℕ) : ℕ → ℕ → Option (Option ℕ)
  | 0, _ => none
  | fuel + 1, cursor =>
    if cursor ≤ characters.length - matchCharacters.length then do
      if ← equal characters cursor matchCharacters then
        return some cursor
      let last ← characters[cursor + (matchCharacters.length - 1)]?
      findInner m_table characters matchCharacters fuel (cursor + m_table (last % 256))
    else some none

/-- The four instances of `findInner` differ in the types of the characters only. -/
def find (m_table : ℕ → ℕ) (string matchString : StringImpl) (fuel : ℕ) : Option (Option ℕ) :=
  if matchString.length > string.length then some none
  else if matchString.length = 0 then some (some 0)
  else findInner m_table string.characters matchString.characters fuel 0

/-! ## Occurrences -/

/-- The pattern `p` stands in `t` at `i`. -/
def OccursAt (t p : List ℕ) (i : ℕ) : Prop :=
  i + p.length ≤ t.length ∧ (t.drop i).take p.length = p

/-- The first occurrence, or `none` if there is none. -/
def IsFirst (t p : List ℕ) (result : Option ℕ) : Prop :=
  (∀ i, result = some i ↔ OccursAt t p i ∧ ∀ j < i, ¬ OccursAt t p j) ∧
    (result = none ↔ ∀ i, ¬ OccursAt t p i)

variable {t p : List ℕ} {w i j : ℕ}

theorem OccursAt.getElem? (h : OccursAt t p i) (hj : j < p.length) : t[i + j]? = p[j]? := by
  rw [← getElem?_drop, ← getElem?_take_of_lt hj, h.2]

theorem isFirst_some (h : OccursAt t p i) (hbefore : ∀ j < i, ¬ OccursAt t p j) :
    IsFirst t p (some i) := by
  refine ⟨fun k => ⟨?_, fun ⟨hk, hk'⟩ => ?_⟩, ⟨nofun, fun hnone => absurd h (hnone i)⟩⟩
  · rintro ⟨⟩
    exact ⟨h, hbefore⟩
  · rcases lt_trichotomy i k with hlt | rfl | hgt
    · exact absurd h (hk' i hlt)
    · rfl
    · exact absurd hk (hbefore k hgt)

theorem isFirst_none (h : ∀ i, ¬ OccursAt t p i) : IsFirst t p none :=
  ⟨fun i => ⟨nofun, fun hi => absurd hi.1 (h i)⟩, ⟨fun _ => h, fun _ => rfl⟩⟩

/-! ## The table -/

section
variable (hp : p.length ≤ maxPatternLength w)
include hp

theorem fillTable_spec {n : ℕ} (hn : n < p.length) (c : ℕ) :
    0 < fillTable w p n c ∧ fillTable w p n c ≤ p.length ∧
      ∀ j < n, p.getD j 0 % 256 = c → fillTable w p n c ≤ p.length - 1 - j := by
  unfold maxPatternLength at hp
  induction n with
  | zero =>
    rw [fillTable, Nat.mod_eq_of_lt (by omega)]
    exact ⟨hn, le_refl _, nofun⟩
  | succ n ih =>
    have hand : p.getD n 0 &&& 0xff = p.getD n 0 % 256 := Nat.and_two_pow_sub_one_eq_mod _ 8
    rw [fillTable, hand, Nat.mod_eq_of_lt (by omega : p.length - 1 - n < 2 ^ w)]
    by_cases hc : c = p.getD n 0 % 256
    · rw [hc, Function.update_self]
      exact ⟨by omega, by omega, fun j hj _ => by omega⟩
    · rw [Function.update_of_ne hc]
      obtain ⟨h1, h2, h3⟩ := ih (by omega)
      refine ⟨h1, h2, fun j hj hjc => ?_⟩
      rcases Nat.lt_succ_iff_lt_or_eq.mp hj with hj | rfl
      · exact h3 j hj hjc
      · exact absurd hjc.symm hc

/-- **The shift is safe**: no occurrence is passed over. -/
theorem add_table_le {cursor last : ℕ} (hpos : 0 < p.length)
    (hlast : t[cursor + (p.length - 1)]? = some last) (hi : OccursAt t p i) (hlt : cursor < i) :
    cursor + fillTable w p (p.length - 1) (last % 256) ≤ i := by
  obtain ⟨-, hle, hshift⟩ := fillTable_spec hp (n := p.length - 1) (by omega) (last % 256)
  by_cases hfar : cursor + p.length ≤ i
  · omega
  · -- the last character under the pattern is one of the pattern at the occurrence
    have hj : cursor + (p.length - 1) - i < p.length - 1 := by omega
    have hget := hi.getElem? (j := cursor + (p.length - 1) - i) (by omega)
    rw [show i + (cursor + (p.length - 1) - i) = cursor + (p.length - 1) by omega, hlast] at hget
    have := hshift _ hj (by rw [getD_eq_getElem?_getD, ← hget]; rfl)
    omega

/-! ## The search -/

theorem findInner_spec (hpos : 0 < p.length)
    (hle : p.length ≤ t.length) {fuel cursor : ℕ} (hfuel : t.length < fuel + cursor)
    (hend : cursor ≤ t.length) (hbefore : ∀ i < cursor, ¬ OccursAt t p i) :
    ∃ result, findInner (fillTable w p (p.length - 1)) t p fuel cursor = some result ∧
      IsFirst t p result := by
  induction fuel generalizing cursor with
  | zero =>
    omega
  | succ fuel ih =>
    rw [findInner]
    by_cases hcursor : cursor ≤ t.length - p.length
    · have hroom : cursor + p.length ≤ t.length := by omega
      rw [if_pos hcursor, equal, if_pos hroom]
      by_cases heq : (t.drop cursor).take p.length = p
      · refine ⟨some cursor, ?_, isFirst_some ⟨hroom, heq⟩ hbefore⟩
        simp [heq]
      · obtain ⟨last, hlast⟩ : ∃ last, t[cursor + (p.length - 1)]? = some last :=
          ⟨_, getElem?_eq_getElem (show cursor + (p.length - 1) < t.length by omega)⟩
        obtain ⟨hadvance, hmax, -⟩ := fillTable_spec hp (n := p.length - 1) (by omega) (last % 256)
        obtain ⟨result, hresult, hfirst⟩ := ih
          (show _ < fuel + (cursor + fillTable w p (p.length - 1) (last % 256)) by omega)
          (by omega) fun i hi hoccurs => by
            rcases lt_trichotomy i cursor with hlt | rfl | hgt
            · exact hbefore i hlt hoccurs
            · exact heq hoccurs.2
            · have := add_table_le hp hpos hlast hoccurs hgt
              omega
        refine ⟨result, ?_, hfirst⟩
        simp [heq, hlast, hresult]
    · rw [if_neg hcursor]
      refine ⟨none, rfl, isFirst_none fun i hi => ?_⟩
      have := hi.1
      exact hbefore i (by omega) hi
end

/-- **The search** finds the first occurrence; it reads no character outside the text, and every
entry of the table moves the cursor. -/
theorem find_first (w : ℕ) (string pattern : StringImpl)
    (hp : pattern.length ≤ maxPatternLength w) {fuel : ℕ} (hfuel : string.length < fuel) :
    (∃ result, find (initializeTable w pattern.characters) string pattern fuel = some result ∧
      IsFirst string.characters pattern.characters result) ∧
    (0 < pattern.length → ∀ c, 0 < initializeTable w pattern.characters c) := by
  unfold StringImpl.length at *
  refine ⟨?_, fun hpos c => (fillTable_spec hp (by omega) c).1⟩
  unfold find StringImpl.length
  split_ifs with hlong hempty
  · refine ⟨none, rfl, isFirst_none fun i hi => ?_⟩
    have := hi.1
    omega
  · refine ⟨some 0, rfl, isFirst_some ⟨by omega, ?_⟩ nofun⟩
    rw [length_eq_zero_iff.mp hempty]
    rfl
  · exact findInner_spec hp (by omega) (by omega) hfuel (by omega) nofun

/-- An 8-bit pattern in a 16-bit text, with a character that shares an entry of the table. -/
theorem find_first_shared :
    (∃ result, find (initializeTable 8 [97, 98]) (.sixteenBit [97, 353, 97, 98] (by decide))
        (.eightBit [97, 98] (by decide)) 5 = some result ∧
      IsFirst [97, 353, 97, 98] [97, 98] result) ∧
    (0 < [97, 98].length → ∀ c, 0 < initializeTable 8 [97, 98] c) :=
  find_first 8 (.sixteenBit [97, 353, 97, 98] (by decide)) (.eightBit [97, 98] (by decide))
    (by decide) (by decide)

end JscAndroid.Wtf.StringSearch
