import Mathlib

/-!
# Bisection of sorted lists

What a bisection knows at any moment: the entries before `low` are below the target, and those from
`high` on are above it (`Bracket`). Looking at one entry between them moves one of the two ends.
When the ends meet, every entry is below or above.
-/

namespace JscAndroid.Arith.Bisection

variable {α : Type} {below above : α → Prop} {l : List α} {low high : ℕ}

structure Bracket (below above : α → Prop) (l : List α) (low high : ℕ) : Prop where
  le : low ≤ high
  high_le : high ≤ l.length
  below : ∀ i (h : i < l.length), i < low → below l[i]
  above : ∀ i (h : i < l.length), high ≤ i → above l[i]

theorem Bracket.start : Bracket below above l 0 l.length :=
  ⟨Nat.zero_le _, le_refl _, fun _ _ h => absurd h (Nat.not_lt_zero _),
    fun _ h h' => absurd h (Nat.not_lt.mpr h')⟩

section
variable {R : α → α → Prop} (hl : l.Pairwise R) (h : Bracket below above l low high) {mid : ℕ}
  (h1 : low ≤ mid) (h2 : mid < high)
include hl h h1 h2

theorem Bracket.left (hR : ∀ a b, R a b → above a → above b)
    (habove : ∀ hm : mid < l.length, above l[mid]) : Bracket below above l low mid := by
  have hm : mid < l.length := lt_of_lt_of_le h2 h.high_le
  refine ⟨h1, le_of_lt hm, h.below, fun i hi hle => ?_⟩
  rcases eq_or_lt_of_le hle with rfl | hlt
  · exact habove hi
  · exact hR _ _ (List.pairwise_iff_getElem.mp hl mid i hm hi hlt) (habove hm)

theorem Bracket.right (hR : ∀ a b, R a b → below b → below a)
    (hbelow : ∀ hm : mid < l.length, below l[mid]) : Bracket below above l (mid + 1) high := by
  have hm : mid < l.length := lt_of_lt_of_le h2 h.high_le
  refine ⟨h2, h.high_le, fun i hi hlt => ?_, h.above⟩
  rcases eq_or_lt_of_le (Nat.lt_succ_iff.mp hlt) with rfl | hlt
  · exact hbelow hi
  · exact hR _ _ (List.pairwise_iff_getElem.mp hl i mid hi hm hlt) (hbelow hm)
end

/-- **When the ends meet.** -/
theorem Bracket.forall_mem (h : Bracket below above l low low) : ∀ a ∈ l, below a ∨ above a := by
  intro a ha
  obtain ⟨i, hi, rfl⟩ := List.getElem_of_mem ha
  rcases lt_or_ge i low with hlt | hge
  · exact Or.inl (h.below i hi hlt)
  · exact Or.inr (h.above i hi hge)

end JscAndroid.Arith.Bisection
