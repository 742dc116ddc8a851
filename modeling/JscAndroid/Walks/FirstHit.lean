import Mathlib

/-!
# First hits along a walk

A loop that goes from element to element until a test holds: the probe of a hash table, the walk
along a linked list. `Via` says that the walk comes to an element, and `firstHit` is the loop with a
bound on its rounds; in a finite set the number of its elements is bound enough.
-/

namespace JscAndroid.Walks.FirstHit

open Finset

variable {α : Type}

/-- The first element of the walk that passes the test, among the first `fuel` ones. -/
def firstHit (stop : α → Bool) (next : α → α) : ℕ → α → Option α
  | 0, _ => none
  | fuel + 1, a => if stop a then some a else firstHit stop next fuel (next a)

/-- The walk comes from `a` to `b`, and `p` holds of all elements before `b`. -/
def Via (next : α → α) (p : α → Prop) (a b : α) : Prop :=
  ∃ d, next^[d] a = b ∧ ∀ e < d, p (next^[e] a)

section
variable {next : α → α} {p q : α → Prop} {a b c : α}

theorem Via.refl (a : α) : Via next p a a := ⟨0, rfl, fun _ h => absurd h (Nat.not_lt_zero _)⟩

theorem Via.head (ha : p a) (h : Via next p (next a) b) : Via next p a b := by
  obtain ⟨d, rfl, hd⟩ := h
  refine ⟨d + 1, rfl, fun e he => ?_⟩
  cases e with
  | zero => exact ha
  | succ e => exact hd e (by omega)

theorem Via.imp (h : Via next p a b) (hpq : ∀ x, p x → q x) : Via next q a b := by
  obtain ⟨d, hb, hd⟩ := h
  exact ⟨d, hb, fun e he => hpq _ (hd e he)⟩

/-- A walk that comes to an element with a property comes to a first one. -/
theorem exists_via {d : ℕ} (h : p (next^[d] a)) : ∃ b, p b ∧ Via next (fun x => ¬ p x) a b := by
  classical
  have hex : ∃ d, p (next^[d] a) := ⟨d, h⟩
  exact ⟨_, Nat.find_spec hex, Nat.find hex, rfl, fun e he => Nat.find_min hex he⟩

/-- On the way to `b`, which has the property, the first element that has it is `b` or comes
before. -/
theorem Via.exists_first (h : Via next q a b) (hb : p b) :
    ∃ c, p c ∧ Via next (fun x => ¬ p x) a c ∧ (c = b ∨ q c) := by
  classical
  obtain ⟨d, rfl, hd⟩ := h
  have hex : ∃ d, p (next^[d] a) := ⟨d, hb⟩
  refine ⟨_, Nat.find_spec hex, ⟨Nat.find hex, rfl, fun e he => Nat.find_min hex he⟩, ?_⟩
  rcases lt_or_eq_of_le (Nat.find_min' hex hb) with hlt | heq
  · exact Or.inr (hd _ hlt)
  · exact Or.inl (by rw [heq])
end

section
variable {stop : α → Bool} {next : α → α} {a b : α}

theorem via_of_firstHit {fuel : ℕ} (h : firstHit stop next fuel a = some b) :
    stop b = true ∧ Via next (fun x => ¬ stop x = true) a b := by
  induction fuel generalizing a with
  | zero => exact absurd h (by simp [firstHit])
  | succ fuel ih =>
    unfold firstHit at h
    split_ifs at h with hstop
    · obtain rfl : a = b := Option.some.inj h
      exact ⟨hstop, Via.refl a⟩
    · obtain ⟨hb, hvia⟩ := ih h
      exact ⟨hb, hvia.head hstop⟩

theorem firstHit_of_lt {d fuel : ℕ} (hd : d < fuel) (hb : next^[d] a = b) (hstop : stop b = true)
    (hfirst : ∀ e < d, ¬ stop (next^[e] a) = true) : firstHit stop next fuel a = some b := by
  induction d generalizing a fuel with
  | zero =>
    obtain ⟨fuel, rfl⟩ : ∃ n, fuel = n + 1 := ⟨fuel - 1, by omega⟩
    obtain rfl : a = b := hb
    exact if_pos hstop
  | succ d ih =>
    obtain ⟨fuel, rfl⟩ : ∃ n, fuel = n + 1 := ⟨fuel - 1, by omega⟩
    have ha : ¬ stop a = true := hfirst 0 (by omega)
    rw [firstHit, if_neg ha]
    exact ih (by omega) hb fun e he => hfirst (e + 1) (by omega)

theorem injOn_of_first {d : ℕ} (hstop : stop (next^[d] a) = true)
    (hfirst : ∀ e < d, ¬ stop (next^[e] a) = true) :
    Set.InjOn (fun e => next^[e] a) (range (d + 1)) := by
  have key : ∀ i j, i < j → j ≤ d → next^[i] a ≠ next^[j] a := by
    intro i j hij hj heq
    have hshift : next^[d - (j - i)] a = next^[d] a := by
      rw [show d - (j - i) = (d - j) + i by omega, Function.iterate_add_apply, heq,
        ← Function.iterate_add_apply, show d - j + j = d by omega]
    exact hfirst (d - (j - i)) (by omega) (hshift ▸ hstop)
  intro i hi j hj heq
  simp only [coe_range, Set.mem_Iio] at hi hj
  rcases lt_trichotomy i j with h | h | h
  · exact absurd heq (key i j h (by omega))
  · exact h
  · exact absurd heq.symm (key j i h (by omega))

/-- **Enough rounds.** A walk inside a finite set that comes to a hit comes to it within as many
rounds as the set has elements. -/
theorem firstHit_of_via {S : Finset α} (hS : ∀ d, next^[d] a ∈ S) (hstop : stop b = true)
    (hvia : Via next (fun x => ¬ stop x = true) a b) : firstHit stop next S.card a = some b := by
  obtain ⟨d, rfl, hfirst⟩ := hvia
  have hcard : d + 1 ≤ S.card := by
    have := card_le_card_of_injOn (fun e => next^[e] a)
      (fun e _ => hS e) (injOn_of_first hstop hfirst)
    rwa [card_range] at this
  exact firstHit_of_lt (by omega) rfl hstop hfirst
end

end JscAndroid.Walks.FirstHit
