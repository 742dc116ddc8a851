import Mathlib

/-!
# Worklists

A worklist is drained from its end: an item is taken off, and what is found while it is processed is
appended. When every item is found only once, the loop ends, and it has found just the items that
lead back to the start (`drain_once`).
-/

namespace JscAndroid.Walks.Worklist

variable {α σ : Type}

/-- Process items until there are none left, at most `fuel` of them. The head of the list is the end
of the worklist. -/
def drain (process : α → σ → Option (List α × σ)) : ℕ → List α → σ → Option σ
  | _, [], s => some s
  | 0, _ :: _, _ => none
  | fuel + 1, a :: rest, s => do
    let (appended, s) ← process a s
    drain process fuel (appended.reverse ++ rest) s

/-- **The rule for a worklist**: an invariant that every item keeps, while a measure falls. -/
theorem drain_spec (process : α → σ → Option (List α × σ)) (Inv : List α → σ → Prop)
    (measure : List α → σ → ℕ)
    (step : ∀ a rest s, Inv (a :: rest) s → ∃ appended s', process a s = some (appended, s') ∧
      Inv (appended.reverse ++ rest) s' ∧
      measure (appended.reverse ++ rest) s' < measure (a :: rest) s)
    {fuel : ℕ} {pending : List α} {s : σ} (h : Inv pending s) (hfuel : measure pending s ≤ fuel) :
    ∃ s', drain process fuel pending s = some s' ∧ Inv [] s' := by
  induction fuel generalizing pending s with
  | zero =>
    cases pending with
    | nil => exact ⟨s, rfl, h⟩
    | cons a rest =>
      obtain ⟨_, _, -, -, hlt⟩ := step a rest s h
      omega
  | succ fuel ih =>
    cases pending with
    | nil => exact ⟨s, rfl, h⟩
    | cons a rest =>
      obtain ⟨appended, s', hprocess, hinv, hlt⟩ := step a rest s h
      obtain ⟨s'', hdrain, hend⟩ := ih hinv (by omega)
      refine ⟨s'', ?_, hend⟩
      rwa [drain, hprocess]

/-- Call a function on one item after another: the items for which it returns `true`, and the state
it leaves. -/
def sift (functor : α → σ → Bool × σ) : List α → σ → List α × σ
  | [], s => ([], s)
  | a :: items, s =>
    let (kept, s) := functor a s
    let (others, s) := sift functor items s
    (if kept then a :: others else others, s)

/-! ## Finding every item once -/

variable [DecidableEq α]

/-- Call the function only on items that are not in the set yet. -/
def once (functor : α → σ → Bool × σ) : α → List α × σ → Bool × (List α × σ)
  | a, (set, s) =>
    if a ∈ set then (false, (set, s))
    else
      let (kept, s) := functor a s
      (kept, (a :: set, s))

/-- A function that keeps every item. -/
def keep (effect : σ → α → σ) (a : α) (s : σ) : Bool × σ := (true, effect s a)

theorem sift_once (effect : σ → α → σ) (items set : List α) (s : σ) : ∃ fresh : List α,
    sift (once (keep effect)) items (set, s) =
      (fresh, (fresh.reverse ++ set, fresh.foldl effect s)) ∧
      fresh.Nodup ∧ (∀ a ∈ fresh, a ∉ set) ∧ fresh ⊆ items ∧ items ⊆ fresh.reverse ++ set := by
  induction items generalizing set s with
  | nil => exact ⟨[], rfl, .nil, by simp, by simp, by simp⟩
  | cons a items ih =>
    by_cases ha : a ∈ set
    · obtain ⟨fresh, h1, h2, h3, h4, h5⟩ := ih set s
      refine ⟨fresh, ?_, h2, h3, List.Subset.trans h4 (List.subset_cons_self a items),
        List.cons_subset.mpr ⟨List.mem_append_right _ ha, h5⟩⟩
      simp only [sift, once, if_pos ha, h1, Bool.false_eq_true, if_false]
    · obtain ⟨fresh, h1, h2, h3, h4, h5⟩ := ih (a :: set) (effect s a)
      have hset : (a :: fresh).reverse ++ set = fresh.reverse ++ a :: set := by simp
      refine ⟨a :: fresh, ?_, List.nodup_cons.mpr ⟨fun h => h3 a h (List.mem_cons_self ..), h2⟩, ?_,
        List.cons_subset_cons a h4, ?_⟩
      · rw [hset]
        simp only [sift, once, keep, if_neg ha, h1, if_true, List.foldl_cons]
      · intro b hb
        rcases List.mem_cons.mp hb with rfl | hb
        · exact ha
        · exact fun h => h3 b hb (List.mem_cons_of_mem a h)
      · rw [hset]
        exact List.cons_subset.mpr ⟨List.mem_append_right _ (List.mem_cons_self ..), h5⟩

/-- How far the worklist has come: what was found leads back to the start, and what is not pending
has been processed. -/
structure Progress (R : α → α → Prop) (effect : σ → α → σ) (start : List α) (s : σ)
    (pending : List α) (p : List α × σ) : Prop where
  nodup : p.1.Nodup
  state : p.2 = p.1.reverse.foldl effect s
  found : ∀ b ∈ p.1, ∃ a ∈ start, Relation.TransGen R a b
  source : ∀ a ∈ pending, a ∈ start ∨ a ∈ p.1
  processed : ∀ a, a ∈ start ∨ a ∈ p.1 → a ∈ pending ∨ ∀ b, R a b → b ∈ p.1

variable {R : α → α → Prop} {effect : σ → α → σ} {start : List α} {s : σ}

theorem Progress.step {a : α} {rest items set : List α} {s' : σ}
    (h : Progress R effect start s (a :: rest) (set, s')) (hitems : ∀ b, b ∈ items ↔ R a b) :
    ∃ fresh : List α, sift (once (keep effect)) items (set, s') =
        (fresh, (fresh.reverse ++ set, fresh.foldl effect s')) ∧
      Progress R effect start s (fresh.reverse ++ rest)
        (fresh.reverse ++ set, fresh.foldl effect s') := by
  obtain ⟨h1, h2, h3, h4, h5⟩ := h
  obtain ⟨fresh, e1, e2, e3, e4, e5⟩ := sift_once effect items set s'
  refine ⟨fresh, e1, ?_, ?_, ?_, ?_, ?_⟩
  · exact List.nodup_append.mpr ⟨List.nodup_reverse.mpr e2, h1, fun b hb c hc hbc =>
      e3 b (List.mem_reverse.mp hb) (hbc ▸ hc)⟩
  · dsimp only at h2 ⊢
    rw [List.reverse_append, List.reverse_reverse, List.foldl_append, h2]
  · intro b hb
    rcases List.mem_append.mp hb with hb | hb
    · have hab := (hitems b).mp (e4 (List.mem_reverse.mp hb))
      rcases h4 a (List.mem_cons_self ..) with ha | ha
      · exact ⟨a, ha, .single hab⟩
      · obtain ⟨a', ha', h⟩ := h3 a ha
        exact ⟨a', ha', h.tail hab⟩
    · exact h3 b hb
  · intro b hb
    rcases List.mem_append.mp hb with hb | hb
    · exact Or.inr (List.mem_append_left _ hb)
    · exact (h4 b (List.mem_cons_of_mem a hb)).imp_right (List.mem_append_right _)
  · intro b hb
    by_cases hba : b = a
    · exact Or.inr fun c hc => e5 ((hitems c).mpr (hba ▸ hc))
    · have hold : b ∈ fresh.reverse ∨ b ∈ start ∨ b ∈ set :=
        hb.elim (fun hb => Or.inr (Or.inl hb)) fun hb => (List.mem_append.mp hb).imp_right Or.inr
      rcases hold with hb | hb
      · exact Or.inl (List.mem_append_left _ hb)
      · rcases h5 b hb with hb | hb
        · exact Or.inl (List.mem_append_right _ ((List.mem_cons.mp hb).resolve_left hba))
        · exact Or.inr fun c hc => List.mem_append_right _ (hb c hc)

/-- **A worklist that finds every item once** ends, if there are finitely many. What it finds are
the items that some item of the start leads to. -/
theorem drain_once {next : α → Option (List α)}
    (hnext : ∀ a, ∃ items, next a = some items ∧ ∀ b, b ∈ items ↔ R a b) {all : List α}
    (hall : ∀ a, a ∈ all) (start : List α) (s : σ) : ∃ found : List α, found.Nodup ∧
      (∀ b, b ∈ found ↔ ∃ a ∈ start, Relation.TransGen R a b) ∧
      drain (fun a p => (next a).map fun items => sift (once (keep effect)) items p)
        (start.length + all.length) start.reverse ([], s) =
          some (found.reverse, found.foldl effect s) := by
  have hstart : Progress R effect start s start.reverse ([], s) :=
    ⟨.nil, rfl, by simp, fun a ha => Or.inl (List.mem_reverse.mp ha),
      fun a ha => Or.inl (List.mem_reverse.mpr (ha.resolve_right List.not_mem_nil))⟩
  obtain ⟨⟨set, s'⟩, hdrain, hend⟩ := drain_spec
    (fun a p => (next a).map fun items => sift (once (keep effect)) items p)
    (Progress R effect start s) (fun pending p => pending.length + (all.length - p.1.length))
    (fun a rest ⟨set, s'⟩ h => by
      obtain ⟨items, hitems, hR⟩ := hnext a
      obtain ⟨fresh, hsift, hprogress⟩ := h.step hR
      refine ⟨fresh, _, by rw [hitems, Option.map_some, hsift], hprogress, ?_⟩
      have := (List.subperm_of_subset hprogress.nodup fun a _ => hall a).length_le
      simp only [List.length_append, List.length_cons] at this ⊢
      omega) hstart (show _ ≤ start.length + all.length by simp)
  refine ⟨set.reverse, List.nodup_reverse.mpr hend.nodup, fun b => ?_, ?_⟩
  · rw [List.mem_reverse]
    refine ⟨hend.found b, ?_⟩
    rintro ⟨a, ha, hab⟩
    have hstep : ∀ a, a ∈ start ∨ a ∈ set → ∀ b, R a b → b ∈ set := fun a ha =>
      (hend.processed a ha).resolve_left List.not_mem_nil
    induction hab with
    | single h => exact hstep a (Or.inl ha) _ h
    | tail _ h ih => exact hstep _ (Or.inr ih) _ h
  · rw [List.reverse_reverse, hdrain]
    exact congrArg (fun s => some (set, s)) hend.state

end JscAndroid.Walks.Worklist
