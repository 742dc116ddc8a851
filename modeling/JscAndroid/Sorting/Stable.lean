import Mathlib

/-!
# Stable sorting by merging

A stable sort of a list is ordered, and the elements of each class of equals stand in it as they
stood in the list. Merging is a relation, with the conditions under which an element is taken from
either side as parameters: without conditions it still gives a permutation, and if they are those of
an order then runs that are stable sorts are merged to one.
-/

namespace JscAndroid.Sorting.Stable

open List Bool

variable {α : Type*}

/-! ## Stable sorts -/

/-- The elements are equal in the order. -/
def equals (le : α → α → Bool) (a b : α) : Bool := le a b && le b a

/-- `s` is the list `l` in order, with equals in the order in which they are in `l`. -/
structure StableSort (le : α → α → Bool) (l s : List α) : Prop where
  perm : s.Perm l
  ordered : s.Pairwise fun a b => le a b = true
  stable : ∀ a, s.filter (equals le a) = l.filter (equals le a)

/-- The laws of a total preorder. -/
structure TotalPreorder (le : α → α → Bool) : Prop where
  total : ∀ a b, le a b = true ∨ le b a = true
  trans : ∀ a b c, le a b = true → le b c = true → le a c = true

section
variable {le : α → α → Bool}

theorem stableSort_nil : StableSort le [] [] := ⟨.nil, .nil, fun _ => rfl⟩

section
variable (hle : TotalPreorder le)
include hle

theorem filter_equals_eq_nil {a b : α} {l : List α}
    (hab : equals le a b = true) (hl : ∀ x ∈ l, le x b = false) : l.filter (equals le a) = [] := by
  rw [filter_eq_nil_iff]
  intro x hx heq
  simp only [equals, and_eq_true] at hab heq
  have hxb := hle.trans x a b heq.2 hab.1
  rw [hl x hx] at hxb
  cases hxb

/-- Stable sorts of the elements of a list that satisfy `p` and of the others, if the former are
below the latter, are one stable sort of the list. -/
theorem StableSort.append {p : α → Bool} {l s t : List α}
    (hs : StableSort le (l.filter p) s) (ht : StableSort le (l.filter fun x => !p x) t)
    (hbelow : ∀ a ∈ l, ∀ b ∈ l, p a = true → p b = false → le b a = false) :
    StableSort le l (s ++ t) := by
  have hmem_s : ∀ x ∈ s, x ∈ l ∧ p x = true := fun x hx =>
    mem_filter.mp (hs.perm.mem_iff.mp hx)
  have hmem_t : ∀ x ∈ t, x ∈ l ∧ p x = false := fun x hx => by
    simpa using mem_filter.mp (ht.perm.mem_iff.mp hx)
  refine ⟨(hs.perm.append ht.perm).trans (filter_append_perm p l), ?_, fun a => ?_⟩
  · rw [pairwise_append]
    refine ⟨hs.ordered, ht.ordered, fun x hx y hy => ?_⟩
    have hyx := hbelow x (hmem_s x hx).1 y (hmem_t y hy).1 (hmem_s x hx).2 (hmem_t y hy).2
    rcases hle.total x y with h | h
    · exact h
    · rw [hyx] at h
      cases h
  · rw [filter_append, hs.stable, ht.stable, filter_filter, filter_filter]
    -- the class of `a` is on one side of `p`
    by_cases hp : ∃ x ∈ l, equals le a x = true ∧ p x = true
    · obtain ⟨x, hx, hax, hpx⟩ := hp
      have hall : ∀ y ∈ l, equals le a y = true → p y = true := by
        intro y hy hay
        by_contra hpy
        have := hbelow x hx y hy hpx (by simpa using hpy)
        simp only [equals, and_eq_true] at hax hay
        rw [hle.trans y a x hay.2 hax.1] at this
        cases this
      have hright : l.filter (fun y => equals le a y && !p y) = [] := by
        rw [filter_eq_nil_iff]
        intro y hy h
        simp only [and_eq_true] at h
        rw [hall y hy h.1] at h
        cases h.2
      rw [hright, append_nil]
      refine filter_congr fun y hy => ?_
      cases hay : equals le a y with
      | false => rfl
      | true => rw [hall y hy hay]; rfl
    · have hleft : l.filter (fun y => equals le a y && p y) = [] := by
        rw [filter_eq_nil_iff]
        intro y hy h
        simp only [and_eq_true] at h
        exact hp ⟨y, hy, h⟩
      rw [hleft]
      refine filter_congr fun y hy => ?_
      cases hay : equals le a y with
      | false => rfl
      | true =>
        have hpy : p y = false := by
          by_contra hpy
          exact hp ⟨y, hy, hay, by simpa using hpy⟩
        rw [hpy]
        rfl

theorem equals_congr {a b : α} (h : equals le a b = true) (x : α) :
    equals le a x = equals le b x := by
  simp only [equals, and_eq_true] at h
  rw [Bool.eq_iff_iff]
  simp only [equals, and_eq_true]
  constructor
  · rintro ⟨hax, hxa⟩
    exact ⟨hle.trans b a x h.2 hax, hle.trans x a b hxa h.1⟩
  · rintro ⟨hbx, hxb⟩
    exact ⟨hle.trans a b x h.1 hbx, hle.trans x b a hxb h.2⟩

/-- A stable sort by the order of the images is one of the images. -/
theorem StableSort.map {β : Type*} {le' : β → β → Bool} {f : β → α}
    {l s : List β} (h : StableSort le' l s)
    (hf : ∀ a ∈ l, ∀ b ∈ l, le' a b = le (f a) (f b)) : StableSort le (l.map f) (s.map f) := by
  refine ⟨h.perm.map f, ?_, fun a => ?_⟩
  · rw [pairwise_map]
    refine h.ordered.imp_of_mem fun {x y} hx hy hxy => ?_
    rwa [← hf x (h.perm.mem_iff.mp hx) y (h.perm.mem_iff.mp hy)]
  · rw [filter_map, filter_map]
    by_cases hclass : ∃ b ∈ l, equals le a (f b) = true
    · obtain ⟨b, hb, hab⟩ := hclass
      have hfilter : ∀ t : List β, (∀ x ∈ t, x ∈ l) →
          t.filter (equals le a ∘ f) = t.filter (equals le' b) := by
        intro t ht
        refine filter_congr fun x hx => ?_
        rw [Function.comp_apply, equals_congr hle hab, equals, equals, hf b hb x (ht x hx),
          hf x (ht x hx) b hb]
      rw [hfilter s fun x hx => h.perm.mem_iff.mp hx, hfilter l fun x hx => hx, h.stable b]
    · have hnil : ∀ t : List β, (∀ x ∈ t, x ∈ l) → t.filter (equals le a ∘ f) = [] := by
        intro t ht
        rw [filter_eq_nil_iff]
        exact fun x hx hax => hclass ⟨x, ht x hx, hax⟩
      rw [hnil s fun x hx => h.perm.mem_iff.mp hx, hnil l fun x hx => hx]
end

end

/-! ## Merging -/

/-- `zs` is a merge of two lists; an element of the left or right list is taken only under the
condition given for it. -/
inductive Merges (left right : α → α → Prop) : List α → List α → List α → Prop
  | leftNil (ys : List α) : Merges left right [] ys ys
  | rightNil (xs : List α) : Merges left right xs [] xs
  | takeLeft {x y : α} {xs ys zs : List α} (h : left x y)
    (rest : Merges left right xs (y :: ys) zs) :
      Merges left right (x :: xs) (y :: ys) (x :: zs)
  | takeRight {x y : α} {xs ys zs : List α} (h : right x y)
      (rest : Merges left right (x :: xs) ys zs) :
      Merges left right (x :: xs) (y :: ys) (y :: zs)

section
variable {left right : α → α → Prop} {xs ys zs : List α}

theorem Merges.perm (h : Merges left right xs ys zs) : zs.Perm (xs ++ ys) := by
  induction h with
  | leftNil | rightNil => simp
  | takeLeft _ _ ih => exact ih.cons _
  | takeRight _ _ ih => exact (ih.cons _).trans perm_middle.symm

theorem Merges.eq_right (h : Merges left right [] ys zs) : zs = ys := by
  cases h <;> rfl

theorem Merges.eq_left (h : Merges left right xs [] zs) : zs = xs := by
  cases h <;> rfl

theorem Merges.length_eq (h : Merges left right xs ys zs) : zs.length = xs.length + ys.length := by
  rw [h.perm.length_eq, length_append]

variable {le : α → α → Bool}

section
variable (hle : TotalPreorder le)
variable (h : Merges (fun x y => le x y = true) (fun x y => le x y = false) xs ys zs)
variable (hxs : xs.Pairwise fun a b => le a b = true)
include hle h hxs

/-- Ordered lists are merged to an ordered one, in which the equals of the left list come first. -/
theorem Merges.ordered (hys : ys.Pairwise fun a b => le a b = true) :
    zs.Pairwise fun a b => le a b = true := by
  induction h with
  | leftNil => exact hys
  | rightNil => exact hxs
  | @takeLeft x y xs ys zs hxy rest ih =>
    rw [pairwise_cons] at hxs
    have hy := (pairwise_cons.mp hys).1
    refine pairwise_cons.mpr ⟨fun z hz => ?_, ih hxs.2 hys⟩
    rcases mem_append.mp (rest.perm.mem_iff.mp hz) with hz | hz
    · exact hxs.1 z hz
    · rcases mem_cons.mp hz with rfl | hz
      · exact hxy
      · exact hle.trans x y z hxy (hy z hz)
  | @takeRight x y xs ys zs hxy rest ih =>
    rw [pairwise_cons] at hys
    have hx := (pairwise_cons.mp hxs).1
    have hyx : le y x = true := by
      rcases hle.total x y with h | h
      · rw [hxy] at h
        cases h
      · exact h
    refine pairwise_cons.mpr ⟨fun z hz => ?_, ih hxs hys.2⟩
    rcases mem_append.mp (rest.perm.mem_iff.mp hz) with hz | hz
    · rcases mem_cons.mp hz with rfl | hz
      · exact hyx
      · exact hle.trans y x z hyx (hx z hz)
    · exact hys.1 z hz

theorem Merges.stable (a : α) : zs.filter (equals le a) = (xs ++ ys).filter (equals le a) := by
  induction h with
  | leftNil | rightNil => simp
  | @takeLeft x y xs ys zs _ rest ih =>
    rw [cons_append, filter_cons, filter_cons, ih (pairwise_cons.mp hxs).2]
  | @takeRight x y xs ys zs hxy rest ih =>
    rw [filter_cons, ih hxs, filter_append, filter_append]
    by_cases hay : equals le a y = true
    · -- `y` is below all that is left of the left list
      have hnil : (x :: xs).filter (equals le a) = [] := by
        refine filter_equals_eq_nil hle hay fun z hz => ?_
        rcases mem_cons.mp hz with rfl | hz
        · exact hxy
        · by_contra hzy
          have := hle.trans x z y ((pairwise_cons.mp hxs).1 z hz) (by simpa using hzy)
          rw [hxy] at this
          cases this
      rw [if_pos hay, hnil, nil_append, nil_append, filter_cons_of_pos hay]
    · rw [if_neg hay, filter_cons_of_neg hay]
end

end

/-! ## Passes -/

/-- One pass over runs of length `w`: each run with the one after it. -/
inductive MergesRuns (left right : α → α → Prop) (w : ℕ) : List α → List α → Prop
  | nil : MergesRuns left right w [] []
  | runs {l zs rest : List α} (hl : l ≠ [])
      (merges : Merges left right (l.take w) ((l.drop w).take w) zs)
      (more : MergesRuns left right w (l.drop (2 * w)) rest) :
        MergesRuns left right w l (zs ++ rest)

/-- Passes over runs of twice the length each time, until there is one run. -/
inductive MergeSorts (left right : α → α → Prop) : ℕ → List α → List α → Prop
  | done {w : ℕ} {l : List α} (h : l.length ≤ w) : MergeSorts left right w l l
  | pass {w : ℕ} {l l' s : List α} (h : w < l.length) (pass : MergesRuns left right w l l')
      (more : MergeSorts left right (2 * w) l' s) : MergeSorts left right w l s

/-- The runs of length `w` are ordered. -/
def RunsOrdered (le : α → α → Bool) (w : ℕ) (l : List α) : Prop :=
  ∀ k, ((l.drop (k * w)).take w).Pairwise fun a b => le a b = true

section
variable {left right : α → α → Prop} {w : ℕ} {l l' s : List α}

theorem take_append_take_drop (w : ℕ) (l : List α) :
    l.take w ++ ((l.drop w).take w ++ l.drop (2 * w)) = l := by
  rw [two_mul, ← drop_drop, take_append_drop, take_append_drop]

theorem MergesRuns.perm (h : MergesRuns left right w l l') : l'.Perm l := by
  induction h with
  | nil => exact .nil
  | @runs l zs rest _ merges _ ih =>
    have hperm := merges.perm.append ih
    rwa [append_assoc, take_append_take_drop] at hperm

theorem MergeSorts.perm (h : MergeSorts left right w l s) : s.Perm l := by
  induction h with
  | done => exact .refl _
  | pass _ pass _ ih => exact ih.trans pass.perm

variable {le : α → α → Bool}

theorem RunsOrdered.drop (h : RunsOrdered le w l) (n : ℕ) : RunsOrdered le w (l.drop (n * w)) := by
  intro k
  have := h (n + k)
  rwa [add_mul, ← drop_drop] at this

section
variable (hle : TotalPreorder le)
variable (h : MergesRuns (fun x y => le x y = true) (fun x y => le x y = false) w l l')
variable (hruns : RunsOrdered le w l)
include hle h hruns

theorem MergesRuns.stable (a : α) : l'.filter (equals le a) = l.filter (equals le a) := by
  induction h with
  | nil => rfl
  | @runs l zs rest _ merges _ ih =>
    have hfirst : (l.take w).Pairwise fun a b => le a b = true := by simpa using hruns 0
    rw [filter_append, ih (hruns.drop 2), merges.stable hle hfirst, ← filter_append,
      append_assoc, take_append_take_drop]

theorem MergesRuns.runsOrdered : RunsOrdered le (2 * w) l' := by
  induction h with
  | nil => exact fun k => by simp
  | @runs l zs rest hl merges more ih =>
    have hlength := merges.length_eq
    rw [length_take, length_take, length_drop] at hlength
    have hrest := more.perm.length_eq
    rw [length_drop] at hrest
    have hfirst : (l.take w).Pairwise fun a b => le a b = true := by simpa using hruns 0
    have hsecond : ((l.drop w).take w).Pairwise fun a b => le a b = true := by simpa using hruns 1
    have hordered := merges.ordered hle hfirst hsecond
    intro k
    by_cases hshort : l.length ≤ 2 * w
    · -- the merged runs are all there is
      have hnil : rest = [] := eq_nil_of_length_eq_zero (by omega)
      rw [hnil, append_nil]
      exact hordered.sublist ((take_sublist _ _).trans (drop_sublist _ _))
    · have hzs : zs.length = 2 * w := by omega
      cases k with
      | zero =>
        rw [zero_mul, drop_zero, take_append_of_le_length (by omega)]
        exact hordered.sublist (take_sublist _ _)
      | succ k =>
        have hdrop : (zs ++ rest).drop ((k + 1) * (2 * w)) = rest.drop (k * (2 * w)) := by
          rw [Nat.succ_mul, add_comm, ← drop_drop, ← hzs, drop_left]
        rw [hdrop]
        exact ih (hruns.drop 2) k
end

/-- **Merging runs pass by pass** is a stable sort. -/
theorem MergeSorts.stableSort (hle : TotalPreorder le)
    (h : MergeSorts (fun x y => le x y = true) (fun x y => le x y = false) w l s)
    (hruns : RunsOrdered le w l) : StableSort le l s := by
  refine ⟨h.perm, ?_, ?_⟩
  · induction h with
    | @done w l h =>
      have := hruns 0
      rwa [zero_mul, drop_zero, take_of_length_le h] at this
    | pass _ pass _ ih => exact ih (pass.runsOrdered hle hruns)
  · intro a
    induction h with
    | done => rfl
    | pass _ pass _ ih => rw [ih (pass.runsOrdered hle hruns), pass.stable hle hruns]

theorem runsOrdered_one (l : List α) : RunsOrdered le 1 l := by
  intro k
  rw [mul_one]
  rcases hdrop : l.drop k with _ | ⟨x, rest⟩ <;> simp
end

end JscAndroid.Sorting.Stable
