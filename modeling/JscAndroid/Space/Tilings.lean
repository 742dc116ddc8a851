import Mathlib

/-!
# Covers by half-open intervals

How often a list of intervals covers a point. Lists with the same cover describe the same space,
and a cover of at most one everywhere means that the intervals are apart; cutting an interval in two
keeps the cover, so that a partition of a space can be followed through cuts and joins.
-/

namespace JscAndroid.Space.Tilings

open List

structure Interval where
  start : ℕ
  stop : ℕ
  deriving DecidableEq

instance : Membership ℕ Interval := ⟨fun i a => i.start ≤ a ∧ a < i.stop⟩

theorem Interval.mem_iff {i : Interval} {a : ℕ} : a ∈ i ↔ i.start ≤ a ∧ a < i.stop := Iff.rfl

instance (a : ℕ) (i : Interval) : Decidable (a ∈ i) :=
  inferInstanceAs (Decidable (_ ∧ _))

/-- No point is in both. -/
def Apart (i j : Interval) : Prop := ∀ a, a ∈ i → a ∉ j

/-- The number of the intervals a point is in. -/
def cover (pieces : List Interval) (a : ℕ) : ℕ := pieces.countP (a ∈ ·)

variable {pieces rest : List Interval} {i j : Interval} {a b c x : ℕ}

@[simp] theorem cover_nil : cover [] a = 0 := rfl

@[simp] theorem cover_cons : cover (i :: pieces) a = cover pieces a + if a ∈ i then 1 else 0 := by
  unfold cover
  rw [countP_cons]
  simp only [decide_eq_true_eq]

@[simp] theorem cover_append : cover (pieces ++ rest) a = cover pieces a + cover rest a :=
  countP_append

theorem cover_perm (h : pieces.Perm rest) (a : ℕ) : cover pieces a = cover rest a :=
  h.countP_eq _

/-- **A cut** keeps the cover. -/
theorem cover_cut (hab : a ≤ b) (hbc : b ≤ c) : cover [⟨a, b⟩, ⟨b, c⟩] x = cover [⟨a, c⟩] x := by
  simp only [cover_cons, Interval.mem_iff]
  split_ifs <;> omega

theorem cover_pos : 0 < cover pieces a ↔ ∃ i ∈ pieces, a ∈ i := by
  rw [cover, countP_pos_iff]
  simp only [decide_eq_true_eq]

theorem notMem_of_cover_le (h : cover (i :: pieces) a ≤ 1) (ha : a ∈ i) (hj : j ∈ pieces) :
    a ∉ j := by
  intro haj
  have hpos := cover_pos.mpr ⟨j, hj, haj⟩
  rw [cover_cons, if_pos ha] at h
  omega

/-- **Intervals that cover no point twice are apart.** -/
theorem pairwise_apart (h : ∀ a, cover pieces a ≤ 1) : pieces.Pairwise Apart := by
  induction pieces with
  | nil => exact .nil
  | cons i pieces ih =>
    refine pairwise_cons.mpr ⟨fun j hj a ha => notMem_of_cover_le (h a) ha hj, ih fun a => ?_⟩
    have := h a
    rw [cover_cons] at this
    omega

/-! ## Free and used pieces of a space -/

/-- The free and the used pieces are the regions of a space cut up, and the free ones are not empty
and as long as they can be. -/
structure Partition (free used regions : List Interval) : Prop where
  nonempty : ∀ i ∈ free, i.start < i.stop
  separated : ∀ i ∈ free, ∀ j ∈ free, i.stop ≠ j.start
  cover_eq : ∀ a, cover (free ++ used) a = cover regions a
  apart : ∀ a, cover regions a ≤ 1

namespace Partition

variable {free free' used regions : List Interval} {d : ℕ}

section
variable (h : Partition free used regions)
include h

theorem perm (hperm : free'.Perm free) : Partition free' used regions where
  nonempty i hi := h.nonempty i (hperm.mem_iff.mp hi)
  separated i hi j hj := h.separated i (hperm.mem_iff.mp hi) j (hperm.mem_iff.mp hj)
  cover_eq a := by rw [cover_perm (hperm.append_right used), h.cover_eq]
  apart := h.apart

theorem perm_used {used' : List Interval}
    (hperm : used'.Perm used) : Partition free used' regions where
  nonempty := h.nonempty
  separated := h.separated
  cover_eq a := by rw [cover_perm (hperm.append_left free), h.cover_eq]
  apart := h.apart

theorem cover_le (a : ℕ) : cover (free ++ used) a ≤ 1 := by
  rw [h.cover_eq]
  exact h.apart a
end

theorem ne_of_disjoint (hne : j.start < j.stop)
    (hout : ∀ x, a ≤ x → x < c → ¬ (j.start ≤ x ∧ x < j.stop)) :
    (a ≤ b → b < c → j.start ≠ b) ∧ (a < b → b ≤ c → j.stop ≠ b) := by
  constructor
  · rintro hab hbc rfl
    exact hout _ hab hbc ⟨le_rfl, hne⟩
  · rintro hab hbc rfl
    exact hout (j.stop - 1) (by omega) (by omega) ⟨by omega, by omega⟩

theorem ne_of_used (h : Partition free (⟨a, c⟩ :: used) regions) (hj : j ∈ free) :
    (a ≤ b → b < c → j.start ≠ b) ∧ (a < b → b ≤ c → j.stop ≠ b) := by
  refine ne_of_disjoint (h.nonempty j hj) fun x hax hxc => ?_
  have hle := h.cover_le x
  rw [cover_perm perm_middle] at hle
  exact notMem_of_cover_le hle ⟨hax, hxc⟩ (mem_append_left _ hj)

/-- **A free piece is used as a whole.** -/
theorem use (h : Partition (i :: free) used regions) : Partition free (i :: used) regions where
  nonempty j hj := h.nonempty j (mem_cons_of_mem _ hj)
  separated j hj k hk := h.separated j (mem_cons_of_mem _ hj) k (mem_cons_of_mem _ hk)
  cover_eq x := by rw [cover_perm perm_middle]; exact h.cover_eq x
  apart := h.apart

/-- **The space is cut anew**: besides some of the old pieces there is one other free piece. -/
theorem recut {used' : List Interval} (h : Partition free used regions)
    (hsub : ∀ j ∈ free', j ∈ free) (hi : i.start < i.stop) (hleft : ∀ j ∈ free', j.stop ≠ i.start)
    (hright : ∀ j ∈ free', i.stop ≠ j.start)
    (hcover : ∀ x, cover (i :: free' ++ used') x = cover (free ++ used) x) :
    Partition (i :: free') used' regions where
  nonempty := forall_mem_cons.mpr ⟨hi, fun j hj => h.nonempty j (hsub j hj)⟩
  separated := by
    rw [forall_mem_cons]
    exact ⟨forall_mem_cons.mpr ⟨hi.ne', hright⟩, fun j hj => forall_mem_cons.mpr
      ⟨hleft j hj, fun k hk => h.separated j (hsub j hj) k (hsub k hk)⟩⟩
  cover_eq x := (hcover x).trans (h.cover_eq x)
  apart := h.apart

section
variable (h : Partition (⟨a, c⟩ :: free) used regions)
include h

/-- No other free piece starts in a free piece, or stops in it. -/
theorem ne_of_free (hj : j ∈ free) :
    (a ≤ b → b < c → j.start ≠ b) ∧ (a < b → b ≤ c → j.stop ≠ b) :=
  ne_of_disjoint (h.nonempty j (mem_cons_of_mem _ hj)) fun x hax hxc =>
    notMem_of_cover_le (h.cover_le x) ⟨hax, hxc⟩ (mem_append_left _ hj)

/-- **The left part of a free piece is used.** -/
theorem use_left (hab : a ≤ b) (hbc : b < c) :
    Partition (⟨b, c⟩ :: free) (⟨a, b⟩ :: used) regions := by
  refine h.recut (fun _ => mem_cons_of_mem _) hbc (fun j hj => ?_) (fun j hj => ?_) fun x => ?_
  · rcases hab.eq_or_lt with rfl | hab
    · exact h.separated j (mem_cons_of_mem _ hj) _ mem_cons_self
    · exact (h.ne_of_free hj).2 hab hbc.le
  · exact h.separated _ mem_cons_self j (mem_cons_of_mem _ hj)
  · have hcut := cover_cut (x := x) hab hbc.le
    simp only [cover_append, cover_cons] at hcut ⊢
    omega

/-- **The right part of a free piece is used.** -/
theorem use_right (hab : a < b) (hbc : b ≤ c) :
    Partition (⟨a, b⟩ :: free) (⟨b, c⟩ :: used) regions := by
  refine h.recut (fun _ => mem_cons_of_mem _) hab (fun j hj => ?_) (fun j hj => ?_) fun x => ?_
  · exact h.separated j (mem_cons_of_mem _ hj) ⟨a, c⟩ mem_cons_self
  · rcases hbc.eq_or_lt with rfl | hbc
    · exact h.separated ⟨a, b⟩ mem_cons_self j (mem_cons_of_mem _ hj)
    · exact ((h.ne_of_free hj).1 hab.le hbc).symm
  · have hcut := cover_cut (x := x) hab.le hbc
    simp only [cover_append, cover_cons] at hcut ⊢
    omega
end

/-- **A used piece becomes free** between used ones. -/
theorem give (h : Partition free (⟨a, b⟩ :: used) regions) (hab : a < b)
    (hleft : ∀ j ∈ free, j.stop ≠ a) (hright : ∀ j ∈ free, j.start ≠ b) :
    Partition (⟨a, b⟩ :: free) used regions :=
  h.recut (fun _ => id) hab hleft (fun j hj => (hright j hj).symm) fun x => by
    rw [cover_perm perm_middle]
    rfl

/-- **A used piece is joined to the free piece on its left.** -/
theorem give_left (h : Partition (⟨a, b⟩ :: free) (⟨b, c⟩ :: used) regions) (hbc : b < c)
    (hright : ∀ j ∈ free, j.start ≠ c) : Partition (⟨a, c⟩ :: free) used regions := by
  have hab : a < b := h.nonempty _ mem_cons_self
  refine h.recut (fun _ => mem_cons_of_mem _) (hab.trans hbc) (fun j hj => ?_)
    (fun j hj => (hright j hj).symm) fun x => ?_
  · exact h.separated j (mem_cons_of_mem _ hj) ⟨a, b⟩ mem_cons_self
  · have hcut := cover_cut (x := x) hab.le hbc.le
    simp only [cover_append, cover_cons] at hcut ⊢
    omega

/-- **A used piece is joined to the free piece on its right.** -/
theorem give_right (h : Partition (⟨b, c⟩ :: free) (⟨a, b⟩ :: used) regions) (hab : a < b)
    (hleft : ∀ j ∈ free, j.stop ≠ a) : Partition (⟨a, c⟩ :: free) used regions := by
  have hbc : b < c := h.nonempty _ mem_cons_self
  refine h.recut (fun _ => mem_cons_of_mem _) (hab.trans hbc) hleft (fun j hj => ?_) fun x => ?_
  · exact h.separated ⟨b, c⟩ mem_cons_self j (mem_cons_of_mem _ hj)
  · have hcut := cover_cut (x := x) hab.le hbc.le
    simp only [cover_append, cover_cons] at hcut ⊢
    omega

/-- **A used piece joins the free pieces on both sides.** -/
theorem give_both (h : Partition (⟨a, b⟩ :: ⟨c, d⟩ :: free) (⟨b, c⟩ :: used) regions)
    (hbc : b < c) :
    Partition (⟨a, d⟩ :: free) used regions := by
  have hab : a < b := h.nonempty _ mem_cons_self
  have hcd : c < d := h.nonempty _ (mem_cons_of_mem _ mem_cons_self)
  have hmem : ∀ k ∈ free, k ∈ ⟨a, b⟩ :: ⟨c, d⟩ :: free := fun _ hk =>
    mem_cons_of_mem _ (mem_cons_of_mem _ hk)
  refine h.recut hmem (hab.trans (hbc.trans hcd)) (fun j hj => ?_) (fun j hj => ?_) fun x => ?_
  · exact h.separated j (hmem j hj) ⟨a, b⟩ mem_cons_self
  · exact h.separated ⟨c, d⟩ (mem_cons_of_mem _ mem_cons_self) j (hmem j hj)
  · have hcut := cover_cut (x := x) hab.le hbc.le
    have hcut' := cover_cut (x := x) (hab.trans hbc).le hcd.le
    simp only [cover_append, cover_cons] at hcut hcut' ⊢
    omega

/-- **A new region** is used at first. -/
theorem extend (h : Partition free used regions) (hi : ∀ j ∈ regions, Apart i j) :
    Partition free (i :: used) (i :: regions) where
  nonempty := h.nonempty
  separated := h.separated
  cover_eq a := by
    rw [cover_perm perm_middle, cover_cons, cover_cons, h.cover_eq]
  apart a := by
    rw [cover_cons]
    split_ifs with ha
    · have hzero : ¬ 0 < cover regions a := fun hpos => by
        obtain ⟨j, hj, haj⟩ := cover_pos.mp hpos
        exact hi j hj a ha haj
      omega
    · exact h.apart a

theorem cut_used (h : Partition free (⟨a, c⟩ :: used) regions) (hab : a ≤ b) (hbc : b ≤ c) :
    Partition free (⟨b, c⟩ :: ⟨a, b⟩ :: used) regions where
  nonempty := h.nonempty
  separated := h.separated
  cover_eq x := by
    have hcut := cover_cut (x := x) hab hbc
    have heq := h.cover_eq x
    simp only [cover_append, cover_cons] at hcut heq ⊢
    omega
  apart := h.apart

theorem forget (h : Partition free (⟨a, c⟩ :: used) regions) (hca : c ≤ a) :
    Partition free used regions where
  nonempty := h.nonempty
  separated := h.separated
  cover_eq x := by
    have heq := h.cover_eq x
    rw [cover_perm perm_middle, cover_cons, if_neg] at heq
    · exact heq
    · rintro ⟨hax, hxc⟩
      exact absurd (hax.trans_lt hxc) (not_lt.mpr hca)
  apart := h.apart

end Partition

end JscAndroid.Space.Tilings
