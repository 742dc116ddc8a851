import Mathlib

/-!
# Indexes by a key

A finite map that leads from the key of each node of a list to the node. The key of a node may
change as long as the node is taken out before and put back after.
-/

namespace JscAndroid.Space.Indexes

open Function

variable {K N : Type} [DecidableEq K] [DecidableEq N]

/-- The entry of the key, unless there is one already. -/
def add (m : K → Option N) (k : K) (n : N) : K → Option N :=
  if (m k).isSome then m else update m k (some n)

def remove (m : K → Option N) (k : K) : K → Option N :=
  update m k none

/-- The map has exactly the nodes of the list, each under its key. -/
def Keyed (m : K → Option N) (key : N → K) (nodes : List N) : Prop :=
  ∀ k n, m k = some n ↔ n ∈ nodes ∧ key n = k

variable {m : K → Option N} {key key' : N → K} {nodes nodes' : List N} {n n' : N}

section
variable (h : Keyed m key nodes)
include h

omit [DecidableEq K] [DecidableEq N] in
theorem Keyed.get (hn : n ∈ nodes) : m (key n) = some n :=
  (h _ _).mpr ⟨hn, rfl⟩

omit [DecidableEq K] [DecidableEq N] in
theorem Keyed.inj (hn : n ∈ nodes) (hn' : n' ∈ nodes) (heq : key n = key n') : n = n' := by
  have hget := h.get hn
  rw [heq, h.get hn'] at hget
  exact (Option.some.inj hget).symm

omit [DecidableEq K] [DecidableEq N] in
theorem Keyed.of_eq_none {k : K} (hk : m k = none) (hn : n ∈ nodes) : key n ≠ k := by
  rintro rfl
  rw [h.get hn] at hk
  cases hk

omit [DecidableEq K] [DecidableEq N] in
theorem Keyed.congr (hnodes : ∀ n, n ∈ nodes' ↔ n ∈ nodes)
    (hkey : ∀ n ∈ nodes, key' n = key n) : Keyed m key' nodes' := by
  intro k n
  rw [h k n, hnodes]
  exact and_congr_right fun hn => by rw [hkey n hn]

/-- **A node taken out.** -/
theorem Keyed.erase {k : K} (hnodup : nodes.Nodup) (hn : n ∈ nodes)
    (hkey : key n = k) : Keyed (remove m k) key (nodes.erase n) := by
  subst hkey
  intro k x
  rw [hnodup.mem_erase_iff]
  unfold remove
  by_cases hk : k = key n
  · subst hk
    refine iff_of_false (by simp) ?_
    rintro ⟨⟨hne, hx⟩, heq⟩
    exact hne (h.inj hx hn heq)
  · rw [update_of_ne hk, h k x]
    constructor
    · rintro ⟨hx, rfl⟩
      exact ⟨⟨fun heq => hk (by rw [heq]), hx⟩, rfl⟩
    · rintro ⟨⟨-, hx⟩, heq⟩
      exact ⟨hx, heq⟩

omit [DecidableEq N] in
/-- **A node put in**, under a key that is not in use. -/
theorem Keyed.insert {k : K} (hkey : key n = k)
    (hfresh : ∀ x ∈ nodes, key x ≠ k) : Keyed (add m k n) key (n :: nodes) := by
  subst hkey
  have hnone : m (key n) = none := by
    cases hget : m (key n) with
    | none => rfl
    | some x =>
      obtain ⟨hx, heq⟩ := (h _ _).mp hget
      exact absurd heq (hfresh x hx)
  intro k x
  rw [add, hnone, Option.isSome_none, if_neg (by decide), List.mem_cons]
  by_cases hk : k = key n
  · subst hk
    rw [update_self, Option.some.injEq]
    constructor
    · rintro rfl
      exact ⟨.inl rfl, rfl⟩
    · rintro ⟨rfl | hx, heq⟩
      · rfl
      · exact absurd heq (hfresh x hx)
  · rw [update_of_ne hk, h k x]
    constructor
    · rintro ⟨hx, rfl⟩
      exact ⟨.inr hx, rfl⟩
    · rintro ⟨rfl | hx, heq⟩
      · exact absurd heq.symm hk
      · exact ⟨hx, heq⟩

/-- **A node under another key**: out and in again. -/
theorem Keyed.rekey {k k' : K} (hnodup : nodes.Nodup) (hn : n ∈ nodes)
    (hold : key n = k) (hnew : key' n = k') (hkept : ∀ x, x ≠ n → key' x = key x)
    (hfresh : ∀ x ∈ nodes.erase n, key x ≠ k') :
    Keyed (add (remove m k) k' n) key' (n :: nodes.erase n) := by
  have herase : ∀ x ∈ nodes.erase n, key' x = key x := fun x hx =>
    hkept x (hnodup.mem_erase_iff.mp hx).1
  refine Keyed.insert ((h.erase hnodup hn hold).congr (fun _ => Iff.rfl) herase) hnew fun x hx => ?_
  rw [herase x hx]
  exact hfresh x hx

omit [DecidableEq K] in
theorem Keyed.keep (hn : n ∈ nodes) (hnew : key' n = key n) (hkept : ∀ x, x ≠ n → key' x = key x) :
    Keyed m key' (n :: nodes.erase n) := by
  refine h.congr (fun _ => (List.perm_cons_erase hn).symm.mem_iff) fun x _ => ?_
  by_cases hx : x = n
  · rw [hx, hnew]
  · exact hkept x hx
end

end JscAndroid.Space.Indexes
