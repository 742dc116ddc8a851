import Mathlib

/-!
# Search trees of nodes

`RedBlackTree` keeps nodes in the order of their keys, which it reads from the nodes each time. The
descents are those of the source; how the tree is balanced again after a node has been put in, and
how a node is cut out, is left open but for the order of the nodes.
-/

namespace JscAndroid.Wtf.RedBlackTrees

open List

inductive Color
  | red
  | black

inductive Tree (N : Type)
  | null
  | node (color : Color) (left : Tree N) (x : N) (right : Tree N)

variable {N : Type}

namespace Tree

/-- The nodes from the first to the last. -/
def nodes : Tree N → List N
  | null => []
  | node _ left x right => left.nodes ++ x :: right.nodes

def treeInsert (key : N → ℕ) (z : N) : Tree N → Tree N
  | null => node .red null z null
  | node color left x right =>
    if key z < key x then node color (treeInsert key z left) x right
    else node color left x (treeInsert key z right)

/-- The loop of `findLeastGreaterThanOrEqual`, with the best node so far. -/
def findLeast (key : N → ℕ) (k : ℕ) : Tree N → Option N → Option N
  | null, best => best
  | node _ left x right, best =>
    if key x = k then some x
    else if key x < k then findLeast key k right best
    else findLeast key k left (some x)

def findLeastGreaterThanOrEqual (key : N → ℕ) (k : ℕ) (t : Tree N) : Option N :=
  t.findLeast key k none

/-- From the first to the last node the keys do not become smaller. -/
def Sorted (key : N → ℕ) (nodes : List N) : Prop :=
  nodes.Pairwise fun x y => key x ≤ key y

end Tree

/-- The parts of `insert` and `remove` that rotate and colour: `insert` without `treeInsert`, and
all of `remove`. Both keep the order of the nodes. -/
structure Balancing (N : Type) [DecidableEq N] where
  insertFixup : Tree N → N → Tree N
  nodes_insertFixup : ∀ t x, (insertFixup t x).nodes = t.nodes
  remove : Tree N → N → Tree N
  nodes_remove : ∀ t x, (remove t x).nodes = t.nodes.erase x

def Balancing.insert [DecidableEq N] (balancing : Balancing N) (key : N → ℕ) (t : Tree N) (x : N) :
    Tree N :=
  balancing.insertFixup (t.treeInsert key x) x

namespace Tree

variable {key : N → ℕ} {t : Tree N} {z : N} {k : ℕ}

theorem nodes_treeInsert (key : N → ℕ) (z : N) (t : Tree N) :
    (t.treeInsert key z).nodes.Perm (z :: t.nodes) := by
  induction t with
  | null => exact .refl _
  | node color left x right ihl ihr =>
    unfold treeInsert
    split_ifs with hlt
    · exact ihl.append_right _
    · refine (Perm.append_left _ (ihr.cons x)).trans ?_
      refine (Perm.append_left _ (.swap z x _)).trans ?_
      exact perm_middle

section
variable (h : Sorted key t.nodes)
include h

/-- What follows a node that is not smaller than `z` is not smaller either. -/
theorem sorted_treeInsert : Sorted key (t.treeInsert key z).nodes := by
  induction t with
  | null => exact pairwise_singleton _ _
  | node color left x right ihl ihr =>
    rw [Sorted, nodes, pairwise_append, pairwise_cons] at h
    obtain ⟨hleft, ⟨hx, hright⟩, hcross⟩ := h
    unfold treeInsert
    split_ifs with hlt
    · refine pairwise_append.mpr ⟨ihl hleft, pairwise_cons.mpr ⟨hx, hright⟩, ?_⟩
      intro a ha b hb
      rcases mem_cons.mp ((nodes_treeInsert key z left).mem_iff.mp ha) with rfl | ha
      · rcases mem_cons.mp hb with rfl | hb
        · exact hlt.le
        · exact hlt.le.trans (hx b hb)
      · exact hcross a ha b hb
    · rw [not_lt] at hlt
      have hinsert : ∀ b ∈ (right.treeInsert key z).nodes, b = z ∨ b ∈ right.nodes := fun b hb =>
        mem_cons.mp ((nodes_treeInsert key z right).mem_iff.mp hb)
      refine pairwise_append.mpr ⟨hleft, pairwise_cons.mpr ⟨?_, ihr hright⟩, ?_⟩
      · intro b hb
        rcases hinsert b hb with rfl | hb
        · exact hlt
        · exact hx b hb
      · intro a ha b hb
        rcases mem_cons.mp hb with rfl | hb
        · exact hcross a ha b mem_cons_self
        · rcases hinsert b hb with rfl | hb
          · exact (hcross a ha x mem_cons_self).trans hlt
          · exact hcross a ha b (mem_cons_of_mem _ hb)

/-- The search ends at the first node in order that is large enough, or at one of that size; if the
tree has none it is `best`. -/
theorem findLeast_eq (best : Option N) :
    (∃ n ∈ t.nodes, t.findLeast key k best = some n ∧ k ≤ key n ∧
      ∀ m ∈ t.nodes, k ≤ key m → key n ≤ key m) ∨
    (t.findLeast key k best = best ∧ ∀ m ∈ t.nodes, key m < k) := by
  induction t generalizing best with
  | null => exact .inr ⟨rfl, fun m hm => absurd hm not_mem_nil⟩
  | node color left x right ihl ihr =>
    rw [Sorted, nodes, pairwise_append, pairwise_cons] at h
    obtain ⟨hleft, ⟨hx, hright⟩, hcross⟩ := h
    have hmem : ∀ m, m ∈ (node color left x right).nodes ↔ m ∈ left.nodes ∨ m = x ∨
        m ∈ right.nodes :=
      fun m => by rw [nodes, mem_append, mem_cons]
    simp only [hmem]
    unfold findLeast
    by_cases heq : key x = k
    · rw [if_pos heq]
      exact .inl ⟨x, .inr (.inl rfl), rfl, heq.ge, fun m _ hm => heq.le.trans hm⟩
    rw [if_neg heq]
    by_cases hlt : key x < k
    · have hsmall : ∀ m ∈ left.nodes, key m < k := fun m hm =>
        (hcross m hm x mem_cons_self).trans_lt hlt
      rw [if_pos hlt]
      rcases ihr hright best with ⟨n, hn, hfind, hle, hleast⟩ | ⟨hfind, hnone⟩
      · refine .inl ⟨n, .inr (.inr hn), hfind, hle, ?_⟩
        rintro m (hm | rfl | hm) hkm
        · exact absurd hkm (not_le.mpr (hsmall m hm))
        · exact absurd hkm (not_le.mpr hlt)
        · exact hleast m hm hkm
      · refine .inr ⟨hfind, ?_⟩
        rintro m (hm | rfl | hm)
        · exact hsmall m hm
        · exact hlt
        · exact hnone m hm
    · rw [if_neg hlt]
      rw [not_lt] at hlt
      rcases ihl hleft (some x) with ⟨n, hn, hfind, hle, hleast⟩ | ⟨hfind, hnone⟩
      · refine .inl ⟨n, .inl hn, hfind, hle, ?_⟩
        rintro m (hm | rfl | hm) hkm
        · exact hleast m hm hkm
        · exact hcross n hn m mem_cons_self
        · exact hcross n hn m (mem_cons_of_mem _ hm)
      · refine .inl ⟨x, .inr (.inl rfl), hfind, hlt, ?_⟩
        rintro m (hm | rfl | hm) hkm
        · exact absurd hkm (not_le.mpr (hnone m hm))
        · exact le_rfl
        · exact hx m hm

/-- **The least node that is large enough** is found, if there is one. -/
theorem findLeastGreaterThanOrEqual_some {n : N}
    (hfind : t.findLeastGreaterThanOrEqual key k = some n) : n ∈ t.nodes ∧ k ≤ key n := by
  rcases findLeast_eq h none with ⟨n', hn', hfind', hle, -⟩ | ⟨hnone, -⟩
  · obtain rfl := Option.some.inj (hfind.symm.trans hfind')
    exact ⟨hn', hle⟩
  · cases hfind.symm.trans hnone

theorem findLeastGreaterThanOrEqual_none
    (hfind : t.findLeastGreaterThanOrEqual key k = none) {n : N} (hn : n ∈ t.nodes) :
      key n < k := by
  rcases findLeast_eq h none with ⟨n', -, hfind', -⟩ | ⟨-, hnone⟩
  · cases hfind.symm.trans hfind'
  · exact hnone n hn
end

end Tree

section
variable [DecidableEq N] (balancing : Balancing N) {key : N → ℕ} {t : Tree N}

theorem Balancing.nodes_insert (key : N → ℕ) (t : Tree N) (x : N) :
    (balancing.insert key t x).nodes.Perm (x :: t.nodes) := by
  rw [Balancing.insert, balancing.nodes_insertFixup]
  exact t.nodes_treeInsert key x

theorem Balancing.sorted_insert (h : Tree.Sorted key t.nodes) (x : N) :
    Tree.Sorted key (balancing.insert key t x).nodes := by
  rw [Balancing.insert, balancing.nodes_insertFixup]
  exact Tree.sorted_treeInsert h
end

theorem Tree.Sorted.erase [DecidableEq N] {key : N → ℕ} {nodes : List N}
    (h : Tree.Sorted key nodes) (x : N) : Tree.Sorted key (nodes.erase x) :=
  List.Pairwise.sublist erase_sublist h

theorem Tree.Sorted.congr {key key' : N → ℕ} {nodes : List N} (h : Tree.Sorted key nodes)
    (hkey : ∀ x ∈ nodes, key' x = key x) : Tree.Sorted key' nodes :=
  List.Pairwise.imp_of_mem (fun hx hy hle => by rwa [hkey _ hx, hkey _ hy]) h

end JscAndroid.Wtf.RedBlackTrees
