import JscAndroid.Flow.Dominance
import JscAndroid.Walks.Worklist

/-!
# Dominator trees

What the constructor of `Dominators` leaves for a graph in which every block can be reached: the
immediate dominators, and numbers by which strict dominance is tested. The walks over the tree and
the iterated dominance frontier are those of the source.
-/

namespace JscAndroid.Wtf.DominatorTrees

open Flow.Dominance Walks.Worklist List

variable {Block σ : Type} {graph : Flowgraph Block}

/-- The members of `BlockData`, but for the children, and that they are exact. -/
structure Dominators (graph : Flowgraph Block) where
  idomParent : Block → Option Block
  preNumber : Block → ℕ
  postNumber : Block → ℕ
  idomParent_root : idomParent graph.root = none
  idomParent_spec : ∀ block, block ≠ graph.root → ∃ parent, idomParent block = some parent ∧
    ImmediatelyDominates graph parent block
  numbers_spec : ∀ a b, preNumber b > preNumber a ∧ postNumber b < postNumber a ↔
    StrictlyDominates graph a b

namespace Dominators

section
variable (d : Dominators graph)

def strictlyDominates (a b : Block) : Bool :=
  d.preNumber b > d.preNumber a && d.postNumber b < d.postNumber a

def idom (block : Block) : Option Block := d.idomParent block

variable [DecidableEq Block]

/-- The constructor goes through the blocks from the last to the first. -/
def idomKids (block : Block) : List Block :=
  graph.nodes.reverse.filter fun kid => d.idomParent kid = some block

/-- The blocks on which `forAllBlocksDominatedBy` calls its functor, in this order. -/
def forAllBlocksDominatedBy (block : Block) : Option (List Block) :=
  drain (fun block visited => some (d.idomKids block, visited ++ [block])) graph.nodes.length
    [block] []

/-- The blocks on which `forAllBlocksInDominanceFrontierOfImpl` calls its functor, with repetitions.
-/
def forAllBlocksInDominanceFrontierOfImpl (block : Block) : Option (List Block) :=
  (d.forAllBlocksDominatedBy block).map fun blocks =>
    blocks.flatMap fun other => (graph.successors other).filter fun target =>
      !d.strictlyDominates block target

def forAllBlocksInIteratedDominanceFrontierOfImpl (blocks : List Block)
    (functor : Block → σ → Bool × σ) (s : σ) : Option σ :=
  drain (fun block s => (d.forAllBlocksInDominanceFrontierOfImpl block).map fun others =>
    sift functor others s) (blocks.length + graph.nodes.length) blocks.reverse s

def forAllBlocksInPrunedIteratedDominanceFrontierOf (blocks : List Block)
    (functor : Block → σ → Bool × σ) (s : σ) : Option σ :=
  (d.forAllBlocksInIteratedDominanceFrontierOfImpl blocks (once functor) ([], s)).map Prod.snd

/-- The functor returns nothing. -/
def forAllBlocksInIteratedDominanceFrontierOf (blocks : List Block) (functor : σ → Block → σ)
    (s : σ) : Option σ :=
  d.forAllBlocksInPrunedIteratedDominanceFrontierOf blocks (keep functor) s
end

/-! ## The tree -/

variable {d : Dominators graph} {a b c parent : Block}

theorem dominates_antisymm (d : Dominators graph) (hab : Dominates graph a b)
    (hba : Dominates graph b a) : a = b := by
  by_contra hne
  have h1 := (d.numbers_spec a b).mpr ⟨hab, hne⟩
  have h2 := (d.numbers_spec b a).mpr ⟨hba, Ne.symm hne⟩
  omega

theorem immediatelyDominates_of_idom (h : d.idomParent b = some parent) :
    ImmediatelyDominates graph parent b := by
  have hroot : b ≠ graph.root := by
    rintro rfl
    rw [d.idomParent_root] at h
    cases h
  obtain ⟨parent', h', hspec⟩ := d.idomParent_spec b hroot
  rw [h] at h'
  rwa [Option.some.inj h']

theorem eq_root_of_idom (h : d.idomParent b = none) : b = graph.root := by
  by_contra hroot
  obtain ⟨parent, h', -⟩ := d.idomParent_spec b hroot
  rw [h] at h'
  cases h'

theorem preNumber_lt_of_idom (h : d.idomParent b = some parent) :
    d.preNumber parent < d.preNumber b :=
  ((d.numbers_spec parent b).mpr (immediatelyDominates_of_idom h).1).1

theorem idom_induction (d : Dominators graph) {P : Block → Prop}
    (h : ∀ b, (∀ parent, d.idomParent b = some parent → P parent) → P b) (b : Block) : P b := by
  induction hn : d.preNumber b using Nat.strongRecOn generalizing b with
  | _ n ih =>
    subst hn
    exact h b fun parent hparent => ih _ (preNumber_lt_of_idom hparent) parent rfl

theorem strictlyDominates_iff : d.strictlyDominates a b = true ↔ StrictlyDominates graph a b := by
  rw [← d.numbers_spec]
  simp [strictlyDominates]

variable [DecidableEq Block]

theorem mem_idomKids : b ∈ d.idomKids a ↔ d.idomParent b = some a := by
  simp [idomKids, graph.complete b]

theorem idomKids_nodup (a : Block) : (d.idomKids a).Nodup :=
  (nodup_reverse.mpr graph.nodup).filter _

/-! ## Walking down -/

/-- How far the walk down from `a` has come: every block but `a` comes after its parent. -/
structure Walked (d : Dominators graph) (a : Block) (pending visited : List Block) : Prop where
  nodup : (visited ++ pending).Nodup
  start : a ∈ visited ++ pending
  below : ∀ b ∈ visited ++ pending, Dominates graph a b
  parent : ∀ b ∈ visited ++ pending, b ≠ a → ∃ p ∈ visited, d.idomParent b = some p
  kids : ∀ b ∈ visited, ∀ kid, d.idomParent kid = some b → kid ∈ visited ++ pending

theorem Walked.step {rest visited : List Block} (h : Walked d a (b :: rest) visited) :
    Walked d a ((d.idomKids b).reverse ++ rest) (visited ++ [b]) := by
  have hmem : ∀ x, x ∈ visited ++ [b] ++ ((d.idomKids b).reverse ++ rest) ↔
      x ∈ visited ++ b :: rest ∨ d.idomParent x = some b := by
    intro x
    simp only [mem_append, mem_cons, mem_reverse, mem_idomKids]
    tauto
  have hb : b ∈ visited ++ b :: rest := by simp
  have hfresh : ∀ x, d.idomParent x = some b → x ∉ visited ++ b :: rest := by
    intro x hx hold
    by_cases hxa : x = a
    · -- the parent of `a` is not below `a`
      subst hxa
      have hx' := (immediatelyDominates_of_idom hx).1
      exact hx'.2 (dominates_antisymm d hx'.1 (h.below b hb))
    · obtain ⟨p, hp, hxp⟩ := h.parent x hold hxa
      rw [hx] at hxp
      obtain rfl := Option.some.inj hxp
      exact (nodup_append.mp h.nodup).2.2 b hp b (mem_cons_self ..) rfl
  refine ⟨?_, (hmem a).mpr (Or.inl h.start), ?_, ?_, ?_⟩
  · have hperm : (visited ++ [b] ++ ((d.idomKids b).reverse ++ rest)).Perm
        (d.idomKids b ++ (visited ++ b :: rest)) := by
      rw [append_assoc]
      exact ((((d.idomKids b).reverse_perm.append_right rest).cons b).trans
        perm_middle.symm |>.append_left visited).trans
          (perm_append_comm_assoc visited _ _)
    rw [hperm.nodup_iff]
    exact nodup_append.mpr ⟨idomKids_nodup b, h.nodup, fun x hx y hy hxy =>
      hfresh x (mem_idomKids.mp hx) (hxy ▸ hy)⟩
  · intro x hx
    rcases (hmem x).mp hx with hx | hx
    · exact h.below x hx
    · exact (h.below b hb).trans (immediatelyDominates_of_idom hx).1.1
  · intro x hx hxa
    rcases (hmem x).mp hx with hx | hx
    · obtain ⟨p, hp, hxp⟩ := h.parent x hx hxa
      exact ⟨p, mem_append_left _ hp, hxp⟩
    · exact ⟨b, by simp, hx⟩
  · intro x hx kid hkid
    refine (hmem kid).mpr ?_
    rcases mem_append.mp hx with hx | hx
    · exact Or.inl (h.kids x hx kid hkid)
    · rw [mem_singleton.mp hx] at hkid
      exact Or.inr hkid

/-- **The walk down** meets the dominated blocks, each of them once. -/
theorem forAllBlocksDominatedBy_spec (d : Dominators graph) (a : Block) :
    ∃ blocks, d.forAllBlocksDominatedBy a = some blocks ∧ blocks.Nodup ∧
      ∀ b, b ∈ blocks ↔ Dominates graph a b := by
  have hstart : Walked d a [a] [] :=
    ⟨by simp, by simp, by simp [Dominates.refl], by simp, by simp⟩
  obtain ⟨visited, hwalk, hend⟩ := drain_spec
    (fun block visited => some (d.idomKids block, visited ++ [block])) (Walked d a)
    (fun _ visited => graph.nodes.length - visited.length)
    (fun b rest visited h => by
      refine ⟨_, _, rfl, h.step, ?_⟩
      have hlength := (subperm_of_subset h.nodup fun x _ => graph.complete x).length_le
      simp only [length_append, length_cons] at hlength ⊢
      omega) hstart (show graph.nodes.length - 0 ≤ graph.nodes.length by omega)
  have hnodup := hend.nodup
  have hbelow := hend.below
  have hkids := hend.kids
  have hmem := hend.start
  simp only [append_nil] at hnodup hbelow hkids hmem
  refine ⟨visited, hwalk, hnodup, fun b => ⟨hbelow b, fun hab => ?_⟩⟩
  induction b using d.idom_induction with
  | h b ih =>
    by_cases hne : a = b
    · rwa [← hne]
    · cases hparent : d.idomParent b with
      | none => exact absurd ⟨hab, hne⟩ (eq_root_of_idom hparent ▸ not_strictlyDominates_root)
      | some parent =>
        have hspec := immediatelyDominates_of_idom hparent
        exact hkids parent (ih parent hparent (hspec.2 a ⟨hab, hne⟩)) b hparent

theorem forAllBlocksInDominanceFrontierOfImpl_spec (d : Dominators graph) (a : Block) :
    ∃ blocks, d.forAllBlocksInDominanceFrontierOfImpl a = some blocks ∧
      ∀ b, b ∈ blocks ↔ Frontier graph a b := by
  obtain ⟨blocks, hblocks, -, hmem⟩ := d.forAllBlocksDominatedBy_spec a
  refine ⟨_, by rw [forAllBlocksInDominanceFrontierOfImpl, hblocks]; rfl, fun b => ?_⟩
  have hstrict : (!d.strictlyDominates a b) = true ↔ ¬ StrictlyDominates graph a b := by
    rw [← strictlyDominates_iff (d := d)]
    simp
  simp only [mem_flatMap, mem_filter, hmem, hstrict]
  exact ⟨fun ⟨p, hp, hb, h⟩ => ⟨⟨p, hp, hb⟩, h⟩, fun ⟨⟨p, hp, hb⟩, h⟩ => ⟨p, hp, hb, h⟩⟩

/-- **The iterated dominance frontier**: a functor that prunes nothing is called once on each block
that a chain of frontiers leads to. -/
theorem forAllBlocksInPrunedIteratedDominanceFrontierOf_spec (d : Dominators graph)
    (effect : σ → Block → σ) (blocks : List Block) (s : σ) : ∃ found : List Block, found.Nodup ∧
      (∀ b, b ∈ found ↔ ∃ a ∈ blocks, Relation.TransGen (Frontier graph) a b) ∧
      d.forAllBlocksInPrunedIteratedDominanceFrontierOf blocks (keep effect) s =
        some (found.foldl effect s) := by
  obtain ⟨found, h1, h2, h3⟩ := drain_once d.forAllBlocksInDominanceFrontierOfImpl_spec
    graph.complete blocks s
  refine ⟨found, h1, h2, ?_⟩
  rw [forAllBlocksInPrunedIteratedDominanceFrontierOf,
    forAllBlocksInIteratedDominanceFrontierOfImpl, h3]
  rfl

/-- What lies in the frontier of a block that is given or in `D` is in `D`. -/
def FrontierClosed (graph : Flowgraph Block) (blocks : List Block) (D : Block → Prop) : Prop :=
  ∀ a b, a ∈ blocks ∨ D a → Frontier graph a b → D b

/-- **Least fixpoints**: the functor is called once on each block of the least set that contains the
frontiers of the given blocks and of its own. The pruned version calls it on the same blocks if the
functor always returns `true`. -/
theorem iteratedDominanceFrontier_least (d : Dominators graph) (functor : σ → Block → σ)
    (blocks : List Block) (s : σ) :
    ∃ found : List Block, found.Nodup ∧ FrontierClosed graph blocks (· ∈ found) ∧
      (∀ D, FrontierClosed graph blocks D → ∀ b ∈ found, D b) ∧
      d.forAllBlocksInIteratedDominanceFrontierOf blocks functor s = some (found.foldl functor s) ∧
      ∀ pruned : Block → σ → Bool × σ, (∀ b s, pruned b s = (true, functor s b)) →
        d.forAllBlocksInPrunedIteratedDominanceFrontierOf blocks pruned s =
          some (found.foldl functor s) := by
  obtain ⟨found, hnodup, hmem, hcalls⟩ :=
    d.forAllBlocksInPrunedIteratedDominanceFrontierOf_spec functor blocks s
  refine ⟨found, hnodup, ?_, ?_, hcalls, fun pruned h => ?_⟩
  · intro a b ha hab
    rw [hmem]
    rcases ha with ha | ha
    · exact ⟨a, ha, .single hab⟩
    · obtain ⟨a', ha', hpath⟩ := (hmem a).mp ha
      exact ⟨a', ha', hpath.tail hab⟩
  · intro D hD b hb
    obtain ⟨a, ha, hpath⟩ := (hmem b).mp hb
    induction hpath with
    | single h => exact hD a _ (.inl ha) h
    | tail hpath h ih => exact hD _ _ (.inr (ih ((hmem _).mpr ⟨a, ha, hpath⟩))) h
  · rwa [show pruned = keep functor from funext₂ h]

end Dominators

/-- A loop behind the root. -/
def loopGraph : Flowgraph Bool := ⟨[false, true], false, fun _ => [true], by decide, by decide⟩

/-- The loop is below the root. -/
def loopDominators : Dominators loopGraph where
  idomParent block := if block then some false else none
  preNumber block := block.toNat
  postNumber block := (!block).toNat
  idomParent_root := rfl
  idomParent_spec
    | false, h => absurd rfl h
    | true, _ => ⟨false, rfl, ⟨dominates_root true, nofun⟩, fun
      | false, _ => .refl false
      | true, h => absurd rfl h.2⟩
  numbers_spec
    | false, true => iff_of_true (by decide) ⟨dominates_root true, nofun⟩
    | _, false => iff_of_false (by simp) not_strictlyDominates_root
    | true, true => iff_of_false (by simp) fun h => h.2 rfl

/-- The frontier of the loop is the loop. -/
theorem iteratedDominanceFrontier_least_loop : ∃ found : List Bool,
    Dominators.FrontierClosed loopGraph [true] (· ∈ found) ∧
      loopDominators.forAllBlocksInIteratedDominanceFrontierOf [true] (fun s b => s ++ [b]) [] =
        some (found.foldl (fun s b => s ++ [b]) []) := by
  obtain ⟨found, -, hclosed, -, hcalls, -⟩ :=
    loopDominators.iteratedDominanceFrontier_least (fun s b => s ++ [b]) [true] []
  exact ⟨found, hclosed, hcalls⟩

end JscAndroid.Wtf.DominatorTrees
