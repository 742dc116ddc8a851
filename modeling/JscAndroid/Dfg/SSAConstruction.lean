import JscAndroid.Wtf.DominatorTrees

/-!
# Placing Phis

`SSACalculator` records the definitions of variables in blocks, places Phis in the iterated
dominance frontier of the blocks with definitions, and looks up the definition that reaches a block
by walking up the dominator tree. The main result is that this definition is the last one on every
path.
-/

namespace JscAndroid.Dfg.SSAConstruction

open Flow.Dominance Walks.Worklist Wtf.DominatorTrees List Option Function

/-! ## The calculator -/

inductive Bag
  | defs
  | phis
  deriving DecidableEq, Repr

/-- `Def`. The bag that owns it and its place there stand for the pointer to it. -/
structure Def (Block Node : Type) (count : ℕ) where
  bag : Bag
  index : ℕ
  variable_ : Fin count
  block : Block
  value : Node
  deriving DecidableEq, Repr

structure BlockData (Block Node : Type) (count : ℕ) where
  m_defs : Fin count → Option (Def Block Node count)
  m_phis : List (Def Block Node count)

/-- `SSACalculator` with `count` variables; `m_blocksWithDefs` is a member of each of them. -/
structure SSACalculator (Block Node : Type) (count : ℕ) where
  m_blocksWithDefs : Fin count → List Block
  m_defs : List (Def Block Node count)
  m_phis : List (Def Block Node count)
  m_data : Block → BlockData Block Node count

/-- The arguments of a call of `newDef`. -/
structure NewDef (Block Node : Type) (count : ℕ) where
  variable_ : Fin count
  block : Block
  value : Node

variable {Block Node : Type} {count : ℕ} {graph : Flowgraph Block}

namespace SSACalculator

def new : SSACalculator Block Node count := ⟨fun _ => [], [], [], fun _ => ⟨fun _ => none, []⟩⟩

section
variable [DecidableEq Block] (c : SSACalculator Block Node count)

def newDef (call : NewDef Block Node count) : SSACalculator Block Node count :=
  let ⟨v, block, value⟩ := call
  let def_ := ⟨.defs, c.m_defs.length, v, block, value⟩
  let data := c.m_data block
  { c with
    m_defs := c.m_defs ++ [def_]
    m_data := update c.m_data block
      { data with m_defs := update data.m_defs v (some def_) }
    m_blocksWithDefs :=
      if (data.m_defs v).isNone then
        update c.m_blocksWithDefs v (c.m_blocksWithDefs v ++ [block])
      else c.m_blocksWithDefs }

/-- The functor of `computePhis`: the Phi does not replace a definition in its block. -/
def placePhi (functor : Fin count → Block → Option Node) (v : Fin count) (block : Block) :
    Bool × SSACalculator Block Node count :=
  match functor v block with
  | none => (false, c)
  | some phiNode =>
    let phiDef := ⟨.phis, c.m_phis.length, v, block, phiNode⟩
    let data := c.m_data block
    (true, { c with
      m_phis := c.m_phis ++ [phiDef]
      m_data := update c.m_data block
        { m_phis := data.m_phis ++ [phiDef]
          m_defs := update data.m_defs v (some ((data.m_defs v).getD phiDef)) } })

def computePhis (d : Dominators graph) (functor : Fin count → Block → Option Node) :
    Option (SSACalculator Block Node count) :=
  (List.finRange count).foldlM (fun c v =>
    d.forAllBlocksInPrunedIteratedDominanceFrontierOf (c.m_blocksWithDefs v)
      (fun block c => c.placePhi functor v block) c) c
end

section
variable (c : SSACalculator Block Node count)

def reachingDefAtTail (d : Dominators graph) (block : Block) (v : Fin count) :
    Option (Def Block Node count) :=
  match (c.m_data block).m_defs v with
  | some def_ => some def_
  | none =>
    match _h : d.idom block with
    | none => none
    | some parent => reachingDefAtTail d parent v
termination_by d.preNumber block
decreasing_by exact Dominators.preNumber_lt_of_idom _h

def nonLocalReachingDef (d : Dominators graph) (block : Block) (v : Fin count) :
    Option (Def Block Node count) :=
  (d.idom block).bind fun parent => c.reachingDefAtTail d parent v

def reachingDefAtHead (d : Dominators graph) (block : Block) (v : Fin count) :
    Option (Def Block Node count) :=
  c.nonLocalReachingDef d block v

theorem reachingDefAtTail_eq (d : Dominators graph) (block : Block) (v : Fin count) :
    c.reachingDefAtTail d block v =
      ((c.m_data block).m_defs v).or (c.reachingDefAtHead d block v) := by
  rw [reachingDefAtTail]
  unfold reachingDefAtHead nonLocalReachingDef
  cases (c.m_data block).m_defs v with
  | some def_ => rfl
  | none =>
    dsimp only
    split
    case h_1 h => rw [h]; rfl
    case h_2 parent h => rw [h]; rfl
end

/-! ## What a block leaves in a variable -/

variable [DecidableEq Block] (c : SSACalculator Block Node count)

/-- The last definition of a variable in a block. -/
def lastDef (block : Block) (v : Fin count) : Option (Def Block Node count) :=
  c.m_defs.reverse.find? fun def_ => def_.variable_ = v ∧ def_.block = block

omit [DecidableEq Block] in
/-- The Phis of a block for a variable. -/
def phisFor (block : Block) (v : Fin count) : List (Def Block Node count) :=
  (c.m_data block).m_phis.filter fun phi => phi.variable_ = v

/-- The last definition or Phi of a variable in a block: a Phi comes before all definitions. -/
def lastDefOrPhi (v : Fin count) (block : Block) : Option (Def Block Node count) :=
  (c.lastDef block v).or (c.phisFor block v).head?

/-- The tables tell what each block leaves in each variable. -/
structure Consistent : Prop where
  defs : ∀ block v, (c.m_data block).m_defs v = c.lastDefOrPhi v block
  blocks : ∀ block v, block ∈ c.m_blocksWithDefs v ↔ c.lastDef block v ≠ none

/-- The Phis of a variable are in the iterated frontier of its definitions, one in each block. -/
def Placed (graph : Flowgraph Block) (v : Fin count) : Prop :=
  ∀ block, (c.phisFor block v).length ≤ 1 ∧ (c.phisFor block v ≠ [] ↔
    ∃ a ∈ c.m_blocksWithDefs v, Relation.TransGen (Frontier graph) a block)

/-! ## Definitions -/

theorem lastDef_newDef (call : NewDef Block Node count) (block : Block) (v : Fin count) :
    (c.newDef call).lastDef block v = if call.variable_ = v ∧ call.block = block then
      some ⟨.defs, c.m_defs.length, call.variable_, call.block, call.value⟩
    else c.lastDef block v := by
  simp only [lastDef, newDef, reverse_append, reverse_cons, reverse_nil, nil_append, cons_append,
    find?_cons]
  split_ifs with h
  · rw [decide_eq_true h]
  · rw [decide_eq_false h]

variable {c}

theorem phisFor_newDef (call : NewDef Block Node count) (block : Block) (v : Fin count) :
    (c.newDef call).phisFor block v = c.phisFor block v := by
  unfold phisFor newDef
  dsimp only
  by_cases h : block = call.block
  · rw [h, update_self]
  · rw [update_of_ne h]

theorem mem_blocksWithDefs_newDef (call : NewDef Block Node count) (block : Block)
    (v : Fin count) : block ∈ (c.newDef call).m_blocksWithDefs v ↔
      (call.variable_ = v ∧ call.block = block ∧ (c.m_data block).m_defs v = none) ∨
        block ∈ c.m_blocksWithDefs v := by
  unfold newDef
  dsimp only
  by_cases hv : v = call.variable_
  · subst hv
    split_ifs with h
    · rw [isNone_iff_eq_none] at h
      rw [update_self, mem_append, mem_singleton]
      constructor
      · rintro (hb | rfl)
        · exact Or.inr hb
        · exact Or.inl ⟨rfl, rfl, h⟩
      · rintro (⟨-, rfl, -⟩ | hb)
        · exact Or.inr rfl
        · exact Or.inl hb
    · refine (or_iff_right ?_).symm
      rintro ⟨-, rfl, hnone⟩
      exact h (isNone_iff_eq_none.mpr hnone)
  · have hne : ¬ (call.variable_ = v ∧ call.block = block ∧ (c.m_data block).m_defs v = none) :=
      fun h => hv h.1.symm
    rw [or_iff_right hne]
    split_ifs
    · rw [update_of_ne hv]
    · rfl

theorem Consistent.newDef (hc : c.Consistent) (hphis : ∀ block v, c.phisFor block v = [])
    (call : NewDef Block Node count) : (c.newDef call).Consistent := by
  have htable : ∀ block v, ((c.newDef call).m_data block).m_defs v =
      if call.variable_ = v ∧ call.block = block then
        some ⟨.defs, c.m_defs.length, call.variable_, call.block, call.value⟩
      else (c.m_data block).m_defs v := by
    intro block v
    unfold SSACalculator.newDef
    by_cases hb : block = call.block
    · subst hb
      by_cases hv : v = call.variable_
      · subst hv
        simp
      · simp [hv, Ne.symm hv]
    · simp [hb, Ne.symm hb]
  have hold : ∀ block v, (c.m_data block).m_defs v = c.lastDef block v := by
    intro block v
    rw [hc.defs, lastDefOrPhi, hphis]
    simp
  constructor
  · intro block v
    rw [htable, lastDefOrPhi, lastDef_newDef, phisFor_newDef, hphis, hold]
    simp
  · intro block v
    rw [mem_blocksWithDefs_newDef, lastDef_newDef, hc.blocks]
    split_ifs with h
    · obtain ⟨rfl, rfl⟩ := h
      simp [hold, em]
    · exact or_iff_right fun h' => h ⟨h'.1, h'.2.1⟩

/-- **All definitions.** -/
theorem consistent_newDefs (calls : List (NewDef Block Node count)) :
    (calls.foldl newDef new).Consistent ∧
      (∀ block v, (calls.foldl newDef new).phisFor block v = []) ∧ (calls.foldl newDef new).m_defs =
        calls.mapIdx fun i call => ⟨.defs, i, call.variable_, call.block, call.value⟩ := by
  induction calls using reverseRecOn with
  | nil =>
    refine ⟨⟨fun block v => rfl, fun block v => ?_⟩, fun block v => rfl, rfl⟩
    simp [new, lastDef]
  | append_singleton calls call ih =>
    obtain ⟨h1, h2, h3⟩ := ih
    rw [foldl_concat]
    refine ⟨h1.newDef h2 call, fun block v => (phisFor_newDef call block v).trans (h2 block v), ?_⟩
    show (calls.foldl newDef new).m_defs ++ [_] = _
    rw [h3, mapIdx_concat, length_mapIdx]

/-! ## Phis -/

/-- What placing Phis for `v` leaves alone. -/
structure Frame (v : Fin count) (c c' : SSACalculator Block Node count) : Prop where
  defs : c'.m_defs = c.m_defs
  blocks : c'.m_blocksWithDefs = c.m_blocksWithDefs
  others : ∀ w ≠ v, ∀ block, c'.phisFor block w = c.phisFor block w

theorem Frame.lastDef {v : Fin count} {c c' : SSACalculator Block Node count} (h : Frame v c c')
    (block : Block) (w : Fin count) : c'.lastDef block w = c.lastDef block w := by
  unfold SSACalculator.lastDef
  rw [h.defs]

variable {functor : Fin count → Block → Option Node} {v : Fin count}

theorem placePhi_spec (hc : c.Consistent) {block : Block} (hfunctor : functor v block ≠ none)
    (hnone : c.phisFor block v = []) :
    ∃ c', c.placePhi functor v block = (true, c') ∧ c'.Consistent ∧ Frame v c c' ∧
      (c'.phisFor block v).length = 1 ∧
      ∀ other ≠ block, c'.phisFor other v = c.phisFor other v := by
  obtain ⟨phiNode, hphi⟩ := ne_none_iff_exists'.mp hfunctor
  obtain ⟨c', hplace⟩ : ∃ c', c.placePhi functor v block = (true, c') := by
    rw [placePhi, hphi]
    exact ⟨_, rfl⟩
  have hc' := hplace
  rw [placePhi, hphi] at hc'
  obtain rfl := (Prod.mk.inj hc').2
  set phiDef : Def Block Node count := ⟨.phis, c.m_phis.length, v, block, phiNode⟩
  refine ⟨_, hplace, ?_⟩
  set c' : SSACalculator Block Node count := { c with
    m_phis := c.m_phis ++ [phiDef]
    m_data := update c.m_data block
      { m_phis := (c.m_data block).m_phis ++ [phiDef]
        m_defs := update (c.m_data block).m_defs v
          (some (((c.m_data block).m_defs v).getD phiDef)) } }
  have hself : c'.phisFor block v = [phiDef] := by
    have : c'.phisFor block v = c.phisFor block v ++ [phiDef] := by
      simp [c', phisFor, phiDef]
    rw [this, hnone, nil_append]
  have hother : ∀ other ≠ block, ∀ w, c'.phisFor other w = c.phisFor other w := by
    intro other h w
    simp [c', phisFor, update_of_ne h]
  have hvariable : ∀ w ≠ v, ∀ other, c'.phisFor other w = c.phisFor other w := by
    intro w hw other
    by_cases h : other = block
    · subst h
      simp [c', phisFor, phiDef, Ne.symm hw]
    · exact hother other h w
  have hframe : Frame v c c' := ⟨rfl, rfl, hvariable⟩
  refine ⟨⟨fun other w => ?_, fun other w => ?_⟩, hframe, by rw [hself]; rfl,
    fun other h => hother other h v⟩
  · have hold := hc.defs other w
    unfold lastDefOrPhi at hold ⊢
    rw [hframe.lastDef]
    by_cases h : other = block
    · subst h
      by_cases hw : w = v
      · subst hw
        rw [hself]
        rw [hnone] at hold
        have htable : (c'.m_data other).m_defs w =
            some (((c.m_data other).m_defs w).getD phiDef) := by simp [c']
        rw [htable, hold]
        cases c.lastDef other w <;> rfl
      · rw [hvariable w hw, ← hold]
        simp [c', update_of_ne hw]
    · rw [hother other h, ← hold]
      simp [c', update_of_ne h]
  · exact hc.blocks other w

omit [DecidableEq Block] in
theorem Frame.refl (v : Fin count) (c : SSACalculator Block Node count) : Frame v c c :=
  ⟨rfl, rfl, fun _ _ _ => rfl⟩

omit [DecidableEq Block] in
theorem Frame.trans {c c' c'' : SSACalculator Block Node count} (h : Frame v c c')
    (h' : Frame v c' c'') : Frame v c c'' :=
  ⟨h'.defs.trans h.defs, h'.blocks.trans h.blocks, fun w hw block =>
    (h'.others w hw block).trans (h.others w hw block)⟩

theorem placePhis_spec (hfunctor : ∀ block, functor v block ≠ none) {found : List Block}
    (hnodup : found.Nodup) (hc : c.Consistent) (hnone : ∀ block ∈ found, c.phisFor block v = []) :
    ∃ c', found.foldl (fun c block => (c.placePhi functor v block).2) c = c' ∧ c'.Consistent ∧
      Frame v c c' ∧ (∀ block ∈ found, (c'.phisFor block v).length = 1) ∧
      ∀ block ∉ found, c'.phisFor block v = c.phisFor block v := by
  induction found generalizing c with
  | nil => exact ⟨c, rfl, hc, Frame.refl v c, by simp, fun _ _ => rfl⟩
  | cons block found ih =>
    obtain ⟨hblock, hnodup⟩ := nodup_cons.mp hnodup
    obtain ⟨c1, h1, h2, h3, h4, h5⟩ := placePhi_spec hc (hfunctor block)
      (hnone block (mem_cons_self ..))
    have hne : ∀ other ∈ found, other ≠ block := fun other h => fun h' => hblock (h' ▸ h)
    obtain ⟨c2, e1, e2, e3, e4, e5⟩ := ih hnodup h2 fun other h =>
      (h5 other (hne other h)).trans (hnone other (mem_cons_of_mem _ h))
    refine ⟨c2, by rw [foldl_cons, h1]; exact e1, e2, h3.trans e3, ?_, ?_⟩
    · intro other h
      rcases mem_cons.mp h with rfl | h
      · rw [e5 other hblock, h4]
      · exact e4 other h
    · intro other h
      rw [e5 other fun h' => h (mem_cons_of_mem _ h'), h5 other fun h' => h (h' ▸ mem_cons_self ..)]

theorem computePhis_round (d : Dominators graph) (hfunctor : ∀ block, functor v block ≠ none)
    (hc : c.Consistent) (hnone : ∀ block, c.phisFor block v = []) :
    ∃ c', d.forAllBlocksInPrunedIteratedDominanceFrontierOf (c.m_blocksWithDefs v)
        (fun block c => c.placePhi functor v block) c = some c' ∧
      c'.Consistent ∧ Frame v c c' ∧ c'.Placed graph v := by
  have hkeep : (fun block (c : SSACalculator Block Node count) => c.placePhi functor v block) =
      keep fun c block => (c.placePhi functor v block).2 := by
    funext block c
    obtain ⟨phiNode, hphi⟩ := ne_none_iff_exists'.mp (hfunctor block)
    simp only [keep, placePhi, hphi]
  obtain ⟨found, hnodup, hfound, hwalk⟩ := d.forAllBlocksInPrunedIteratedDominanceFrontierOf_spec
    (fun c block => (c.placePhi functor v block).2) (c.m_blocksWithDefs v) c
  obtain ⟨c', h1, h2, h3, h4, h5⟩ := placePhis_spec hfunctor hnodup hc fun block _ => hnone block
  refine ⟨c', by rw [hkeep, hwalk, h1], h2, h3, fun block => ?_⟩
  rw [h3.blocks, ← hfound]
  by_cases hblock : block ∈ found
  · have hone := h4 block hblock
    exact ⟨hone.le, iff_of_true (ne_nil_of_length_pos (by omega)) hblock⟩
  · rw [h5 block hblock, hnone]
    exact ⟨Nat.zero_le 1, iff_of_false (by simp) hblock⟩

/-- **All rounds of `computePhis`.** -/
theorem computePhis_rounds (d : Dominators graph) (hfunctor : ∀ v block, functor v block ≠ none)
    {vs : List (Fin count)} (hnodup : vs.Nodup) (hc : c.Consistent)
    (hnone : ∀ v ∈ vs, ∀ block, c.phisFor block v = []) :
    ∃ c', vs.foldlM (fun c v => d.forAllBlocksInPrunedIteratedDominanceFrontierOf
        (c.m_blocksWithDefs v) (fun block c => c.placePhi functor v block) c) c = some c' ∧
      c'.Consistent ∧ c'.m_defs = c.m_defs ∧ c'.m_blocksWithDefs = c.m_blocksWithDefs ∧
      (∀ v ∉ vs, ∀ block, c'.phisFor block v = c.phisFor block v) ∧
      ∀ v ∈ vs, c'.Placed graph v := by
  induction vs generalizing c with
  | nil => exact ⟨c, rfl, hc, rfl, rfl, fun _ _ _ => rfl, by simp⟩
  | cons v vs ih =>
    obtain ⟨hv, hnodup⟩ := nodup_cons.mp hnodup
    obtain ⟨c1, h1, h2, h3, h4⟩ := computePhis_round d (hfunctor v) hc
      (hnone v (mem_cons_self ..))
    have hne : ∀ w ∈ vs, w ≠ v := fun w h => fun h' => hv (h' ▸ h)
    obtain ⟨c2, e1, e2, e3, e4, e5, e6⟩ := ih hnodup h2 fun w h block =>
      (h3.others w (hne w h) block).trans (hnone w (mem_cons_of_mem _ h) block)
    refine ⟨c2, by rw [foldlM_cons, h1]; exact e1, e2, e3.trans h3.defs, e4.trans h3.blocks,
      ?_, ?_⟩
    · intro w h block
      rw [e5 w (fun h' => h (mem_cons_of_mem _ h')) block,
        h3.others w (fun h' => h (h' ▸ mem_cons_self ..)) block]
    · intro w h
      rcases mem_cons.mp h with rfl | h
      · intro block
        rw [e5 w hv, e4]
        exact h4 block
      · exact e6 w h

/-! ## Reaching definitions -/

section
variable {d : Dominators graph} (hc : c.Consistent) (hplaced : c.Placed graph v)
include hc hplaced

/-- Where the dominance of a block that leaves something in the variable ends, there is a Phi. -/
theorem phi_of_frontier {a b : Block} (ha : (c.m_data a).m_defs v ≠ none)
    (hab : Frontier graph a b) :
    c.phisFor b v ≠ [] := by
  rw [(hplaced b).2]
  rw [hc.defs, lastDefOrPhi, ne_eq, or_eq_none_iff, head?_eq_none_iff] at ha
  by_cases hdef : c.lastDef a v = none
  · obtain ⟨a', ha', h⟩ := (hplaced a).2.mp fun h => ha ⟨hdef, h⟩
    exact ⟨a', ha', h.tail hab⟩
  · exact ⟨a, (hc.blocks a v).mpr hdef, .single hab⟩

/-- **The end of a predecessor** has what reaches the head, if there is no Phi. -/
theorem reachingDefAtTail_of_edge {b p : Block} (hb : c.phisFor b v = [])
    (hp : b ∈ graph.successors p) : c.reachingDefAtTail d p v = c.reachingDefAtHead d b v := by
  -- up the tree from `p`, all the way below the parent of `b`
  suffices h : ∀ a, Dominates graph a p →
      (∀ parent, d.idomParent b = some parent → Dominates graph parent a) →
      c.reachingDefAtTail d a v = c.reachingDefAtHead d b v from
    h p (Dominates.refl p) fun parent h =>
      (Dominators.immediatelyDominates_of_idom h).1.dominates_of_edge hp
  intro a
  induction a using d.idom_induction with
  | h a ih =>
    intro hap hparent
    by_cases hidom : d.idomParent b = some a
    · rw [reachingDefAtHead, nonLocalReachingDef, Dominators.idom, hidom]
      rfl
    have hstrict : ¬ StrictlyDominates graph a b := by
      intro h
      cases hb' : d.idomParent b with
      | none => exact not_strictlyDominates_root (Dominators.eq_root_of_idom hb' ▸ h)
      | some parent =>
        have hspec := Dominators.immediatelyDominates_of_idom hb'
        exact hidom (hb'.trans (congrArg some
          (d.dominates_antisymm (hparent parent hb') (hspec.2 a h))))
    have hnone : (c.m_data a).m_defs v = none := by
      by_contra h
      exact phi_of_frontier hc hplaced h ⟨⟨p, hap, hp⟩, hstrict⟩ hb
    rw [reachingDefAtTail_eq, hnone]
    unfold reachingDefAtHead nonLocalReachingDef Dominators.idom
    cases ha' : d.idomParent a with
    | none =>
      -- the root does not strictly dominate `b`, so `b` is the root
      cases hb' : d.idomParent b with
      | none => rfl
      | some parent =>
        have hroot := Dominators.eq_root_of_idom ha'
        have hdom := hparent parent hb'
        rw [hroot] at hdom
        have : parent = a := by
          by_contra hne
          exact not_strictlyDominates_root ⟨hdom, hroot ▸ hne⟩
        exact absurd (this ▸ hb') hidom
    | some above =>
      have hspec := Dominators.immediatelyDominates_of_idom ha'
      refine ih above ha' (hspec.1.1.trans hap) fun parent hb' =>
        hspec.2 parent ⟨hparent parent hb', ?_⟩
      rintro rfl
      exact hidom hb'

/-- **Along every path** to a block without a Phi, the last definition or Phi is what reaches it. -/
theorem reachingDefAtHead_of_path {before : List Block} {b : Block} (hpath : Path graph before b)
    (hb : c.phisFor b v = []) :
    c.reachingDefAtHead d b v = before.findSome? (c.lastDefOrPhi v) := by
  induction hpath with
  | root =>
    rw [reachingDefAtHead, nonLocalReachingDef, Dominators.idom, d.idomParent_root]
    rfl
  | @step before p b hpath hedge ih =>
    rw [← reachingDefAtTail_of_edge hc hplaced hb hedge, reachingDefAtTail_eq, hc.defs,
      findSome?_cons]
    cases hlast : c.lastDefOrPhi v p with
    | some def_ => rfl
    | none =>
      refine ih ?_
      rw [lastDefOrPhi, or_eq_none_iff, head?_eq_none_iff] at hlast
      exact hlast.2
end

/-- **Reaching definitions.** After `computePhis` with a functor that prunes nothing, a block has at
most one Phi for a variable, and what reaches a block without one is what reaches the end of each
predecessor, and the last definition or Phi on every path. -/
theorem computePhis_reaching (d : Dominators graph) (calls : List (NewDef Block Node count))
    (functor : Fin count → Block → Option Node) (hfunctor : ∀ v block, functor v block ≠ none) :
    ∃ c, (calls.foldl newDef new).computePhis d functor = some c ∧
      c.m_defs = (calls.mapIdx fun i call => ⟨.defs, i, call.variable_, call.block, call.value⟩) ∧
      ∀ v b, (c.phisFor b v).length ≤ 1 ∧ (c.phisFor b v = [] → (∀ p, b ∈ graph.successors p →
          c.reachingDefAtTail d p v = c.reachingDefAtHead d b v) ∧ ∀ before, Path graph before b →
          c.reachingDefAtHead d b v = before.findSome? (c.lastDefOrPhi v)) := by
  obtain ⟨h1, h2, h3⟩ := consistent_newDefs calls
  obtain ⟨c, e1, e2, e3, -, -, e4⟩ := computePhis_rounds d hfunctor (nodup_finRange count) h1
    fun v _ block => h2 block v
  refine ⟨c, e1, e3.trans h3, fun v b => ?_⟩
  have hplaced := e4 v (mem_finRange v)
  exact ⟨(hplaced b).1, fun hb => ⟨fun p hp => reachingDefAtTail_of_edge e2 hplaced hb hp,
    fun before hpath => reachingDefAtHead_of_path e2 hplaced hpath hb⟩⟩

theorem computePhis_reaching_loop :
    ∃ c : SSACalculator Bool ℕ 1, ([⟨0, true, 7⟩, ⟨0, true, 8⟩].foldl newDef new).computePhis
        loopDominators (fun _ _ => some 9) = some c ∧
      c.m_defs = [⟨.defs, 0, 0, true, 7⟩, ⟨.defs, 1, 0, true, 8⟩] ∧
      ∀ v b, (c.phisFor b v).length ≤ 1 ∧ (c.phisFor b v = [] →
        (∀ p, b ∈ loopGraph.successors p → c.reachingDefAtTail loopDominators p v =
          c.reachingDefAtHead loopDominators b v) ∧
        ∀ before, Path loopGraph before b → c.reachingDefAtHead loopDominators b v =
          before.findSome? (c.lastDefOrPhi v)) :=
  computePhis_reaching loopDominators _ (fun _ _ => some 9) fun _ _ => by simp

end SSACalculator

end JscAndroid.Dfg.SSAConstruction
