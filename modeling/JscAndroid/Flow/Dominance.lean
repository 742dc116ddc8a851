import Mathlib

/-!
# Dominance

In a graph with a root, a node dominates another if every path from the root to the other meets it.
Its dominance frontier is where its dominance ends.
-/

namespace JscAndroid.Flow.Dominance

variable {α : Type}

/-- A finite graph with a root. -/
structure Flowgraph (α : Type) where
  nodes : List α
  root : α
  successors : α → List α
  nodup : nodes.Nodup
  complete : ∀ a, a ∈ nodes

/-- A path from the root to a node, given by the nodes before it, the last of them first. -/
inductive Path (g : Flowgraph α) : List α → α → Prop
  | root : Path g [] g.root
  | step {before : List α} {a b : α} (h : Path g before a) (hb : b ∈ g.successors a) :
      Path g (a :: before) b

section
variable (g : Flowgraph α)

def Dominates (a b : α) : Prop := ∀ before, Path g before b → a ∈ b :: before

def StrictlyDominates (a b : α) : Prop := Dominates g a b ∧ a ≠ b

/-- The strict dominator of `b` that all others dominate. -/
def ImmediatelyDominates (a b : α) : Prop :=
  StrictlyDominates g a b ∧ ∀ c, StrictlyDominates g c b → Dominates g c a

/-- The node `b` is in the dominance frontier of `a`. -/
def Frontier (a b : α) : Prop :=
  (∃ p, Dominates g a p ∧ b ∈ g.successors p) ∧ ¬ StrictlyDominates g a b
end

variable {g : Flowgraph α} {a b c p : α}

theorem Dominates.refl (a : α) : Dominates g a a := fun _ _ => List.mem_cons_self ..

theorem Path.cut {before : List α} (h : Path g before b) (ha : a ∈ b :: before) :
    ∃ before', Path g before' a ∧ a :: before' <:+ b :: before := by
  induction h with
  | root =>
    obtain rfl := List.mem_singleton.mp ha
    exact ⟨[], .root, List.suffix_rfl⟩
  | @step before p b h hb ih =>
    rcases List.mem_cons.mp ha with rfl | ha
    · exact ⟨p :: before, .step h hb, List.suffix_rfl⟩
    · obtain ⟨before', h', hsuffix⟩ := ih ha
      exact ⟨before', h', hsuffix.trans (List.suffix_cons b _)⟩

theorem Dominates.trans (hab : Dominates g a b) (hbc : Dominates g b c) : Dominates g a c := by
  intro before h
  obtain ⟨before', h', hsuffix⟩ := h.cut (hbc before h)
  exact hsuffix.subset (hab before' h')

theorem StrictlyDominates.dominates_of_edge (h : StrictlyDominates g a b)
    (hb : b ∈ g.successors p) : Dominates g a p := fun before hp =>
  (List.mem_cons.mp (h.1 (p :: before) (.step hp hb))).resolve_left h.2

theorem dominates_root (b : α) : Dominates g g.root b := by
  intro before h
  induction h with
  | root => exact List.mem_singleton_self _
  | step _ _ ih => exact List.mem_cons_of_mem _ ih

theorem not_strictlyDominates_root : ¬ StrictlyDominates g a g.root := fun h =>
  h.2 (List.mem_singleton.mp (h.1 [] .root))

end JscAndroid.Flow.Dominance
