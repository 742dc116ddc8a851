import Mathlib

/-!
# Resumable searches

A search over a mutable state finds one result after another. `Res` records it as a tree: it fails
in a state, or it succeeds and can be resumed later from whatever state it is handed then, or it
stops for good. `tick` marks a unit of a budget that the search spends.

Every combinator is an instance of `handle`. That a search yields exactly the elements of a list is
stated with a rely condition on the states in which it is resumed (`Enumerates`,
`Enumerates.handle`).
-/

namespace JscAndroid.Backtrack.Resumption

variable {ε σ τ υ : Type}

/-- A resumable search over states `σ` that may stop with an `ε`. -/
inductive Res (ε σ : Type)
  | fail (s : σ)
  | ok (s : σ) (resume : σ → Res ε σ)
  | tick (r : Res ε σ)
  | stop (e : ε)

namespace Res

/-- Continue after every success with `onOk`, which gets the state, the way back into the search,
and the way back through the handled search, and after the failure with `onFail`. -/
def handle (onOk : σ → (σ → Res ε σ) → (σ → Res ε σ) → Res ε σ) (onFail : σ → Res ε σ) :
    Res ε σ → Res ε σ
  | fail s => onFail s
  | ok s resume => onOk s resume fun t => handle onOk onFail (resume t)
  | tick r => tick (handle onOk onFail r)
  | stop e => stop e

/-- Change the state at every success, keep only those that `p` accepts (a rejected one is resumed
at once), and continue with `g` after the failure. -/
def wrap (μ : σ → σ) (p : σ → Bool) (g : σ → Res ε σ) (r : Res ε σ) : Res ε σ :=
  r.handle (fun s _ below => if p (μ s) then ok (μ s) below else below (μ s)) g

/-- The number of units a search costs if it is resumed at once after every success. -/
def cost : Res ε σ → ℕ
  | fail _ => 0
  | ok s resume => cost (resume s)
  | tick r => cost r + 1
  | stop _ => 0

/-- What a search finds if it is resumed at once after every success, unless it stops. -/
def found : Res ε σ → Option (List σ)
  | fail _ => some []
  | ok s resume => (found (resume s)).map (s :: ·)
  | tick r => found r
  | stop _ => none

/-! ## Enumeration -/

/-- The search yields the elements of the list one after another, each `R`-related to the state of
its success, and then fails in a state with `F`; it may stop with an `E` on the way. -/
def Enumerates (A : σ → σ → Prop) (R : τ → σ → Prop) (F : σ → Prop) (E : ε → Prop) :
    Res ε σ → List τ → Prop
  | fail s, l => l = [] ∧ F s
  | ok s resume, l => ∃ y l', l = y :: l' ∧ R y s ∧ ∀ t, A s t → Enumerates A R F E (resume t) l'
  | tick r, l => Enumerates A R F E r l
  | stop e, _ => E e

section
variable {A A' : σ → σ → Prop} {R : τ → σ → Prop} {R' : υ → σ → Prop} {F F' : σ → Prop}
variable {E E' : ε → Prop} {r : Res ε σ} {l : List τ}
variable {onOk : σ → (σ → Res ε σ) → (σ → Res ε σ) → Res ε σ} {onFail : σ → Res ε σ}

/-- **The rule for `handle`.** What follows a success contributes a list before the rest. -/
theorem Enumerates.handle {G : τ → List υ} {last : List υ} (h : Enumerates A R F E r l)
    (hok : ∀ y s k below rest, y ∈ l → R y s →
      (∀ t, A s t → Enumerates A' R' F' E' (below t) rest) →
      Enumerates A' R' F' E' (onOk s k below) (G y ++ rest))
    (hfail : ∀ t, F t → Enumerates A' R' F' E' (onFail t) last) (hE : ∀ e, E e → E' e) :
    Enumerates A' R' F' E' (r.handle onOk onFail) (l.flatMap G ++ last) := by
  induction r generalizing l with
  | fail s =>
    obtain ⟨rfl, hF⟩ := h
    exact hfail s hF
  | ok s k ih =>
    obtain ⟨y, l', rfl, hR, hk⟩ := h
    rw [List.flatMap_cons, List.append_assoc]
    refine hok y s k _ _ List.mem_cons_self hR fun t ht => ih t (hk t ht) ?_
    intro y' s' k' below rest hy'
    exact hok y' s' k' below rest (List.mem_cons_of_mem _ hy')
  | tick r ih => exact ih h hok
  | stop e => exact hE e h
end

end Res

end JscAndroid.Backtrack.Resumption
