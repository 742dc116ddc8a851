import Mathlib

/-!
# Runs of calls

A component answers calls one after another; a call that does not return ends the run. What it is
for is a relation: from an abstract state a call may have some answers, each with a state after it.
-/

namespace JscAndroid.Walks.Runs

open List Option

variable {C A S T : Type}
variable {c : C} {answers : List A}

/-- The answers to a list of calls, and the state after them. -/
def run (step : C → S → Option (A × S)) : List C → S → Option (List A × S)
  | [], s => some ([], s)
  | c :: calls, s => do
    let (a, s) ← step c s
    let (answers, s) ← run step calls s
    return (a :: answers, s)

/-- The abstract state may answer the calls in this way, and ends in this state. -/
inductive Follows (spec : C → T → A → T → Prop) : List C → T → List A → T → Prop
  | nil (t : T) : Follows spec [] t [] t
  | cons {c : C} {calls : List C} {t t' t'' : T} {a : A} {answers : List A}
      (head : spec c t a t') (tail : Follows spec calls t' answers t'') :
      Follows spec (c :: calls) t (a :: answers) t''

/-- Whatever the answers to the first of the calls, `P` holds after them. -/
def Stays (spec : C → T → A → T → Prop) (P : T → Prop) (calls : List C) (t : T) : Prop :=
  ∀ front answers t', front <+: calls → Follows spec front t answers t' → P t'

variable {step : C → S → Option (A × S)} {spec : C → T → A → T → Prop}
variable {R : S → T → Prop} {P : T → Prop} {calls : List C} {s s' : S} {t t' : T}

theorem run_cons {a : A} {s₁ : S} (h₁ : step c s = some (a, s₁))
    (h : run step calls s₁ = some (answers, s')) :
    run step (c :: calls) s = some (a :: answers, s') := by
  simp [run, h₁, h]

theorem run_concat {a : A} {s₁ : S} (h : run step calls s = some (answers, s₁))
    (h₁ : step c s₁ = some (a, s')) : run step (calls ++ [c]) s = some (answers ++ [a], s') := by
  induction calls generalizing s answers with
  | nil =>
    obtain ⟨rfl, rfl⟩ : [] = answers ∧ s = s₁ := by simpa [run] using h
    exact run_cons h₁ rfl
  | cons d calls ih =>
    obtain ⟨⟨b, s₂⟩, h₂, h⟩ := bind_eq_some_iff.mp h
    obtain ⟨⟨rest, s₃⟩, h₃, h⟩ := bind_eq_some_iff.mp h
    obtain ⟨rfl, rfl⟩ := Prod.mk.inj (some.inj h)
    exact run_cons h₂ (ih h₃)

theorem Stays.here (h : Stays spec P calls t) : P t :=
  h [] [] t nil_prefix (.nil t)

theorem Stays.next {a : A} (h : Stays spec P (c :: calls) t) (ht : spec c t a t') :
    Stays spec P calls t' :=
  fun front answers u hfront hu => h (c :: front) (a :: answers) u
    (cons_prefix_cons.mpr ⟨rfl, hfront⟩) (.cons ht hu)

/-- **A run that returns** gives answers the abstract state may give, if each call does. -/
theorem run_follows (hstep : ∀ c s t a s', R s t → step c s = some (a, s') →
      ∃ t', spec c t a t' ∧ R s' t') (hR : R s t) (h : run step calls s = some (answers, s')) :
    ∃ t', Follows spec calls t answers t' ∧ R s' t' := by
  induction calls generalizing s t answers with
  | nil =>
    obtain ⟨rfl, rfl⟩ : [] = answers ∧ s = s' := by simpa [run] using h
    exact ⟨t, .nil t, hR⟩
  | cons c calls ih =>
    obtain ⟨⟨a, s₁⟩, h₁, h⟩ := bind_eq_some_iff.mp h
    obtain ⟨⟨rest, s₂⟩, h₂, h⟩ := bind_eq_some_iff.mp h
    obtain ⟨rfl, rfl⟩ := Prod.mk.inj (some.inj h)
    obtain ⟨t₁, ht₁, hR₁⟩ := hstep c s t a s₁ hR h₁
    obtain ⟨t₂, ht₂, hR₂⟩ := ih hR₁ h₂
    exact ⟨t₂, .cons ht₁ ht₂, hR₂⟩

/-- **A run returns** if each call does from states with `P`, and `P` holds all along. -/
theorem run_returns (hstep : ∀ c s t, R s t → P t → (∀ a t', spec c t a t' → P t') →
      ∃ a s' t', step c s = some (a, s') ∧ spec c t a t' ∧ R s' t') (hR : R s t)
    (hP : Stays spec P calls t) : ∃ answers s' t', run step calls s = some (answers, s') ∧
      Follows spec calls t answers t' ∧ R s' t' := by
  induction calls generalizing s t with
  | nil => exact ⟨[], s, t, rfl, .nil t, hR⟩
  | cons c calls ih =>
    obtain ⟨a, s₁, t₁, h₁, ht₁, hR₁⟩ := hstep c s t hR hP.here fun a t' ht' => (hP.next ht').here
    obtain ⟨answers, s₂, t₂, h₂, ht₂, hR₂⟩ := ih hR₁ (hP.next ht₁)
    exact ⟨a :: answers, s₂, t₂, run_cons h₁ h₂, .cons ht₁ ht₂, hR₂⟩

/-! ## A specification that is a function -/

/-- The answers the specification gives to a list of calls, and its state after them. -/
def after (next : C → T → A × T) : List C → T → List A × T
  | [], t => ([], t)
  | c :: calls, t => ((next c t).1 :: (after next calls (next c t).2).1,
      (after next calls (next c t).2).2)

/-- Each call is made in a state that allows it. -/
def Always (next : C → T → A × T) (allowed : C → T → Prop) : List C → T → Prop
  | [], _ => True
  | c :: calls, t => allowed c t ∧ Always next allowed calls (next c t).2

/-- After each of the calls the answers and the state are those of the specification. -/
def Tracks (step : C → S → Option (A × S)) (next : C → T → A × T) (R : S → T → Prop)
    (calls : List C) (s : S) (t : T) : Prop :=
  ∀ front, front <+: calls →
    ∃ s', run step front s = some ((after next front t).1, s') ∧ R s' (after next front t).2

variable {next : C → T → A × T} {allowed sound : C → T → Prop}

theorem tracks_nil : Tracks step next R [] s t ↔ R s t := by
  constructor
  · intro h
    obtain ⟨s', hs', hR⟩ := h [] nil_prefix
    obtain rfl : s = s' := by simpa [run, after] using hs'
    exact hR
  · intro hR front hfront
    rw [prefix_nil.mp hfront]
    exact ⟨s, rfl, hR⟩

theorem tracks_cons : Tracks step next R (c :: calls) s t ↔ R s t ∧
    ∃ s', step c s = some ((next c t).1, s') ∧ Tracks step next R calls s' (next c t).2 := by
  constructor
  · intro h
    refine ⟨tracks_nil.mp fun front hfront => h front ?_, ?_⟩
    · rw [prefix_nil.mp hfront]
      exact nil_prefix
    · have hc : ∀ front, front <+: calls → ∃ s₁, step c s = some ((next c t).1, s₁) ∧
          ∃ s', run step front s₁ = some ((after next front (next c t).2).1, s') ∧
            R s' (after next front (next c t).2).2 := by
        intro front hfront
        obtain ⟨s', hs', hR⟩ := h (c :: front) (cons_prefix_cons.mpr ⟨rfl, hfront⟩)
        obtain ⟨⟨a, s₁⟩, h₁, hs'⟩ := bind_eq_some_iff.mp hs'
        obtain ⟨⟨rest, s₂⟩, h₂, hs'⟩ := bind_eq_some_iff.mp hs'
        obtain ⟨hanswers, rfl⟩ := Prod.mk.inj (some.inj hs')
        obtain ⟨rfl, rfl⟩ := cons.inj hanswers
        exact ⟨s₁, h₁, s₂, h₂, hR⟩
      obtain ⟨s₁, h₁, -⟩ := hc [] nil_prefix
      refine ⟨s₁, h₁, fun front hfront => ?_⟩
      obtain ⟨s₁', h₁', hrest⟩ := hc front hfront
      obtain rfl : s₁ = s₁' := by simpa [h₁] using h₁'
      exact hrest
  · rintro ⟨hR, s₁, h₁, h⟩ front hfront
    rcases prefix_cons_iff.mp hfront with rfl | ⟨rest, rfl, hrest⟩
    · exact ⟨s, rfl, hR⟩
    · obtain ⟨s', hs', hR'⟩ := h rest hrest
      exact ⟨s', run_cons h₁ hs', hR'⟩

/-- **Exactly the sound calls**: if a call from related states leads to related states just when it
is sound, then a list of calls does so all along just when each of them is. -/
theorem tracks_iff_always (hstep : ∀ c s t, R s t → allowed c t →
      ((∃ s', step c s = some ((next c t).1, s') ∧ R s' (next c t).2) ↔ sound c t))
    (hR : R s t) (hallowed : Always next allowed calls t) :
    Tracks step next R calls s t ↔ Always next sound calls t := by
  induction calls generalizing s t with
  | nil => exact iff_of_true (tracks_nil.mpr hR) trivial
  | cons c calls ih =>
    obtain ⟨hc, hallowed⟩ := hallowed
    rw [tracks_cons]
    constructor
    · rintro ⟨-, s₁, h₁, h⟩
      have hR₁ : R s₁ (next c t).2 := tracks_nil.mp fun front hfront => h front (by
        rw [prefix_nil.mp hfront]
        exact nil_prefix)
      exact ⟨(hstep c s t hR hc).mp ⟨s₁, h₁, hR₁⟩, (ih hR₁ hallowed).mp h⟩
    · rintro ⟨hsound, h⟩
      obtain ⟨s₁, h₁, hR₁⟩ := (hstep c s t hR hc).mpr hsound
      exact ⟨hR, s₁, h₁, (ih hR₁ hallowed).mpr h⟩

theorem after_invariant {I : T → Prop} (hI : ∀ c t, I t → allowed c t → I (next c t).2) (ht : I t)
    (hallowed : Always next allowed calls t) {front : List C} (hfront : front <+: calls) :
    I (after next front t).2 := by
  induction calls generalizing front t with
  | nil =>
    rwa [prefix_nil.mp hfront]
  | cons c calls ih =>
    rcases prefix_cons_iff.mp hfront with rfl | ⟨rest, rfl, hrest⟩
    · exact ht
    · exact ih (hI c t ht hallowed.1) hallowed.2 hrest

theorem Tracks.imp {R' : S → T → Prop} (h : Tracks step next R calls s t)
    (hRR' : ∀ front, front <+: calls → ∀ s, R s (after next front t).2 →
      R' s (after next front t).2) : Tracks step next R' calls s t := by
  intro front hfront
  obtain ⟨s', hs', hR⟩ := h front hfront
  exact ⟨s', hs', hRR' front hfront s' hR⟩

end JscAndroid.Walks.Runs
