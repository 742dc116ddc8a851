import JscAndroid.Yarr.Searches

/-!
# Code that carries out a search

`Implements` says that an operation of the interpreter, given enough fuel for its loops and its
nested calls, returns what a search finds, and that entering it again carries out the rest of the
search. `Implements.handle` is the rule for code that calls such an operation and goes on according
to its result.
-/

namespace JscAndroid.Yarr.Refinement

open Filter
open Backtrack.Resumption ByteCode InputStream Interpreter Searches

variable {α β ρ ρ₁ ρ₂ : Type}
variable {h : ℕ → α → Except Stop β}

/-! ## Fuel -/

/-- A result that depends on the fuel. -/
abbrev Timed (α : Type) := ℕ → Except Stop α

/-- With enough fuel the result is `v`. -/
def Settles (x : Timed α) (v : Except Stop α) : Prop := ∀ᶠ n in atTop, x n = v

theorem Settles.of_eq {x : Timed α} {v : Except Stop α} (h : ∀ n, x n = v) : Settles x v :=
  Eventually.of_forall h

theorem Settles.congr {x y : Timed α} {v : Except Stop α} (hx : Settles x v)
    (hyx : y =ᶠ[atTop] x) : Settles y v := by
  filter_upwards [hx, hyx] with n h1 h2
  rw [h2, h1]

/-- Code that goes on with `h` after an operation that settles. -/
theorem Settles.bind_ok {x : Timed α} {v : α} (hx : Settles x (.ok v)) :
    (fun n => x n >>= h n) =ᶠ[atTop] fun n => h n v := by
  filter_upwards [hx] with n hn
  rw [hn]
  rfl

theorem Settles.bind_error {x : Timed α} {v : Stop} (hx : Settles x (.error v)) :
    Settles (fun n => x n >>= h n) (.error v) := by
  filter_upwards [hx] with n hn
  rw [hn]
  rfl

/-- The fuel of a loop, as it depends on the fuel. -/
structure LoopFuel where
  toFun : ℕ → ℕ
  grows : Tendsto toFun atTop atTop

instance : CoeFun LoopFuel fun _ => ℕ → ℕ := ⟨LoopFuel.toFun⟩

/-- All of the fuel. -/
def LoopFuel.all : LoopFuel := ⟨id, tendsto_id⟩

theorem LoopFuel.eventually_succ (k : LoopFuel) : ∃ k' : LoopFuel, ∀ᶠ n in atTop, k n =
    k' n + 1 := by
  refine ⟨⟨fun n => k n - 1, ?_⟩, ?_⟩
  · rw [tendsto_atTop]
    intro b
    filter_upwards [k.grows.eventually_ge_atTop (b + 1)] with n hn
    omega
  · filter_upwards [k.grows.eventually_ge_atTop 1] with n hn
    omega

/-! ## Carrying out a search -/

/-- What an operation returns: its result, what it keeps for backtracking and the state. -/
abbrev Result (ρ : Type) := JSRegExpResult × ρ × State

variable {x : Timed (Result ρ₁)}

/-- It ends with an error result. -/
def Fails (x : Timed (Result ρ)) (e : JSRegExpResult) : Prop := ∃ b s, Settles x (.ok (e, b, s))

/-- The operation `x`, with `c` units of the match limit left, carries out the search; `again` is
how it is entered again, whatever the fuel of its loops is then, and `Good` holds of what it keeps
at a success. -/
def Implements (again : LoopFuel → ρ → State → Timed (Result ρ)) (Good : Snapshot → ρ → Prop) :
    Search → ℕ → Timed (Result ρ) → Prop
  | .fail s, c, x => ∃ b, Settles x (.ok (.NoMatch, b, ⟨s, c⟩))
  | .ok s resume, c, x => ∃ b, Settles x (.ok (.Match, b, ⟨s, c⟩)) ∧ Good s b ∧
      ∀ k t c', Implements again Good (resume t) c' (again k b ⟨t, c'⟩)
  | .tick r, c, x => (u32Sub c 1 = 0 → Fails x .ErrorHitLimit) ∧
      (u32Sub c 1 ≠ 0 → Implements again Good r (u32Sub c 1) x)
  | .stop .noMemory, _, x => Fails x .ErrorNoMemory
  | .stop (.violation v), _, x => Settles x (.error (.violation v))
  | .stop .undefined, _, _ => True

section
variable {again : LoopFuel → ρ → State → Timed (Result ρ)} {Good : Snapshot → ρ → Prop}
variable {again₁ : LoopFuel → ρ₁ → State → Timed (Result ρ₁)} {Good₁ : Snapshot → ρ₁ → Prop}
variable {again₂ : LoopFuel → ρ₂ → State → Timed (Result ρ₂)} {Good₂ : Snapshot → ρ₂ → Prop}

theorem Fails.congr {x y : Timed (Result ρ)} {e : JSRegExpResult} (hx : Fails x e)
    (hyx : y =ᶠ[atTop] x) : Fails y e := by
  obtain ⟨b, s, h⟩ := hx
  exact ⟨b, s, h.congr hyx⟩

theorem Implements.congr {r : Search} {c : ℕ} {x y : Timed (Result ρ)}
    (hx : Implements again Good r c x) (hyx : y =ᶠ[atTop] x) : Implements again Good r c y := by
  induction r generalizing c with
  | fail s =>
    obtain ⟨b, h⟩ := hx
    exact ⟨b, h.congr hyx⟩
  | ok s resume =>
    obtain ⟨b, h, hrest⟩ := hx
    exact ⟨b, h.congr hyx, hrest⟩
  | tick r ih => exact ⟨fun h0 => (hx.1 h0).congr hyx, fun h0 => ih (hx.2 h0)⟩
  | stop e =>
    cases e with
    | noMemory => exact Fails.congr hx hyx
    | violation v => exact Settles.congr hx hyx
    | undefined => trivial

/-- Both kinds of error results are passed on. -/
def PassesErrors (h : ℕ → Result ρ₁ → Except Stop (Result ρ₂)) : Prop :=
  ∀ e b s, e = .ErrorHitLimit ∨ e = .ErrorNoMemory → Fails (fun n => h n (e, b, s)) e

theorem Fails.bind {h : ℕ → Result ρ₁ → Except Stop (Result ρ₂)} {e : JSRegExpResult}
    (hx : Fails x e) (he : e = .ErrorHitLimit ∨ e = .ErrorNoMemory) (hh : PassesErrors h) :
    Fails (fun n => x n >>= h n) e := by
  obtain ⟨b, s, hb⟩ := hx
  exact (hh e b s he).congr hb.bind_ok

/-- **The rule for `handle`.** Code that goes on with `h i` after an operation, and with some
`h i'` after every re-entry into it, carries out the handled search. -/
theorem Implements.handle {κ : Type} {r : Search} {c : ℕ}
    {h : κ → ℕ → Result ρ₁ → Except Stop (Result ρ₂)}
    {onOk : Snapshot → (Snapshot → Search) → (Snapshot → Search) → Search}
    {onFail : Snapshot → Search} (hx : Implements again₁ Good₁ r c x)
    (hok : ∀ i s resume b c' below, Good₁ s b →
      (∀ k t c'', Implements again₁ Good₁ (resume t) c'' (again₁ k b ⟨t, c''⟩)) →
      (∀ i' k t c'', Implements again₂ Good₂ (below t) c''
        fun n => again₁ k b ⟨t, c''⟩ n >>= h i' n) →
      Implements again₂ Good₂ (onOk s resume below) c' fun n => h i n (.Match, b, ⟨s, c'⟩))
    (hfail : ∀ i s b c', Implements again₂ Good₂ (onFail s) c'
      fun n => h i n (.NoMatch, b, ⟨s, c'⟩)) (herr : ∀ i, PassesErrors (h i)) (i : κ) :
    Implements again₂ Good₂ (r.handle onOk onFail) c fun n => x n >>= h i n := by
  induction r generalizing c x i with
  | fail s =>
    obtain ⟨b, hb⟩ := hx
    exact (hfail i s b c).congr hb.bind_ok
  | ok s resume ih =>
    obtain ⟨b, hb, hgood, hrest⟩ := hx
    exact (hok i s resume b c _ hgood hrest fun i' k t c'' =>
      ih t (hrest k t c'') i').congr hb.bind_ok
  | tick r ih =>
    exact ⟨fun h0 => (hx.1 h0).bind (Or.inl rfl) (herr i), fun h0 => ih (hx.2 h0) i⟩
  | stop e =>
    cases e with
    | noMemory => exact Fails.bind hx (Or.inr rfl) (herr i)
    | violation v => exact Settles.bind_error hx
    | undefined => trivial
end

end JscAndroid.Yarr.Refinement
