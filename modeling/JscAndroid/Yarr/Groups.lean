import JscAndroid.Yarr.Refinement

/-!
# Quantified groups carry out their searches

`matchParentheses` and `backtrackParentheses` keep the iterations of a group on a stack of contexts.
Given that calls on the body carry out a search of their own, the two carry out `groupSearch`.
-/

namespace JscAndroid.Yarr.Groups

open Filter
open Backtrack.Resumption ByteCode InputStream Interpreter Searches Refinement

variable {begin s : Snapshot} {stack : List Iteration} {b : BackTrackInfoParentheses}
variable {context : DisjunctionContext} {n : ℕ} {search below : Snapshot → Search}
variable {last : Option (ℕ × ℕ)} {contexts : List ParenthesesDisjunctionContext}

section
variable (call : ℕ → Call) (body : ByteDisjunction)

/-- Entering a body again. -/
def reenter (_ : LoopFuel) (context : DisjunctionContext) (s : State) :
    Timed (Result DisjunctionContext) :=
  fun n => call n body context true s

/-- Entering a body again until its match is not empty. -/
def reenterNonZero (k : LoopFuel) (context : DisjunctionContext) (s : State) :
    Timed (Result DisjunctionContext) :=
  fun n => matchNonZeroDisjunction (call n) body (k n) context true s

/-- The context records where the body matched. -/
def Spans (begin : ℕ) (t : Snapshot) (context : DisjunctionContext) : Prop :=
  context.matchBegin = begin ∧ context.matchEnd = t.pos

/-- Calls on the body carry out the search `r`. -/
def Runs (r : Snapshot → Search) : Prop :=
  ∀ context s c, Implements (reenter call body) (Spans s.pos) (r s) c
    fun n => call n body context false ⟨s, c⟩

/-- Nested calls at a depth. -/
def nested (m : Machine) (depth : ℕ) : ℕ → Call := fun n => matchDisjunction m n depth

/-! ## Non-empty matches -/

/-- What `matchNonZeroDisjunction` does after its call. -/
def nonZeroRest (k : LoopFuel) (n : ℕ) : Result DisjunctionContext →
    Except Stop (Result DisjunctionContext)
  | (result, context, s) =>
    if result = .Match then matchNonZeroLoop (call n) body (k n) context s
    else .ok (result, context, s)

theorem nonZeroRest_error {e : JSRegExpResult} (h : e ≠ .Match) (k : LoopFuel) (n : ℕ)
    (context : DisjunctionContext) (s : State) :
    nonZeroRest call body k n (e, context, s) = .ok (e, context, s) := if_neg h

theorem nonZeroRest_passesErrors (k : LoopFuel) : PassesErrors (nonZeroRest call body k) := by
  intro e context s he
  refine ⟨context, s, Settles.of_eq fun n => nonZeroRest_error call body ?_ k n context s⟩
  rcases he with rfl | rfl <;> decide

/-- **`matchNonZeroDisjunction`** carries out the search for non-empty matches. -/
theorem implements_nonZero {begin c : ℕ} {r : Search} {x : Timed (Result DisjunctionContext)}
    (hx : Implements (reenter call body) (Spans begin) r c x) (k : LoopFuel) :
    Implements (reenterNonZero call body) (Spans begin) (nonZero begin r) c
      fun n => x n >>= nonZeroRest call body k n := by
  refine hx.handle ?_ ?_ (nonZeroRest_passesErrors call body) k
  · intro k s resume context c' below hspan _ hbelow
    obtain ⟨k', hk'⟩ := k.eventually_succ
    by_cases hs : s.pos = begin
    · rw [if_neg (by simpa using hs)]
      refine (hbelow k' .all s c').congr ?_
      filter_upwards [hk'] with n hn
      show matchNonZeroLoop (call n) body (k n) context ⟨s, c'⟩ = _
      rw [hn]
      rw [matchNonZeroLoop, if_pos (by rw [hspan.1, hspan.2]; exact hs.symm)]
      rfl
    · rw [if_pos (by simpa using hs)]
      refine ⟨context, ?_, hspan, fun k t c'' => hbelow k .all t c''⟩
      filter_upwards [hk'] with n hn
      show matchNonZeroLoop (call n) body (k n) context ⟨s, c'⟩ = _
      rw [hn]
      rw [matchNonZeroLoop, if_neg (by rw [hspan.1, hspan.2]; exact fun h => hs h.symm)]
      rfl
  · intro k s context c'
    exact ⟨context, Settles.of_eq fun n => nonZeroRest_error call body (by decide) k n _ _⟩
end

section
variable (m : Machine) (call : ℕ → Call) (info : ParenthesesInfo) (body : ByteDisjunction)

/-! ## The stack of iterations -/

/-- A context on the stack stands for an iteration. -/
structure Standing (i : Iteration) (p : ParenthesesDisjunctionContext) : Prop where
  backup : p.subpatternBackup = saveOutput info.subpatternId i.entered.output
  matchBegin : p.getDisjunctionContext.matchBegin = i.entered.pos
  matchEnd : p.getDisjunctionContext.matchEnd = i.matchEnd
  resume : ∀ t c, Implements (reenter call body) (Spans i.entered.pos) (i.resume t) c
    fun n => call n body p.getDisjunctionContext true ⟨t, c⟩

/-- The backtracking information of a group entered in `begin` stands for a stack of iterations. -/
structure Holds (begin : Snapshot) (stack : List Iteration) (b : BackTrackInfoParentheses) :
    Prop where
  start : b.begin = begin.pos
  amount : b.matchAmount = stack.length
  contexts : List.Forall₂ (Standing call info body) stack b.lastContext
  bottom : ∀ i, stack.getLast? = some i → i.entered = begin

theorem holds_nil (begin : Snapshot) : Holds call info body begin [] ⟨begin.pos, 0, []⟩ :=
  ⟨rfl, rfl, List.Forall₂.nil, by simp⟩

variable {m call info body}

/-- The context of a new iteration. -/
def newContext (info : ParenthesesInfo) (s : Snapshot) (context : DisjunctionContext) :
    ParenthesesDisjunctionContext :=
  .mk (saveOutput info.subpatternId s.output) context

theorem append_ne_zero (b : BackTrackInfoParentheses) (p : ParenthesesDisjunctionContext) :
    (b.appendParenthesesDisjunctionContext p).matchAmount ≠ 0 := Nat.succ_ne_zero b.matchAmount

theorem Holds.append {s1 : Snapshot} {resume : Snapshot → Search}
    (h : Holds call info body begin stack b) (hs : stack = [] → s = begin)
    (hspan : Spans s.pos s1 context)
    (hresume : ∀ t c, Implements (reenter call body) (Spans s.pos) (resume t) c
      (reenter call body .all context ⟨t, c⟩)) :
    Holds call info body begin (⟨s, s1.pos, resume⟩ :: stack)
      (b.appendParenthesesDisjunctionContext (newContext info s context)) := by
  refine ⟨h.start, ?_, List.Forall₂.cons ⟨rfl, hspan.1, hspan.2, hresume⟩ h.contexts, ?_⟩
  · show b.matchAmount + 1 = _
    rw [h.amount]
    rfl
  · intro i hi
    cases stack with
    | nil =>
      obtain rfl : _ = i := by simpa using hi
      exact hs rfl
    | cons j rest =>
      exact h.bottom i hi

theorem recordLast_eq (h : Holds call info body begin stack b) (s : Snapshot) (c : ℕ) :
    recordLast info b ⟨s, c⟩ = ⟨recorded info (lastRange stack) s, c⟩ := by
  have hc := h.contexts
  unfold recordLast
  cases stack with
  | nil =>
    rw [List.forall₂_nil_left_iff.mp hc]
    rfl
  | cons i rest =>
    obtain ⟨p, ps, hp, -, hps⟩ := List.forall₂_cons_left_iff.mp hc
    rw [hps]
    show recordParenthesesMatch info p ⟨s, c⟩ = _
    rw [recordParenthesesMatch, lastRange, recorded, hp.matchBegin, hp.matchEnd]
    split_ifs <;> rfl

/-! ## A fixed number of iterations -/

section
variable (m call info body) (count : ℕ)
variable (rest : ℕ → BackTrackInfoParentheses → State → Except Stop GroupResult)

/-- Go on with `rest` once there are enough iterations. -/
def afterFixed (n : ℕ) : GroupResult → Except Stop GroupResult
  | (result, b, s) => if result = .Match then rest n b s else .ok (result, b, s)

/-- Add iterations again after one was entered again. -/
def afterBack (k : LoopFuel) (n : ℕ) : GroupResult → Except Stop GroupResult
  | (result, b, s) =>
    if result = .Match then
      fixedIterations m (call n) info body count (k n) b s >>= afterFixed rest n
    else .ok (result, b, s)

/-- What follows a call of the body for the iteration after those of `b`, entered in `s0`. -/
def afterIteration (b : BackTrackInfoParentheses) (s0 : Snapshot) (k : LoopFuel × LoopFuel)
    (n : ℕ) : Result DisjunctionContext → Except Stop GroupResult
  | (result, context, s) =>
    if result = .Match then
      fixedIterations m (call n) info body count (k.2 n)
        (b.appendParenthesesDisjunctionContext (newContext info s0 context)) s >>= afterFixed rest n
    else if result ≠ .NoMatch then
      .ok (result, b, resetMatches info body (newContext info s0 context) s)
    else
      parenthesesDoBacktrack (call n) info body (k.1 n) b
        (resetMatches info body (newContext info s0 context) s) >>=
        afterBack m call info body count rest k.2 n

variable {m call info body count rest}

theorem fixedIterations_lt (hb : b.matchAmount < count) {k k' : LoopFuel} (hk : k n = k' n + 1)
    (s : Snapshot) (c : ℕ) :
    fixedIterations m (call n) info body count (k n) b ⟨s, c⟩ >>= afterFixed rest n =
      call n body (m.uninitialized.setTerm 0) false ⟨cleared info body.m_numSubpatterns s, c⟩ >>=
        afterIteration m call info body count rest b s (k, k') n := by
  rw [hk]
  rw [fixedIterations, if_pos hb, bind_assoc]
  refine bind_congr ?_
  rintro ⟨result, context, s'⟩
  cases result with
  | Match => rfl
  | NoMatch =>
    show (_ >>= _) >>= _ = parenthesesDoBacktrack _ _ _ (k n) _ _ >>= _
    rw [bind_assoc, hk]
    refine bind_congr ?_
    rintro ⟨result, b', s''⟩
    cases result <;> rfl
  | ErrorHitLimit | ErrorNoMemory => rfl

theorem parenthesesDoBacktrack_append (b : BackTrackInfoParentheses) (s0 : Snapshot)
    (context : DisjunctionContext) {k k' k2 : LoopFuel} (hk : k n = k' n + 1) (s : State) :
    parenthesesDoBacktrack (call n) info body (k n)
        (b.appendParenthesesDisjunctionContext (newContext info s0 context)) s >>=
        afterBack m call info body count rest k2 n = reenter call body .all context s n >>=
        afterIteration m call info body count rest b s0 (k', k2) n := by
  rw [hk]
  show (call n body context true s >>= _) >>= _ = _
  rw [bind_assoc]
  refine bind_congr ?_
  rintro ⟨result, context', s'⟩
  cases result <;> rfl

theorem afterIteration_passesErrors (b : BackTrackInfoParentheses) (s0 : Snapshot)
    (k : LoopFuel × LoopFuel) :
    PassesErrors (afterIteration m call info body count rest b s0 k) := by
  intro e context s he
  refine ⟨b, resetMatches info body (newContext info s0 context) s, Settles.of_eq fun n => ?_⟩
  rcases he with rfl | rfl <;> rfl

variable {again : LoopFuel → BackTrackInfoParentheses → State → Timed GroupResult}
variable {Good : Snapshot → BackTrackInfoParentheses → Prop}

/-- Going back into the iterations of `b` and adding iterations again carries out `below`. -/
def BackInto (m : Machine) (call : ℕ → Call) (info : ParenthesesInfo) (body : ByteDisjunction)
    (count : ℕ) (rest : ℕ → BackTrackInfoParentheses → State → Except Stop GroupResult)
    (again : LoopFuel → BackTrackInfoParentheses → State → Timed GroupResult)
    (Good : Snapshot → BackTrackInfoParentheses → Prop) (b : BackTrackInfoParentheses)
    (below : Snapshot → Search) : Prop :=
  ∀ (k k2 : LoopFuel) t c, Implements again Good (below t) c fun n =>
    parenthesesDoBacktrack (call n) info body (k n) b ⟨t, c⟩ >>=
      afterBack m call info body count rest k2 n

theorem backInto_nil (hb : b.matchAmount = 0) :
    BackInto m call info body count rest again Good b .fail := by
  intro k k2 t c
  obtain ⟨k', hk'⟩ := k.eventually_succ
  refine ⟨b, ?_⟩
  filter_upwards [hk'] with n hn
  rw [hn]
  rw [parenthesesDoBacktrack, if_pos hb]
  rfl

/-- **The loop that adds iterations** carries out `fixedSearch`, if `rest` carries out what follows
the last of them. -/
theorem implements_fixed (hbody : Runs call body search)
    {leaf : List Iteration → Snapshot → (Snapshot → Search) → Search}
    (hleaf : ∀ stack s below b c, stack.length = count → Holds call info body begin stack b →
      BackInto m call info body count rest again Good b below →
      Implements again Good (leaf stack s below) c fun n => rest n b ⟨s, c⟩) (j : ℕ) (c : ℕ)
    (k : LoopFuel) (hj : j + stack.length = count) (hb : Holds call info body begin stack b)
    (hs : stack = [] → s = begin)
    (hbelow : BackInto m call info body count rest again Good b below) :
    Implements again Good (fixedSearch info body.m_numSubpatterns search leaf j stack s below) c
      fun n => fixedIterations m (call n) info body count (k n) b ⟨s, c⟩ >>= afterFixed rest n := by
  induction j generalizing stack s below b c k with
  | zero =>
    obtain ⟨k', hk'⟩ := k.eventually_succ
    refine (hleaf stack s below b c (by omega) hb hbelow).congr ?_
    filter_upwards [hk'] with n hn
    rw [hn]
    rw [fixedIterations, if_neg (by rw [hb.amount]; omega)]
    rfl
  | succ j ih =>
    obtain ⟨k', hk'⟩ := k.eventually_succ
    have hlt : b.matchAmount < count := by rw [hb.amount]; omega
    refine Implements.congr ?_ (hk'.mono fun n hn => fixedIterations_lt hlt hn s c)
    refine (hbody _ _ c).handle ?_ ?_ (afterIteration_passesErrors b s) (k, k')
    · intro ks s1 resume context c' below1 hspan hresume hbelow1
      refine ih c' ks.2 (by simp; omega) (hb.append hs hspan (hresume .all)) (by simp) ?_
      intro k1 k2 t c''
      obtain ⟨k1', hk1'⟩ := k1.eventually_succ
      refine (hbelow1 (k1', k2) .all t c'').congr ?_
      filter_upwards [hk1'] with n hn
      exact parenthesesDoBacktrack_append b s context hn _
    · intro ks t context c'
      exact hbelow ks.1 ks.2 _ c'
end

/-! ## Further iterations of a greedy group -/

/-- Entering a group again. -/
def reenterGroup (m : Machine) (call : ℕ → Call) (info : ParenthesesInfo) (body : ByteDisjunction)
    (_ : LoopFuel) (b : BackTrackInfoParentheses) (s : State) : Timed GroupResult :=
  fun n => backtrackParentheses m (call n) info body n b s

/-- Nothing is asked of what a group keeps. -/
def Any (_ : Snapshot) (_ : BackTrackInfoParentheses) : Prop := True

/-- The code of a group carries out a search. -/
abbrev GroupImplements (m : Machine) (call : ℕ → Call) (info : ParenthesesInfo)
    (body : ByteDisjunction) : Search → ℕ → Timed GroupResult → Prop :=
  Implements (reenterGroup m call info body) Any

/-- The backtracking information records `last` as the range of its last iteration. -/
def Records (info : ParenthesesInfo) (b : BackTrackInfoParentheses)
    (last : Option (ℕ × ℕ)) : Prop :=
  ∀ s c, recordLast info b ⟨s, c⟩ = ⟨recorded info last s, c⟩

theorem records_append {s1 : Snapshot} (hspan : Spans s.pos s1 context)
    (b : BackTrackInfoParentheses) :
    Records info (b.appendParenthesesDisjunctionContext (newContext info s context))
      (some (s.pos, s1.pos)) := by
  intro s' c
  show recordParenthesesMatch info (newContext info s context) ⟨s', c⟩ = _
  rw [recordParenthesesMatch, recorded, ← hspan.1, ← hspan.2]
  split_ifs <;> rfl

theorem implements_firstNonZero (hbody : Runs call body search) (m : Machine) (s : Snapshot) (c : ℕ)
    (k : LoopFuel) : Implements (reenterNonZero call body) (Spans s.pos)
      (nonZero s.pos (search (cleared info body.m_numSubpatterns s))) c fun n =>
        call n body (m.uninitialized.setTerm 0) false
          ⟨cleared info body.m_numSubpatterns s, c⟩ >>= nonZeroRest call body k n :=
  implements_nonZero call body (hbody _ (cleared info body.m_numSubpatterns s) c) k

section
variable (m call info body)

/-- Record the last capture after a successful loop. -/
def finishLast : GroupResult → Except Stop GroupResult
  | (result, b, s) =>
    if result = .Match then .ok (.Match, b, recordLast info b s) else .ok (result, b, s)

/-- What follows a call of the body for the iteration after those of `b`, entered in `s0`. -/
def afterGreedyIteration (b : BackTrackInfoParentheses) (s0 : Snapshot) (k : LoopFuel) (n : ℕ) :
    Result DisjunctionContext → Except Stop GroupResult
  | (result, context, s) =>
    if result = .Match then
      greedyIterations m (call n) info body info.quantityMaxCount (k n)
        (b.appendParenthesesDisjunctionContext (newContext info s0 context)) s >>= finishLast info
    else if result ≠ .NoMatch then
      .ok (result, b, resetMatches info body (newContext info s0 context) s)
    else .ok (.Match, b, recordLast info b (resetMatches info body (newContext info s0 context) s))

variable {m call info body}

theorem afterGreedyIteration_passesErrors (b : BackTrackInfoParentheses) (s0 : Snapshot)
    (k : LoopFuel) : PassesErrors (afterGreedyIteration m call info body b s0 k) := by
  intro e context s he
  refine ⟨b, resetMatches info body (newContext info s0 context) s, Settles.of_eq fun n => ?_⟩
  rcases he with rfl | rfl <;> rfl

theorem greedyIterations_lt (hb : b.matchAmount < info.quantityMaxCount) {k k' : LoopFuel}
    (hk : k n = k' n + 1) (s : Snapshot) (c : ℕ) :
    greedyIterations m (call n) info body info.quantityMaxCount (k n) b ⟨s, c⟩ >>= finishLast info =
      (call n body (m.uninitialized.setTerm 0) false ⟨cleared info body.m_numSubpatterns s, c⟩ >>=
        nonZeroRest call body k n) >>= afterGreedyIteration m call info body b s k' n := by
  rw [hk]
  rw [greedyIterations, if_pos hb, ← hk, bind_assoc]
  refine bind_congr ?_
  rintro ⟨result, context, s'⟩
  cases result <;> rfl

theorem backtrackParentheses_greedy (hinfo : info.quantityType = .Greedy)
    (hb : info.quantityMinCount ≤ b.matchAmount) (s0 : Snapshot) (context : DisjunctionContext)
    (k : LoopFuel) (s : State) (n : ℕ) : reenterGroup m call info body k
        (b.appendParenthesesDisjunctionContext (newContext info s0 context)) s n =
      reenterNonZero call body .all context s n >>=
        afterGreedyIteration m call info body b s0 .all n := by
  rw [reenterGroup, backtrackParentheses, hinfo]
  refine bind_congr ?_
  rintro ⟨result, context', s'⟩
  have hlt : ¬ (b.appendParenthesesDisjunctionContext
      (newContext info s0 context)).popParenthesesDisjunctionContext.matchAmount <
        info.quantityMinCount := not_lt.mpr hb
  cases result with
  | Match => rfl
  | NoMatch | ErrorHitLimit | ErrorNoMemory =>
    show (if (BackTrackInfoParentheses.popParenthesesDisjunctionContext _).matchAmount < _
      then _ else _) = _
    rw [if_neg hlt]
    rfl

/-- **The loop of a greedy group** carries out `greedySearch`. -/
theorem implements_greedy (hinfo : info.quantityType = .Greedy) (hbody : Runs call body search)
    (j : ℕ) (c : ℕ) (k : LoopFuel) (hj : b.matchAmount + j = info.quantityMaxCount)
    (hmin : info.quantityMinCount ≤ b.matchAmount) (hlast : Records info b last)
    (hbelow : ∀ k t c, GroupImplements m call info body (below t) c
      (reenterGroup m call info body k b ⟨t, c⟩)) :
    GroupImplements m call info body (greedySearch info body.m_numSubpatterns search j last s below)
      c fun n => greedyIterations m (call n) info body info.quantityMaxCount (k n) b ⟨s, c⟩ >>=
        finishLast info := by
  induction j generalizing last s below b c k with
  | zero =>
    obtain ⟨k', hk'⟩ := k.eventually_succ
    refine ⟨b, ?_, trivial, hbelow⟩
    filter_upwards [hk'] with n hn
    rw [hn, ← hlast s c]
    rw [greedyIterations, if_neg (by omega)]
    rfl
  | succ j ih =>
    obtain ⟨k', hk'⟩ := k.eventually_succ
    refine Implements.congr ?_ (hk'.mono fun n hn => greedyIterations_lt (by omega) hn s c)
    refine (implements_firstNonZero hbody m s c k).handle ?_ ?_
      (afterGreedyIteration_passesErrors b s) k'
    · intro k1 s1 _ context c' below1 hspan _ hbelow1
      refine ih c' k1 ?_ ?_ (records_append hspan b) ?_
      · show b.matchAmount + 1 + j = _
        omega
      · exact hmin.trans (Nat.le_succ _)
      · intro k2 t c''
        refine (hbelow1 .all .all t c'').congr (Eventually.of_forall fun n => ?_)
        exact backtrackParentheses_greedy hinfo hmin s context k2 _ n
    · intro k1 t context c'
      refine ⟨b, Settles.of_eq fun n => ?_, trivial, hbelow⟩
      rw [← hlast]
      rfl

/-! ### Back into the minimum iterations -/

theorem undone_undone (n : ℕ) (s1 s2 t : Snapshot) :
    undone info n s1 (undone info n s2 t) = undone info n s1 t := by
  unfold undone withOutput restoreOutput
  simp only [Snapshot.mk.injEq, true_and]
  funext i
  split_ifs <;> rfl

/-- Dropping a stack of iterations restores the captures from before the first of them. -/
theorem dropIterations_eq (h : List.Forall₂ (fun i p => p.subpatternBackup =
      saveOutput info.subpatternId i.entered.output) stack contexts) (hne : stack ≠ [])
    (hbottom : ∀ i, stack.getLast? = some i → i.entered = begin) (t : Snapshot) (c : ℕ) :
    dropIterations info body contexts ⟨t, c⟩ = ⟨undone info body.m_numSubpatterns begin t, c⟩ := by
  induction h generalizing t with
  | nil => exact absurd rfl hne
  | @cons i p stack contexts hp hrest ih =>
    have hreset : resetMatches info body p ⟨t, c⟩ =
        ⟨undone info body.m_numSubpatterns i.entered t, c⟩ := by
      rw [resetMatches, hp]
      rfl
    rw [dropIterations, hreset]
    cases hrest with
    | nil =>
      rw [hbottom i rfl]
      rfl
    | cons hq hrest =>
      rw [ih (by simp) (by rwa [List.getLast?_cons_cons] at hbottom), undone_undone]

theorem Holds.cons {i : Iteration} (h : Holds call info body begin (i :: stack) b) :
    ∃ context contexts, b = (⟨begin.pos, stack.length, contexts⟩ :
        BackTrackInfoParentheses).appendParenthesesDisjunctionContext
          (newContext info i.entered context) ∧
      Standing call info body i (newContext info i.entered context) ∧
      List.Forall₂ (Standing call info body) stack contexts := by
  obtain ⟨p, contexts, hp, hrest, hb⟩ := List.forall₂_cons_left_iff.mp h.contexts
  obtain ⟨backup, context⟩ := p
  obtain rfl : backup = saveOutput info.subpatternId i.entered.output := hp.backup
  refine ⟨context, contexts, ?_, hp, hrest⟩
  obtain ⟨start, amount, list⟩ := b
  have hstart : start = begin.pos := h.start
  have hamount : amount = stack.length + 1 := h.amount
  have hlist : list = newContext info i.entered context :: contexts := hb
  rw [hstart, hamount, hlist]
  rfl

/-- What follows a call of the body for the last of the minimum iterations. -/
def afterLastIteration (m : Machine) (call : ℕ → Call) (info : ParenthesesInfo)
    (body : ByteDisjunction) (begin : ℕ) (contexts : List ParenthesesDisjunctionContext)
    (amount : ℕ) (s0 : Snapshot) (_ : Unit) (n : ℕ) :
    Result DisjunctionContext → Except Stop GroupResult
  | (result, context, s) =>
    if result = .Match then
      greedyIterations m (call n) info body info.quantityMaxCount n
        ((⟨begin, amount, contexts⟩ :
          BackTrackInfoParentheses).appendParenthesesDisjunctionContext
            (newContext info s0 context)) s >>= finishLast info
    else .ok (result, ⟨begin, 0, []⟩, (dropIterations info body contexts
      (resetMatches info body (newContext info s0 context) s)).withPos begin)

theorem afterLastIteration_passesErrors (begin : ℕ)
    (contexts : List ParenthesesDisjunctionContext) (amount : ℕ) (s0 : Snapshot) (i : Unit) :
    PassesErrors (afterLastIteration m call info body begin contexts amount s0 i) := by
  intro e context s he
  refine ⟨⟨begin, 0, []⟩, (dropIterations info body contexts
    (resetMatches info body (newContext info s0 context) s)).withPos begin,
    Settles.of_eq fun n => ?_⟩
  rcases he with rfl | rfl <;> rfl

theorem backtrackParentheses_last (hinfo : info.quantityType = .Greedy) {amount : ℕ}
    (hmin : amount < info.quantityMinCount) (begin : ℕ)
    (contexts : List ParenthesesDisjunctionContext) (s0 : Snapshot) (context : DisjunctionContext)
    (k : LoopFuel) (s : State) (n : ℕ) :
    reenterGroup m call info body k ((⟨begin, amount, contexts⟩ :
        BackTrackInfoParentheses).appendParenthesesDisjunctionContext
          (newContext info s0 context)) s n = reenterNonZero call body .all context s n >>=
        afterLastIteration m call info body begin contexts amount s0 () n := by
  rw [reenterGroup, backtrackParentheses, hinfo]
  refine bind_congr ?_
  rintro ⟨result, context', s'⟩
  cases result with
  | Match => rfl
  | NoMatch | ErrorHitLimit | ErrorNoMemory => exact if_pos hmin

theorem implements_greedyBelow (hinfo : info.quantityType = .Greedy) (hbody : Runs call body search)
    (hle : info.quantityMinCount ≤ info.quantityMaxCount) (hb : Holds call info body begin stack b)
    (hlen : stack.length = info.quantityMinCount) (k : LoopFuel) (t : Snapshot) (c : ℕ) :
    GroupImplements m call info body (greedyBelow info body.m_numSubpatterns search begin
        (info.quantityMaxCount - info.quantityMinCount) stack t) c
      (reenterGroup m call info body k b ⟨t, c⟩) := by
  cases stack with
  | nil =>
    refine ⟨b, Settles.of_eq fun n => ?_⟩
    rw [reenterGroup, backtrackParentheses, hinfo]
    exact if_pos hb.amount
  | cons i stack =>
    obtain ⟨context, contexts, rfl, hi, hrest⟩ := hb.cons
    have hmin : stack.length < info.quantityMinCount := by
      rw [← hlen]
      exact Nat.lt_succ_self _
    have hnz := implements_nonZero call body (hi.resume t c) .all
    refine Implements.congr ?_ (Eventually.of_forall
      (backtrackParentheses_last hinfo hmin begin.pos contexts i.entered context k _))
    refine hnz.handle ?_ ?_ ?_ ()
    · intro _ s1 _ context1 c' below1 hspan _ hbelow1
      refine implements_greedy hinfo hbody _ c' .all ?_ ?_ (records_append hspan _) ?_
      · show stack.length + 1 + _ = _
        rw [List.length_cons] at hlen
        omega
      · exact hlen.ge
      · intro k1 t1 c1
        refine (hbelow1 () .all t1 c1).congr (Eventually.of_forall fun n => ?_)
        exact backtrackParentheses_last hinfo hmin begin.pos contexts i.entered context1 k1 _ n
    · intro _ t1 context1 c1
      refine ⟨⟨begin.pos, 0, []⟩, Settles.of_eq fun n => ?_⟩
      have hdrop : dropIterations info body (newContext info i.entered context1 :: contexts)
          ⟨t1, c1⟩ = ⟨undone info body.m_numSubpatterns begin t1, c1⟩ := by
        have hbackup := List.Forall₂.imp (fun _ _ h => Standing.backup h) hrest
        exact dropIterations_eq (List.Forall₂.cons rfl hbackup) (by simp) hb.bottom t1 c1
      show Except.ok (_, _, (dropIterations info body
        (newContext info i.entered context1 :: contexts) ⟨t1, c1⟩).withPos begin.pos) = _
      rw [hdrop]
      rfl
    · exact afterLastIteration_passesErrors begin.pos contexts stack.length i.entered
end

/-! ## Further iterations of a non-greedy group -/

section
variable (call info body)

/-- What follows a call of the body for the iteration after those of `b`, entered in `s0`. -/
def afterNonGreedyIteration (b : BackTrackInfoParentheses) (s0 : Snapshot) (k : LoopFuel) (n : ℕ) :
    Result DisjunctionContext → Except Stop GroupResult
  | (result, context, s) =>
    if result = .Match then
      .ok (.Match, b.appendParenthesesDisjunctionContext (newContext info s0 context),
        recordLast info (b.appendParenthesesDisjunctionContext (newContext info s0 context)) s)
    else if result ≠ .NoMatch then
      .ok (result, b, resetMatches info body (newContext info s0 context) s)
    else nonGreedyBacktrack (call n) info body (k n) b
      (resetMatches info body (newContext info s0 context) s)

variable {call info body}

theorem afterNonGreedyIteration_passesErrors (b : BackTrackInfoParentheses) (s0 : Snapshot)
    (k : LoopFuel) : PassesErrors (afterNonGreedyIteration call info body b s0 k) := by
  intro e context s he
  refine ⟨b, resetMatches info body (newContext info s0 context) s, Settles.of_eq fun n => ?_⟩
  rcases he with rfl | rfl <;> rfl

theorem nonGreedyBacktrack_append (b : BackTrackInfoParentheses) (s0 : Snapshot)
    (context : DisjunctionContext) {k k' : LoopFuel} (hk : k n = k' n + 1) (s : State) :
    nonGreedyBacktrack (call n) info body (k n)
        (b.appendParenthesesDisjunctionContext (newContext info s0 context)) s =
      reenterNonZero call body k context s n >>=
        afterNonGreedyIteration call info body b s0 k' n := by
  rw [hk]
  rw [nonGreedyBacktrack, ← hk]
  refine bind_congr ?_
  rintro ⟨result, context', s'⟩
  cases result <;> rfl

section
variable (hinfo : info.quantityType = .NonGreedy)
include hinfo

theorem backtrackParentheses_nonGreedy_lt
    (hb : b.matchAmount < info.quantityMaxCount) (k : LoopFuel) (s : Snapshot) (c n : ℕ) :
    reenterGroup m call info body k b ⟨s, c⟩ n =
      (call n body (m.uninitialized.setTerm 0) false ⟨cleared info body.m_numSubpatterns s, c⟩ >>=
        nonZeroRest call body .all n) >>= afterNonGreedyIteration call info body b s .all n := by
  rw [reenterGroup, backtrackParentheses, hinfo, if_pos hb]
  refine bind_congr ?_
  rintro ⟨result, context', s'⟩
  cases result <;> rfl

/-- **A non-greedy group** that has just matched carries out `nonGreedySearch`. -/
theorem implements_nonGreedy
    (hbody : Runs call body search) (j : ℕ) (c : ℕ) (hj : b.matchAmount + j = info.quantityMaxCount)
    (hlast : Records info b last)
    (hbelow : ∀ (k : LoopFuel) t c, GroupImplements m call info body (below t) c
      fun n => nonGreedyBacktrack (call n) info body (k n) b ⟨t, c⟩) :
    GroupImplements m call info body
      (nonGreedySearch info body.m_numSubpatterns search j last s below) c
      fun _ => .ok (.Match, b, recordLast info b ⟨s, c⟩) := by
  induction j generalizing last s below b c with
  | zero =>
    refine ⟨b, Settles.of_eq fun n => by rw [hlast], trivial, fun k t c' => ?_⟩
    refine (hbelow .all t c').congr (Eventually.of_forall fun n => ?_)
    rw [reenterGroup, backtrackParentheses, hinfo]
    exact if_neg (by omega)
  | succ j ih =>
    refine ⟨b, Settles.of_eq fun n => by rw [hlast], trivial, fun k t c' => ?_⟩
    refine Implements.congr ?_ (Eventually.of_forall
      (backtrackParentheses_nonGreedy_lt hinfo (by omega) k t c'))
    refine (implements_firstNonZero hbody m t c' .all).handle ?_ ?_
      (afterNonGreedyIteration_passesErrors b t) .all
    · intro _ s1 _ context c1 below1 hspan _ hbelow1
      refine ih c1 ?_ (records_append hspan b) ?_
      · show b.matchAmount + 1 + j = _
        omega
      · intro k1 t1 c2
        obtain ⟨k2, hk2⟩ := k1.eventually_succ
        refine (hbelow1 k2 k1 t1 c2).congr ?_
        filter_upwards [hk2] with n hn
        exact nonGreedyBacktrack_append b t context hn _
    · intro k1 t1 context c1
      exact hbelow k1 _ c1

/-- The way back into a stack of iterations of a non-greedy group. -/
theorem implements_nonGreedyBelow
    (hbody : Runs call body search) (h : List.Forall₂ (Standing call info body) stack contexts)
    (j start : ℕ) (hj : stack.length + j = info.quantityMaxCount) (k : LoopFuel) (t : Snapshot)
    (c : ℕ) : GroupImplements m call info body
      (nonGreedyBelow info body.m_numSubpatterns search j stack t) c
      fun n => nonGreedyBacktrack (call n) info body (k n) ⟨start, stack.length, contexts⟩
        ⟨t, c⟩ := by
  induction h generalizing j k t c with
  | nil =>
    obtain ⟨k', hk'⟩ := k.eventually_succ
    refine ⟨⟨start, 0, []⟩, ?_⟩
    filter_upwards [hk'] with n hn
    rw [hn]
    rfl
  | @cons i p stack contexts hp hrest ih =>
    obtain ⟨k', hk'⟩ := k.eventually_succ
    obtain ⟨backup, context⟩ := p
    obtain rfl : backup = saveOutput info.subpatternId i.entered.output := hp.backup
    have hlen : stack.length + 1 + j = info.quantityMaxCount := by
      rw [← hj, List.length_cons]
    have hnz := implements_nonZero call body (hp.resume t c) k
    refine Implements.congr ?_ (hk'.mono fun n hn =>
      nonGreedyBacktrack_append ⟨start, stack.length, contexts⟩ i.entered context hn _)
    refine hnz.handle ?_ ?_ (afterNonGreedyIteration_passesErrors _ i.entered) k'
    · intro _ s1 _ context1 c1 below1 hspan _ hbelow1
      refine implements_nonGreedy hinfo hbody j c1 hlen (records_append hspan _) ?_
      intro k1 t1 c2
      obtain ⟨k2, hk2⟩ := k1.eventually_succ
      refine (hbelow1 k2 k1 t1 c2).congr ?_
      filter_upwards [hk2] with n hn
      exact nonGreedyBacktrack_append _ i.entered context1 hn _
    · intro k1 t1 context1 c1
      exact ih (j + 1) (by omega) k1 _ c1
end

end

/-! ## The group -/

section
variable (m call info body)

/-- What `matchParentheses` does after the minimum number of iterations. -/
def groupRest (n : ℕ) (b : BackTrackInfoParentheses) (s : State) : Except Stop GroupResult :=
  match info.quantityType with
  | .FixedCount => .ok (.Match, b, recordLast info b s)
  | .Greedy =>
    greedyIterations m (call n) info body info.quantityMaxCount n b (recordLast info b s) >>=
      finishLast info
  | .NonGreedy => .ok (.Match, b, recordLast info b s)

variable {m call info body}

theorem matchParentheses_eq (s : State) : (fun n => matchParentheses m (call n) info body n s)
    =ᶠ[atTop] fun n => fixedIterations m (call n) info body info.quantityMinCount n
      ⟨s.pos, 0, []⟩ s >>= afterFixed (groupRest m call info body) n := by
  filter_upwards [eventually_ge_atTop 1] with n hn
  obtain ⟨n, rfl⟩ : ∃ j, n = j + 1 := ⟨n - 1, by omega⟩
  unfold matchParentheses minimumIterations
  by_cases hmin : info.quantityMinCount = 0
  · rw [if_pos hmin]
    rw [fixedIterations, if_neg (by rw [hmin]; exact Nat.not_lt_zero _)]
    unfold groupRest
    cases info.quantityType <;> rfl
  · rw [if_neg hmin, bind_assoc]
    refine bind_congr ?_
    rintro ⟨result, b, s'⟩
    cases result with
    | Match =>
      unfold groupRest
      cases info.quantityType <;> rfl
    | NoMatch | ErrorHitLimit | ErrorNoMemory => rfl

theorem backtrackParentheses_fixed (hinfo : info.quantityType = .FixedCount)
    (hcount : info.quantityMinCount = info.quantityMaxCount) (k : LoopFuel)
    (b : BackTrackInfoParentheses) (s : State) (n : ℕ) : reenterGroup m call info body k b s n =
      parenthesesDoBacktrack (call n) info body n b s >>=
        afterBack m call info body info.quantityMinCount (groupRest m call info body) .all n := by
  rw [reenterGroup, backtrackParentheses, hinfo, hcount]
  refine bind_congr ?_
  rintro ⟨result, b', s'⟩
  cases result with
  | Match =>
    refine bind_congr ?_
    rintro ⟨result, b'', s''⟩
    rw [afterFixed, groupRest, hinfo]
    rfl
  | NoMatch | ErrorHitLimit | ErrorNoMemory => rfl

section
variable (hbody : Runs call body search) (hle : info.quantityMinCount ≤ info.quantityMaxCount)
  (hfixed : info.quantityType = .FixedCount → info.quantityMinCount = info.quantityMaxCount)
include hbody hle hfixed

/-- What follows the minimum number of iterations carries out `groupLeaf`. -/
theorem implements_groupLeaf
    (c : ℕ) (hlen : stack.length = info.quantityMinCount) (hb : Holds call info body begin stack b)
    (hbelow : BackInto m call info body info.quantityMinCount (groupRest m call info body)
      (reenterGroup m call info body) Any b below) : GroupImplements m call info body
      (groupLeaf info body.m_numSubpatterns search begin stack s below) c
      fun n => groupRest m call info body n b ⟨s, c⟩ := by
  have hmax : stack.length + (info.quantityMaxCount - info.quantityMinCount) =
      info.quantityMaxCount := by omega
  unfold groupLeaf groupRest
  rw [recordLast_eq hb]
  cases hinfo : info.quantityType with
  | FixedCount =>
    refine ⟨b, Settles.of_eq fun n => rfl, trivial, fun k t c' => ?_⟩
    refine (hbelow .all .all t c').congr (Eventually.of_forall fun n => ?_)
    exact backtrackParentheses_fixed hinfo (hfixed hinfo) k b _ n
  | Greedy =>
    refine implements_greedy hinfo hbody _ c .all ?_ (by rw [hb.amount]; omega)
      (fun s' c' => recordLast_eq hb s' c') ?_
    · rwa [hb.amount]
    · exact fun k t c' => implements_greedyBelow hinfo hbody hle hb hlen k t c'
  | NonGreedy =>
    have hrest : ∀ (k : LoopFuel) t c, GroupImplements m call info body
        (nonGreedyBelow info body.m_numSubpatterns search
          (info.quantityMaxCount - info.quantityMinCount) stack t) c
        fun n => nonGreedyBacktrack (call n) info body (k n) b ⟨t, c⟩ := by
      intro k t c'
      have hnb := implements_nonGreedyBelow (m := m) hinfo hbody hb.contexts
        (info.quantityMaxCount - info.quantityMinCount) b.begin hmax k t c'
      rwa [← hb.amount] at hnb
    have key := implements_nonGreedy (s := s) hinfo hbody
      (info.quantityMaxCount - info.quantityMinCount) c (by rw [hb.amount]; exact hmax)
      (fun s' c' => recordLast_eq hb s' c') hrest
    rwa [recordLast_eq hb] at key

/-- **A quantified group carries out its search.** `matchParentheses`, and every later
`backtrackParentheses`, finds what `groupSearch` finds, if calls on the body carry out `search`. -/
theorem implements_group (s : Snapshot) (c : ℕ) :
    GroupImplements m call info body (groupSearch info body.m_numSubpatterns search s) c
      fun n => matchParentheses m (call n) info body n ⟨s, c⟩ := by
  refine Implements.congr ?_ (matchParentheses_eq ⟨s, c⟩)
  refine implements_fixed hbody ?_ info.quantityMinCount c .all (by simp)
    (holds_nil call info body s) (fun _ => rfl) (backInto_nil rfl)
  intro stack s1 below b c1 hlen hb hbelow
  exact implements_groupLeaf hbody hle hfixed c1 hlen hb hbelow
end

end
end

end JscAndroid.Yarr.Groups
