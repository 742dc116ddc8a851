import JscAndroid.Yarr.Captures
import JscAndroid.Yarr.Groups

/-!
# Quantified groups and the RepeatMatcher

`repeatMatcher` is the abstract operation RepeatMatcher of ECMAScript with the continuation taken
out: a matcher maps a state to the list of its results in the order in which they are tried.
-/

namespace JscAndroid.Yarr.RepeatMatcher

open Backtrack.Resumption ByteCode Interpreter Searches Refinement Captures Groups List

variable {last : Option (ℕ × ℕ)} {F : Snapshot → Prop} {r : Search} {below : Snapshot → Search}
variable {rest : List Snapshot} {x : Timed GroupResult}

/-! ## Matchers -/

/-- A matcher on an input of length `len`: it stays where it is or moves forward. -/
structure Matcher (len : ℕ) where
  results : Snapshot → List Snapshot
  advances : ∀ s y, y ∈ results s → y.pos = s.pos ∨ s.pos < y.pos ∧ y.pos ≤ len

variable {len : ℕ}

/-- The matcher of a group: that of its body, and the capture of the group if it has one. -/
def groupMatcher (info : ParenthesesInfo) (m : Matcher len) : Matcher len where
  results x := (m.results x).map fun y => recorded info (some (x.pos, y.pos)) y
  advances := by
    intro s y hy
    obtain ⟨y', hy', rfl⟩ := mem_map.mp hy
    rw [recorded_pos]
    exact m.advances s y' hy'

/-- **RepeatMatcher**: the results of `m{min,max}` from `x`, where each iteration first resets the
captures of `count` groups. Once the minimum is reached an iteration must not be empty. -/
def repeatMatcher (info : ParenthesesInfo) (count : ℕ) (m : Matcher len) (greedy : Bool) (min : ℕ)
    (max : ℕ∞) (x : Snapshot) : List Snapshot :=
  if max = 0 then [x]
  else
    let iterations := (m.results (cleared info count x)).attach.flatMap fun y =>
      if h : min = 0 ∧ y.1.pos = x.pos then []
      else repeatMatcher info count m greedy (min - 1) (max - 1) y.1
    if min ≠ 0 then iterations
    else if greedy then iterations ++ [x] else x :: iterations
termination_by (min, len - x.pos)
decreasing_by
  have hy := m.advances _ y.1 y.2
  rw [cleared_pos] at hy
  rcases Nat.eq_zero_or_pos min with h0 | h0
  · have hne : y.1.pos ≠ x.pos := fun he => h ⟨h0, he⟩
    rw [h0]
    exact Prod.Lex.right 0 (by omega)
  · exact Prod.Lex.left _ _ (by omega)

/-- What one round adds. -/
def iterations (info : ParenthesesInfo) (count : ℕ) (m : Matcher len) (greedy : Bool) (min : ℕ)
    (max : ℕ∞) (x : Snapshot) : List Snapshot :=
  (m.results (cleared info count x)).flatMap fun y =>
    if min = 0 ∧ y.pos = x.pos then []
    else repeatMatcher info count m greedy (min - 1) (max - 1) y

section
variable (info : ParenthesesInfo) (count : ℕ) (m : Matcher len)
include info count m

theorem repeatMatcher_eq (greedy : Bool)
    (min : ℕ) (max : ℕ∞) (x : Snapshot) : repeatMatcher info count m greedy min max x =
      if max = 0 then [x] else if min ≠ 0 then iterations info count m greedy min max x
      else if greedy then iterations info count m greedy min max x ++ [x]
      else x :: iterations info count m greedy min max x := by
  rw [iterations, ← attach_map_subtype_val (m.results (cleared info count x)), flatMap_map,
    repeatMatcher]
  rfl

/-- The rounds of a group, in terms of the results of its body. -/
theorem iterations_groupMatcher (greedy : Bool) (min : ℕ) (max : ℕ∞) (x : Snapshot) :
    iterations info count (groupMatcher info m) greedy min max x =
      (m.results (cleared info count x)).flatMap fun y => if min = 0 ∧ y.pos = x.pos then []
        else repeatMatcher info count (groupMatcher info m) greedy (min - 1) (max - 1)
          (recorded info (some (x.pos, y.pos)) y) := by
  simp only [iterations, groupMatcher, flatMap_map, recorded_pos, cleared_pos]

/-- The rounds beyond the minimum: an empty result of the body is not an iteration. -/
theorem iterations_nonZero (greedy : Bool) (n : ℕ) (x : Snapshot) :
    iterations info count (groupMatcher info m) greedy 0 ((n + 1 : ℕ) : ℕ∞) x =
      ((m.results (cleared info count x)).flatMap fun y =>
        if y.pos = x.pos then [] else [y]).flatMap fun y => repeatMatcher info count
          (groupMatcher info m) greedy 0 n (recorded info (some (x.pos, y.pos)) y) := by
  rw [iterations_groupMatcher, flatMap_assoc]
  refine flatMap_congr fun y _ => ?_
  have hsub : ((n + 1 : ℕ) : ℕ∞) - 1 = n := rfl
  rw [hsub]
  by_cases hy : y.pos = x.pos
  · simp [hy]
  · simp [hy]
end

/-! ## Searches that find the results of a matcher -/

/-- In a context that may differ in the captures of `X`, the search of a group's body finds the
results of `m` one after another, from every state in which the group is entered and its captures
are reset; the captures in `Y` stay ranges of the input. It may be entered again after the group
has recorded its own capture, and what it leaves in the captures of the group when it fails does not
matter. It stops only with an `E`. -/
def BodyFinds (X Y : Set ℕ) (info : ParenthesesInfo) (count : ℕ) (E : Halt → Prop)
    (search : Snapshot → Search) (m : Matcher len) : Prop :=
  ∀ s s', Entered info.inputPosition len Y s → (∀ n ∈ groupIds info count, capture s n = none) →
    AgreeOff (X ∪ ownId info) s s' →
    (search s').Enumerates (AgreeOff (X ∪ ownId info)) (AgreeOff (X ∪ ownId info))
      (AgreeOff (X ∪ groupIds info count) s) E (m.results s) ∧ ∀ y ∈ m.results s, Ranges len Y y

section
variable {X Y : Set ℕ} {info : ParenthesesInfo} {count : ℕ} {E : Halt → Prop}
variable {search : Snapshot → Search} {m : Matcher len}

/-- How the state `s` of the code stands to the state `x` of the specification between two
iterations: the code records the capture of the last iteration only at the end. -/
structure Stage (X : Set ℕ) (info : ParenthesesInfo) (x : Snapshot) (last : Option (ℕ × ℕ))
    (s : Snapshot) : Prop where
  off : AgreeOff (X ∪ ownId info) x s
  on : AgreeOff X x (recorded info last s)

theorem Stage.next {x y s s1 : Snapshot} (h : Stage X info x last s)
    (hy : AgreeOff (X ∪ ownId info) y s1) :
    Stage X info (recorded info (some (x.pos, y.pos)) y) (some (s.pos, s1.pos)) s1 := by
  refine ⟨(agreeOff_recorded _ y).symm.trans hy, ?_⟩
  rw [← h.off.pos, ← hy.pos]
  exact hy.recorded _ _

/-- After an iteration that failed is undone, the stage is the one before it. -/
theorem Stage.back {x s t : Snapshot} (h : Stage X info x last s)
    (hown : ownId info ⊆ groupIds info count)
    (ht : AgreeOff (X ∪ groupIds info count) (cleared info count x) t) :
    Stage X info x last (undone info count s t) := by
  have hpos : x.pos = (undone info count s t).pos := ht.pos
  have hcap : ∀ n, n ∉ X → n ∉ ownId info →
      capture x n = capture (undone info count s t) n := by
    intro n hX ho
    rw [capture_undone]
    split_ifs with hg
    · exact h.off.captures n fun hn => hn.elim hX ho
    · have := ht.captures n fun hn => hn.elim hX hg
      rwa [capture_cleared, if_neg hg] at this
  refine ⟨⟨hpos, fun n hn => hcap n (fun hX => hn (Or.inl hX)) fun ho => hn (Or.inr ho)⟩, ?_⟩
  refine ⟨by rw [recorded_pos]; exact hpos, fun n hX => ?_⟩
  by_cases ho : n ∈ ownId info
  · rw [h.on.captures n hX]
    cases last with
    | none =>
      show capture s n = capture (undone info count s t) n
      rw [capture_undone, if_pos (hown ho)]
    | some r => rw [capture_recorded_own info ho, capture_recorded_own info ho]
  · rw [capture_recorded_other info ho]
    exact hcap n hX ho

/-- Only the results that do not end where the iteration began. -/
theorem enumerates_nonZero {l : List Snapshot} (h : r.Enumerates (AgreeOff X) (AgreeOff X) F E l)
    (begin : ℕ) : (nonZero begin r).Enumerates (AgreeOff X) (AgreeOff X) F E
      (l.flatMap fun y => if y.pos = begin then [] else [y]) := by
  rw [← append_nil (flatMap _ l)]
  refine h.handle ?_ (fun t ht => ⟨rfl, ht⟩) fun _ => id
  intro y s k below rest _ hy hbelow
  by_cases hpos : y.pos = begin
  · have hs : s.pos = begin := hy.pos ▸ hpos
    rw [if_pos hpos, if_neg (by simp [hs])]
    exact hbelow s (AgreeOff.refl X s)
  · have hs : s.pos ≠ begin := fun he => hpos (hy.pos.trans he)
    rw [if_neg hpos, if_pos (by simp [hs])]
    exact ⟨y, rest, rfl, hy, hbelow⟩

variable (hlen : len ≤ UINT_MAX) (hown : ownId info ⊆ groupIds info count)
  (hbody : BodyFinds X Y info count E search m)

include hlen hbody in
/-- An iteration keeps the states in which the group is entered. -/
theorem entered_next {x y : Snapshot} (hx : Entered info.inputPosition len Y x)
    (hy : y ∈ m.results (cleared info count x)) :
    Entered info.inputPosition len Y (recorded info (some (x.pos, y.pos)) y) := by
  refine hx.recorded hlen (m.advances (cleared info count x) y hy) ?_
  refine (hbody _ _ hx.cleared (fun n hn => ?_) (AgreeOff.refl _ _)).2 y hy
  rw [capture_cleared, if_pos hn]

theorem mem_of_mem_nonZero {l : List Snapshot} {begin : ℕ} {y : Snapshot}
    (hy : y ∈ l.flatMap fun y => if y.pos = begin then [] else [y]) : y ∈ l := by
  obtain ⟨z, hz, hy⟩ := mem_flatMap.mp hy
  split_ifs at hy
  · cases hy
  · rwa [mem_singleton.mp hy]

include hown hbody in
theorem enumerates_iteration {x s : Snapshot} (hx : Entered info.inputPosition len Y x)
    (h : Stage X info x last s) :
    (search (cleared info count s)).Enumerates (AgreeOff (X ∪ ownId info))
      (AgreeOff (X ∪ ownId info)) (AgreeOff (X ∪ groupIds info count) (cleared info count x))
      E (m.results (cleared info count x)) := by
  refine (hbody _ _ hx.cleared ?_ ((h.off.cleared hown).mono Set.subset_union_left)).1
  intro n hn
  rw [capture_cleared, if_pos hn]

include hlen hown hbody

/-- **Greedy iterations** find the results of RepeatMatcher. -/
theorem enumerates_greedy (n : ℕ) {x s : Snapshot} (hx : Entered info.inputPosition len Y x)
    (h : Stage X info x last s)
    (hbelow : ∀ t, AgreeOff X x t → (below t).Enumerates (AgreeOff X) (AgreeOff X) F E rest) :
    (greedySearch info count search n last s below).Enumerates (AgreeOff X) (AgreeOff X) F
      E (repeatMatcher info count (groupMatcher info m) true 0 n x ++ rest) := by
  induction n generalizing x s last below rest with
  | zero =>
    rw [repeatMatcher_eq]
    exact ⟨x, rest, rfl, h.on, fun t ht => hbelow t (h.on.trans ht)⟩
  | succ n ih =>
    have hnz := enumerates_nonZero (enumerates_iteration hown hbody hx h) s.pos
    rw [repeatMatcher_eq, if_neg (by simp), if_neg (by simp), if_pos rfl, iterations_nonZero,
      append_assoc, h.off.pos]
    refine hnz.handle ?_ ?_ fun _ => id
    · intro y s1 k below1 rest1 hmem hy hbelow1
      have hnext := h.next hy
      have hentered := entered_next hlen hbody hx (mem_of_mem_nonZero hmem)
      rw [h.off.pos] at hnext hentered
      refine ih hentered hnext fun t ht => hbelow1 t ?_
      exact hy.symm.trans ((agreeOff_recorded _ y).trans (ht.mono Set.subset_union_left))
    · intro t ht
      have hback := h.back hown ht
      exact ⟨x, rest, rfl, hback.on, fun t' ht' => hbelow t' (hback.on.trans ht')⟩

/-- **Non-greedy iterations** find the results of RepeatMatcher. -/
theorem enumerates_nonGreedy (n : ℕ) {x s : Snapshot} (hx : Entered info.inputPosition len Y x)
    (h : Stage X info x last s)
    (hbelow : ∀ t, AgreeOff X x t → (below t).Enumerates (AgreeOff X) (AgreeOff X) F E rest) :
    (nonGreedySearch info count search n last s below).Enumerates (AgreeOff X) (AgreeOff X) F
      E (repeatMatcher info count (groupMatcher info m) false 0 n x ++ rest) := by
  induction n generalizing x s last below rest with
  | zero =>
    rw [repeatMatcher_eq]
    exact ⟨x, rest, rfl, h.on, fun t ht => hbelow t (h.on.trans ht)⟩
  | succ n ih =>
    rw [repeatMatcher_eq, iterations_nonZero]
    refine ⟨x, _, rfl, h.on, fun t ht => ?_⟩
    -- the next iteration starts from the recorded state in which the group is entered again
    have hxt : AgreeOff X x t := h.on.trans ht
    have ht' : Stage X info x none t := ⟨hxt.mono Set.subset_union_left, hxt⟩
    have hnz := enumerates_nonZero (enumerates_iteration hown hbody hx ht') x.pos
    rw [hxt.pos] at hnz ⊢
    refine hnz.handle ?_ ?_ fun _ => id
    · intro y s1 k below1 rest1 hmem hy hbelow1
      have hnext := ht'.next hy
      have hentered := entered_next hlen hbody hx (mem_of_mem_nonZero hmem)
      rw [hxt.pos] at hnext hentered
      refine ih hentered hnext fun t1 ht1 => hbelow1 t1 ?_
      exact hy.symm.trans ((agreeOff_recorded _ y).trans (ht1.mono Set.subset_union_left))
    · intro t1 ht1
      exact hbelow _ (ht'.back hown ht1).on

/-- **A fixed number of iterations** finds the results of RepeatMatcher. -/
theorem enumerates_fixed (greedy : Bool) (n : ℕ) {stack : List Iteration} {x s : Snapshot}
    (hx : Entered info.inputPosition len Y x) (h : Stage X info x (lastRange stack) s)
    (hbelow : ∀ t, AgreeOff (X ∪ ownId info) x t → (stack = [] → AgreeOff X x t) →
      (below t).Enumerates (AgreeOff X) (AgreeOff X) F E rest) : (fixedSearch info count search
      (fun stack s below => .ok (recorded info (lastRange stack) s) below) n stack s
        below).Enumerates (AgreeOff X) (AgreeOff X) F E
      (repeatMatcher info count (groupMatcher info m) greedy n n x ++ rest) := by
  induction n generalizing stack x s below rest with
  | zero =>
    rw [repeatMatcher_eq]
    refine ⟨x, rest, rfl, h.on, fun t ht => ?_⟩
    have hxt := h.on.trans ht
    exact hbelow t (hxt.mono Set.subset_union_left) fun _ => hxt
  | succ n ih =>
    have hlist : repeatMatcher info count (groupMatcher info m) greedy (n + 1) ((n + 1 : ℕ) : ℕ∞)
        x = (m.results (cleared info count x)).flatMap fun y => repeatMatcher info count
          (groupMatcher info m) greedy n n (recorded info (some (x.pos, y.pos)) y) := by
      have hsub : ((n + 1 : ℕ) : ℕ∞) - 1 = n := rfl
      rw [repeatMatcher_eq, iterations_groupMatcher, hsub]
      simp
    rw [hlist]
    refine (enumerates_iteration hown hbody hx h).handle ?_ ?_ fun _ => id
    · intro y s1 k below1 rest1 hmem hy hbelow1
      refine ih (entered_next hlen hbody hx hmem) (h.next hy) fun t ht _ => hbelow1 t ?_
      exact hy.symm.trans ((agreeOff_recorded _ y).trans ht)
    · intro t ht
      have hback := h.back hown ht
      refine hbelow _ hback.off fun hnil => ?_
      have hon := hback.on
      rwa [hnil] at hon

/-- **A quantified group** finds the results of RepeatMatcher, if its count is fixed or its minimum
is zero. -/
theorem enumerates_group (greedy : Bool)
    (hinfo : info.quantityType = .FixedCount ∨ (info.quantityMinCount = 0 ∧
      info.quantityType = if greedy then .Greedy else .NonGreedy))
    (hfixed : info.quantityType = .FixedCount → info.quantityMinCount = info.quantityMaxCount)
    {x s : Snapshot} (hx : Entered info.inputPosition len Y x) (h : AgreeOff X x s) :
    (groupSearch info count search s).Enumerates (AgreeOff X) (AgreeOff X) (AgreeOff X x) E
      (repeatMatcher info count (groupMatcher info m) greedy info.quantityMinCount
        (info.quantityMaxCount : ℕ) x) := by
  have hstage : Stage X info x none s := ⟨h.mono Set.subset_union_left, h⟩
  have hfail : ∀ t, AgreeOff X x t → (Res.fail t : Search).Enumerates (AgreeOff X) (AgreeOff X)
      (AgreeOff X x) E [] := fun t ht => ⟨rfl, ht⟩
  unfold groupSearch groupLeaf
  rcases hinfo with htype | ⟨hmin, htype⟩
  · rw [htype, ← hfixed htype]
    have hempty : Stage X info x (lastRange []) s := hstage
    have key := enumerates_fixed hlen hown hbody greedy info.quantityMinCount hx hempty
      fun t _ ht => hfail t (ht rfl)
    rwa [append_nil] at key
  · rw [htype, hmin]
    cases greedy with
    | true =>
      have key := enumerates_greedy hlen hown hbody info.quantityMaxCount hx hstage hfail
      rwa [append_nil] at key
    | false =>
      have key := enumerates_nonGreedy hlen hown hbody info.quantityMaxCount hx hstage hfail
      rwa [append_nil] at key
end

theorem repeatMatcher_top (info : ParenthesesInfo) (count : ℕ) (m : Matcher len) (greedy : Bool)
    (n : ℕ) {x : Snapshot} (hx : len ≤ n + x.pos) :
    repeatMatcher info count m greedy 0 n x = repeatMatcher info count m greedy 0 ⊤ x := by
  induction n generalizing x with
  | zero =>
    have hnil : iterations info count m greedy 0 ⊤ x = [] := by
      refine flatMap_eq_nil_iff.mpr fun y hy => if_pos ⟨rfl, ?_⟩
      have := m.advances _ y hy
      rw [cleared_pos] at this
      omega
    rw [repeatMatcher_eq, if_pos (by simp), repeatMatcher_eq, if_neg (by simp), if_neg (by simp),
      hnil]
    split_ifs <;> rfl
  | succ n ih =>
    have hiter : iterations info count m greedy 0 ((n + 1 : ℕ) : ℕ∞) x =
        iterations info count m greedy 0 ⊤ x := by
      refine flatMap_congr fun y hy => ?_
      have hadv := m.advances _ y hy
      rw [cleared_pos] at hadv
      by_cases hpos : y.pos = x.pos
      · rw [if_pos ⟨rfl, hpos⟩, if_pos ⟨rfl, hpos⟩]
      · have hsub : ((n + 1 : ℕ) : ℕ∞) - 1 = n := rfl
        rw [if_neg (by simp [hpos]), if_neg (by simp [hpos]), hsub, ih (by omega)]
        rfl
    rw [repeatMatcher_eq, if_neg (by simp), hiter]
    conv_rhs => rw [repeatMatcher_eq, if_neg (by simp)]

/-! ## The sequence of matches of a group -/

/-- Repeated `backtrackParentheses` calls, each right after the match before it: the states they
report, and the result that ends them. -/
def laterMatches (m : Machine) (call : Call) (info : ParenthesesInfo) (body : ByteDisjunction)
    (fuel : ℕ) : ℕ → BackTrackInfoParentheses → State →
    Except Stop (List Snapshot × JSRegExpResult)
  | 0, _, _ => .error .outOfFuel
  | k + 1, b, s => do
    let (result, b, s) ← backtrackParentheses m call info body fuel b s
    if result = .Match then
      (laterMatches m call info body fuel k b s).map fun (found, last) =>
        (s.toSnapshot :: found, last)
    else return ([], result)

/-- One `matchParentheses` call followed by repeated `backtrackParentheses` calls, with nested calls
at a depth. -/
def allMatches (m : Machine) (depth : ℕ) (info : ParenthesesInfo) (body : ByteDisjunction)
    (fuel : ℕ) (s : State) : Except Stop (List Snapshot × JSRegExpResult) := do
  let (result, b, s) ← matchParentheses m (matchDisjunction m fuel depth) info body fuel s
  if result = .Match then
    (laterMatches m (matchDisjunction m fuel depth) info body fuel fuel b s).map
      fun (found, last) => (s.toSnapshot :: found, last)
  else return ([], result)

/-- The states found agree with a part of the results, and with all of them if the sequence ends
with `NoMatch`; it ends otherwise only if the match limit or the stack is exhausted. -/
structure FindsAll (E : Halt → Prop) (cost c : ℕ) (results found : List Snapshot)
    (last : JSRegExpResult) : Prop where
  initial : ∃ l, l <+: results ∧ List.Forall₂ (AgreeOff ∅) l found
  complete : last = .NoMatch → List.Forall₂ (AgreeOff ∅) results found
  ends : last ≠ .Match
  memory : last = .ErrorNoMemory → E .noMemory
  limit : cost < c → c < 2 ^ 32 → last ≠ .ErrorHitLimit

section
variable (m : Machine) (call : ℕ → Call) (info : ParenthesesInfo) (body : ByteDisjunction)

/-- What follows a call: the match it reports, and those of later calls. -/
def collect (k : LoopFuel) (n : ℕ) : GroupResult → Except Stop (List Snapshot × JSRegExpResult)
  | (result, b, s) =>
    if result = .Match then
      (laterMatches m (call n) info body n (k n) b s).map fun (found, last) =>
        (s.toSnapshot :: found, last)
    else .ok ([], result)

theorem laterMatches_succ {k k' : LoopFuel} {n : ℕ} (hk : k n = k' n + 1)
    (b : BackTrackInfoParentheses) (s : State) : laterMatches m (call n) info body n (k n) b s =
      reenterGroup m call info body .all b s n >>= collect m call info body k' n := by
  rw [hk]
  rfl

variable {m call info body}

theorem collect_fails {e : JSRegExpResult} (hx : Fails x e) (he : e ≠ .Match) (k : LoopFuel) :
    Settles (fun n => x n >>= collect m call info body k n) (.ok ([], e)) := by
  obtain ⟨b, s, hb⟩ := hx
  refine Settles.congr (Settles.of_eq fun n => ?_) hb.bind_ok
  exact if_neg he

/-- A group that carries out a search reports what the search finds. -/
theorem collect_settles {E : Halt → Prop} (hE : ∀ e, E e → e = .noMemory) {c : ℕ}
    {results : List Snapshot} (hx : GroupImplements m call info body r c x)
    (hr : r.Enumerates (AgreeOff ∅) (AgreeOff ∅) F E results) (k : LoopFuel) :
    ∃ found last, Settles (fun n => x n >>= collect m call info body k n) (.ok (found, last)) ∧
      FindsAll E r.cost c results found last := by
  induction r generalizing c x results k with
  | fail s =>
    obtain ⟨b, hb⟩ := hx
    obtain ⟨rfl, -⟩ := hr
    refine ⟨[], .NoMatch, Settles.congr (Settles.of_eq fun n => rfl) hb.bind_ok, ?_⟩
    exact ⟨⟨[], prefix_rfl, .nil⟩, fun _ => .nil, by decide, nofun, fun _ _ => by decide⟩
  | ok s resume ih =>
    obtain ⟨b, hb, -, hrest⟩ := hx
    obtain ⟨y, l', rfl, hy, hl'⟩ := hr
    obtain ⟨k', hk'⟩ := k.eventually_succ
    obtain ⟨found, last, hsettles, hfinds⟩ :=
      ih s (hrest .all s c) (hl' s (AgreeOff.refl ∅ s)) k'
    refine ⟨s :: found, last, ?_, ?_⟩
    · refine Settles.congr ?_ hb.bind_ok
      filter_upwards [hk', hsettles] with n hn hlater
      show (laterMatches m (call n) info body n (k n) b ⟨s, c⟩).map _ = _
      rw [laterMatches_succ m call info body hn, hlater]
      rfl
    · obtain ⟨l, hl, hfound⟩ := hfinds.initial
      exact ⟨⟨y :: l, prefix_cons_inj y |>.mpr hl, .cons hy hfound⟩,
        fun hlast => .cons hy (hfinds.complete hlast), hfinds.ends, hfinds.memory, hfinds.limit⟩
  | tick r ih =>
    by_cases h0 : u32Sub c 1 = 0
    · refine ⟨[], .ErrorHitLimit, collect_fails (hx.1 h0) (by decide) k, ?_⟩
      refine ⟨⟨[], nil_prefix, .nil⟩, nofun, by decide, nofun, fun hc hlt => ?_⟩
      unfold u32Sub u32 at h0
      have : r.cost + 1 < c := hc
      omega
    · obtain ⟨found, last, hsettles, hfinds⟩ := ih (hx.2 h0) hr k
      refine ⟨found, last, hsettles, hfinds.initial, hfinds.complete, hfinds.ends, hfinds.memory,
        fun hc hlt => ?_⟩
      have hc' : r.cost + 1 < c := hc
      have hsub : u32Sub c 1 = c - 1 := u32Sub_of_le (by omega) hlt
      exact hfinds.limit (by omega) (by omega)
  | stop e =>
    obtain rfl := hE e hr
    refine ⟨[], .ErrorNoMemory, collect_fails hx (by decide) k, ?_⟩
    exact ⟨⟨[], nil_prefix, .nil⟩, nofun, by decide, fun _ => hr, fun _ _ => by decide⟩

/-- What a group that carries out a search without stopping reports, within the match limit. -/
theorem collect_found {c : ℕ} {l : List Snapshot} (hx : GroupImplements m call info body r c x)
    (hl : r.found = some l) (hc : r.cost < c) (hlt : c < 2 ^ 32) (k : LoopFuel) :
    Settles (fun n => x n >>= collect m call info body k n) (.ok (l, .NoMatch)) := by
  induction r generalizing c x l k with
  | fail s =>
    obtain ⟨b, hb⟩ := hx
    obtain rfl : [] = l := Option.some.inj hl
    exact Settles.congr (Settles.of_eq fun n => rfl) hb.bind_ok
  | ok s resume ih =>
    obtain ⟨b, hb, -, hrest⟩ := hx
    obtain ⟨l', hl', rfl⟩ := Option.map_eq_some_iff.mp hl
    obtain ⟨k', hk'⟩ := k.eventually_succ
    have hlater := ih s (hrest .all s c) hl' hc hlt k'
    refine Settles.congr ?_ hb.bind_ok
    filter_upwards [hk', hlater] with n hn hlater
    show (laterMatches m (call n) info body n (k n) b ⟨s, c⟩).map _ = _
    rw [laterMatches_succ m call info body hn, hlater]
    rfl
  | tick r ih =>
    have hc' : r.cost + 1 < c := hc
    have hsub : u32Sub c 1 = c - 1 := u32Sub_of_le (by omega) hlt
    exact ih (hx.2 (by omega)) hl (by omega) (by omega) k
  | stop e => exact absurd hl (by simp [Res.found])
end

end JscAndroid.Yarr.RepeatMatcher
