import JscAndroid.Sorting.Stable

/-!
# `Array.prototype.sort`

The built-in copies the defined values of the receiver, sorts the copy, and writes it back in front
of the `undefined`s and the holes. With a comparator the copy is sorted by merging runs of doubled
width between two buffers. Without one large groups are distributed by the code unit of their
strings at one depth, and small or deep ones go to the merge sort.

`V` is the type of the values other than `undefined`; reading a hole gives `undefined`. A comparator
may keep a state, and it may throw.
-/

namespace JscAndroid.Builtins.ArraySort

/-! ## Values and comparators -/

inductive Exception (ε : Type)
  | typeError
  | thrown (e : ε)
  deriving DecidableEq, Repr

/-- A UTF-16 code unit. -/
abbrev CodeUnit := Fin (2 ^ 16)

/-- What a comparator returns: a number counts by its sign, with `none` for NaN, and any other
value by its comparison with zero. -/
inductive Comparison
  | boolean (value : Bool)
  | number (sign : Option SignType)
  | other (lessThanZero : Bool)
  deriving DecidableEq

/-- `comparisonResult === false || comparisonResult < 0`. -/
def Comparison.takesRight : Comparison → Bool
  | .boolean value => !value
  | .number sign => sign = some .neg
  | .other lessThanZero => lessThanZero

/-- A call of a comparator, in some state of the program. -/
abbrev Comparator (σ ε E : Type) := Option E → Option E → σ → Except (Exception ε) (Comparison × σ)

variable {σ ε E V : Type}

/-- A dense array; `none` is a hole or `undefined`. -/
abbrev JSArray (E : Type) := List (Option E)

def newArrayWithSize (size : ℕ) : JSArray E := List.replicate size none

/-- `array[index]`. -/
def read (array : JSArray E) (index : ℕ) : Option E := array.getD index none

def putByValDirect (array : JSArray E) (index : ℕ) (value : Option E) : JSArray E :=
  array.set index value

/-! ## Merge sort -/

section
variable (comparator : Comparator σ ε E)

/-- The loop of `sortMerge`. -/
def sortMergeLoop (src : JSArray E) (leftEnd rightEnd dstIndex left right : ℕ) (dst : JSArray E)
    (s : σ) : Except (Exception ε) (JSArray E × σ) :=
  if dstIndex < rightEnd then
    if right < rightEnd then
      if left ≥ leftEnd then
        sortMergeLoop src leftEnd rightEnd (dstIndex + 1) left (right + 1)
          (putByValDirect dst dstIndex (read src right)) s
      else
        match comparator (read src right) (read src left) s with
        | .error e => .error e
        | .ok (comparisonResult, s) =>
          if comparisonResult.takesRight then
            sortMergeLoop src leftEnd rightEnd (dstIndex + 1) left (right + 1)
              (putByValDirect dst dstIndex (read src right)) s
          else
            sortMergeLoop src leftEnd rightEnd (dstIndex + 1) (left + 1) right
              (putByValDirect dst dstIndex (read src left)) s
    else
      sortMergeLoop src leftEnd rightEnd (dstIndex + 1) (left + 1) right
        (putByValDirect dst dstIndex (read src left)) s
  else .ok (dst, s)
termination_by rightEnd - dstIndex

def sortMerge (dst src : JSArray E) (srcIndex srcEnd width : ℕ) (s : σ) :
    Except (Exception ε) (JSArray E × σ) :=
  let left := srcIndex
  let leftEnd := min (left + width) srcEnd
  let right := leftEnd
  let rightEnd := min (right + width) srcEnd
  sortMergeLoop comparator src leftEnd rightEnd left left right dst s

/-- The inner loop of `sortMergeSort`, at the width `2 ^ level`. -/
def sortMergePass (src : JSArray E) (valueCount level srcIndex : ℕ) (dst : JSArray E) (s : σ) :
    Except (Exception ε) (JSArray E × σ) :=
  if srcIndex < valueCount then
    match sortMerge comparator dst src srcIndex valueCount (2 ^ level) s with
    | .error e => .error e
    | .ok (dst, s) => sortMergePass src valueCount level (srcIndex + 2 * 2 ^ level) dst s
  else .ok (dst, s)
termination_by valueCount - srcIndex
decreasing_by
  have := Nat.two_pow_pos level
  omega

/-- The outer loop of `sortMergeSort`, from the width `2 ^ level` on. -/
def sortMergePasses (valueCount level : ℕ) (src dst : JSArray E) (s : σ) :
    Except (Exception ε) (JSArray E × σ) :=
  if 2 ^ level < valueCount then
    match sortMergePass comparator src valueCount level 0 dst s with
    | .error e => .error e
    | .ok (dst, s) => sortMergePasses valueCount (level + 1) dst src s
  else .ok (src, s)
termination_by valueCount - 2 ^ level
decreasing_by
  rw [Nat.pow_succ]
  have := Nat.two_pow_pos level
  omega

def sortMergeSort (array : JSArray E) (s : σ) : Except (Exception ε) (JSArray E × σ) :=
  sortMergePasses comparator array.length 0 array (newArrayWithSize array.length) s
end

/-! ## Bucket sort -/

/-- A value with its string. -/
structure Entry (V : Type) where
  string : List CodeUnit
  value : V

/-- `sortStringComparator`; the property access throws for `undefined`. -/
def sortStringComparator : Comparator σ ε (Entry V) := fun a b s =>
  match a, b with
  | some a, some b =>
    if a.string = b.string then .ok (.number (some 0), s)
    else .ok (.number (some (if a.string > b.string then 1 else -1)), s)
  | _, _ => .error .typeError

/-- The sparse array of buckets. -/
abbrev Buckets (V : Type) := List (Option (List (Entry V)))

/-- `buckets[c]` gets one more entry. -/
def pushBucket (buckets : Buckets V) (c : ℕ) (entry : Entry V) : Buckets V :=
  match buckets.getD c none with
  | some cBucket => buckets.set c (some (cBucket ++ [entry]))
  | none =>
    if c < buckets.length then buckets.set c (some [entry])
    else buckets ++ List.replicate (c - buckets.length) none ++ [some [entry]]

/-- The loop that distributes a bucket: what ends at the depth is written at once. Past the end of a
string there is no code unit, and `buckets[NaN]` is not visited. -/
def distribute (depth : ℕ) : List (Entry V) → JSArray V → ℕ → Buckets V →
    JSArray V × ℕ × Buckets V
  | [], array, dst, buckets => (array, dst, buckets)
  | entry :: bucket, array, dst, buckets =>
    if entry.string.length = depth then
      distribute depth bucket (putByValDirect array dst (some entry.value)) (dst + 1) buckets
    else
      match entry.string[depth]? with
      | some c => distribute depth bucket array dst (pushBucket buckets c entry)
      | none => distribute depth bucket array dst buckets

/-- The loop that writes a sorted bucket. -/
def writeSorted : JSArray (Entry V) → JSArray V → ℕ → JSArray V × ℕ
  | [], array, dst => (array, dst)
  | entry :: sorted, array, dst =>
    writeSorted sorted (putByValDirect array dst (entry.map Entry.value)) (dst + 1)

def sortBucketSort (array : JSArray V) (dst : ℕ) (bucket : List (Entry V)) (depth : ℕ) :
    Except (Exception ε) (JSArray V × ℕ) :=
  if bucket.length < 32 ∨ depth > 32 then
    match sortMergeSort sortStringComparator (bucket.map some) () with
    | .error e => .error e
    | .ok (sorted, _) => .ok (writeSorted sorted array dst)
  else
    let (array, dst, buckets) := distribute depth bucket array dst []
    buckets.foldlM (fun (array, dst) cBucket =>
      match cBucket with
      | none => .ok (array, dst)
      | some cBucket => sortBucketSort array dst cBucket (depth + 1)) (array, dst)
termination_by 33 - depth
decreasing_by omega

/-! ## The built-in -/

/-- An object with own data properties, all writable and configurable; `some none` is one that is
`undefined`. -/
structure Receiver (V : Type) where
  isJSArray : Bool
  length : ℕ
  property : ℕ → Option (Option V)

/-- The argument of `sort`. -/
inductive Argument (σ ε V : Type)
  | undefined
  | callable (comparator : Comparator σ ε V)
  | other

/-- A round of the loop of `sortCompact`; the elements of `compacted` are made from the values. -/
def compactOne (receiver : Receiver V) (make : V → Except (Exception ε) E) (found : ℕ × List E)
    (i : ℕ) : Except (Exception ε) (ℕ × List E) :=
  match receiver.property i with
  | none => .ok found
  | some none => .ok (found.1 + 1, found.2)
  | some (some value) =>
    match make value with
    | .error e => .error e
    | .ok element => .ok (found.1, found.2 ++ [element])

/-- `sortCompact`: the number of `undefined`s and the array `compacted`. -/
def sortCompact (receiver : Receiver V) (make : V → Except (Exception ε) E) :
    Except (Exception ε) (ℕ × List E) :=
  (List.range receiver.length).foldlM (compactOne receiver make) (0, [])

/-- Puts a property at each index from `i` up to `stop`. -/
def putRange (property : ℕ → Option (Option V)) (i stop : ℕ) (value : ℕ → Option (Option V)) :
    ℕ → Option (Option V) :=
  (List.range' i (stop - i)).foldl (fun property i => Function.update property i (value i)) property

/-- `appendMemcpy` to the front of an array, which moves the elements if it cannot copy them. -/
def appendMemcpy (receiver : Receiver V) (sorted : JSArray V) : Receiver V :=
  { receiver with
    property := fun i => if i < sorted.length then some (read sorted i) else receiver.property i }

variable (isNumber : V → Bool)

/-- The first step of `sortCommit`. -/
def commitSorted (receiver : Receiver V) (sorted : JSArray V) : Receiver V :=
  if receiver.isJSArray ∧ sorted.length ≥ 64 ∧ (read sorted 0).any isNumber = false then
    appendMemcpy receiver sorted
  else
    { receiver with
      property := putRange receiver.property 0 sorted.length fun i => some (read sorted i) }

def sortCommit (receiver : Receiver V) (sorted : JSArray V) (undefinedCount : ℕ) : Receiver V :=
  let sortedLength := sorted.length
  let receiver := commitSorted isNumber receiver sorted
  let property := putRange receiver.property sortedLength (sortedLength + undefinedCount)
    fun _ => some none
  { receiver with
    property := putRange property (sortedLength + undefinedCount) receiver.length fun _ => none }

/-- `sort` from `sortCompact` on, if `isStringSort`. -/
def sortByString (toString : V → Except (Exception ε) (List CodeUnit)) (receiver : Receiver V)
    (s : σ) : Except (Exception ε) (Receiver V × σ) :=
  match sortCompact receiver fun value => (toString value).map fun string =>
    Entry.mk string value with
  | .error e => .error e
  | .ok (undefinedCount, compacted) =>
    match sortBucketSort (newArrayWithSize compacted.length) 0 compacted 0 with
    | .error e => .error e
    | .ok (sorted, _) => .ok (sortCommit isNumber receiver sorted undefinedCount, s)

/-- `sort` from `sortCompact` on, with a comparator. -/
def sortByComparator (comparator : Comparator σ ε V) (receiver : Receiver V) (s : σ) :
    Except (Exception ε) (Receiver V × σ) :=
  match sortCompact receiver fun value => .ok value with
  | .error e => .error e
  | .ok (undefinedCount, compacted) =>
    match sortMergeSort comparator (compacted.map some) s with
    | .error e => .error e
    | .ok (sorted, s) => .ok (sortCommit isNumber receiver sorted undefinedCount, s)

/-- The function `sort` of a receiver. -/
def sort (toString : V → Except (Exception ε) (List CodeUnit)) (argument : Argument σ ε V)
    (receiver : Receiver V) (s : σ) : Except (Exception ε) (Receiver V × σ) :=
  match argument with
  | .other => .error .typeError
  | .undefined =>
    if receiver.length < 2 then .ok (receiver, s) else sortByString isNumber toString receiver s
  | .callable comparator =>
    if receiver.length < 2 then .ok (receiver, s)
    else sortByComparator isNumber comparator receiver s

end JscAndroid.Builtins.ArraySort
