import JscAndroid.Wtf.BitCount

/-!
# The bit vectors of WTF

`BitVector` of BitVector.h and BitVector.cpp on a target with 64-bit words. A vector is one word:
either its top bit is set and the other 63 bits are the elements, or it is the address of a block of
words, shifted right by one. The model has the block in the place of its address.

A function gives no value if the code reads or writes outside the words of a vector, loses the top
bit of an inline word, fails a `RELEASE_ASSERT` or does not return. The plain assertions are not in
release builds, and a block that was just allocated has arbitrary contents.
-/

namespace JscAndroid.Wtf.BitVectors

/-- `uintptr_t`. -/
abbrev Word := BitVec 64

/-- A number that is stored in a `size_t`. -/
def toSize (n : ℕ) : ℕ := n % 2 ^ 64

/-- A number that is stored in an `unsigned`. -/
def toUnsigned (n : ℕ) : ℕ := n % 2 ^ 32

def bitsInPointer : ℕ := 64

def maxInlineBits : ℕ := bitsInPointer - 1

/-- The bit that tells an inline word from an address. -/
def inlineTag : Word := 1#64 <<< maxInlineBits

def makeInlineBits (bits : Word) : Word := bits ||| inlineTag

def cleanseInlineBits (bits : Word) : Word := bits &&& ~~~inlineTag

/-- A block of words. `create` makes blocks of whole words only, so that `m_numBits` is given by
the number of words. -/
structure OutOfLineBits where
  bits : List Word
deriving DecidableEq

def OutOfLineBits.numBits (block : OutOfLineBits) : ℕ := bitsInPointer * block.bits.length

def OutOfLineBits.numWords (block : OutOfLineBits) : ℕ :=
  toSize (block.numBits + bitsInPointer - 1) / bitsInPointer

/-- **A bit vector**: an inline word, which has the tag, or a block. -/
inductive BitVector where
  | inlineBits (bitsOrPointer : Word) (isInline : bitsOrPointer.msb = true)
  | outOfLine (block : OutOfLineBits)
deriving DecidableEq

/-- The vector `BitVector()`. -/
def BitVector.default : BitVector := .inlineBits (makeInlineBits 0) (by decide)

/-! ## Memory -/

/-- The vector with this inline word; without the tag it would be taken for an address. -/
def ofInlineBits (bitsOrPointer : Word) : Option BitVector :=
  if h : bitsOrPointer.msb = true then some (.inlineBits bitsOrPointer h) else none

/-- `bits()[index] = word` in a block. -/
def writeWord (bits : List Word) (index : ℕ) (word : Word) : Option (List Word) :=
  if index < bits.length then some (bits.set index word) else none

/-- `memset(bits + start, 0, count * sizeof(void*))`. -/
def clearWords (bits : List Word) (start count : ℕ) : Option (List Word) :=
  if start + count ≤ bits.length then
    some (bits.take start ++ List.replicate count 0 ++ bits.drop (start + count))
  else none

/-- `memcpy(bits + start, source, count * sizeof(void*))`. -/
def copyWords (bits : List Word) (start : ℕ) (source : List Word) (count : ℕ) :
    Option (List Word) :=
  if count ≤ source.length ∧ start + count ≤ bits.length then
    some (bits.take start ++ source.take count ++ bits.drop (start + count))
  else none

/-- The words a vector has for itself. -/
def BitVector.bits : BitVector → List Word
  | .inlineBits bitsOrPointer _ => [bitsOrPointer]
  | .outOfLine block => block.bits

/-- `bits()[index] = word`. -/
def BitVector.write (v : BitVector) (index : ℕ) (word : Word) : Option BitVector :=
  match v with
  | .inlineBits _ _ => if index = 0 then ofInlineBits word else none
  | .outOfLine block => (writeWord block.bits index word).map fun bits => .outOfLine ⟨bits⟩

/-- `RELEASE_ASSERT`. -/
def releaseAssert (condition : Bool) : Option Unit := if condition then some () else none

/-! ## Size -/

def BitVector.size : BitVector → ℕ
  | .inlineBits _ _ => maxInlineBits
  | .outOfLine block => block.numBits

/-- `OutOfLineBits::create`; `fresh` is what the allocated memory holds. -/
def create (fresh : ℕ → Word) (numBits : ℕ) : OutOfLineBits :=
  let numBits := toSize (numBits + bitsInPointer - 1) / bitsInPointer * bitsInPointer
  ⟨(List.range (numBits / bitsInPointer)).map fresh⟩

def BitVector.resizeOutOfLine (fresh : ℕ → Word) (v : BitVector) (numBits shiftInWords : ℕ) :
    Option BitVector := do
  let newOutOfLineBits := create fresh numBits
  let newNumWords := newOutOfLineBits.numWords
  match v with
  | .inlineBits bitsOrPointer _ =>
    let bits ← clearWords newOutOfLineBits.bits 0 shiftInWords
    let bits ← writeWord bits shiftInWords (cleanseInlineBits bitsOrPointer)
    releaseAssert (shiftInWords + 1 ≤ newNumWords)
    let bits ← clearWords bits (shiftInWords + 1) (newNumWords - 1 - shiftInWords)
    return .outOfLine ⟨bits⟩
  | .outOfLine block =>
    if block.numBits < numBits then
      let oldNumWords := block.numWords
      let bits ← clearWords newOutOfLineBits.bits 0 shiftInWords
      let bits ← copyWords bits shiftInWords block.bits oldNumWords
      releaseAssert (shiftInWords + oldNumWords ≤ newNumWords)
      let bits ← clearWords bits (shiftInWords + oldNumWords)
        (newNumWords - oldNumWords - shiftInWords)
      return .outOfLine ⟨bits⟩
    else
      let bits ← copyWords newOutOfLineBits.bits 0 block.bits newNumWords
      return .outOfLine ⟨bits⟩

def BitVector.ensureSize (fresh : ℕ → Word) (v : BitVector) (numBits : ℕ) : Option BitVector :=
  if numBits ≤ v.size then some v else v.resizeOutOfLine fresh numBits 0

/-- The word size is a divisor of 64: a shift by a multiple of 64 is one by whole words. -/
def BitVector.shiftRightByMultipleOf64 (fresh : ℕ → Word) (v : BitVector) (shiftInBits : ℕ) :
    Option BitVector := do
  releaseAssert (shiftInBits % 64 = 0)
  v.resizeOutOfLine fresh (toSize (v.size + shiftInBits)) (shiftInBits / 64)

/-- `setSlow` and the assignment before it: `memcpy` of the bytes of `other`, which are whole
words. -/
def assign (fresh : ℕ → Word) (other : BitVector) : Option BitVector :=
  match other with
  | .inlineBits bitsOrPointer _ => ofInlineBits bitsOrPointer
  | .outOfLine block => do
    let bits ← copyWords (create fresh block.numBits).bits 0 block.bits
      ((block.numBits + 7) / 8 / 8)
    return .outOfLine ⟨bits⟩

/-! ## Single bits -/

def bitMask (bit : ℕ) : Word := 1#64 <<< (bit &&& (bitsInPointer - 1))

def BitVector.quickGet (v : BitVector) (bit : ℕ) : Option Bool := do
  let word ← v.bits[bit / bitsInPointer]?
  return (word &&& bitMask bit) != 0

/-- The result is the old value of the bit. -/
def BitVector.quickSet (v : BitVector) (bit : ℕ) : Option (Bool × BitVector) := do
  let word ← v.bits[bit / bitsInPointer]?
  let v ← v.write (bit / bitsInPointer) (word ||| bitMask bit)
  return ((word &&& bitMask bit) != 0, v)

def BitVector.quickClear (v : BitVector) (bit : ℕ) : Option (Bool × BitVector) := do
  let word ← v.bits[bit / bitsInPointer]?
  let v ← v.write (bit / bitsInPointer) (word &&& ~~~bitMask bit)
  return ((word &&& bitMask bit) != 0, v)

def BitVector.get (v : BitVector) (bit : ℕ) : Option Bool :=
  if v.size ≤ bit then some false else v.quickGet bit

def BitVector.set (fresh : ℕ → Word) (v : BitVector) (bit : ℕ) : Option (Bool × BitVector) := do
  let v ← v.ensureSize fresh (toSize (bit + 1))
  v.quickSet bit

def BitVector.clear (v : BitVector) (bit : ℕ) : Option (Bool × BitVector) :=
  if v.size ≤ bit then some (false, v) else v.quickClear bit

/-! ## Two vectors -/

/-- `for (unsigned i = count; i--;) a->bits()[i] = op(a->bits()[i], b->bits()[i])`. -/
def combineWords (op : Word → Word → Word) (b : List Word) : ℕ → List Word → Option (List Word)
  | 0, a => some a
  | i + 1, a => do
    let x ← a[i]?
    let y ← b[i]?
    let a ← writeWord a i (op x y)
    combineWords op b i a

/-- `for (unsigned i = start; i < a->numWords(); ++i) a->bits()[i] = 0`, with a bound on its
rounds: a counter that wraps around never ends. -/
def zeroWords (numWords : ℕ) : ℕ → ℕ → List Word → Option (List Word)
  | 0, i, a => if i < numWords then none else some a
  | fuel + 1, i, a =>
    if i < numWords then do
      let a ← writeWord a i 0
      zeroWords numWords fuel (toUnsigned (i + 1)) a
    else some a

/-- `merge` and `mergeSlow`. -/
def BitVector.merge (fresh : ℕ → Word) (v other : BitVector) : Option BitVector :=
  match v, other with
  | .inlineBits a _, .inlineBits b _ => ofInlineBits (a ||| b)
  | .outOfLine a, .inlineBits b _ => do
    let word ← a.bits[0]?
    let bits ← writeWord a.bits 0 (word ||| cleanseInlineBits b)
    return .outOfLine ⟨bits⟩
  | v, .outOfLine b => do
    match ← v.ensureSize fresh (BitVector.outOfLine b).size with
    | .inlineBits _ _ => none
    | .outOfLine a =>
      let bits ← combineWords (· ||| ·) b.bits (toUnsigned a.numWords) a.bits
      return .outOfLine ⟨bits⟩

/-- `filter` and `filterSlow`. -/
def BitVector.filter (v other : BitVector) : Option BitVector :=
  match v, other with
  | .inlineBits a _, .inlineBits b _ => ofInlineBits (a &&& b)
  | .outOfLine a, .inlineBits b _ => do
    let word ← a.bits[0]?
    let bits ← writeWord a.bits 0 (word &&& cleanseInlineBits b)
    return .outOfLine ⟨bits⟩
  | .inlineBits a _, .outOfLine b => do
    let word ← b.bits[0]?
    ofInlineBits ((a &&& word) ||| inlineTag)
  | .outOfLine a, .outOfLine b => do
    let bits ← combineWords (· &&& ·) b.bits (toUnsigned (min a.numWords b.numWords)) a.bits
    let bits ← zeroWords a.numWords a.numWords (toUnsigned b.numWords) bits
    return .outOfLine ⟨bits⟩

/-- `exclude` and `excludeSlow`. -/
def BitVector.exclude (v other : BitVector) : Option BitVector :=
  match v, other with
  | .inlineBits a _, .inlineBits b _ => ofInlineBits ((a &&& ~~~b) ||| inlineTag)
  | .outOfLine a, .inlineBits b _ => do
    let word ← a.bits[0]?
    let bits ← writeWord a.bits 0 (word &&& ~~~cleanseInlineBits b)
    return .outOfLine ⟨bits⟩
  | .inlineBits a _, .outOfLine b => do
    let word ← b.bits[0]?
    ofInlineBits ((a &&& ~~~word) ||| inlineTag)
  | .outOfLine a, .outOfLine b => do
    let bits ← combineWords (fun x y => x &&& ~~~y) b.bits
      (toUnsigned (min a.numWords b.numWords)) a.bits
    return .outOfLine ⟨bits⟩

/-! ## Counting and searching -/

/-- `for (unsigned i = count; i--;) result = op(bits[i], result)`. -/
def foldWords {β : Type} (op : Word → β → β) (bits : List Word) : ℕ → β → Option β
  | 0, result => some result
  | i + 1, result => do
    let word ← bits[i]?
    foldWords op bits i (op word result)

/-- `bitCount` and `bitCountSlow`. -/
def BitVector.bitCount (v : BitVector) : Option ℕ :=
  match v with
  | .inlineBits bitsOrPointer _ => some (BitCount.bitCount (cleanseInlineBits bitsOrPointer))
  | .outOfLine block =>
    foldWords (fun word result => toSize (result + BitCount.bitCount word)) block.bits
      (toUnsigned block.numWords) 0

/-- `isEmptySlow`, from the last word on. -/
def isEmptySlow (bits : List Word) : ℕ → Option Bool
  | 0 => some true
  | i + 1 => do
    let word ← bits[i]?
    if word != 0 then return false else isEmptySlow bits i

def BitVector.isEmpty (v : BitVector) : Option Bool :=
  match v with
  | .inlineBits bitsOrPointer _ => some (cleanseInlineBits bitsOrPointer == 0)
  | .outOfLine block => isEmptySlow block.bits (toUnsigned block.numWords)

/-- The number of zeros below the lowest one, 64 in a word without ones. -/
def ctz (word : Word) : ℕ := ((List.range 64).find? fun i => word.getLsbD i).getD 64

/-- `findBitInWord` of StdLibExtras.h: whether there is such a bit, and the index after the call.
The machine takes the amount of a shift modulo the word size. -/
def findBitInWord (word : Word) (startIndex endIndex : ℕ) (value : Bool) : Bool × ℕ :=
  let word := word >>> (startIndex % 64)
  let word := word ^^^ ((BitVec.ofBool value).setWidth 64 - 1)
  let index := startIndex + ctz word
  if index < endIndex then (true, index) else (false, endIndex)

/-- `-(static_cast<uintptr_t>(value) ^ 1)`: the word without a bit of this value. -/
def skipValue (value : Bool) : Word := if value then 0 else BitVec.allOnes 64

/-- The loop of `findBitFast` over the words from `wordIndex` on. -/
def findBitInWords (bits : List Word) (value : Bool) (numWords : ℕ) :
    ℕ → ℕ → ℕ → Option (Option ℕ)
  | 0, wordIndex, _ => if wordIndex < numWords then none else some none
  | fuel + 1, wordIndex, startIndexInWord =>
    if wordIndex < numWords then do
      let word ← bits[wordIndex]?
      let found := findBitInWord word startIndexInWord bitsInPointer value
      if word != skipValue value && found.1 then
        return some (wordIndex * bitsInPointer + found.2)
      else findBitInWords bits value numWords fuel (wordIndex + 1) 0
    else some none

/-- `findBit`, which is `findBitFast`. -/
def BitVector.findBit (v : BitVector) (startIndex : ℕ) (value : Bool) : Option ℕ :=
  match v with
  | .inlineBits bitsOrPointer _ =>
    some (findBitInWord bitsOrPointer startIndex maxInlineBits value).2
  | .outOfLine block => do
    let wordIndex := startIndex / bitsInPointer
    let startIndexInWord := startIndex - wordIndex * bitsInPointer
    let found ← findBitInWords block.bits value block.numWords block.numWords wordIndex
      startIndexInWord
    return found.getD block.numBits

/-- What a loop from `begin()` to `end()` sees, from the iterator at `index` on. -/
def BitVector.iterateFrom (v : BitVector) : ℕ → ℕ → Option (List ℕ)
  | 0, index => if index = v.size then some [] else none
  | fuel + 1, index =>
    if index = v.size then some []
    else do
      let rest ← v.iterateFrom fuel (← v.findBit (index + 1) true)
      return index :: rest

def BitVector.iterate (v : BitVector) : Option (List ℕ) := do
  v.iterateFrom v.size (← v.findBit 0 true)

/-! ## Equality and hash -/

/-- `equalsSlowCaseSimple`, from the last bit on. -/
def BitVector.equalsSlowCaseSimple (v other : BitVector) : ℕ → Option Bool
  | 0 => some true
  | i + 1 => do
    if (← v.get i) != (← other.get i) then return false else equalsSlowCaseSimple v other i

/-- The second loop of `equalsSlowCaseFast`. -/
def equalWords (a b : List Word) : ℕ → Option Bool
  | 0 => some true
  | i + 1 => do
    let x ← a[i]?
    let y ← b[i]?
    if x != y then return false else equalWords a b i

/-- The first loop of `equalsSlowCaseFast`: are the words from `i` on, `count` of them, zero? -/
def zeroFrom (bits : List Word) : ℕ → ℕ → Option Bool
  | 0, _ => some true
  | count + 1, i => do
    let word ← bits[i]?
    if word != 0 then return false else zeroFrom bits count (i + 1)

/-- `equalsSlowCaseFast` for two blocks. -/
def equalBlocks (a b : OutOfLineBits) : Option Bool := do
  let minNumWords := if a.numWords < b.numWords then a.numWords else b.numWords
  let maxNumWords := if a.numWords < b.numWords then b.numWords else a.numWords
  let longerBits := if a.numWords < b.numWords then b.bits else a.bits
  if ← zeroFrom longerBits (maxNumWords - minNumWords) minNumWords then
    equalWords a.bits b.bits minNumWords
  else return false

/-- `operator==`. -/
def BitVector.equals (v other : BitVector) : Option Bool :=
  match v, other with
  | .inlineBits a _, .inlineBits b _ => some (a == b)
  | .outOfLine a, .outOfLine b => equalBlocks a b
  | v, other => v.equalsSlowCaseSimple other (toUnsigned (max v.size other.size))

/-- `intHash` of a `uint64_t`. -/
def intHash (key : Word) : BitVec 32 :=
  let key := key + ~~~(key <<< 32)
  let key := key ^^^ (key >>> 22)
  let key := key + ~~~(key <<< 13)
  let key := key ^^^ (key >>> 8)
  let key := key + (key <<< 3)
  let key := key ^^^ (key >>> 15)
  let key := key + ~~~(key <<< 27)
  let key := key ^^^ (key >>> 31)
  key.setWidth 32

/-- `hash` and `hashSlowCase`. -/
def BitVector.hash (v : BitVector) : Option (BitVec 32) :=
  match v with
  | .inlineBits bitsOrPointer _ => some (intHash (cleanseInlineBits bitsOrPointer))
  | .outOfLine block => do
    let value ← foldWords (fun word result => result ^^^ word) block.bits
      (toUnsigned block.numWords) 0
    return intHash value

end JscAndroid.Wtf.BitVectors
