import JscAndroid.Structures.PropertyTable

/-!
# Structures and their transitions

A `Structure` describes the properties of the objects that have it. A transition makes a new
Structure that remembers the one before it (`previousID`) and the property it adds, deletes or
changes. The property table goes from a Structure to its newest child, and the garbage collector may
drop it; `materializePropertyTable` replays the transitions on the table of the nearest ancestor
that still has one. A Structure whose table cannot be replayed is pinned.

Beside the code's heap stands `Kept`: the same transitions where each Structure gets a table of its
own and nothing is ever stolen or dropped.
-/

namespace JscAndroid.Structures

inductive TransitionKind
  | unknown
  | propertyAddition
  | propertyDeletion
  | propertyAttributeChange
  | allocateUndecided
  | allocateInt32
  | allocateDouble
  | allocateContiguous
  | allocateArrayStorage
  | allocateSlowPutArrayStorage
  | switchToSlowPutArrayStorage
  | addIndexedAccessors
  | preventExtensions
  | «seal»
  | freeze
  | setBrand
  deriving DecidableEq

/-- The kinds that `nonPropertyTransition` is called with. -/
def TransitionKind.isNonProperty : TransitionKind → Bool
  | unknown | propertyAddition | propertyDeletion | propertyAttributeChange | setBrand => false
  | _ => true

def setsDontDeleteOnAllProperties : TransitionKind → Bool
  | .seal | .freeze => true
  | _ => false

inductive DictionaryKind
  | none
  | cached
  | uncached
  deriving DecidableEq

inductive ShouldPin
  | no
  | yes

variable {K : Type}

/-- What a property transition does to the table. -/
inductive PropertyChange (K : Type)
  | addition (name : K) (attributes : UInt8)
  | deletion (name : K)
  | attributeChange (name : K) (attributes : UInt8)

namespace PropertyChange

def kind : PropertyChange K → TransitionKind
  | addition _ _ => .propertyAddition
  | deletion _ => .propertyDeletion
  | attributeChange _ _ => .propertyAttributeChange

def name : PropertyChange K → K
  | addition name _ => name
  | deletion name => name
  | attributeChange name _ => name

/-- The attributes the new Structure remembers. -/
def attributes : PropertyChange K → UInt8
  | addition _ attributes => attributes
  | deletion _ => 0
  | attributeChange _ attributes => attributes

/-- `maxOffset` after the change, for the offset it returns. -/
def newMaxOffset (offset maxOffset : ℤ) : PropertyChange K → ℤ
  | addition _ _ => max offset maxOffset
  | deletion _ => maxOffset
  | attributeChange _ _ => maxOffset

end PropertyChange

/-! ## Structures -/

structure Structure (K : Type) where
  inlineCapacity : ℕ
  previousID : Option ℕ
  transitionKind : TransitionKind
  transitionPropertyName : Option K
  transitionPropertyAttributes : UInt8
  transitionOffset : ℤ
  maxOffset : ℤ
  dictionaryKind : DictionaryKind
  isPinnedPropertyTable : Bool
  propertyTable : Option (PropertyTable K)

namespace Structure

/-- A Structure without properties. -/
def root (inlineCapacity : ℕ) : Structure K where
  inlineCapacity := inlineCapacity
  previousID := none
  transitionKind := .unknown
  transitionPropertyName := none
  transitionPropertyAttributes := 0
  transitionOffset := invalidOffset
  maxOffset := invalidOffset
  dictionaryKind := .none
  isPinnedPropertyTable := false
  propertyTable := none

/-- `Structure(VM&, Structure* previous)`: a Structure after the one with this number. -/
def createAfter (id : ℕ) (previous : Structure K) : Structure K where
  inlineCapacity := previous.inlineCapacity
  previousID := some id
  transitionKind := .unknown
  transitionPropertyName := none
  transitionPropertyAttributes := 0
  transitionOffset := invalidOffset
  maxOffset := invalidOffset
  dictionaryKind := previous.dictionaryKind
  isPinnedPropertyTable := false
  propertyTable := none

def isDictionary (s : Structure K) : Bool := s.dictionaryKind ≠ .none

def isUncacheableDictionary (s : Structure K) : Bool := s.dictionaryKind = .uncached

def pin (s : Structure K) (table : PropertyTable K) : Structure K :=
  { s with
    isPinnedPropertyTable := true
    propertyTable := some table
    previousID := none
    transitionPropertyName := none }

def pinForCaching (s : Structure K) (table : PropertyTable K) : Structure K :=
  { s with
    isPinnedPropertyTable := true
    propertyTable := some table
    transitionPropertyName := none }

/-- The table that `add`, `remove` and `attributeChange` leave, pinned or not. -/
def setPropertyTable (shouldPin : ShouldPin) (s : Structure K) (table : PropertyTable K) :
    Structure K :=
  match shouldPin with
  | .yes => s.pin table
  | .no => { s with propertyTable := some table }

end Structure

variable [DecidableEq K]

/-- What `Structure::add` does to the table; the name must not be there. -/
def PropertyTable.addProperty (table : PropertyTable K) (inlineCapacity : ℕ) (name : K)
    (attributes : UInt8) : Option (ℤ × PropertyTable K) :=
  if (table.get name).isSome then none
  else
    let newOffset := (table.nextOffset inlineCapacity).1
    let popped := (table.nextOffset inlineCapacity).2
    some (newOffset, (popped.add ⟨name, newOffset, attributes⟩).2)

/-- What `Structure::remove` does to the table; the name must be there. -/
def PropertyTable.removeProperty (table : PropertyTable K) (name : K) :
    Option (ℤ × PropertyTable K) :=
  (table.take name).1.map fun found =>
    (found.1, (table.take name).2.addDeletedOffset found.1)

/-- What `Structure::attributeChange` does to the table; the name must be there. -/
def PropertyTable.changeAttributes (table : PropertyTable K) (name : K) (attributes : UInt8) :
    Option (ℤ × PropertyTable K) :=
  (table.updateAttributeIfExists name attributes).1.map fun offset =>
    (offset, (table.updateAttributeIfExists name attributes).2)

def PropertyTable.change (table : PropertyTable K) (inlineCapacity : ℕ) :
    PropertyChange K → Option (ℤ × PropertyTable K)
  | .addition name attributes => table.addProperty inlineCapacity name attributes
  | .deletion name => table.removeProperty name
  | .attributeChange name attributes => table.changeAttributes name attributes

namespace Structure

/-- `add`, `remove` or `attributeChange` on the table of the Structure. -/
def change (shouldPin : ShouldPin) (s : Structure K) (table : PropertyTable K)
    (c : PropertyChange K) : Option (ℤ × Structure K) := do
  let (offset, table) ← table.change s.inlineCapacity c
  return (offset, { s.setPropertyTable shouldPin table with
    maxOffset := c.newMaxOffset offset s.maxOffset })

/-- One step of the replay in `materializePropertyTable`. -/
def replay (s : Structure K) (table : PropertyTable K) : PropertyTable K :=
  match s.transitionPropertyName with
  | none => table
  | some name =>
    match s.transitionKind with
    | .propertyAddition =>
      ((table.nextOffset s.inlineCapacity).2.add
        ⟨name, s.transitionOffset, s.transitionPropertyAttributes⟩).2
    | .propertyDeletion => (table.take name).2.addDeletedOffset s.transitionOffset
    | .propertyAttributeChange =>
      (table.updateAttributeIfExists name s.transitionPropertyAttributes).2
    | _ => table

end Structure

/-! ## The heap -/

/-- The Structures, oldest first. A Structure comes after its previous one. -/
structure Heap (K : Type) where
  structures : List (Structure K)
  older : ∀ (id : ℕ) (s : Structure K) (previous : ℕ), structures[id]? = some s →
    s.previousID = some previous → previous < id

namespace Heap

omit [DecidableEq K] in
theorem older_push (h : Heap K) (s : Structure K)
    (hs : ∀ p ∈ s.previousID, p < h.structures.length) (id : ℕ) (s' : Structure K) (previous : ℕ)
    (hs' : (h.structures ++ [s])[id]? = some s') (hp : s'.previousID = some previous) :
    previous < id := by
  rcases lt_trichotomy id h.structures.length with hid | rfl | hid
  · rw [List.getElem?_append_left hid] at hs'
    exact h.older id s' previous hs' hp
  · rw [List.getElem?_concat_length] at hs'
    obtain rfl := Option.some.inj hs'
    exact hs previous hp
  · rw [List.getElem?_eq_none (by rw [List.length_append]; exact hid)] at hs'
    cases hs'

omit [DecidableEq K] in
theorem older_set (h : Heap K) (target : ℕ) (s : Structure K)
    (hs : ∀ p ∈ s.previousID, p < target) (id : ℕ) (s' : Structure K) (previous : ℕ)
    (hs' : (h.structures.set target s)[id]? = some s') (hp : s'.previousID = some previous) :
    previous < id := by
  by_cases hid : target = id
  · subst hid
    rw [List.getElem?_set_self'] at hs'
    obtain ⟨_, -, rfl⟩ := Option.map_eq_some_iff.mp hs'
    exact hs previous hp
  · rw [List.getElem?_set_ne hid] at hs'
    exact h.older id s' previous hs' hp

def empty : Heap K := ⟨[], by simp⟩

/-- A new Structure. -/
def push (h : Heap K) (s : Structure K) : Option (Heap K) :=
  if hs : ∀ p ∈ s.previousID, p < h.structures.length then
    some ⟨h.structures ++ [s], older_push h s hs⟩
  else none

/-- The Structure with this number is now `s`. -/
def set (h : Heap K) (id : ℕ) (s : Structure K) : Option (Heap K) :=
  if hs : ∀ p ∈ s.previousID, p < id then some ⟨h.structures.set id s, older_set h id s hs⟩
  else none

/-- The Structures without a table from this one on, newest first, and the table of the next. -/
def findStructuresAndMapForMaterialization (h : Heap K) (id : ℕ) :
    List (Structure K) × Option (PropertyTable K) :=
  match hs : h.structures[id]? with
  | none => ([], none)
  | some s =>
    match s.propertyTable with
    | some table => ([], some table)
    | none =>
      match hp : s.previousID with
      | none => ([s], none)
      | some previous =>
        have : previous < id := h.older id s previous hs hp
        (s :: (h.findStructuresAndMapForMaterialization previous).1,
          (h.findStructuresAndMapForMaterialization previous).2)
termination_by id

/-- The table the replay starts from. -/
def startingTable (capacity : ℕ) : Option (PropertyTable K) → Option (PropertyTable K)
  | some table => table.copy capacity
  | none => some (PropertyTable.create capacity)

def materializePropertyTable (h : Heap K) (id : ℕ) : Option (PropertyTable K) := do
  let s ← h.structures[id]?
  let (structures, table) := h.findStructuresAndMapForMaterialization id
  let table ← startingTable (numberOfSlotsForMaxOffset s.maxOffset s.inlineCapacity) table
  return structures.reverse.foldl (fun table s => s.replay table) table

/-- The table of the Structure, rebuilt if need be. -/
def propertyTable (h : Heap K) (id : ℕ) : Option (PropertyTable K) := do
  let s ← h.structures[id]?
  match s.propertyTable with
  | some table => return table
  | none => h.materializePropertyTable id

/-- The Structure keeps the table it needed. -/
def ensurePropertyTable (h : Heap K) (id : ℕ) : Option (Heap K) := do
  let s ← h.structures[id]?
  let table ← h.propertyTable id
  h.set id { s with propertyTable := some table }

/-- The garbage collector drops a table that is not pinned. -/
def visitChildren (h : Heap K) (id : ℕ) : Option (Heap K) := do
  let s ← h.structures[id]?
  if s.isPinnedPropertyTable then return h
  else h.set id { s with propertyTable := none }

def takePropertyTableOrCloneIfPinned (h : Heap K) (id : ℕ) :
    Option (PropertyTable K × Heap K) := do
  let s ← h.structures[id]?
  match s.propertyTable with
  | some table =>
    if s.isPinnedPropertyTable then return (← table.copy (table.size + 1), h)
    else return (table, ← h.set id { s with propertyTable := none })
  | none => return (← h.materializePropertyTable id, h)

/-- `copyPropertyTableForPinning` is the table as `propertyTable` gives it. -/
def toDictionaryTransition (h : Heap K) (id : ℕ) (kind : DictionaryKind) :
    Option (PropertyTable K × Structure K) := do
  let s ← h.structures[id]?
  let table ← h.propertyTable id
  return (table, { (s.createAfter id).pin table with
    maxOffset := s.maxOffset, dictionaryKind := kind })

/-! ## Property transitions -/

/-- A new Structure that remembers the change. -/
def newTransition (h : Heap K) (id : ℕ) (c : PropertyChange K) : Option (Heap K) := do
  let s ← h.structures[id]?
  let (table, h) ← h.takePropertyTableOrCloneIfPinned id
  let transition := { s.createAfter id with
    transitionPropertyName := some c.name
    transitionPropertyAttributes := c.attributes
    transitionKind := c.kind
    propertyTable := some table
    maxOffset := s.maxOffset }
  let (offset, transition) ← transition.change .no table c
  h.push { transition with transitionOffset := offset }

/-- A new dictionary with the change made in place. -/
def newDictionary (h : Heap K) (id : ℕ) (kind : DictionaryKind) (c : PropertyChange K) :
    Option (Heap K) := do
  let (table, transition) ← h.toDictionaryTransition id kind
  let (_, transition) ← transition.change .no table c
  h.push transition

/-- The change made in place, the table pinned. -/
def changeWithoutTransition (h : Heap K) (id : ℕ) (c : PropertyChange K) : Option (Heap K) := do
  let s ← h.structures[id]?
  let table ← h.propertyTable id
  let (_, s) ← s.change .yes table c
  h.set id s

/-- `overflowed` is what the code finds when it compares the number of transitions with its limit.
-/
def addNewPropertyTransition (h : Heap K) (id : ℕ) (name : K) (attributes : UInt8)
    (overflowed : Bool) : Option (Heap K) := do
  let s ← h.structures[id]?
  if s.isDictionary then none
  else if overflowed then h.newDictionary id .cached (.addition name attributes)
  else h.newTransition id (.addition name attributes)

def removeNewPropertyTransition (h : Heap K) (id : ℕ) (name : K) (overflowed : Bool) :
    Option (Heap K) := do
  let s ← h.structures[id]?
  if s.isUncacheableDictionary then none
  else if overflowed then h.newDictionary id .uncached (.deletion name)
  else h.newTransition id (.deletion name)

def attributeChangeTransition (h : Heap K) (id : ℕ) (name : K) (attributes : UInt8)
    (overflowed : Bool) : Option (Heap K) := do
  let s ← h.structures[id]?
  if s.isUncacheableDictionary then h.changeWithoutTransition id (.attributeChange name attributes)
  else if overflowed then h.newDictionary id .uncached (.attributeChange name attributes)
  else h.newTransition id (.attributeChange name attributes)

/-- Made on a Structure that no other one comes after: it belongs to one object. -/
def addPropertyWithoutTransition (h : Heap K) (id : ℕ) (name : K) (attributes : UInt8) :
    Option (Heap K) :=
  if h.structures.any fun s => s.previousID = some id then none
  else h.changeWithoutTransition id (.addition name attributes)

def removePropertyWithoutTransition (h : Heap K) (id : ℕ) (name : K) : Option (Heap K) := do
  let s ← h.structures[id]?
  if s.isUncacheableDictionary then h.changeWithoutTransition id (.deletion name) else none

/-! ## Other transitions -/

def changePrototypeTransition (h : Heap K) (id : ℕ) : Option (Heap K) := do
  let s ← h.structures[id]?
  let table ← h.propertyTable id
  h.push { (s.createAfter id).pin table with maxOffset := s.maxOffset }

/-- What `nonPropertyTransition` does to the copy of the table that it pins. -/
def editAll (kind : TransitionKind) (table : PropertyTable K) : PropertyTable K :=
  if kind = .seal then table.seal else table.freeze

/-- A transition of a dictionary is pinned. -/
def pinIfDictionary (s : Structure K) (table : PropertyTable K) : Structure K :=
  if s.isDictionary then s.pin table else s

def nonPropertyTransition (h : Heap K) (id : ℕ) (kind : TransitionKind) : Option (Heap K) := do
  let s ← h.structures[id]?
  if !kind.isNonProperty then none
  else if setsDontDeleteOnAllProperties kind then
    let table := editAll kind (← h.propertyTable id)
    let transition := { (s.createAfter id).pinForCaching table with
      transitionKind := kind, maxOffset := s.maxOffset }
    h.push (pinIfDictionary transition table)
  else
    let (table, h) ← h.takePropertyTableOrCloneIfPinned id
    let transition := { s.createAfter id with
      transitionKind := kind, propertyTable := some table, maxOffset := s.maxOffset }
    h.push (pinIfDictionary transition table)

def setBrandTransition (h : Heap K) (id : ℕ) (brand : K) : Option (Heap K) := do
  let s ← h.structures[id]?
  let (table, h) ← h.takePropertyTableOrCloneIfPinned id
  let transition := { s.createAfter id with
    transitionKind := .setBrand, transitionPropertyName := some brand
    propertyTable := some table, maxOffset := s.maxOffset }
  h.push (pinIfDictionary transition table)

end Heap

/-! ## Runs -/

inductive Action (K : Type)
  | create (inlineCapacity : ℕ)
  | addProperty (id : ℕ) (name : K) (attributes : UInt8) (overflowed : Bool)
  | removeProperty (id : ℕ) (name : K) (overflowed : Bool)
  | attributeChange (id : ℕ) (name : K) (attributes : UInt8) (overflowed : Bool)
  | addPropertyWithoutTransition (id : ℕ) (name : K) (attributes : UInt8)
  | removePropertyWithoutTransition (id : ℕ) (name : K)
  | changePrototype (id : ℕ)
  | nonProperty (id : ℕ) (kind : TransitionKind)
  | setBrand (id : ℕ) (brand : K)
  | ensurePropertyTable (id : ℕ)
  | visitChildren (id : ℕ)

namespace Heap

/-- One action of the engine; none where it breaks an assertion of the code. -/
def step (h : Heap K) : Action K → Option (Heap K)
  | .create inlineCapacity =>
    if (inlineCapacity : ℤ) < firstOutOfLineOffset then h.push (Structure.root inlineCapacity)
    else none
  | .addProperty id name attributes overflowed =>
    h.addNewPropertyTransition id name attributes overflowed
  | .removeProperty id name overflowed => h.removeNewPropertyTransition id name overflowed
  | .attributeChange id name attributes overflowed =>
    h.attributeChangeTransition id name attributes overflowed
  | .addPropertyWithoutTransition id name attributes =>
    h.addPropertyWithoutTransition id name attributes
  | .removePropertyWithoutTransition id name => h.removePropertyWithoutTransition id name
  | .changePrototype id => h.changePrototypeTransition id
  | .nonProperty id kind => h.nonPropertyTransition id kind
  | .setBrand id brand => h.setBrandTransition id brand
  | .ensurePropertyTable id => h.ensurePropertyTable id
  | .visitChildren id => h.visitChildren id

def run (h : Heap K) (actions : List (Action K)) : Option (Heap K) :=
  actions.foldlM step h

end Heap

/-! ## Tables that are never dropped -/

/-- A Structure with the table it would have if no table were ever stolen or dropped. -/
structure Kept (K : Type) where
  inlineCapacity : ℕ
  previousID : Option ℕ
  dictionaryKind : DictionaryKind
  table : PropertyTable K

namespace Kept

/-- A child with the change made to a table of its own. -/
def child (kept : List (Kept K)) (id : ℕ) (previousID : Option ℕ)
    (kind : DictionaryKind → DictionaryKind) (c : PropertyChange K) : Option (List (Kept K)) := do
  let k ← kept[id]?
  let (_, table) ← k.table.change k.inlineCapacity c
  return kept ++ [⟨k.inlineCapacity, previousID, kind k.dictionaryKind, table⟩]

/-- The change made in place. -/
def changed (kept : List (Kept K)) (id : ℕ) (c : PropertyChange K) : Option (List (Kept K)) := do
  let k ← kept[id]?
  let (_, table) ← k.table.change k.inlineCapacity c
  return kept.set id { k with previousID := none, table := table }

/-- A child with an edited copy of the table. -/
def copied (kept : List (Kept K)) (id : ℕ) (previousID : DictionaryKind → Option ℕ)
    (edit : PropertyTable K → PropertyTable K) : Option (List (Kept K)) := do
  let k ← kept[id]?
  return kept ++ [⟨k.inlineCapacity, previousID k.dictionaryKind, k.dictionaryKind, edit k.table⟩]

/-- The child of a dictionary forgets its parent. -/
def chained (id : ℕ) (kind : DictionaryKind) : Option ℕ :=
  if kind = .none then some id else none

def step (kept : List (Kept K)) : Action K → Option (List (Kept K))
  | .create inlineCapacity =>
    if (inlineCapacity : ℤ) < firstOutOfLineOffset then
      some (kept ++ [⟨inlineCapacity, none, .none, PropertyTable.create 0⟩])
    else none
  | .addProperty id name attributes overflowed => do
    let k ← kept[id]?
    if k.dictionaryKind ≠ .none then none
    else if overflowed then child kept id none (fun _ => .cached) (.addition name attributes)
    else child kept id (some id) (fun kind => kind) (.addition name attributes)
  | .removeProperty id name overflowed => do
    let k ← kept[id]?
    if k.dictionaryKind = .uncached then none
    else if overflowed then child kept id none (fun _ => .uncached) (.deletion name)
    else child kept id (some id) (fun kind => kind) (.deletion name)
  | .attributeChange id name attributes overflowed => do
    let k ← kept[id]?
    if k.dictionaryKind = .uncached then changed kept id (.attributeChange name attributes)
    else if overflowed then
      child kept id none (fun _ => .uncached) (.attributeChange name attributes)
    else child kept id (some id) (fun kind => kind) (.attributeChange name attributes)
  | .addPropertyWithoutTransition id name attributes =>
    if kept.any fun k => k.previousID = some id then none
    else changed kept id (.addition name attributes)
  | .removePropertyWithoutTransition id name => do
    let k ← kept[id]?
    if k.dictionaryKind = .uncached then changed kept id (.deletion name) else none
  | .changePrototype id => copied kept id (fun _ => none) fun table => table
  | .nonProperty id kind =>
    if !kind.isNonProperty then none
    else if setsDontDeleteOnAllProperties kind then copied kept id (chained id) (Heap.editAll kind)
    else copied kept id (chained id) fun table => table
  | .setBrand id _ => copied kept id (chained id) fun table => table
  | .ensurePropertyTable id => kept[id]?.map fun _ => kept
  | .visitChildren id => kept[id]?.map fun _ => kept

def run (kept : List (Kept K)) (actions : List (Action K)) : Option (List (Kept K)) :=
  actions.foldlM step kept

end Kept

end JscAndroid.Structures
