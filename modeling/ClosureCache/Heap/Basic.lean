/-
The heap: objects by number, with root counts, weak references and the counters
of the collector.

Objects are numbered in the order of their allocation.  The heap keeps a place
for every number ever given out; the place of a reclaimed object is empty and
stays so.

An operation that changes the heap is a `HeapM` step.  A step that fails says
why and leaves the heap as far as it had come.
-/
import ClosureCache.Heap.Object

namespace ClosureCache

inductive HeapError where
  | objectNotFound (object : ObjectId)
  | kindMismatch (object : ObjectId) (expected actual : String)
  | indexOutOfBounds (object : ObjectId) (index : Nat)
  | notRooted (object : ObjectId)
deriving DecidableEq, Repr

namespace HeapError

def code : HeapError → String
  | objectNotFound .. => "FE-MEMO-0501"
  | kindMismatch .. => "FE-MEMO-0502"
  | indexOutOfBounds .. => "FE-MEMO-0503"
  | notRooted .. => "FE-MEMO-0504"

def message : HeapError → String
  | objectNotFound o => "object " ++ o.text ++ " not found in heap"
  | kindMismatch o expected actual =>
    "object " ++ o.text ++ " is a " ++ actual ++ ", expected " ++ expected
  | indexOutOfBounds o index => "index " ++ index.repr ++ " out of bounds for " ++ o.text
  | notRooted o => "object " ++ o.text ++ " is not rooted"

end HeapError

/-- An object and the number of its roots. -/
structure HeapEntry where
  object : Object
  roots : Nat
deriving DecidableEq, Repr

structure WeakRef where
  target : ObjectId
  /-- Handed back when the target is reclaimed. -/
  token : Nat
  /-- Whether the target has been reclaimed. -/
  cleared : Bool
deriving DecidableEq, Repr

/-- The note left for the holder of a weak reference whose target was
reclaimed. -/
structure FinalizationRecord where
  handle : WeakHandle
  target : ObjectId
  token : Nat
deriving DecidableEq, Repr

structure Heap where
  /-- The objects by number. -/
  entries : Array (Option HeapEntry)
  /-- The weak references by number. -/
  weakRefs : Array WeakRef
  /-- Notes that have not been fetched yet, the oldest first. -/
  pending : Array FinalizationRecord
  allocationsSinceCollect : Nat
  collectionCount : Nat
  totalSwept : Nat
deriving DecidableEq, Repr

/-- A step that may change the heap and may fail. -/
abbrev HeapM (ε : Type) := ExceptT ε (StateM Heap)

namespace HeapM

def ask {ε α : Type} (f : Heap → Except ε α) : HeapM ε α := fun h => (f h, h)

def change {ε α : Type} (f : Heap → α × Heap) : HeapM ε α := fun h =>
  let (a, h) := f h
  (.ok a, h)

def mapError {ε ε' α : Type} (f : ε → ε') (x : HeapM ε α) : HeapM ε' α := fun h =>
  match x h with
  | (.ok a, h) => (.ok a, h)
  | (.error e, h) => (.error (f e), h)

end HeapM

namespace Heap

def empty : Heap :=
  { entries := #[], weakRefs := #[], pending := #[],
    allocationsSinceCollect := 0, collectionCount := 0, totalSwept := 0 }

instance : Inhabited Heap := ⟨empty⟩

/-! ## Questions -/

def entry? (h : Heap) (id : ObjectId) : Option HeapEntry := (h.entries[id.index]?).join

def contains (h : Heap) (id : ObjectId) : Bool := (h.entry? id).isSome

def objectCount (h : Heap) : Nat := h.entries.countP Option.isSome

/-- An object that has to be in the heap. -/
def object (h : Heap) (id : ObjectId) : Except HeapError Object :=
  match h.entry? id with
  | some entry => .ok entry.object
  | none => .error (.objectNotFound id)

def environment (h : Heap) (id : ObjectId) : Except HeapError Environment :=
  match h.object id with
  | .error e => .error e
  | .ok (.environment e) => .ok e
  | .ok other => .error (.kindMismatch id "environment" other.kindName)

def function (h : Heap) (id : ObjectId) : Except HeapError FunctionObject :=
  match h.object id with
  | .error e => .error e
  | .ok (.function f) => .ok f
  | .ok other => .error (.kindMismatch id "function" other.kindName)

def cellContents (h : Heap) (id : ObjectId) : Except HeapError (Option Value) :=
  match h.object id with
  | .error e => .error e
  | .ok (.cell contents) => .ok contents
  | .ok other => .error (.kindMismatch id "cell" other.kindName)

def tupleSlots (h : Heap) (id : ObjectId) : Except HeapError (Array Value) :=
  match h.object id with
  | .error e => .error e
  | .ok (.tuple slots) => .ok slots
  | .ok other => .error (.kindMismatch id "tuple" other.kindName)

def tupleGet (h : Heap) (id : ObjectId) (index : Nat) : Except HeapError Value :=
  match h.tupleSlots id with
  | .error e => .error e
  | .ok slots =>
    match slots[index]? with
    | some v => .ok v
    | none => .error (.indexOutOfBounds id index)

def strongEntries (h : Heap) (id : ObjectId) : Except HeapError (SortedMap Primitive Value) :=
  match h.object id with
  | .error e => .error e
  | .ok (.strongMap entries) => .ok entries
  | .ok other => .error (.kindMismatch id "strong_map" other.kindName)

def weakEntries (h : Heap) (id : ObjectId) : Except HeapError (SortedMap ObjectId Value) :=
  match h.object id with
  | .error e => .error e
  | .ok (.weakMap entries) => .ok entries
  | .ok other => .error (.kindMismatch id "weak_map" other.kindName)

/-- The target of a weak reference, until it is reclaimed. -/
def derefWeak (h : Heap) (handle : WeakHandle) : Option ObjectId :=
  (h.weakRefs[handle.index]?).bind fun r => if r.cleared then none else some r.target

/-! ## Changes -/

/-- Adds an object without roots and gives it the next number. -/
def allocate (h : Heap) (object : Object) : ObjectId × Heap :=
  (⟨h.entries.size⟩,
    { h with
      entries := h.entries.push (some ⟨object, 0⟩)
      allocationsSinceCollect := h.allocationsSinceCollect + 1 })

def modifyEntry (h : Heap) (id : ObjectId) (f : HeapEntry → HeapEntry) : Heap :=
  { h with entries := h.entries.modify id.index (Option.map f) }

def setObject (h : Heap) (id : ObjectId) (object : Object) : Heap :=
  h.modifyEntry id fun entry => { entry with object }

/-- Replaces an object, which has to be in the heap. -/
def replace (id : ObjectId) (object : Object) : HeapM HeapError Unit := fun h =>
  if h.contains id then (.ok (), h.setObject id object) else (.error (.objectNotFound id), h)

def root (id : ObjectId) : HeapM HeapError Unit := fun h =>
  if h.contains id then
    (.ok (), h.modifyEntry id fun entry => { entry with roots := entry.roots + 1 })
  else (.error (.objectNotFound id), h)

/-- Takes a root from an object, which has to have one. -/
def unroot (id : ObjectId) : HeapM HeapError Unit := fun h =>
  match h.entry? id with
  | none => (.error (.objectNotFound id), h)
  | some entry =>
    if entry.roots = 0 then (.error (.notRooted id), h)
    else (.ok (), h.modifyEntry id fun entry => { entry with roots := entry.roots - 1 })

def setCellContents (id : ObjectId) (value : Value) : HeapM HeapError Unit := fun h =>
  match h.cellContents id with
  | .error e => (.error e, h)
  | .ok _ => (.ok (), h.setObject id (.cell (some value)))

def setEnvironmentSlot (id : ObjectId) (index : Nat) (contents : Option Value) :
    HeapM HeapError Unit := fun h =>
  match h.environment id with
  | .error e => (.error e, h)
  | .ok e =>
    if index < e.slots.size then
      (.ok (),
        h.setObject id (.environment { e with slots := e.slots.setIfInBounds index contents }))
    else (.error (.indexOutOfBounds id index), h)

def newTuple (length : Nat) (h : Heap) : ObjectId × Heap :=
  h.allocate (.tuple (Array.replicate length .undefined))

def tupleSet (id : ObjectId) (index : Nat) (value : Value) : HeapM HeapError Unit := fun h =>
  match h.tupleSlots id with
  | .error e => (.error e, h)
  | .ok slots =>
    if index < slots.size then
      (.ok (), h.setObject id (.tuple (slots.setIfInBounds index value)))
    else (.error (.indexOutOfBounds id index), h)

def newStrongMap (h : Heap) : ObjectId × Heap := h.allocate (.strongMap ∅)

def strongMapSet (id : ObjectId) (key : Primitive) (value : Value) :
    HeapM HeapError Unit := fun h =>
  match h.strongEntries id with
  | .error e => (.error e, h)
  | .ok entries => (.ok (), h.setObject id (.strongMap (entries.insert key value)))

/-- Removes an entry of a map from primitives and says whether there was one. -/
def strongMapRemove (id : ObjectId) (key : Primitive) : HeapM HeapError Bool := fun h =>
  match h.strongEntries id with
  | .error e => (.error e, h)
  | .ok entries => (.ok (entries.contains key), h.setObject id (.strongMap (entries.erase key)))

def newWeakMap (h : Heap) : ObjectId × Heap := h.allocate (.weakMap ∅)

/-- Writes an entry of a weak map.  The key has to be in the heap, which is
looked at first. -/
def weakMapSet (id key : ObjectId) (value : Value) : HeapM HeapError Unit := fun h =>
  if h.contains key then
    match h.weakEntries id with
    | .error e => (.error e, h)
    | .ok entries => (.ok (), h.setObject id (.weakMap (entries.insert key value)))
  else (.error (.objectNotFound key), h)

/-- Removes an entry of a weak map and says whether there was one. -/
def weakMapDelete (id key : ObjectId) : HeapM HeapError Bool := fun h =>
  match h.weakEntries id with
  | .error e => (.error e, h)
  | .ok entries => (.ok (entries.contains key), h.setObject id (.weakMap (entries.erase key)))

def registerWeak (target : ObjectId) (token : Nat) : HeapM HeapError WeakHandle := fun h =>
  if h.contains target then
    (.ok ⟨h.weakRefs.size⟩, { h with weakRefs := h.weakRefs.push ⟨target, token, false⟩ })
  else (.error (.objectNotFound target), h)

/-- Fetches the notes left since the last time. -/
def drainFinalizations (h : Heap) : List FinalizationRecord × Heap :=
  (h.pending.toList, { h with pending := #[] })

end Heap

end ClosureCache
