/-
Garbage collection.

Marking starts from the rooted objects and follows strong references.  When no
more objects are found that way, the marked weak maps are looked through: an
entry whose key is marked leads to its value.  These rounds are repeated until
one of them finds nothing new.  An unmarked value of such an entry that is not
in the heap at all is found again in every round, so marking then never ends,
and `mark?` has no result.

`collect?` sweeps the unmarked objects, drops the entries of weak maps whose
keys were swept, and leaves a note for every weak reference to a swept object.
-/
import ClosureCache.Heap.Basic

namespace ClosureCache

/-- A set of objects of one heap: a flag for every number given out. -/
structure MarkSet where
  flags : Array Bool
deriving DecidableEq, Repr

namespace MarkSet

/-- The set without objects, for a heap that has given out `n` numbers. -/
def empty (n : Nat) : MarkSet := ⟨Array.replicate n false⟩

def contains (m : MarkSet) (id : ObjectId) : Bool := m.flags[id.index]?.getD false

def insert (m : MarkSet) (id : ObjectId) : MarkSet := ⟨m.flags.setIfInBounds id.index true⟩

def size (m : MarkSet) : Nat := m.flags.countP id

/-- The empty set has no member. -/
@[simp] theorem contains_empty (n : Nat) (id : ObjectId) : (empty n).contains id = false := by
  simp only [contains, empty, Array.getElem?_replicate]
  split <;> rfl

/-- Adding an object adds that object and no other, if its number was given
out. -/
theorem contains_insert (m : MarkSet) (a b : ObjectId) :
    (m.insert a).contains b = (m.contains b || decide (a = b ∧ a.index < m.flags.size)) := by
  simp only [contains, insert, Array.getElem?_setIfInBounds]
  have hab : a = b ↔ a.index = b.index := by cases a; cases b; simp
  by_cases h : a.index = b.index
  · by_cases hs : a.index < m.flags.size
    · simp [hab, ← h, hs]
    · simp [← h, hs]
  · simp [hab, h]

end MarkSet

structure CollectionStats where
  marked : Nat
  swept : Nat
  /-- Number of entries dropped from weak maps. -/
  weakCleared : Nat
  /-- Number of notes left. -/
  finalized : Nat
  /-- Number of times the weak maps were looked through. -/
  rounds : Nat
deriving DecidableEq, Repr

namespace Heap

/-! ## Marking -/

/-- Whether an object is in the heap and not marked yet. -/
def isFresh (h : Heap) (m : MarkSet) (id : ObjectId) : Bool := h.contains id && !m.contains id

/-- The objects that an object of the heap keeps alive by itself. -/
def strongRefs (h : Heap) (id : ObjectId) : List ObjectId :=
  match h.entry? id with
  | some entry => entry.object.strongRefs
  | none => []

/-- Marks up to `n` objects found from `work` along strong references.  Numbers
without an object are passed over. -/
def visit (h : Heap) : Nat → MarkSet → List ObjectId → MarkSet
  | 0, m, _ => m
  | n + 1, m, work =>
    match work.dropWhile fun id => !h.isFresh m id with
    | [] => m
    | id :: rest => h.visit n (m.insert id) (h.strongRefs id ++ rest)

def ids (h : Heap) : List ObjectId := (List.range h.entries.size).map ObjectId.mk

def rooted (h : Heap) : List ObjectId :=
  h.ids.filter fun id => (h.entry? id).any fun entry => 0 < entry.roots

/-- The unmarked objects that the entries of a weak map lead to. -/
def entryTargets (m : MarkSet) (entries : List (ObjectId × Value)) : List ObjectId :=
  entries.filterMap fun e =>
    if m.contains e.1 then e.2.object?.filter fun target => !m.contains target else none

/-- The unmarked objects that the marked weak maps lead to. -/
def weakTargets (h : Heap) (m : MarkSet) : List ObjectId :=
  (h.ids.filter m.contains).flatMap fun id =>
    match h.entry? id with
    | some entry => entryTargets m entry.object.weakEntries
    | none => []

/-- Marks what is found from `work` along strong references and, round by
round, through weak maps.  There is no result unless `n` more rounds are
enough. -/
def markRounds (h : Heap) : Nat → MarkSet → List ObjectId → Nat → Option (MarkSet × Nat)
  | 0, _, _, _ => none
  | n + 1, m, work, rounds =>
    let m := h.visit h.entries.size m work
    match h.weakTargets m with
    | [] => some (m, rounds + 1)
    | targets => h.markRounds n m targets (rounds + 1)

/-- The objects that a collection keeps, and the number of rounds.  Every round
but the last marks an object or none ever will, so one round more than there are
numbers is enough if any number of rounds is. -/
def mark? (h : Heap) : Option (MarkSet × Nat) :=
  h.markRounds (h.entries.size + 1) (.empty h.entries.size) h.rooted 0

/-! ## Sweeping -/

/-- A weak map without the entries whose key is not kept; other objects are
left alone. -/
def pruneWeak (m : MarkSet) : Object → Object
  | .weakMap entries => .weakMap (entries.filterKeys m.contains)
  | other => other

/-- The objects that are kept, with their weak maps pruned. -/
def sweepEntries (h : Heap) (m : MarkSet) : Array (Option HeapEntry) :=
  h.entries.mapIdx fun i entry =>
    if m.contains ⟨i⟩ then entry.map fun e => { e with object := pruneWeak m e.object } else none

def allWeakEntries (entries : Array (Option HeapEntry)) : List (ObjectId × Value) :=
  entries.toList.flatMap fun entry =>
    match entry with
    | some e => e.object.weakEntries
    | none => []

/-- The objects that are kept, with their weak maps whole. -/
def keptEntries (h : Heap) (m : MarkSet) : Array (Option HeapEntry) :=
  h.entries.mapIdx fun i entry => if m.contains ⟨i⟩ then entry else none

/-- The notes for the weak references whose targets are not kept, in the order
of their handles. -/
def newRecords (h : Heap) (m : MarkSet) : List FinalizationRecord :=
  h.weakRefs.toList.zipIdx.filterMap fun (r, i) =>
    if r.cleared || m.contains r.target then none else some ⟨⟨i⟩, r.target, r.token⟩

/-- A weak reference after the sweep. -/
def clearRef (m : MarkSet) (r : WeakRef) : WeakRef :=
  { r with cleared := r.cleared || !m.contains r.target }

/-- Reclaims everything that is not marked. -/
def sweep (h : Heap) (m : MarkSet) (rounds : Nat) : CollectionStats × Heap :=
  let kept := h.keptEntries m
  let entries := h.sweepEntries m
  let swept := h.objectCount - kept.countP Option.isSome
  let records := h.newRecords m
  let cleared := (allWeakEntries kept).length - (allWeakEntries entries).length
  ({ marked := m.size, swept, weakCleared := cleared, finalized := records.length, rounds },
    { entries
      weakRefs := h.weakRefs.map (clearRef m)
      pending := h.pending ++ records
      allocationsSinceCollect := 0
      collectionCount := h.collectionCount + 1
      totalSwept := h.totalSwept + swept })

/-- One collection; there is none if marking does not end. -/
def collect? (h : Heap) : Option (CollectionStats × Heap) :=
  h.mark?.map fun (m, rounds) => h.sweep m rounds

end Heap

end ClosureCache
