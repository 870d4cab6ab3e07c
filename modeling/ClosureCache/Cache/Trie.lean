/-
The trie of a cache: closures by key, one layer a component, built from heap
objects so that the collector decides what survives.

A node is a tuple of three slots.  The first leads to a map from primitives and
the second to a weak map, each with the children for one kind of component; both
are made when they are first needed.  The third holds the closure of the key
that ends at the node.  Only the root of the trie is pinned, so a child under an
object lives as long as that object, and a whole branch goes with it.

A trie that other hands have tampered with is told from a proper one by its
slots and edges, and refused.
-/
import ClosureCache.Heap.Basic
import ClosureCache.Key.Basic
import ClosureCache.Stop

namespace ClosureCache

inductive CacheError where
  | arityMismatch (site : SiteId) (expected actual : Nat)
  | consistencyViolation (site : SiteId) (detail : String)
  | host (e : HeapError)
deriving DecidableEq, Repr

namespace CacheError

def code : CacheError → String
  | arityMismatch .. => "FE-MEMO-0601"
  | consistencyViolation .. => "FE-MEMO-0602"
  | host e => e.code

def message : CacheError → String
  | arityMismatch site expected actual =>
    "cache for " ++ site.text ++ " expects " ++ expected.repr ++ " key components, got " ++
      actual.repr
  | consistencyViolation site detail =>
    "cache consistency violation at " ++ site.text ++ ": " ++ detail
  | host e => e.message

end CacheError

inductive NodeSlot where
  /-- The children under primitives. -/
  | primitive
  /-- The children under objects and cells. -/
  | weak
  /-- The closure of the key that ends here. -/
  | terminal
deriving DecidableEq, Repr

def NodeSlot.index : NodeSlot → Nat
  | primitive => 0
  | weak => 1
  | terminal => 2

/-- The trie of a definition, whose keys all have one length. -/
structure Trie where
  site : SiteId
  arity : Nat
  root : ObjectId
deriving DecidableEq, Repr

namespace Trie

/-- Makes a trie without keys and pins its root. -/
def create (site : SiteId) (arity : Nat) : HeapM CacheError Trie := do
  let root ← HeapM.change (Heap.newTuple 3)
  HeapM.mapError .host (Heap.root root)
  return { site, arity, root }

/-- Unpins the root, which leaves the trie to the collector. -/
def release (t : Trie) : HeapM CacheError Unit := HeapM.mapError .host (Heap.unroot t.root)

/-- The error of a trie that is not as it should be. -/
def violation (t : Trie) (detail : String) : CacheError := .consistencyViolation t.site detail

def checkArity (t : Trie) (key : Key) : Except CacheError Unit :=
  if key.arity = t.arity then .ok () else .error (.arityMismatch t.site t.arity key.arity)

/-! ## Reading nodes -/

/-- The map in a slot of a node, if it has been made. -/
def partition? (t : Trie) (node : ObjectId) (slot : NodeSlot) (h : Heap) :
    Except CacheError (Option ObjectId) :=
  match h.tupleGet node slot.index with
  | .error e => .error (.host e)
  | .ok .undefined => .ok none
  | .ok (.object map) => .ok (some map)
  | .ok other =>
    .error (t.violation ("partition slot " ++ slot.index.repr ++ " of " ++ node.text ++
      " holds a " ++ other.typeName))

def asNode (t : Trie) : Value → Except CacheError ObjectId
  | .object child => .ok child
  | other => .error (t.violation ("child edge holds a " ++ other.typeName))

/-- The closure of the key that ends at a node. -/
def terminal? (t : Trie) (node : ObjectId) (h : Heap) : Except CacheError (Option ObjectId) :=
  match h.tupleGet node NodeSlot.terminal.index with
  | .error e => .error (.host e)
  | .ok .undefined => .ok none
  | .ok (.object function) => .ok (some function)
  | .ok other =>
    .error (t.violation ("terminal of " ++ node.text ++ " holds a " ++ other.typeName))

/-- The slot of a node that leads to the children for a component. -/
def slotOf : KeyComponent → NodeSlot
  | .primitive _ => .primitive
  | .objectRef _ => .weak
  | .cellRef _ => .weak

def edge? (map : ObjectId) (h : Heap) : KeyComponent → Except HeapError (Option Value)
  | .primitive p => (h.strongEntries map).map fun entries => entries.get? p
  | .objectRef id => (h.weakEntries map).map fun entries => entries.get? id
  | .cellRef id => (h.weakEntries map).map fun entries => entries.get? id

def child? (t : Trie) (node : ObjectId) (c : KeyComponent) (h : Heap) :
    Except CacheError (Option ObjectId) :=
  match t.partition? node (slotOf c) h with
  | .error e => .error e
  | .ok none => .ok none
  | .ok (some map) =>
    match edge? map h c with
    | .error e => .error (.host e)
    | .ok none => .ok none
    | .ok (some value) => (t.asNode value).map some

def edges (t : Trie) (node : ObjectId) (slot : NodeSlot) (h : Heap) :
    Except CacheError (List Value) :=
  match t.partition? node slot h with
  | .error e => .error e
  | .ok none => .ok []
  | .ok (some map) =>
    let values := match slot with
      | .weak => (h.weakEntries map).map SortedMap.values
      | _ => (h.strongEntries map).map SortedMap.values
    values.mapError .host

/-- The children of a node, those under primitives first. -/
def children (t : Trie) (node : ObjectId) (h : Heap) : Except CacheError (List ObjectId) := do
  let primitives ← (← t.edges node .primitive h).mapM t.asNode
  let weak ← (← t.edges node .weak h).mapM t.asNode
  return primitives ++ weak

/-! ## Looking up -/

def lookupFrom (t : Trie) (h : Heap) :
    ObjectId → List KeyComponent → Except CacheError (Option ObjectId)
  | node, [] => t.terminal? node h
  | node, c :: rest =>
    match t.child? node c h with
    | .error e => .error e
    | .ok none => .ok none
    | .ok (some child) => t.lookupFrom h child rest

def lookup (t : Trie) (key : Key) (h : Heap) : Except CacheError (Option ObjectId) :=
  match t.checkArity key with
  | .error e => .error e
  | .ok () => t.lookupFrom h t.root key.components

/-! ## Inserting -/

/-- The map in a slot of a node, made if it is not there. -/
def partitionOrCreate (t : Trie) (node : ObjectId) (slot : NodeSlot)
    (create : Heap → ObjectId × Heap) : HeapM CacheError ObjectId := do
  match ← HeapM.ask (t.partition? node slot) with
  | some map => return map
  | none =>
    let map ← HeapM.change create
    HeapM.mapError .host (Heap.tupleSet node slot.index (.object map))
    return map

def link (t : Trie) (node child : ObjectId) : KeyComponent → HeapM CacheError Unit
  | .primitive p => do
    let map ← t.partitionOrCreate node .primitive Heap.newStrongMap
    HeapM.mapError .host (Heap.strongMapSet map p (.object child))
  | .objectRef id => do
    let map ← t.partitionOrCreate node .weak Heap.newWeakMap
    HeapM.mapError .host (Heap.weakMapSet map id (.object child))
  | .cellRef id => do
    let map ← t.partitionOrCreate node .weak Heap.newWeakMap
    HeapM.mapError .host (Heap.weakMapSet map id (.object child))

/-- The child of a node for a component, made if it is not there. -/
def childOrCreate (t : Trie) (node : ObjectId) (c : KeyComponent) : HeapM CacheError ObjectId := do
  match ← HeapM.ask (t.child? node c) with
  | some child => return child
  | none =>
    let child ← HeapM.change (Heap.newTuple 3)
    t.link node child c
    return child

/-- The node at the end of a path that starts at a node, with all nodes on the
way made. -/
def nodeAt (t : Trie) : ObjectId → List KeyComponent → HeapM CacheError ObjectId
  | node, [] => return node
  | node, c :: rest => do
    let child ← t.childOrCreate node c
    t.nodeAt child rest

/-- Holds a closure under a key unless one is held there already.  Returns the
closure that is held, and whether it is the new one. -/
def insert (t : Trie) (key : Key) (function : ObjectId) : HeapM CacheError (ObjectId × Bool) := do
  HeapM.ask fun _ => t.checkArity key
  let node ← t.nodeAt t.root key.components
  match ← HeapM.ask (t.terminal? node) with
  | some existing => return (existing, false)
  | none =>
    HeapM.mapError .host (Heap.tupleSet node NodeSlot.terminal.index (.object function))
    return (function, true)

/-! ## Counting and compacting

A proper trie has no cycles, so a path in it visits no object twice.  A walk
that has gone deeper than there are numbers is on a cycle and would never end. -/

/-- The closures at a node and below it, down to `n` layers.  The children are
visited from the last to the first. -/
def closuresFrom (t : Trie) (h : Heap) : Nat → ObjectId → Except (Stop CacheError) (List ObjectId)
  | 0, _ => .error .endless
  | n + 1, node => do
    let closure ← (t.terminal? node h).mapError .error
    let children ← (t.children node h).mapError .error
    let below ← children.reverse.mapM (t.closuresFrom h n)
    return closure.toList ++ below.flatten

/-- Number of closures in the trie. -/
def liveEntries (t : Trie) (h : Heap) : Except (Stop CacheError) Nat :=
  (t.closuresFrom h (h.entries.size + 1) t.root).map List.length

/-- A step on nodes, as part of a walk that may have no end. -/
def walking {α : Type} (x : HeapM CacheError α) : HeapM (Stop CacheError) α :=
  HeapM.mapError .error x

/-- Compacts the children at the end of some entries of a map and removes the
entries of those that are left empty.  Returns the number of nodes removed. -/
def compactEntries {κ : Type} (t : Trie) (visit : ObjectId → HeapM (Stop CacheError) (Bool × Nat))
    (remove : κ → HeapM HeapError Bool) : List (κ × Value) → HeapM (Stop CacheError) Nat
  | [] => return 0
  | (key, value) :: rest => do
    let child ← walking (HeapM.ask fun _ => t.asNode value)
    let (empty, below) ← visit child
    if empty then
      let _ ← walking (HeapM.mapError .host (remove key))
    let others ← t.compactEntries visit remove rest
    return below + (if empty then 1 else 0) + others

/-- Compacts the children of a node in one of its maps, and drops the map if no
entry is left. -/
def compactPartition {κ : Type} [Ord κ] (t : Trie)
    (visit : ObjectId → HeapM (Stop CacheError) (Bool × Nat)) (node : ObjectId) (slot : NodeSlot)
    (entries : Heap → ObjectId → Except HeapError (SortedMap κ Value))
    (remove : ObjectId → κ → HeapM HeapError Bool) : HeapM (Stop CacheError) Nat := do
  match ← walking (HeapM.ask (t.partition? node slot)) with
  | none => return 0
  | some map =>
    let entriesOf := walking (HeapM.mapError .host (HeapM.ask fun h => entries h map))
    let pruned ← t.compactEntries visit (remove map) (← entriesOf).toList
    if (← entriesOf).isEmpty then
      walking (HeapM.mapError .host (Heap.tupleSet node slot.index .undefined))
    return pruned

/-- Whether a node has neither a closure nor a child. -/
def isEmptyNode (t : Trie) (node : ObjectId) (h : Heap) : Except CacheError Bool := do
  if (← t.terminal? node h).isSome then
    return false
  if (← t.partition? node .primitive h).isSome then
    return false
  return (← t.partition? node .weak h).isNone

/-- Removes the empty nodes below a node, down to `n` layers.  Returns whether
the node itself is empty now and how many nodes were removed. -/
def compactNode (t : Trie) : Nat → ObjectId → HeapM (Stop CacheError) (Bool × Nat)
  | 0, _ => throw .endless
  | n + 1, node => do
    let primitives ←
      t.compactPartition (t.compactNode n) node .primitive Heap.strongEntries Heap.strongMapRemove
    let weak ←
      t.compactPartition (t.compactNode n) node .weak Heap.weakEntries Heap.weakMapDelete
    let empty ← walking (HeapM.ask (t.isEmptyNode node))
    return (empty, primitives + weak)

/-- Removes every node that leads to no closure.  Returns how many there
were. -/
def compact (t : Trie) : HeapM (Stop CacheError) Nat := do
  let (_, pruned) ← t.compactNode ((← get).entries.size + 1) t.root
  return pruned

end Trie

end ClosureCache
