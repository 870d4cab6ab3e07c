/-
A cache of closures: a trie and the statistics of its use.

A step on a cache has its result beside the cache and the heap it leaves, also
where it fails: a miss is counted before the closure is built, and what was
allocated stays allocated.
-/
import ClosureCache.Cache.Trie

namespace ClosureCache

structure CacheStats where
  hits : Nat
  misses : Nat
  inserts : Nat
  /-- Number of closures that were built for a key which had one already. -/
  discarded : Nat
  /-- Number of nodes removed by compaction. -/
  pruned : Nat
deriving DecidableEq, Repr

namespace CacheStats

def zero : CacheStats := ⟨0, 0, 0, 0, 0⟩

def add (a b : CacheStats) : CacheStats :=
  ⟨a.hits + b.hits, a.misses + b.misses, a.inserts + b.inserts, a.discarded + b.discarded,
    a.pruned + b.pruned⟩

end CacheStats

/-- Whether a closure was found or built. -/
inductive CacheOutcome where
  | hit
  | miss
deriving DecidableEq, Repr

def CacheOutcome.name : CacheOutcome → String
  | hit => "hit"
  | miss => "miss"

/-- A trie and the statistics of its use. -/
structure Cache where
  trie : Trie
  stats : CacheStats
deriving DecidableEq, Repr

namespace Cache

def create (site : SiteId) (arity : Nat) : HeapM CacheError Cache := do
  return { trie := ← Trie.create site arity, stats := .zero }

def count (c : Cache) (f : CacheStats → CacheStats) : Cache := { c with stats := f c.stats }

/-- Holds a closure under a key unless one is held there already, and returns
the one that is held. -/
def insert (c : Cache) (key : Key) (function : ObjectId) (h : Heap) :
    Except CacheError ObjectId × Cache × Heap :=
  match c.trie.insert key function h with
  | (.error e, h) => (.error e, c, h)
  | (.ok (stored, true), h) => (.ok stored, c.count fun s => { s with inserts := s.inserts + 1 }, h)
  | (.ok (stored, false), h) =>
    (.ok stored, c.count fun s => { s with discarded := s.discarded + 1 }, h)

/-- The closure held under a key, built and inserted if there is none.  The
errors of the cache are told to the caller through `wrap`. -/
def getOrInsertWith {ε : Type} (c : Cache) (key : Key) (wrap : CacheError → ε)
    (build : HeapM ε ObjectId) (h : Heap) : Except ε (ObjectId × CacheOutcome) × Cache × Heap :=
  match c.trie.lookup key h with
  | .error e => (.error (wrap e), c, h)
  | .ok (some function) =>
    (.ok (function, .hit), c.count fun s => { s with hits := s.hits + 1 }, h)
  | .ok none =>
    let c := c.count fun s => { s with misses := s.misses + 1 }
    match build h with
    | (.error e, h) => (.error e, c, h)
    | (.ok built, h) =>
      match c.insert key built h with
      | (.error e, c, h) => (.error (wrap e), c, h)
      | (.ok stored, c, h) => (.ok (stored, .miss), c, h)

/-- Removes the nodes that lead to no closure. -/
def compact (c : Cache) (h : Heap) : Except (Stop CacheError) Nat × Cache × Heap :=
  match c.trie.compact h with
  | (.error e, h) => (.error e, c, h)
  | (.ok pruned, h) => (.ok pruned, c.count fun s => { s with pruned := s.pruned + pruned }, h)

end Cache

end ClosureCache
