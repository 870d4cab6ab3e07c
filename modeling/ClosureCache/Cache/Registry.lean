/-
The caches of a program, one for every shared definition that control has
reached.
-/
import ClosureCache.Cache.Basic

namespace ClosureCache

/-- Caches by their definition. -/
structure Registry where
  caches : SortedMap SiteId Cache
deriving DecidableEq, Repr

namespace Registry

def empty : Registry := ⟨∅⟩

instance : Inhabited Registry := ⟨empty⟩

def get? (r : Registry) (site : SiteId) : Option Cache := r.caches.get? site

def toList (r : Registry) : List Cache := r.caches.values

def put (r : Registry) (site : SiteId) (c : Cache) : Registry := ⟨r.caches.insert site c⟩

def stats (r : Registry) : CacheStats := r.toList.foldl (fun s c => s.add c.stats) .zero

/-- The cache of a definition, made if there is none, and whether it was made.
A cache whose keys have another length is refused. -/
def getOrCreate (r : Registry) (site : SiteId) (arity : Nat) (h : Heap) :
    Except CacheError (Cache × Bool) × Registry × Heap :=
  match r.get? site with
  | some c =>
    if c.trie.arity = arity then (.ok (c, false), r, h)
    else (.error (.arityMismatch site c.trie.arity arity), r, h)
  | none =>
    match Cache.create site arity h with
    | (.error e, h) => (.error e, r, h)
    | (.ok c, h) => (.ok (c, true), r.put site c, h)

/-- What reaching a definition gave. -/
structure Reached where
  function : ObjectId
  outcome : CacheOutcome
  /-- Whether the cache was made by this reach. -/
  created : Bool
deriving DecidableEq, Repr

/-- The closure of a definition for a key, built if there is none. -/
def reach {ε : Type} (r : Registry) (site : SiteId) (arity : Nat) (key : Key)
    (wrap : CacheError → ε) (build : HeapM ε ObjectId) (h : Heap) :
    Except ε Reached × Registry × Heap :=
  match r.getOrCreate site arity h with
  | (.error e, r, h) => (.error (wrap e), r, h)
  | (.ok (c, created), r, h) =>
    match c.getOrInsertWith key wrap build h with
    | (.error e, c, h) => (.error e, r.put site c, h)
    | (.ok (function, outcome), c, h) => (.ok ⟨function, outcome, created⟩, r.put site c, h)

/-- Compacts caches one after the other up to the first error, and adds up what
was removed. -/
def compactEach (r : Registry) :
    List (SiteId × Cache) → Nat → Heap → Except (Stop CacheError) Nat × Registry × Heap
  | [], pruned, h => (.ok pruned, r, h)
  | (site, c) :: rest, pruned, h =>
    match c.compact h with
    | (.error e, _, h) => (.error e, r, h)
    | (.ok n, c, h) => (r.put site c).compactEach rest (pruned + n) h

/-- Compacts every cache.  Returns the number of nodes removed. -/
def compactAll (r : Registry) (h : Heap) : Except (Stop CacheError) Nat × Registry × Heap :=
  r.compactEach r.caches.toList 0 h

/-- Unpins the roots of caches one after the other up to the first error. -/
def releaseEach : List Cache → HeapM CacheError Unit
  | [] => return
  | c :: rest => do
    c.trie.release
    releaseEach rest

/-- Forgets all caches and unpins their roots. -/
def release (r : Registry) (h : Heap) : Except CacheError Unit × Registry × Heap :=
  let (result, h) := releaseEach r.toList h
  (result, empty, h)

end Registry

end ClosureCache
