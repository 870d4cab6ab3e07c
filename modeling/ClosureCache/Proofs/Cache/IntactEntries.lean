/-
No operation of a cache breaks an entry of a weak map.

An operation writes an entry of a weak map only to put a new node below another, and the
node is in the heap by then; compaction only takes entries away.  This needs no proper
trie: an operation that meets a broken trie and fails has kept the entries as well.
-/
import ClosureCache.Proofs.Cache.CacheRelations
import ClosureCache.Proofs.Heap.Intact

namespace ClosureCache

theorem Object.weakEntries_of_not_part {o : Object} (ho : o.isPart = false) :
    o.weakEntries = [] := by
  cases o with
  | weakMap entries => cases ho
  | _ => rfl

/-- Evaluation keeps entries intact as long as it makes no weak map with entries. -/
def Heap.EvalRelation.keepingIntact : Heap.EvalRelation where
  Holds := Heap.KeepsIntact
  makes o := o.weakEntries = []
  refl := Heap.KeepsIntact.refl
  trans := Heap.KeepsIntact.trans
  plain _ := Object.weakEntries_of_not_part
  allocate _ _ := Heap.keepsIntact_allocate
  setObject _ _ _ _ _ _ _ := Heap.keepsIntact_setObject_of_nil

theorem Heap.EvalRelation.roots_keepingIntact : keepingIntact.Roots :=
  fun _ => Heap.keepsIntact_root

/-- Caches keep entries intact as long as they put under edges what is in the heap. -/
def Heap.EvalCacheRelation.keepingIntact : Heap.EvalCacheRelation where
  toEvalRelation := .keepingIntact
  slots _ _ := True
  mayLink h y := h.contains y = true
  slots_mono _ _ := trivial
  mayLink_mono hu := hu.mono _
  slots_new _ _ _ := trivial
  mayLink_new h o _ := contains_of_object (object_allocate_self h o)
  slots_function _ _ := trivial
  newTuple _ _ := keepsIntact_allocate rfl
  newStrongMap _ := keepsIntact_allocate rfl
  newWeakMap _ := keepsIntact_allocate rfl
  pins _ _ _ := keepsIntact_root _
  tupleSet h x index y _ := h.keepsIntact_tupleSet x index (.object y)
  tupleClear h x index := h.keepsIntact_tupleSet x index .undefined
  strongMapSet h x key y _ := h.keepsIntact_strongMapSet x key (.object y)
  strongMapRemove h := h.keepsIntact_strongMapRemove
  weakMapSet _ x key _ hy := keepsIntact_weakMapSet hy x key
  weakMapDelete h := h.keepsIntact_weakMapDelete

open Heap.EvalCacheRelation (keepingIntact)

theorem Cache.insert_keepsIntact (c : Cache) (key : Key) (function : ObjectId) (h : Heap) :
    h.KeepsIntact (c.insert key function h).2.2 :=
  c.insert_keeps keepingIntact.toCacheRelation key trivial

theorem Registry.compactAll_keepsIntact (r : Registry) (h : Heap) :
    h.KeepsIntact (r.compactAll h).2.2 :=
  r.compactAll_keeps keepingIntact.toPruning h

end ClosureCache
