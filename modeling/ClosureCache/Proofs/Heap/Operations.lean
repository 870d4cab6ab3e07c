/-
The operations that the heap offers, apart from collections.

Most of them change one entry at most.  `perform_inPlace` says so once for all of these, so
that what no change of an entry touches need not be looked up operation by operation.  What
the operations on tuples and maps put in the place of the old object is said one by one.
-/
import ClosureCache.Proofs.Heap.Entries

namespace ClosureCache

namespace Heap

variable (h : Heap) (x : ObjectId)

/-! ## Tuples and maps

An operation on a tuple or a map that fails leaves the heap as it was. -/

theorem tupleSet_cases (index : Nat) (v : Value) : (tupleSet x index v h).2 = h ∨
    ∃ slots, h.object x = .ok (.tuple slots) ∧
      (tupleSet x index v h).2 = h.setObject x (.tuple (slots.setIfInBounds index v)) := by
  rw [tupleSet, tupleSlots]
  cases ho : h.object x with
  | error e => exact .inl rfl
  | ok o =>
    cases o with
    | tuple slots =>
      dsimp only
      split
      · exact .inr ⟨slots, rfl, rfl⟩
      · exact .inl rfl
    | _ => exact .inl rfl

theorem strongMapSet_cases (key : Primitive) (v : Value) : (strongMapSet x key v h).2 = h ∨
    ∃ entries, h.object x = .ok (.strongMap entries) ∧
      (strongMapSet x key v h).2 = h.setObject x (.strongMap (entries.insert key v)) := by
  rw [strongMapSet, strongEntries]
  cases ho : h.object x with
  | error e => exact .inl rfl
  | ok o =>
    cases o with
    | strongMap entries => exact .inr ⟨entries, rfl, rfl⟩
    | _ => exact .inl rfl

theorem strongMapRemove_cases (key : Primitive) : (strongMapRemove x key h).2 = h ∨
    ∃ entries, h.object x = .ok (.strongMap entries) ∧
      (strongMapRemove x key h).2 = h.setObject x (.strongMap (entries.erase key)) := by
  rw [strongMapRemove, strongEntries]
  cases ho : h.object x with
  | error e => exact .inl rfl
  | ok o =>
    cases o with
    | strongMap entries => exact .inr ⟨entries, rfl, rfl⟩
    | _ => exact .inl rfl

theorem weakMapSet_cases (key : ObjectId) (v : Value) : (weakMapSet x key v h).2 = h ∨
    ∃ entries, h.object x = .ok (.weakMap entries) ∧
      (weakMapSet x key v h).2 = h.setObject x (.weakMap (entries.insert key v)) := by
  rw [weakMapSet, weakEntries]
  split
  · cases ho : h.object x with
    | error e => exact .inl rfl
    | ok o =>
      cases o with
      | weakMap entries => exact .inr ⟨entries, rfl, rfl⟩
      | _ => exact .inl rfl
  · exact .inl rfl

theorem weakMapDelete_cases (key : ObjectId) : (weakMapDelete x key h).2 = h ∨
    ∃ entries, h.object x = .ok (.weakMap entries) ∧
      (weakMapDelete x key h).2 = h.setObject x (.weakMap (entries.erase key)) := by
  rw [weakMapDelete, weakEntries]
  cases ho : h.object x with
  | error e => exact .inl rfl
  | ok o =>
    cases o with
    | weakMap entries => exact .inr ⟨entries, rfl, rfl⟩
    | _ => exact .inl rfl

end Heap

/-- A change that the heap offers to everyone. -/
inductive HeapOp where
  | allocate (object : Object)
  | replace (id : ObjectId) (object : Object)
  | setCell (id : ObjectId) (value : Value)
  | setEnvironmentSlot (id : ObjectId) (index : Nat) (contents : Option Value)
  | tupleSet (id : ObjectId) (index : Nat) (value : Value)
  | strongMapSet (id : ObjectId) (key : Primitive) (value : Value)
  | strongMapRemove (id : ObjectId) (key : Primitive)
  | weakMapSet (id key : ObjectId) (value : Value)
  | weakMapDelete (id key : ObjectId)
  | root (id : ObjectId)
  | unroot (id : ObjectId)
  | registerWeak (target : ObjectId) (token : Nat)
  | drain

namespace HeapOp

def perform : HeapOp → Heap → Heap
  | allocate object, h => (h.allocate object).2
  | replace id object, h => (Heap.replace id object h).2
  | setCell id value, h => (Heap.setCellContents id value h).2
  | setEnvironmentSlot id index contents, h => (Heap.setEnvironmentSlot id index contents h).2
  | tupleSet id index value, h => (Heap.tupleSet id index value h).2
  | strongMapSet id key value, h => (Heap.strongMapSet id key value h).2
  | strongMapRemove id key, h => (Heap.strongMapRemove id key h).2
  | weakMapSet id key value, h => (Heap.weakMapSet id key value h).2
  | weakMapDelete id key, h => (Heap.weakMapDelete id key h).2
  | root id, h => (Heap.root id h).2
  | unroot id, h => (Heap.unroot id h).2
  | registerWeak target token, h => (Heap.registerWeak target token h).2
  | drain, h => h.drainFinalizations.2

/-- The object that the operation writes or unpins. -/
def target? : HeapOp → Option ObjectId
  | allocate _ => none
  | replace id _ => some id
  | setCell id _ => some id
  | setEnvironmentSlot id _ _ => some id
  | tupleSet id _ _ => some id
  | strongMapSet id _ _ => some id
  | strongMapRemove id _ => some id
  | weakMapSet id _ _ => some id
  | weakMapDelete id _ => some id
  | root _ => none
  | unroot id => some id
  | registerWeak _ _ => none
  | drain => none

/-- Whether the operation adds no object and no weak reference and fetches no notes. -/
def inPlace : HeapOp → Bool
  | allocate _ | registerWeak _ _ | drain => false
  | _ => true

/-- An operation in place changes one entry at most, that of its target unless it only adds
a root. -/
theorem perform_inPlace {op : HeapOp} (hop : op.inPlace = true) (h : Heap) :
    op.perform h = h ∨ ∃ x f, op.perform h = h.modifyEntry x f ∧
      (op.target? = some x ∨ ∀ e : HeapEntry, (f e).object = e.object ∧ e.roots ≤ (f e).roots) := by
  have hset : ∀ {x} o, op.target? = some x → ∃ y f, h.setObject x o = h.modifyEntry y f ∧
      (op.target? = some y ∨ ∀ e : HeapEntry, (f e).object = e.object ∧ e.roots ≤ (f e).roots) :=
    fun o hx => ⟨_, _, rfl, .inl hx⟩
  cases op with
  | allocate o => cases hop
  | registerWeak x token => cases hop
  | drain => cases hop
  | root x =>
    rw [perform, Heap.root]
    split
    · exact .inr ⟨_, _, rfl, .inr fun e => ⟨rfl, Nat.le_succ _⟩⟩
    · exact .inl rfl
  | unroot x =>
    rw [perform, Heap.unroot]
    split
    · exact .inl rfl
    · split
      · exact .inl rfl
      · exact .inr ⟨_, _, rfl, .inl rfl⟩
  | replace x o =>
    rw [perform, Heap.replace]
    split
    · exact .inr (hset o rfl)
    · exact .inl rfl
  | weakMapSet x key v =>
    rw [perform, Heap.weakMapSet]
    split
    · split
      · exact .inl rfl
      · exact .inr (hset _ rfl)
    · exact .inl rfl
  | setEnvironmentSlot x index contents =>
    rw [perform, Heap.setEnvironmentSlot]
    split
    · exact .inl rfl
    · split
      · exact .inr (hset _ rfl)
      · exact .inl rfl
  | tupleSet x index v =>
    rw [perform, Heap.tupleSet]
    split
    · exact .inl rfl
    · split
      · exact .inr (hset _ rfl)
      · exact .inl rfl
  | setCell x v =>
    rw [perform, Heap.setCellContents]
    split
    · exact .inl rfl
    · exact .inr (hset _ rfl)
  | strongMapSet x key v =>
    rw [perform, Heap.strongMapSet]
    split
    · exact .inl rfl
    · exact .inr (hset _ rfl)
  | strongMapRemove x key =>
    rw [perform, Heap.strongMapRemove]
    split
    · exact .inl rfl
    · exact .inr (hset _ rfl)
  | weakMapDelete x key =>
    rw [perform, Heap.weakMapDelete]
    split
    · exact .inl rfl
    · exact .inr (hset _ rfl)

end HeapOp

end ClosureCache
