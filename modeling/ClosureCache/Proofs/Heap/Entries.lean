/-
What a step on the heap does to the objects in it.

The view of a heap is `entry?`, and each change of the heap is described by what
it does to that view.  A step that is put together from others is run with
`HeapM.bind_apply` and the equations beside it.
-/
import ClosureCache.Heap.Basic

namespace ClosureCache

/-! ## Running steps -/

@[simp] theorem Except.mapError_ok {ε ε' α : Type} (f : ε → ε') (a : α) :
    (Except.ok a).mapError f = .ok a := rfl

@[simp] theorem Except.mapError_error {ε ε' α : Type} (f : ε → ε') (e : ε) :
    (Except.error e : Except ε α).mapError f = .error (f e) := rfl

namespace HeapM

variable {ε ε' α β : Type}

/-- A step after another one runs where the first one left the heap, unless the
first one fails. -/
theorem bind_apply (x : HeapM ε α) (f : α → HeapM ε β) (h : Heap) :
    (x >>= f) h =
      match x h with
      | (.ok a, h') => f a h'
      | (.error e, h') => (.error e, h') := by
  show (x h >>= fun r => ExceptT.bindCont f r.1 r.2) = _
  show ExceptT.bindCont f (x h).1 (x h).2 = _
  cases hx : x h with
  | mk r h' =>
    cases r with
    | ok a => rfl
    | error e => rfl

theorem bind_of_ok {x : HeapM ε α} {f : α → HeapM ε β} {h h' : Heap} {a : α}
    (hx : x h = (.ok a, h')) : (x >>= f) h = f a h' := by
  rw [bind_apply, hx]

theorem bind_of_error {x : HeapM ε α} {f : α → HeapM ε β} {h h' : Heap} {e : ε}
    (hx : x h = (.error e, h')) : (x >>= f) h = (.error e, h') := by
  rw [bind_apply, hx]

@[simp] theorem pure_apply (a : α) (h : Heap) : (pure a : HeapM ε α) h = (.ok a, h) := rfl

@[simp] theorem ask_apply (f : Heap → Except ε α) (h : Heap) : ask f h = (f h, h) := rfl

@[simp] theorem change_apply (f : Heap → α × Heap) (h : Heap) :
    (change f : HeapM ε α) h = (.ok (f h).1, (f h).2) := rfl

theorem mapError_of_ok {f : ε → ε'} {x : HeapM ε α} {h h' : Heap} {a : α}
    (hx : x h = (.ok a, h')) : mapError f x h = (.ok a, h') := by
  rw [mapError, hx]

theorem mapError_of_error {f : ε → ε'} {x : HeapM ε α} {h h' : Heap} {e : ε}
    (hx : x h = (.error e, h')) : mapError f x h = (.error (f e), h') := by
  rw [mapError, hx]

/-! ## Where steps end -/

section Ends

variable {P : Heap → Prop} {h : Heap}

theorem ends_bind {x : HeapM ε α} {f : α → HeapM ε β} (hx : P (x h).2)
    (hf : ∀ a h', x h = (.ok a, h') → P (f a h').2) : P ((x >>= f) h).2 := by
  rw [bind_apply]
  cases hr : x h with
  | mk r h' =>
    rw [hr] at hx
    cases r with
    | ok a => exact hf a h' hr
    | error e => exact hx

theorem ends_mapError {x : HeapM ε α} (hx : P (x h).2) (f : ε → ε') :
    P (mapError f x h).2 := by
  rw [mapError]
  cases hr : x h with
  | mk r h' =>
    rw [hr] at hx
    cases r <;> exact hx

end Ends

end HeapM

namespace Heap

/-! ## Entries -/

theorem lt_of_some {h : Heap} {x : ObjectId} {e : HeapEntry} (he : h.entry? x = some e) :
    x.index < h.entries.size := by
  rcases Nat.lt_or_ge x.index h.entries.size with hlt | hge
  · exact hlt
  · rw [Heap.entry?, Array.getElem?_eq_none hge] at he
    exact absurd he (by simp)

theorem entry?_none_of_size_le {h : Heap} {x : ObjectId} (hx : h.entries.size ≤ x.index) :
    h.entry? x = none := by
  rw [Heap.entry?, Array.getElem?_eq_none hx]
  rfl

theorem contains_iff {h : Heap} {x : ObjectId} : h.contains x = true ↔ ∃ e, h.entry? x = some e :=
  Option.isSome_iff_exists

theorem contains_of_some {h : Heap} {x : ObjectId} {e : HeapEntry} (he : h.entry? x = some e) :
    h.contains x = true := contains_iff.2 ⟨e, he⟩

theorem lt_of_contains {h : Heap} {x : ObjectId} (hx : h.contains x = true) :
    x.index < h.entries.size := by
  obtain ⟨e, he⟩ := contains_iff.1 hx
  exact lt_of_some he

theorem object_of_some {h : Heap} {x : ObjectId} {e : HeapEntry} (he : h.entry? x = some e) :
    h.object x = .ok e.object := by
  rw [object, he]

theorem entry?_of_object {h : Heap} {x : ObjectId} {o : Object} (ho : h.object x = .ok o) :
    ∃ e, h.entry? x = some e ∧ e.object = o := by
  rw [object] at ho
  split at ho
  · next e he => exact ⟨e, he, Except.ok.inj ho⟩
  · exact absurd ho (by simp)

theorem ext_index {x y : ObjectId} : x = y ↔ x.index = y.index := by
  cases x; cases y; simp

/-! ## Changes -/

@[simp] theorem allocate_fst (h : Heap) (o : Object) : (h.allocate o).1 = ⟨h.entries.size⟩ := rfl

@[simp] theorem size_allocate (h : Heap) (o : Object) :
    (h.allocate o).2.entries.size = h.entries.size + 1 := by
  simp [allocate]

/-- A new object has the next number, and every other object is left alone. -/
theorem entry?_allocate (h : Heap) (o : Object) (x : ObjectId) :
    Heap.entry? (h.allocate o).2 x =
      if x = ⟨h.entries.size⟩ then some ⟨o, 0⟩ else h.entry? x := by
  simp only [Heap.entry?, allocate, Array.getElem?_push, ext_index]
  split <;> rfl

theorem entry?_allocate_of_lt {h : Heap} {o : Object} {x : ObjectId}
    (hx : x.index < h.entries.size) : Heap.entry? (h.allocate o).2 x = h.entry? x := by
  rw [entry?_allocate, if_neg]
  exact fun e => Nat.ne_of_lt hx (ext_index.1 e)

@[simp] theorem size_modifyEntry (h : Heap) (x : ObjectId) (f : HeapEntry → HeapEntry) :
    (h.modifyEntry x f).entries.size = h.entries.size := by
  simp [modifyEntry]

/-- A change of one entry leaves every other entry alone. -/
theorem entry?_modifyEntry (h : Heap) (x : ObjectId) (f : HeapEntry → HeapEntry) (y : ObjectId) :
    Heap.entry? (h.modifyEntry x f) y = if y = x then (h.entry? x).map f else h.entry? y := by
  simp only [Heap.entry?, modifyEntry, Array.getElem?_modify, ext_index]
  by_cases hyx : x.index = y.index
  · rw [if_pos hyx, if_pos hyx.symm, hyx]
    cases h.entries[y.index]? with
    | none => rfl
    | some e => rfl
  · rw [if_neg hyx, if_neg (Ne.symm hyx)]

@[simp] theorem contains_modifyEntry (h : Heap) (x : ObjectId) (f : HeapEntry → HeapEntry)
    (y : ObjectId) : (h.modifyEntry x f).contains y = h.contains y := by
  rw [contains, contains, entry?_modifyEntry]
  by_cases hyx : y = x
  · rw [if_pos hyx, hyx, Option.isSome_map]
  · rw [if_neg hyx]

@[simp] theorem size_setObject (h : Heap) (x : ObjectId) (o : Object) :
    (h.setObject x o).entries.size = h.entries.size := size_modifyEntry ..

/-- Replacing an object keeps its roots and leaves every other entry alone. -/
theorem entry?_setObject (h : Heap) (x : ObjectId) (o : Object) (y : ObjectId) :
    Heap.entry? (h.setObject x o) y =
      if y = x then (h.entry? x).map fun e => { e with object := o } else h.entry? y :=
  entry?_modifyEntry ..

theorem entry?_setObject_self {h : Heap} {x : ObjectId} {e : HeapEntry} (o : Object)
    (he : h.entry? x = some e) : Heap.entry? (h.setObject x o) x = some { e with object := o } := by
  rw [entry?_setObject, if_pos rfl, he]
  rfl

theorem entry?_setObject_of_ne {h : Heap} {x y : ObjectId} (o : Object) (hyx : y ≠ x) :
    Heap.entry? (h.setObject x o) y = h.entry? y := by
  rw [entry?_setObject, if_neg hyx]

@[simp] theorem contains_setObject (h : Heap) (x : ObjectId) (o : Object) (y : ObjectId) :
    (h.setObject x o).contains y = h.contains y := contains_modifyEntry ..

/-! ## Roots -/

theorem object_modifyEntry (h : Heap) (x : ObjectId) {f : HeapEntry → HeapEntry}
    (hf : ∀ e, (f e).object = e.object) (y : ObjectId) :
    Heap.object (h.modifyEntry x f) y = h.object y := by
  rw [object, object, entry?_modifyEntry]
  by_cases hyx : y = x
  · subst hyx
    rw [if_pos rfl]
    cases h.entry? y with
    | none => rfl
    | some e => exact congrArg Except.ok (hf e)
  · rw [if_neg hyx]

theorem object_root (h : Heap) (x y : ObjectId) : (Heap.root x h).2.object y = h.object y := by
  rw [root]
  split
  · exact object_modifyEntry h x (f := fun e => { e with
      roots := e.roots + 1 }) (fun _ => rfl) y
  · rfl

theorem object_unroot (h : Heap) (x y : ObjectId) :
    (Heap.unroot x h).2.object y = h.object y := by
  rw [unroot]
  split
  · rfl
  · split
    · rfl
    · exact object_modifyEntry h x (f := fun e => { e with
        roots := e.roots - 1 }) (fun _ => rfl) y

theorem size_root (h : Heap) (x : ObjectId) : (root x h).2.entries.size = h.entries.size := by
  rw [root]
  split <;> simp

theorem size_unroot (h : Heap) (x : ObjectId) : (unroot x h).2.entries.size = h.entries.size := by
  rw [unroot]
  split
  · rfl
  · split <;> simp

end Heap

end ClosureCache
