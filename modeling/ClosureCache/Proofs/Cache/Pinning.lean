/-
What is rooted.

A cache roots the node that it starts out with, and evaluation roots nothing.  Apart from
that only values of the program are rooted, by the host, and never a cell or an
environment; the one exception is the environment at top level.
-/
import ClosureCache.Evaluation.Machine
import ClosureCache.Proofs.Cache.CacheRelations

namespace ClosureCache

/-- The object may be rooted at any time: it is a value of the program or a part of a
cache. -/
def Object.Rootable (o : Object) : Prop := o.role = .value ∨ o.role = .part

namespace Heap

variable {h h₁ h' : Heap} {image : Image} {x : ObjectId}

/-- What is rooted afterwards may be rooted, or it was rooted before. -/
def Pins (h h' : Heap) : Prop := ∀ x e', h'.entry? x = some e' → 0 < e'.roots →
  e'.object.Rootable ∨ ∃ e, h.entry? x = some e ∧ 0 < e.roots ∧ e.object.role = e'.object.role

/-- Apart from the environment at top level, only what may be rooted is. -/
def Pinned (image : Image) (h : Heap) : Prop := ∀ x e, h.entry? x = some e → 0 < e.roots →
  x = image.globalEnvironment ∨ e.object.Rootable

theorem Pinned.pins (hp : h.Pinned image) (hh : h.Pins h') : h'.Pinned image := by
  intro x e' he' hroots'
  rcases hh x e' he' hroots' with hrootable | ⟨e, he, hroots, hrole⟩
  · exact .inr hrootable
  · refine (hp x e he hroots).imp_right fun hrootable => ?_
    rwa [Object.Rootable, ← hrole]

theorem Pins.refl (h : Heap) : h.Pins h := fun _ e he hroots => .inr ⟨e, he, hroots, rfl⟩

theorem Pins.trans (a : h.Pins h₁) (b : h₁.Pins h') : h.Pins h' := by
  intro x e' he' hroots'
  rcases b x e' he' hroots' with hrootable | ⟨e₁, he₁, hroots₁, hrole₁⟩
  · exact .inl hrootable
  · rcases a x e₁ he₁ hroots₁ with hrootable | ⟨e, he, hroots, hrole⟩
    · exact .inl (by rwa [Object.Rootable, ← hrole₁])
    · exact .inr ⟨e, he, hroots, hrole.trans hrole₁⟩

/-- A new object is not rooted. -/
theorem pins_allocate (h : Heap) (o : Object) : h.Pins (h.allocate o).2 := by
  intro x e' he' hroots'
  rw [entry?_allocate] at he'
  split at he'
  · obtain rfl := Option.some.inj he'
    exact absurd hroots' (Nat.lt_irrefl 0)
  · exact .inr ⟨e', he', hroots', rfl⟩

/-- A change of one entry, which may be rooted afterwards or has its role and its roots from
before. -/
theorem pins_modifyEntry {f : HeapEntry → HeapEntry}
    (hf : ∀ e, h.entry? x = some e → (f e).object.Rootable ∨
      (0 < (f e).roots → 0 < e.roots) ∧ e.object.role = (f e).object.role) :
    h.Pins (h.modifyEntry x f) := by
  intro y e' he' hroots'
  rw [entry?_modifyEntry] at he'
  split at he'
  · next hyx =>
    obtain ⟨e, he, rfl⟩ := Option.map_eq_some_iff.1 he'
    exact (hf e he).imp_right fun ⟨hroots, hrole⟩ => ⟨e, hyx ▸ he, hroots hroots', hrole⟩
  · exact .inr ⟨e', he', hroots', rfl⟩

theorem pins_setObject {o o' : Object} (ho : h.object x = .ok o) (hrole : o'.role = o.role) :
    h.Pins (h.setObject x o') := by
  refine pins_modifyEntry fun e he => .inr ⟨id, ?_⟩
  rw [object_of_some he] at ho
  rw [Except.ok.inj ho, hrole]

/-- Parts of caches may be written. -/
theorem pins_setObject_of_part {o : Object} (ho : o.role = .part) : h.Pins (h.setObject x o) :=
  pins_modifyEntry fun _ _ => .inl (.inr ho)

theorem pins_root (hx : ∀ e, h.entry? x = some e → e.object.Rootable) :
    h.Pins (Heap.root x h).2 := by
  rw [root]
  split
  · exact pins_modifyEntry fun e he => .inl (hx e he)
  · exact .refl h

/-- The environment at top level may be rooted. -/
theorem Pinned.root_globalEnvironment (hp : h.Pinned image) :
    (Heap.root image.globalEnvironment h).2.Pinned image := by
  intro x e he hroots
  rw [root] at he
  split at he
  · rw [entry?_modifyEntry] at he
    split at he
    · next hx => exact .inl hx
    · exact hp x e he hroots
  · exact hp x e he hroots

theorem pins_unroot (h : Heap) (x : ObjectId) : h.Pins (Heap.unroot x h).2 := by
  rw [unroot]
  split
  · exact .refl h
  · split
    · exact .refl h
    · refine pins_modifyEntry fun e _ => .inr ⟨fun hroots => ?_, rfl⟩
      exact Nat.lt_of_lt_of_le hroots (Nat.sub_le ..)

/-- What a collection keeps, it keeps with its roots. -/
theorem Collected.pins {keep : MarkSet} (hc : Collected h h' keep) : h.Pins h' := by
  intro x e' he' hroots'
  rw [hc.entry] at he'
  split at he'
  · obtain ⟨e, he, rfl⟩ := Option.map_eq_some_iff.1 he'
    exact .inr ⟨e, he, hroots', (Object.role_pruneWeak keep e.object).symm⟩
  · cases he'

/-! ## Nodes and maps -/

theorem pins_tupleSet (h : Heap) (x : ObjectId) (index : Nat) (v : Value) :
    h.Pins (tupleSet x index v h).2 := by
  rw [tupleSet]
  split
  · exact .refl h
  · split
    · exact pins_setObject_of_part rfl
    · exact .refl h

theorem pins_strongMapSet (h : Heap) (x : ObjectId) (key : Primitive) (v : Value) :
    h.Pins (strongMapSet x key v h).2 := by
  rw [strongMapSet]
  split
  · exact .refl h
  · exact pins_setObject_of_part rfl

theorem pins_strongMapRemove (h : Heap) (x : ObjectId) (key : Primitive) :
    h.Pins (strongMapRemove x key h).2 := by
  rw [strongMapRemove]
  split
  · exact .refl h
  · exact pins_setObject_of_part rfl

theorem pins_weakMapSet (h : Heap) (x key : ObjectId) (v : Value) :
    h.Pins (weakMapSet x key v h).2 := by
  rw [weakMapSet]
  split
  · split
    · exact .refl h
    · exact pins_setObject_of_part rfl
  · exact .refl h

theorem pins_weakMapDelete (h : Heap) (x key : ObjectId) :
    h.Pins (weakMapDelete x key h).2 := by
  rw [weakMapDelete]
  split
  · exact .refl h
  · exact pins_setObject_of_part rfl

def EvalRelation.pinning : EvalRelation where
  Holds := Pins
  makes _ := True
  refl := .refl
  trans := .trans
  plain _ _ := trivial
  allocate h o _ := pins_allocate h o
  setObject _ _ _ _ hx _ hrole _ := pins_setObject hx hrole

def EvalCacheRelation.pinning : EvalCacheRelation where
  toEvalRelation := .pinning
  slots _ _ := True
  mayLink _ _ := True
  slots_mono _ _ := trivial
  mayLink_mono _ _ := trivial
  slots_new _ _ _ := trivial
  mayLink_new _ _ _ := trivial
  slots_function _ _ := trivial
  newTuple h _ := pins_allocate h _
  newStrongMap h := pins_allocate h _
  newWeakMap h := pins_allocate h _
  pins h o ho := pins_root fun e he => by
    rw [entry?_allocate, if_pos rfl] at he
    obtain rfl := Option.some.inj he
    exact .inr (Object.role_eq_part.2 ho)
  tupleSet h x index y _ := pins_tupleSet h x index (.object y)
  tupleClear h x index := pins_tupleSet h x index .undefined
  strongMapSet h x key y _ := pins_strongMapSet h x key (.object y)
  strongMapRemove := pins_strongMapRemove
  weakMapSet h x key y _ := pins_weakMapSet h x key (.object y)
  weakMapDelete := pins_weakMapDelete

end Heap

end ClosureCache
