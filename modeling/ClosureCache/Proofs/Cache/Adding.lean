/-
What caches leave alone.

A cache makes nodes and maps, and writes to nothing else: every other object stays as it is,
and nothing is lost.  This needs no proper trie, and holds for operations that fail.
-/
import ClosureCache.Proofs.Cache.CacheRelations

namespace ClosureCache

namespace Heap

theorem contains_eq_of_object_eq {h h' : Heap} {x : ObjectId} (heq : h'.object x = h.object x) :
    h'.contains x = h.contains x := by
  rw [object, object] at heq
  rw [contains, contains]
  cases hx : h.entry? x <;> cases hx' : h'.entry? x <;> simp_all

/-- Nothing is lost, what is no part of a trie does not change, and what is new is as
`made` says. -/
structure Adds (made : Object → Prop) (h h' : Heap) : Prop where
  size_le : h.entries.size ≤ h'.entries.size
  contains : ∀ x : ObjectId, x.index < h.entries.size → h'.contains x = h.contains x
  object : ∀ x o, h.object x = .ok o → o.isPart = false → h'.object x = .ok o
  plain : ∀ x o, h'.object x = .ok o → o.isPart = false →
    h.object x = .ok o ∨ h.entries.size ≤ x.index ∧ made o

section Adds

variable {made : Object → Prop} {h h₁ h' : Heap}

theorem Adds.imp {made' : Object → Prop} (ha : Adds made h h') (hmade : ∀ o, made o → made' o) :
    Adds made' h h' :=
  ⟨ha.size_le, ha.contains, ha.object, fun x o ho hpart =>
    (ha.plain x o ho hpart).imp id fun ⟨hnew, ho⟩ => ⟨hnew, hmade o ho⟩⟩

theorem Adds.of_object_eq (hsize : h'.entries.size = h.entries.size)
    (heq : ∀ x, h'.object x = h.object x) : Adds made h h' :=
  ⟨Nat.le_of_eq hsize.symm, fun x _ => contains_eq_of_object_eq (heq x),
    fun x o ho _ => by rw [heq x, ho], fun x o ho _ => .inl (by rw [← heq x, ho])⟩

theorem Adds.refl (made : Object → Prop) (h : Heap) : Adds made h h :=
  .of_object_eq rfl fun _ => rfl

theorem Adds.trans (a : Adds made h h₁) (b : Adds made h₁ h') : Adds made h h' where
  size_le := Nat.le_trans a.size_le b.size_le
  contains x hx := (b.contains x (Nat.lt_of_lt_of_le hx a.size_le)).trans (a.contains x hx)
  object x o ho hpart := b.object x o (a.object x o ho hpart) hpart
  plain x o ho hpart := by
    rcases b.plain x o ho hpart with ho | ⟨hnew, hmade⟩
    · exact a.plain x o ho hpart
    · exact .inr ⟨Nat.le_trans a.size_le hnew, hmade⟩

theorem adds_allocate_of {o : Object} (hmade : o.isPart = false → made o) :
    Adds made h (h.allocate o).2 := by
  refine ⟨by simp, fun x hx => ?_, fun x o' ho' _ => ?_, fun x o' ho' hpart => ?_⟩
  · rw [contains, entry?_allocate_of_lt hx, contains]
  · rw [object_allocate_of_contains o (contains_of_object ho'), ho']
  · by_cases hx : x = ⟨h.entries.size⟩
    · subst hx
      rw [object_allocate_self] at ho'
      obtain rfl := Except.ok.inj ho'
      exact .inr ⟨Nat.le_refl _, hmade hpart⟩
    · rw [object_allocate_of_ne o hx] at ho'
      exact .inl ho'

theorem adds_allocate (h : Heap) (o : Object) : Adds (Eq o) h (h.allocate o).2 :=
  adds_allocate_of fun _ => rfl

/-- A part of a cache takes the place of another. -/
theorem adds_setObject {x : ObjectId} {o o' : Object} (ho : h.object x = .ok o)
    (hpart : o.isPart = true) (hpart' : o'.isPart = true) : Adds made h (h.setObject x o') := by
  have hother : ∀ y o₁, o₁.isPart = false → (Heap.object (h.setObject x o') y = .ok o₁ ↔
      h.object y = .ok o₁) := by
    intro y o₁ ho₁
    by_cases hyx : y = x
    · subst hyx
      rw [object_setObject_self o' (contains_of_object ho), ho]
      constructor <;> intro heq <;> obtain rfl := Except.ok.inj heq
      · rw [hpart'] at ho₁
        cases ho₁
      · rw [hpart] at ho₁
        cases ho₁
    · rw [object_setObject_of_ne o' hyx]
  exact ⟨Nat.le_of_eq (size_setObject ..).symm, fun y _ => contains_setObject h x o' y,
    fun y o₁ hy hplain => (hother y o₁ hplain).2 hy,
    fun y o₁ hy hplain => .inl ((hother y o₁ hplain).1 hy)⟩

/-- An operation on a part of a cache, which may fail. -/
theorem adds_of_cases {α : Type} {x : ObjectId} {old new : α → Object}
    (hcases : h' = h ∨ ∃ a, h.object x = .ok (old a) ∧ h' = h.setObject x (new a))
    (hold : ∀ a, (old a).isPart = true) (hnew : ∀ a, (new a).isPart = true) :
    Adds made h h' := by
  rcases hcases with rfl | ⟨a, ho, rfl⟩
  · exact .refl made h'
  · exact adds_setObject ho (hold a) (hnew a)

end Adds

/-- Caches leave alone what is no part of a cache. -/
def CacheRelation.adding (made : Object → Prop) : CacheRelation where
  Holds := Adds made
  refl := .refl made
  trans := .trans
  tupleClear h x index := adds_of_cases (tupleSet_cases h x index _) (fun _ => rfl) fun _ => rfl
  strongMapRemove h x key := adds_of_cases (strongMapRemove_cases h x key) (fun _ => rfl)
    fun _ => rfl
  weakMapDelete h x key := adds_of_cases (weakMapDelete_cases h x key) (fun _ => rfl) fun _ => rfl
  slots _ _ := True
  mayLink _ _ := True
  slots_mono _ _ := trivial
  mayLink_mono _ _ := trivial
  slots_new _ _ _ := trivial
  mayLink_new _ _ _ := trivial
  newTuple _ _ := adds_allocate_of fun hpart => by cases hpart
  newStrongMap _ := adds_allocate_of fun hpart => by cases hpart
  newWeakMap _ := adds_allocate_of fun hpart => by cases hpart
  pins h o _ := .of_object_eq (size_root _ _) (object_root _ _)
  tupleSet h x index y _ := adds_of_cases (tupleSet_cases h x index _) (fun _ => rfl) fun _ => rfl
  strongMapSet h x key y _ := adds_of_cases (strongMapSet_cases h x key _) (fun _ => rfl)
    fun _ => rfl
  weakMapSet h x key y _ := adds_of_cases (weakMapSet_cases h x key _) (fun _ => rfl) fun _ => rfl

end Heap

namespace Registry

/-- Reaching a definition makes the closure that is asked for, and nothing else but parts of
caches. -/
theorem reach_adds {ε : Type} (r : Registry) (site : SiteId) (arity : Nat) (key : Key)
    (wrap : CacheError → ε) (o : Object) (h : Heap) :
    h.Adds (Eq o) (r.reach site arity key wrap (HeapM.change fun h => h.allocate o) h).2.2 := by
  have hbuild : HeapM.Keeps (Heap.CacheRelation.adding (Eq o)).toStepRelation
      (HeapM.change fun h => h.allocate o : HeapM ε ObjectId) := fun h => Heap.adds_allocate h o
  exact r.reach_keeps _ site arity key wrap hbuild (fun _ _ _ _ => trivial) h

theorem compactAll_adds (r : Registry) (h : Heap) :
    h.Adds (fun _ => False) (r.compactAll h).2.2 :=
  r.compactAll_keeps (Heap.CacheRelation.adding _).toPruning h

end Registry

end ClosureCache
