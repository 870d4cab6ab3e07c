/-
Where the parts of caches lead.

The nodes and maps of caches lead to nodes and maps, and to closures.  They never lead to
an environment or to a cell, although keys are made from what environments and cells
hold: a map does not hold on to the keys of its entries.  Every operation of a cache keeps
it so, and so does everything else, since nobody else writes to nodes and maps.
-/
import ClosureCache.Proofs.Cache.CacheRelations
import ClosureCache.Proofs.SortedMap

namespace ClosureCache

/-- The values that a part of a cache holds. -/
def Object.linked : Object → List Value
  | tuple slots => slots.toList
  | strongMap entries => entries.values
  | weakMap entries => entries.values
  | _ => []

theorem Object.linked_of_not_part {o : Object} (ho : o.isPart = false) : o.linked = [] := by
  cases o <;> first | rfl | cases ho

theorem Object.mem_linked_of_strongRefs {o : Object} (ho : o.isPart = true) {y : ObjectId}
    (hy : y ∈ o.strongRefs) : .object y ∈ o.linked := by
  have hmem : ∀ {l : List Value}, y ∈ objectsOf l → .object y ∈ l := by
    intro l hy
    obtain ⟨v, hv, hobject⟩ := List.mem_filterMap.1 hy
    rwa [← Value.object?_eq_some.1 hobject]
  cases o with
  | tuple slots => exact hmem hy
  | strongMap entries => exact hmem hy
  | weakMap entries => exact absurd hy List.not_mem_nil
  | _ => cases ho

theorem Object.mem_linked_of_weakEntries {o : Object} {key : ObjectId} {v : Value}
    (hv : (key, v) ∈ o.weakEntries) : v ∈ o.linked := by
  cases o with
  | weakMap entries => exact SortedMap.mem_values_iff.2 ⟨key, SortedMap.mem_toList_iff.1 hv⟩
  | _ => exact absurd hv List.not_mem_nil

namespace Heap

variable {h h' h₁ : Heap}

/-- What a part of a cache may lead to: parts of caches, and values of the program. -/
def MayLink (h : Heap) (y : ObjectId) : Prop := h.HasRole y .part ∨ h.HasRole y .value

theorem MayLink.keepsRoles {y : ObjectId} (hy : h.MayLink y) (ha : h.KeepsRoles h') :
    h'.MayLink y :=
  hy.imp (·.keepsRoles ha) (·.keepsRoles ha)

/-- The parts of caches lead to parts of caches and to values of the program. -/
def WellLinked (h : Heap) : Prop :=
  ∀ x o y, h.object x = .ok o → .object y ∈ o.linked → h.MayLink y

theorem wellLinked_empty : Heap.empty.WellLinked := by
  intro x o y ho
  obtain ⟨e, he, -⟩ := entry?_of_object ho
  cases he

/-- A change after which the parts of caches still lead where they may. -/
structure KeepsLinks (h h' : Heap) : Prop where
  keepsRoles : h.KeepsRoles h'
  wellLinked : h.WellLinked → h'.WellLinked

theorem KeepsLinks.refl (h : Heap) : h.KeepsLinks h := ⟨.refl h, id⟩

theorem KeepsLinks.trans (a : h.KeepsLinks h₁) (b : h₁.KeepsLinks h') : h.KeepsLinks h' :=
  ⟨a.keepsRoles.trans b.keepsRoles, fun hg => b.wellLinked (a.wellLinked hg)⟩

/-- What a part held, it may hold later on. -/
theorem KeepsLinks.of_linked (ha : h.KeepsRoles h')
    (hlinked : ∀ x o' y, h'.object x = .ok o' → .object y ∈ o'.linked →
      (∃ o, h.object x = .ok o ∧ .object y ∈ o.linked) ∨ h'.MayLink y) : h.KeepsLinks h' := by
  refine ⟨ha, fun hg x o' y ho' hy => (hlinked x o' y ho' hy).elim ?_ id⟩
  rintro ⟨o, ho, hold⟩
  exact (hg x o y ho hold).keepsRoles ha

theorem keepsLinks_allocate {o : Object} (ho : ∀ y, .object y ∉ o.linked) :
    h.KeepsLinks (h.allocate o).2 := by
  refine .of_linked (keepsRoles_allocate h o) fun x o' y ho' hy => ?_
  rcases object_of_allocate ho' with rfl | hold
  · exact absurd hy (ho y)
  · exact .inl ⟨o', hold, hy⟩

theorem keepsLinks_setObject {x : ObjectId} {o o' : Object} (ho : h.object x = .ok o)
    (hrole : o'.role = o.role)
    (hlinked : ∀ y, .object y ∈ o'.linked → .object y ∈ o.linked ∨ h.MayLink y) :
    h.KeepsLinks (h.setObject x o') := by
  have ha := keepsRoles_setObject ho hrole
  refine .of_linked ha fun z o₁ y ho₁ hy => ?_
  by_cases hzx : z = x
  · subst hzx
    rw [object_setObject_self o' (contains_of_object ho)] at ho₁
    obtain rfl := Except.ok.inj ho₁
    exact (hlinked y hy).imp (fun hold => ⟨o, ho, hold⟩) (·.keepsRoles ha)
  · rw [object_setObject_of_ne o' hzx] at ho₁
    exact .inl ⟨o₁, ho₁, hy⟩

theorem keepsLinks_of_object_eq (hsize : h'.entries.size = h.entries.size)
    (heq : ∀ x, h'.object x = h.object x) : h.KeepsLinks h' :=
  .of_linked (.of_object_eq hsize heq) fun x o' _ ho' hy => .inl ⟨o', by rw [← heq x, ho'], hy⟩

/-- A collection takes entries away and adds none. -/
theorem Collected.keepsLinks {keep : MarkSet} (hc : Collected h h' keep) : h.KeepsLinks h' := by
  refine .of_linked hc.keepsRoles fun x o' y ho' hy => .inl ?_
  obtain ⟨e', he', rfl⟩ := entry?_of_object ho'
  rw [hc.entry] at he'
  split at he'
  · obtain ⟨e, he, rfl⟩ := Option.map_eq_some_iff.1 he'
    refine ⟨e.object, object_of_some he, ?_⟩
    cases ho : e.object with
    | weakMap entries =>
      dsimp only at hy
      rw [ho] at hy
      exact SortedMap.mem_values_filterKeys hy
    | _ =>
      dsimp only at hy
      rwa [ho] at hy
  · cases he'

/-! ## Nodes and maps -/

theorem keepsLinks_tupleSet (x : ObjectId) (index : Nat) {v : Value}
    (hv : ∀ y, v.object? = some y → h.MayLink y) : h.KeepsLinks (tupleSet x index v h).2 := by
  rcases tupleSet_cases h x index v with heq | ⟨slots, ho, heq⟩
  · rw [heq]
    exact .refl h
  · rw [heq]
    refine keepsLinks_setObject ho rfl fun y hy => ?_
    rcases Array.mem_or_eq_of_mem_setIfInBounds (Array.mem_toList_iff.1 hy) with hy | hy
    · exact .inl (Array.mem_toList_iff.2 hy)
    · exact .inr (hv y (hy ▸ rfl))

theorem keepsLinks_strongMapSet {y : ObjectId} (hy : h.MayLink y) (x : ObjectId) (key : Primitive) :
    h.KeepsLinks (strongMapSet x key (.object y) h).2 := by
  rcases strongMapSet_cases h x key (.object y) with heq | ⟨entries, ho, heq⟩
  · rw [heq]
    exact .refl h
  · rw [heq]
    refine keepsLinks_setObject ho rfl fun z hz => ?_
    rcases SortedMap.mem_values_insert hz with heq | hold
    · exact .inr (Value.object.inj heq ▸ hy)
    · exact .inl hold

theorem keepsLinks_weakMapSet {y : ObjectId} (hy : h.MayLink y) (x key : ObjectId) :
    h.KeepsLinks (weakMapSet x key (.object y) h).2 := by
  rcases weakMapSet_cases h x key (.object y) with heq | ⟨entries, ho, heq⟩
  · rw [heq]
    exact .refl h
  · rw [heq]
    refine keepsLinks_setObject ho rfl fun z hz => ?_
    rcases SortedMap.mem_values_insert hz with heq | hold
    · exact .inr (Value.object.inj heq ▸ hy)
    · exact .inl hold

theorem keepsLinks_strongMapRemove (x : ObjectId) (key : Primitive) :
    h.KeepsLinks (strongMapRemove x key h).2 := by
  rcases strongMapRemove_cases h x key with heq | ⟨entries, ho, heq⟩
  · rw [heq]
    exact .refl h
  · rw [heq]
    exact keepsLinks_setObject ho rfl fun z hz => .inl (SortedMap.mem_values_filterKeys hz)

theorem keepsLinks_weakMapDelete (x key : ObjectId) : h.KeepsLinks (weakMapDelete x key h).2 := by
  rcases weakMapDelete_cases h x key with heq | ⟨entries, ho, heq⟩
  · rw [heq]
    exact .refl h
  · rw [heq]
    exact keepsLinks_setObject ho rfl fun z hz => .inl (SortedMap.mem_values_filterKeys hz)

/-- Evaluation leads nowhere else as long as it makes no parts that hold something. -/
def EvalRelation.keepingLinks : EvalRelation where
  Holds := KeepsLinks
  makes o := ∀ y, .object y ∉ o.linked
  refl := .refl
  trans := .trans
  plain o ho y := by
    rw [Object.linked_of_not_part ho]
    exact List.not_mem_nil
  allocate _ _ ho := keepsLinks_allocate ho
  setObject h x o o' hx ho hrole _ := by
    refine keepsLinks_setObject hx hrole fun y hy => ?_
    rw [Object.linked_of_not_part] at hy
    · exact absurd hy List.not_mem_nil
    · cases hpart : o'.isPart with
      | false => rfl
      | true =>
        rw [Object.role_eq_part.2 hpart] at hrole
        rw [Object.role_eq_part.1 hrole.symm] at ho
        cases ho

theorem EvalRelation.roots_keepingLinks : EvalRelation.keepingLinks.Roots := fun h x =>
  keepsLinks_of_object_eq (size_root h x) (object_root h x)

def EvalCacheRelation.keepingLinks : EvalCacheRelation where
  toEvalRelation := .keepingLinks
  slots := MayLink
  mayLink := MayLink
  slots_mono hg hy := hy.keepsRoles hg.keepsRoles
  mayLink_mono hg hy := hy.keepsRoles hg.keepsRoles
  slots_new h o ho := .inl (Object.role_eq_part.2 ho ▸ hasRole_allocate h o)
  mayLink_new h o ho := .inl (Object.role_eq_part.2 ho ▸ hasRole_allocate h o)
  slots_function h f := .inr (hasRole_allocate h (.function f))
  newTuple h n := keepsLinks_allocate fun y hy => by
    rw [Object.linked, Array.toList_replicate] at hy
    cases List.eq_of_mem_replicate hy
  newStrongMap _ := keepsLinks_allocate fun _ hy => absurd hy List.not_mem_nil
  newWeakMap _ := keepsLinks_allocate fun _ hy => absurd hy List.not_mem_nil
  pins _ _ _ := EvalRelation.roots_keepingLinks _ _
  tupleSet h x index y hy := keepsLinks_tupleSet x index fun z hz =>
    Option.some.inj hz ▸ hy
  tupleClear h x index := keepsLinks_tupleSet x index fun z hz => by cases hz
  strongMapSet _ x key _ hy := keepsLinks_strongMapSet hy x key
  strongMapRemove _ := keepsLinks_strongMapRemove
  weakMapSet _ x key _ hy := keepsLinks_weakMapSet hy x key
  weakMapDelete _ := keepsLinks_weakMapDelete

end Heap

end ClosureCache
