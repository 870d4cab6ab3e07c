/-
Heaps whose weak maps lead to objects.

A heap is intact if every entry of every weak map in it leads to an object of the heap,
reachable or not.  An intact heap can be collected, and is intact afterwards: an entry is
kept with its map and its key, and then its value is kept as well.

`KeepsIntact` is what a change has to respect to leave an intact heap intact.  It says where
each entry comes from, so that it can be followed through changes one after the other.
-/
import ClosureCache.Proofs.Heap.Collection

namespace ClosureCache
namespace Heap

/-- Every entry of a weak map leads to an object of the heap. -/
def Intact (h : Heap) : Prop :=
  ∀ map key v, (key, v) ∈ h.weakLinks map → ∃ y, v = .object y ∧ h.contains y = true

theorem Intact.weaklyClosed {h : Heap} (hi : h.Intact) : h.WeaklyClosed := by
  intro map key y _ hmem _
  obtain ⟨y', heq, hin⟩ := hi map key _ hmem
  rwa [Value.object.inj heq]

/-- An intact heap can be collected. -/
theorem Intact.exists_collect {h : Heap} (hi : h.Intact) :
    ∃ stats h', h.collect? = some (stats, h') := by
  obtain ⟨⟨stats, h'⟩, hcollect⟩ :=
    Option.isSome_iff_exists.1 ((collect?_isSome_iff h).2 hi.weaklyClosed)
  exact ⟨stats, h', hcollect⟩

theorem intact_empty : Heap.empty.Intact := by
  intro map key v hmem
  have hnone : Heap.entry? .empty map = none := entry?_none_of_size_le (Nat.zero_le _)
  rw [weakLinks, hnone] at hmem
  exact absurd hmem List.not_mem_nil

theorem Intact.same {h h' : Heap} (hi : h.Intact) (heq : h'.entries = h.entries) : h'.Intact := by
  have hentry : ∀ x, h'.entry? x = h.entry? x := fun x => by rw [Heap.entry?, Heap.entry?, heq]
  intro map key v hmem
  rw [weakLinks, hentry] at hmem
  obtain ⟨y, hv, hin⟩ := hi map key v hmem
  exact ⟨y, hv, by rwa [contains, hentry]⟩

/-- A collection keeps the value of every entry that it keeps. -/
theorem Intact.collected {h h' : Heap} (hi : h.Intact) {keep : MarkSet}
    (hc : Collected h h' keep) : h'.Intact := by
  intro map key v hmem
  obtain ⟨hmap, hold, hkey⟩ := hc.mem_weakLinks.1 hmem
  obtain ⟨y, rfl, hin⟩ := hi map key v hold
  refine ⟨y, rfl, (hc.contains_iff_reachable y).2 ?_⟩
  exact .weak ((hc.keep_iff map).1 hmap) hold ((hc.keep_iff key).1 hkey) hin

/-! ## Changes -/

/-- A change that loses no object, after which every entry of a weak map was there before or
leads to an object. -/
structure KeepsIntact (h h' : Heap) : Prop where
  mono : ∀ x, h.contains x = true → h'.contains x = true
  link : ∀ map key v, (key, v) ∈ h'.weakLinks map →
    (key, v) ∈ h.weakLinks map ∨ ∃ y, v = .object y ∧ h'.contains y = true

theorem Intact.keepsIntact {h h' : Heap} (hi : h.Intact) (hu : h.KeepsIntact h') : h'.Intact := by
  intro map key v hmem
  rcases hu.link map key v hmem with hold | hnew
  · obtain ⟨y, hy, hin⟩ := hi map key v hold
    exact ⟨y, hy, hu.mono y hin⟩
  · exact hnew

namespace KeepsIntact

variable {h h₁ h₂ : Heap}

theorem refl (h : Heap) : h.KeepsIntact h := ⟨fun _ hx => hx, fun _ _ _ hmem => .inl hmem⟩

theorem trans (a : h.KeepsIntact h₁) (b : h₁.KeepsIntact h₂) : h.KeepsIntact h₂ where
  mono x hx := b.mono x (a.mono x hx)
  link map key v hmem := by
    rcases b.link map key v hmem with hmem | hnew
    · exact (a.link map key v hmem).imp id fun ⟨y, hy, hin⟩ => ⟨y, hy, b.mono y hin⟩
    · exact .inr hnew

end KeepsIntact

variable {h : Heap}

theorem keepsIntact_allocate {o : Object} (ho : o.weakEntries = []) :
    h.KeepsIntact (h.allocate o).2 where
  mono x hx := by
    rw [contains, entry?_allocate_of_lt (lt_of_contains hx)]
    exact hx
  link map key v hmem := by
    rw [weakLinks, entry?_allocate] at hmem
    split at hmem
    · next e he =>
      split at he
      · obtain rfl := Option.some.inj he
        rw [ho] at hmem
        exact absurd hmem List.not_mem_nil
      · exact .inl (by rwa [weakLinks_of_some he])
    · exact absurd hmem List.not_mem_nil

/-- A change of the roots. -/
theorem keepsIntact_modifyEntry {x : ObjectId} {f : HeapEntry → HeapEntry}
    (hf : ∀ e, (f e).object = e.object) : h.KeepsIntact (h.modifyEntry x f) where
  mono y hy := by rwa [contains_modifyEntry]
  link map key v hmem := by
    left
    rw [weakLinks, entry?_modifyEntry] at hmem
    split at hmem
    · next e he =>
      split at he
      · next hmap =>
        obtain ⟨e', he', rfl⟩ := Option.map_eq_some_iff.1 he
        rw [hf] at hmem
        rwa [hmap, weakLinks_of_some he']
      · rwa [weakLinks_of_some he]
    · exact absurd hmem List.not_mem_nil

/-- Where an object comes in the place of another, its entries have to be accounted for. -/
theorem keepsIntact_setObject {x : ObjectId} {o : Object}
    (ho : ∀ key v, (key, v) ∈ o.weakEntries →
      (key, v) ∈ h.weakLinks x ∨ ∃ y, v = .object y ∧ h.contains y = true) :
    h.KeepsIntact (h.setObject x o) where
  mono y hy := by rwa [contains_setObject]
  link map key v hmem := by
    rw [weakLinks, entry?_setObject] at hmem
    split at hmem
    · next e he =>
      split at he
      · next hmap =>
        obtain ⟨e', he', rfl⟩ := Option.map_eq_some_iff.1 he
        rw [hmap]
        refine (ho key v hmem).imp id ?_
        rintro ⟨y, hy, hin⟩
        exact ⟨y, hy, by rwa [contains_setObject]⟩
      · exact .inl (by rwa [weakLinks_of_some he])
    · exact absurd hmem List.not_mem_nil

theorem keepsIntact_setObject_of_nil {x : ObjectId} {o : Object} (ho : o.weakEntries = []) :
    h.KeepsIntact (h.setObject x o) :=
  keepsIntact_setObject fun _ _ hmem => absurd (ho ▸ hmem) List.not_mem_nil

theorem keepsIntact_root (x : ObjectId) : h.KeepsIntact (Heap.root x h).2 := by
  rw [root]
  split
  · exact keepsIntact_modifyEntry fun _ => rfl
  · exact .refl h

theorem keepsIntact_unroot (x : ObjectId) : h.KeepsIntact (Heap.unroot x h).2 := by
  rw [unroot]
  split
  · exact .refl h
  · split
    · exact .refl h
    · exact keepsIntact_modifyEntry fun _ => rfl

/-! ## The maps and nodes of caches -/

theorem keepsIntact_tupleSet (x : ObjectId) (index : Nat) (v : Value) :
    h.KeepsIntact (Heap.tupleSet x index v h).2 := by
  rw [tupleSet]
  split
  · exact .refl h
  · split
    · exact keepsIntact_setObject_of_nil rfl
    · exact .refl h

theorem keepsIntact_strongMapSet (x : ObjectId) (key : Primitive) (v : Value) :
    h.KeepsIntact (Heap.strongMapSet x key v h).2 := by
  rw [strongMapSet]
  split
  · exact .refl h
  · exact keepsIntact_setObject_of_nil rfl

theorem keepsIntact_strongMapRemove (x : ObjectId) (key : Primitive) :
    h.KeepsIntact (Heap.strongMapRemove x key h).2 := by
  rw [strongMapRemove]
  split
  · exact .refl h
  · exact keepsIntact_setObject_of_nil rfl

theorem weakLinks_of_weakEntries {x : ObjectId} {entries : SortedMap ObjectId Value}
    (hx : h.weakEntries x = .ok entries) : h.weakLinks x = entries.toList := by
  rw [weakEntries] at hx
  split at hx
  · cases hx
  · next entries' ho =>
    obtain ⟨e, he, heq⟩ := entry?_of_object ho
    rw [weakLinks_of_some he, heq, Except.ok.inj hx]
    rfl
  · cases hx

/-- An entry may be written that leads to an object of the heap. -/
theorem keepsIntact_weakMapSet {y : ObjectId} (hy : h.contains y = true) (x key : ObjectId) :
    h.KeepsIntact (Heap.weakMapSet x key (.object y) h).2 := by
  rw [weakMapSet]
  split
  · split
    · exact .refl h
    · next entries hentries =>
      refine keepsIntact_setObject fun k v hmem => ?_
      rcases SortedMap.get?_insert_cases (SortedMap.mem_toList_iff.1 hmem) with ⟨-, rfl⟩ | hold
      · exact .inr ⟨y, rfl, hy⟩
      · exact .inl (by rwa [weakLinks_of_weakEntries hentries, SortedMap.mem_toList_iff])
  · exact .refl h

theorem keepsIntact_weakMapDelete (x key : ObjectId) :
    h.KeepsIntact (Heap.weakMapDelete x key h).2 := by
  rw [weakMapDelete]
  split
  · exact .refl h
  · next entries hentries =>
    refine keepsIntact_setObject fun k v hmem => .inl ?_
    rw [weakLinks_of_weakEntries hentries]
    have hget := SortedMap.mem_toList_iff.1 hmem
    rw [SortedMap.get?_erase] at hget
    split at hget
    · cases hget
    · exact SortedMap.mem_toList_iff.2 hget

end Heap
end ClosureCache
