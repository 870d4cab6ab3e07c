/-
A second collection right after a first.

A collection takes objects away, and entries from the weak maps that it keeps, so a second
one marks in another heap.  The same objects are reachable in it: what they keep alive is
what it was, and of the entries of weak maps only those are gone that led nowhere.  So the
second marking ends as well and marks every object that is left, every key and every target
that is still awaited, and the sweep of such marks changes nothing but a counter.
-/
import ClosureCache.Proofs.Heap.Collection

namespace ClosureCache

theorem SortedMap.filterKeys_eq_self {κ α : Type} [Ord κ] {m : SortedMap κ α} {keep : κ → Bool}
    (h : ∀ e ∈ m.toList, keep e.1 = true) : m.filterKeys keep = m := by
  obtain ⟨entries, sorted⟩ := m
  simp only [filterKeys, SortedMap.mk.injEq]
  exact List.filter_eq_self.2 h

namespace Heap

variable {h h' : Heap} {m keep : MarkSet} {x : ObjectId}

/-! ## Sweeps that find nothing -/

theorem pruneWeak_eq_self {o : Object} (h : ∀ p ∈ o.weakEntries, m.contains p.1 = true) :
    pruneWeak m o = o := by
  cases o with
  | weakMap entries => exact congrArg Object.weakMap (SortedMap.filterKeys_eq_self h)
  | _ => rfl

/-- The marks hold every object, every key of a weak map, and the target of every weak
reference that is not cleared. -/
structure AllMarked (h : Heap) (m : MarkSet) : Prop where
  object : ∀ x, h.contains x = true → m.contains x = true
  key : ∀ map p, p ∈ h.weakLinks map → m.contains p.1 = true
  target : ∀ r ∈ h.weakRefs, r.cleared = true ∨ m.contains r.target = true

namespace AllMarked

theorem place (ha : h.AllMarked m) {i : Nat} {e : HeapEntry} (he : h.entries[i]? = some (some e)) :
    m.contains ⟨i⟩ = true ∧ pruneWeak m e.object = e.object := by
  have hentry : h.entry? ⟨i⟩ = some e := by rw [Heap.entry?, he, Option.join_some]
  refine ⟨ha.object _ (contains_of_some hentry), pruneWeak_eq_self fun p hp => ?_⟩
  exact ha.key ⟨i⟩ p (by rwa [weakLinks_of_some hentry])

theorem sweepEntries_eq (ha : h.AllMarked m) : h.sweepEntries m = h.entries := by
  refine Array.ext_getElem? fun i => ?_
  rw [sweepEntries, Array.getElem?_mapIdx]
  rcases he : h.entries[i]? with _ | _ | e
  · rfl
  · exact congrArg some (ite_self _)
  · obtain ⟨hkeep, hsame⟩ := ha.place he
    rw [Option.map_some, if_pos hkeep, Option.map_some, hsame]

theorem keptEntries_eq (ha : h.AllMarked m) : h.keptEntries m = h.entries := by
  refine Array.ext_getElem? fun i => ?_
  rw [keptEntries, Array.getElem?_mapIdx]
  rcases he : h.entries[i]? with _ | _ | e
  · rfl
  · exact congrArg some (ite_self _)
  · rw [Option.map_some, if_pos (ha.place he).1]

theorem newRecords_eq (ha : h.AllMarked m) : h.newRecords m = [] := by
  rw [newRecords, List.filterMap_eq_nil_iff]
  rintro ⟨r, i⟩ hmem
  have hr : r ∈ h.weakRefs := Array.mem_toList_iff.1 (List.fst_mem_of_mem_zipIdx hmem)
  exact if_pos (Bool.or_eq_true_iff.2 (ha.target r hr))

theorem clearRefs_eq (ha : h.AllMarked m) : h.weakRefs.map (clearRef m) = h.weakRefs := by
  have hsame : ∀ r ∈ h.weakRefs, clearRef m r = r := by
    intro r hr
    rcases ha.target r hr with hcleared | hmarked
    · rw [clearRef, hcleared, Bool.true_or, ← hcleared]
    · rw [clearRef, hmarked, Bool.not_true, Bool.or_false]
  rw [Array.map_congr_left hsame, Array.map_id']

/-- A sweep of such marks changes nothing but the counters. -/
theorem sweep_eq (ha : h.AllMarked m) (rounds : Nat) : h.sweep m rounds =
    (⟨m.size, 0, 0, 0, rounds⟩, { h with
      allocationsSinceCollect := 0, collectionCount := h.collectionCount + 1 }) := by
  rw [sweep, ha.sweepEntries_eq, ha.keptEntries_eq, ha.newRecords_eq, ha.clearRefs_eq]
  simp [objectCount]

end AllMarked

/-! ## What is reachable after a collection -/

theorem strongRefs_pruneWeak (m : MarkSet) (o : Object) :
    (pruneWeak m o).strongRefs = o.strongRefs := by
  cases o <;> rfl

namespace Collected

/-- An object that is kept keeps the same objects alive. -/
theorem strongRefs_eq (hc : Collected h h' keep) (hx : h'.contains x = true) :
    h'.strongRefs x = h.strongRefs x := by
  have hreach := (hc.contains_iff_reachable x).1 hx
  obtain ⟨e, he⟩ := contains_iff.1 hreach.contains
  rw [strongRefs_of_some (hc.entry?_eq_some he hreach), strongRefs_of_some he,
    strongRefs_pruneWeak]

/-- A collection leaves every object reachable that was so. -/
theorem reachable_iff (hc : Collected h h' keep) (x : ObjectId) :
    h'.Reachable x ↔ h.Reachable x := by
  refine ⟨fun hx => (hc.contains_iff_reachable x).1 hx.contains, fun hx => ?_⟩
  have hkept : ∀ {y}, h.Reachable y → h'.contains y = true := fun hy =>
    (hc.contains_iff_reachable _).2 hy
  induction hx with
  | root he hroots => exact .root (hc.entry?_eq_some he (.root he hroots)) hroots
  | strong hx hy hin ih =>
    exact .strong ih (by rwa [hc.strongRefs_eq (hkept hx)]) (hkept (.strong hx hy hin))
  | weak hmap hmem hkey hin ihmap ihkey =>
    have hlink := hc.mem_weakLinks.2 ⟨(hc.keep_iff _).2 hmap, hmem, (hc.keep_iff _).2 hkey⟩
    exact .weak ihmap hlink ihkey (hkept (.weak hmap hmem hkey hin))

theorem weaklyClosed (hc : Collected h h' keep) (hweak : h.WeaklyClosed) : h'.WeaklyClosed := by
  intro map key y hmap hmem hkey
  rw [hc.reachable_iff] at hmap hkey
  have hold := (hc.mem_weakLinks.1 hmem).2.1
  exact (hc.contains_iff_reachable y).2 (.weak hmap hold hkey (hweak map key y hmap hold hkey))

end Collected

/-- Where a collection ends, an object that is kept refers to the same objects as before, and
every one of them that was in the heap still is; the same holds of the keys and values of the
entries that are left in weak maps.  A second collection ends as well, marks as many objects,
and changes nothing but the number of collections. -/
theorem collect_again {stats : CollectionStats} (hrun : h.collect? = some (stats, h')) :
    (∀ x, h'.contains x = true → h'.strongRefs x = h.strongRefs x ∧
      ∀ y ∈ h.strongRefs x, h.contains y = true → h'.contains y = true) ∧
    (∀ map key v, (key, v) ∈ h'.weakLinks map → h'.contains key = true ∧
      ∀ y, v = .object y → h.contains y = true → h'.contains y = true) ∧
    ∃ rounds, h'.collect? = some (⟨stats.marked, 0, 0, 0, rounds⟩,
      { h' with collectionCount := h'.collectionCount + 1 }) := by
  have hweak : h.WeaklyClosed := (collect?_isSome_iff h).1 (by rw [hrun]; rfl)
  obtain ⟨m, r, hmark, hsweep⟩ := exists_sweep hrun
  have hc : Collected h h' m := by
    have := collected_sweep hmark
    rwa [hsweep] at this
  have hmarked : stats.marked = m.size := (congrArg (fun p => p.1.marked) hsweep).symm
  have hrefs : h'.weakRefs = h.weakRefs.map (clearRef m) :=
    (congrArg (fun p => p.2.weakRefs) hsweep).symm
  have hcount : h'.allocationsSinceCollect = 0 :=
    (congrArg (fun p => p.2.allocationsSinceCollect) hsweep).symm
  have hleft := hc.contains_iff_reachable
  refine ⟨fun x hx => ⟨hc.strongRefs_eq hx, fun y hy hin => ?_⟩, fun map key v hmem => ?_, ?_⟩
  · exact (hleft y).2 (.strong ((hleft x).1 hx) hy hin)
  · obtain ⟨hmap, hold, hkey⟩ := hc.mem_weakLinks.1 hmem
    rw [hc.keep_iff] at hmap hkey
    refine ⟨(hleft key).2 hkey, fun y hv hin => (hleft y).2 ?_⟩
    exact .weak hmap (hv ▸ hold) hkey hin
  · have hsome := (collect?_isSome_iff h').2 (hc.weaklyClosed hweak)
    rw [collect?, Option.isSome_map] at hsome
    obtain ⟨⟨m', r'⟩, hmark'⟩ := Option.isSome_iff_exists.1 hsome
    have hsame : ∀ x, m'.contains x = true ↔ m.contains x = true := fun x => by
      rw [mark?_contains_iff hmark', hc.reachable_iff, hc.keep_iff]
    have hall : h'.AllMarked m' :=
      { object := fun x hx => (hsame x).2 ((hc.keep_iff x).2 ((hleft x).1 hx))
        key := fun map p hmem => (hsame p.1).2 (hc.mem_weakLinks.1 hmem).2.2
        target := fun ref href => by
          obtain ⟨old, -, rfl⟩ := Array.mem_map.1 (hrefs ▸ href)
          rw [hsame]
          by_cases hin : m.contains old.target = true <;> simp [clearRef, hin] }
    have hsize : m'.size = m.size := by
      have hcard := m'.encard_contains
      rw [Set.ext hsame, m.encard_contains] at hcard
      exact_mod_cast hcard.symm
    refine ⟨r', ?_⟩
    rw [collect?, hmark', Option.map_some]
    change some (h'.sweep m' r') = _
    rw [hall.sweep_eq, hsize, hmarked, ← hcount]

/-- A rooted object that refers to a number without an object, a weak map that only it keeps,
with an entry under a key that nothing keeps, and a weak reference to that key. -/
def worn : Heap :=
  { empty with
    entries := #[some ⟨.array #[.object ⟨4⟩, .object ⟨1⟩], 1⟩,
      some ⟨.weakMap (.ofList [(⟨0⟩, .object ⟨3⟩), (⟨2⟩, .object ⟨4⟩)]), 0⟩,
      some ⟨.ordinary ∅, 0⟩, some ⟨.cell none, 0⟩, none]
    weakRefs := #[⟨⟨2⟩, 7, false⟩] }

/-- The first collection sweeps the key, takes out its entry and leaves a note; the second one
marks the other three objects again. -/
theorem collect_again_worn : ∃ stats h' rounds, worn.collect? = some (stats, h') ∧
    stats.swept = 1 ∧ stats.weakCleared = 1 ∧ stats.finalized = 1 ∧
    h'.contains ⟨3⟩ = true ∧ h'.collect? = some (⟨3, 0, 0, 0, rounds⟩,
      { h' with collectionCount := h'.collectionCount + 1 }) := by
  obtain ⟨⟨stats, h'⟩, hrun⟩ := Option.isSome_iff_exists.1
    (by decide +kernel : worn.collect?.isSome = true)
  have hcounts : stats.marked = 3 ∧ stats.swept = 1 ∧ stats.weakCleared = 1 ∧
      stats.finalized = 1 ∧ h'.contains ⟨1⟩ = true ∧ ⟨⟨0⟩, .object ⟨3⟩⟩ ∈ h'.weakLinks ⟨1⟩ := by
    have hall : ∀ r ∈ worn.collect?, r.1.marked = 3 ∧ r.1.swept = 1 ∧ r.1.weakCleared = 1 ∧
        r.1.finalized = 1 ∧ r.2.contains ⟨1⟩ = true ∧
        ⟨⟨0⟩, .object ⟨3⟩⟩ ∈ r.2.weakLinks ⟨1⟩ := by decide +kernel
    exact hall (stats, h') hrun
  obtain ⟨hmarked, hswept, hcleared, hfinalized, -, hlink⟩ := hcounts
  obtain ⟨-, hlinks, rounds, hagain⟩ := collect_again hrun
  rw [hmarked] at hagain
  exact ⟨stats, h', rounds, hrun, hswept, hcleared, hfinalized,
    (hlinks ⟨1⟩ ⟨0⟩ _ hlink).2 ⟨3⟩ rfl (by decide), hagain⟩

end Heap
end ClosureCache
