/-
What a collection leaves and what it counts.

`Saturated` names the sets of objects that a collection may keep, and
`isLeast_reachable` says that the reachable objects are the least of them.
`collect_exact` puts a collection together: the heap it leaves holds exactly that
set, with the entries of weak maps cut down to it, and the counts it reports are
the sizes of the sets they are named for.

The counts are taken over arrays while the sets are sets of numbers.
`encard_entriesOf` carries one over to the other: the entries listed along an array
are as many as the pairs of a place and an entry listed there.

`collect?_isSome_iff` says which heaps can be collected at all: those where no
reachable entry of a weak map leads to a number without an object.  Marking is
given one round more than there are numbers, and every round but the last marks an
object, so the limit on rounds is never what stops it.
-/
import Mathlib.Data.Set.Card
import Mathlib.Data.List.Induction
import ClosureCache.Proofs.SortedMap
import ClosureCache.Proofs.Heap.Reachability

namespace ClosureCache

/-! ## Counting along an array -/

section Counting

variable {α β : Type}

/-- The pairs of a place of a list and an entry listed there. -/
def entriesOf (f : α → List β) (l : List α) : Set (ObjectId × β) :=
  {p | ∃ a, l[p.1.index]? = some a ∧ p.2 ∈ f a}

theorem entriesOf_concat (f : α → List β) (l : List α) (a : α) :
    entriesOf f (l ++ [a]) = entriesOf f l ∪ (fun b => (⟨l.length⟩, b)) '' {b | b ∈ f a} := by
  ext ⟨⟨i⟩, b⟩
  simp only [entriesOf, Set.mem_ofPred_eq, Set.mem_union, Set.mem_image, Prod.mk.injEq,
    ObjectId.mk.injEq]
  rcases Nat.lt_trichotomy i l.length with hi | rfl | hi
  · simp [List.getElem?_append_left hi, Nat.ne_of_gt hi]
  · simp
  · simp [List.getElem?_append_right (Nat.le_of_lt hi), List.getElem?_eq_none (Nat.le_of_lt hi),
      Nat.ne_of_lt hi, Nat.sub_ne_zero_of_lt hi]

/-- The entries listed along a list are as many as the places and entries. -/
theorem encard_entriesOf {f : α → List β} (hf : ∀ a, (f a).Nodup) (l : List α) :
    (entriesOf f l).encard = (l.flatMap f).length := by
  induction l using List.reverseRecOn with
  | nil => simp [entriesOf]
  | append_singleton l a ih =>
    have hinj : Function.Injective fun b : β => ((⟨l.length⟩, b) : ObjectId × β) :=
      fun _ _ h => (Prod.mk.inj h).2
    have hdisjoint : Disjoint (entriesOf f l) ((fun b => (⟨l.length⟩, b)) '' {b | b ∈ f a}) := by
      rw [Set.disjoint_left]
      rintro _ ⟨a', ha', -⟩ ⟨b, -, rfl⟩
      simp at ha'
    have hlast : {b | b ∈ f a}.encard = (f a).length := by
      classical
      rw [← List.toFinset_card_of_nodup (hf a), ← Set.encard_coe_eq_coe_finsetCard]
      congr 1
      ext b
      simp
    rw [entriesOf_concat, Set.encard_union_eq hdisjoint, hinj.encard_image, ih, hlast]
    simp

/-- The entries of an array that pass a test are as many as the numbers of those
entries. -/
theorem encard_passing (p : α → Bool) (xs : Array α) :
    {x : ObjectId | ∃ a, xs[x.index]? = some a ∧ p a = true}.encard = xs.countP p := by
  let f : α → List Unit := fun a => if p a then [()] else []
  have hlength : (xs.toList.flatMap f).length = xs.countP p := by
    rw [← Array.countP_toList]
    induction xs.toList with
    | nil => rfl
    | cons a l ih => by_cases ha : p a = true <;> simp [f, ha] at ih ⊢ <;> omega
  have himage : entriesOf f xs.toList =
      (fun x => (x, ())) '' {x : ObjectId | ∃ a, xs[x.index]? = some a ∧ p a = true} := by
    ext ⟨x, u⟩
    simp only [entriesOf, Set.mem_ofPred_eq, Set.mem_image, Prod.mk.injEq, and_true,
      exists_eq_right, Array.getElem?_toList]
    refine exists_congr fun a => and_congr_right fun _ => ?_
    by_cases ha : p a = true <;> simp [f, ha]
  have hinj : Function.Injective fun x : ObjectId => (x, ()) := fun _ _ h => (Prod.mk.inj h).1
  rw [← hlength, ← encard_entriesOf (fun a => by by_cases ha : p a = true <;> simp [f, ha]),
    himage, hinj.encard_image]

theorem encard_diff {s t : Set α} (hst : s ⊆ t) {m n : Nat} (hs : s.encard = m)
    (ht : t.encard = n) : (t \ s).encard = ((n - m : Nat) : ℕ∞) := by
  have hsum := Set.encard_sdiff_add_encard_of_subset hst
  rw [hs, ht] at hsum
  cases hd : (t \ s).encard with
  | top => rw [hd] at hsum; simp at hsum
  | coe k =>
    rw [hd] at hsum
    have : k + m = n := by exact_mod_cast hsum
    rw [← this, Nat.add_sub_cancel]

end Counting

namespace MarkSet

theorem encard_contains (m : MarkSet) : {x | m.contains x = true}.encard = m.size := by
  rw [size, ← encard_passing]
  congr 1
  ext x
  cases hx : m.flags[x.index]? <;> simp [contains, hx]

/-- A set with an object more is larger. -/
theorem size_lt_size {m m' : MarkSet} (hsub : ∀ x, m.contains x = true → m'.contains x = true)
    {y : ObjectId} (hy : m'.contains y = true) (hfree : m.contains y = false) :
    m.size < m'.size := by
  have hlt : {x | m.contains x = true}.encard < {x | m'.contains x = true}.encard := by
    refine Set.Finite.encard_lt_encard ?_ ⟨fun x hx => hsub x hx, fun h => ?_⟩
    · exact Set.finite_of_encard_eq_coe m.encard_contains
    · exact absurd (h hy) (by simp [hfree])
  rw [encard_contains, encard_contains] at hlt
  exact_mod_cast hlt

end MarkSet

namespace Heap

/-! ## The objects to keep -/

/-- A set of objects of the heap that holds every rooted object, what a member
keeps alive by itself, and the value of an entry of a weak map whenever the map and
the key of the entry are members. -/
structure Saturated (h : Heap) (R : Set ObjectId) : Prop where
  existing : ∀ x ∈ R, h.contains x = true
  root : ∀ x e, h.entry? x = some e → 0 < e.roots → x ∈ R
  strong : ∀ x ∈ R, ∀ y ∈ h.strongRefs x, h.contains y = true → y ∈ R
  weak : ∀ map ∈ R, ∀ key ∈ R, ∀ y, (key, .object y) ∈ h.weakLinks map →
    h.contains y = true → y ∈ R

theorem isLeast_reachable (h : Heap) : IsLeast {S | h.Saturated S} {x | h.Reachable x} := by
  constructor
  · exact
      { existing := fun _ hx => hx.contains
        root := fun _ _ he hr => .root he hr
        strong := fun _ hx _ hy hc => .strong hx hy hc
        weak := fun _ hmap _ hkey _ hmem hc => .weak hmap hmem hkey hc }
  · intro S hS x hx
    induction hx with
    | root he hr => exact hS.root _ _ he hr
    | strong _ hy hc ih => exact hS.strong _ ih _ hy hc
    | weak _ hmem _ hc ihmap ihkey => exact hS.weak _ ihmap _ ihkey _ hmem hc

/-! ## Which heaps can be collected -/

/-- No reachable entry of a weak map leads to a number without an object. -/
def WeaklyClosed (h : Heap) : Prop :=
  ∀ map key y, h.Reachable map → (key, .object y) ∈ h.weakLinks map → h.Reachable key →
    h.contains y = true

/-- Where the marks are those of the reachable objects and no entry of a weak map leads to
anything new, every reachable entry leads to an object. -/
theorem weaklyClosed_of_marks {h : Heap} {m : MarkSet}
    (hkept : ∀ x, m.contains x = true ↔ h.Reachable x) (hnone : h.weakTargets m = []) :
    h.WeaklyClosed := by
  intro map key y hmap hmem hkey
  cases hy : m.contains y with
  | true => exact ((hkept y).1 hy).contains
  | false =>
    have : y ∈ h.weakTargets m :=
      mem_weakTargets.2 ⟨map, key, (hkept map).2 hmap, hmem, (hkept key).2 hkey, hy⟩
    rw [hnone] at this
    exact absurd this List.not_mem_nil

/-- A round finds reachable objects only. -/
theorem WeaklyClosed.reachable_weakTargets {h : Heap} (hweak : h.WeaklyClosed) {m : MarkSet}
    (hm : ∀ x, m.contains x = true → h.Reachable x) : ∀ y ∈ h.weakTargets m, h.Reachable y := by
  intro y hy
  obtain ⟨map, key, hmap, hmem, hkey, -⟩ := mem_weakTargets.1 hy
  exact .weak (hm map hmap) hmem (hm key hkey) (hweak map key y (hm map hmap) hmem (hm key hkey))

/-- The traversal after a round that has found an object marks it. -/
theorem WeaklyClosed.size_lt_visit {h : Heap} (hweak : h.WeaklyClosed) {m : MarkSet}
    (hsize : m.flags.size = h.entries.size) (hclosed : h.Pending m [])
    (hm : ∀ x, m.contains x = true → h.Reachable x) (hsome : h.weakTargets m ≠ []) :
    m.size < (h.visit h.entries.size m (h.weakTargets m)).size := by
  obtain ⟨y, hy⟩ := List.exists_mem_of_ne_nil _ hsome
  obtain ⟨-, -, -, -, -, hfree⟩ := mem_weakTargets.1 hy
  have hpend : h.Pending m (h.weakTargets m) := hclosed.mono fun x hx => absurd hx List.not_mem_nil
  have hy' := (visit_complete hsize (Nat.le_add_left _ m.size) hpend).1 y hy
    (hweak.reachable_weakTargets hm y hy).contains
  exact MarkSet.size_lt_size (h.visit_mono _ m (h.weakTargets m)).2 hy' hfree

/-- The rounds end if there are more of them left than numbers without a mark
after the next traversal. -/
theorem isSome_markRounds {h : Heap} (hweak : h.WeaklyClosed) {n rounds : Nat} {m : MarkSet}
    {work : List ObjectId} (hsize : m.flags.size = h.entries.size) (hp : h.Pending m work)
    (hm : ∀ x, m.contains x = true → h.Reachable x)
    (hwork : ∀ x ∈ work, h.contains x = true → h.Reachable x)
    (hn : h.entries.size < n + (h.visit h.entries.size m work).size) :
    (h.markRounds n m work rounds).isSome = true := by
  induction n generalizing m work rounds with
  | zero =>
    have hle := (h.visit h.entries.size m work).size_le
    rw [(h.visit_mono _ m work).1, hsize] at hle
    omega
  | succ n ih =>
    rw [markRounds]
    obtain ⟨-, hclosed⟩ := visit_complete hsize (Nat.le_add_left _ m.size) hp
    have hsize' := (h.visit_mono h.entries.size m work).1.trans hsize
    have hmarked : ∀ x, (h.visit h.entries.size m work).contains x = true → h.Reachable x :=
      visit_sound (fun _ _ hx hy hc => .strong hx hy hc) hm hwork
    generalize h.visit h.entries.size m work = m' at *
    split
    · rfl
    · next hsome =>
      have := hweak.size_lt_visit hsize' hclosed hmarked hsome
      exact ih hsize' (hclosed.mono fun x hx => absurd hx (by simp)) hmarked
        (fun y hy _ => hweak.reachable_weakTargets hmarked y hy) (by omega)

/-- A heap can be collected exactly if no reachable entry of a weak map leads to a
number without an object. -/
theorem collect?_isSome_iff (h : Heap) : h.collect?.isSome = true ↔ h.WeaklyClosed := by
  rw [collect?, Option.isSome_map]
  constructor
  · intro hsome
    obtain ⟨⟨m, r⟩, hmark⟩ := Option.isSome_iff_exists.1 hsome
    obtain ⟨-, -, -, hnone⟩ := markRounds_complete (by simp [MarkSet.empty])
      (fun x hx => absurd hx (by simp)) hmark
    exact weaklyClosed_of_marks (mark?_contains_iff hmark) hnone
  · intro hweak
    refine isSome_markRounds hweak (by simp [MarkSet.empty]) (fun x hx => absurd hx (by simp))
      (fun x hx => absurd hx (by simp)) (fun x hx _ => ?_) (by omega)
    obtain ⟨e, he, hr⟩ := mem_rooted.1 hx
    exact .root he hr

/-! ## What is left -/

/-- An object as a collection that keeps the objects of `R` leaves it: a weak map
keeps exactly the entries whose key is in `R`, and every other object is as it
was. -/
def LeftBy (R : Set ObjectId) : Object → Object → Prop
  | .weakMap entries, left =>
    ∃ entries', left = .weakMap entries' ∧
      ∀ key v, entries'.get? key = some v ↔ key ∈ R ∧ entries.get? key = some v
  | other, left => left = other

theorem leftBy_pruneWeak (m : MarkSet) (o : Object) :
    LeftBy {x | m.contains x = true} o (pruneWeak m o) := by
  cases o with
  | weakMap entries =>
    refine ⟨_, rfl, fun key v => ?_⟩
    rw [SortedMap.get?_filterKeys]
    by_cases hkey : m.contains key = true <;> simp [hkey]
  | _ => rfl

theorem mem_weakEntries_pruneWeak {m : MarkSet} {o : Object} {p : ObjectId × Value} :
    p ∈ (pruneWeak m o).weakEntries ↔ p ∈ o.weakEntries ∧ m.contains p.1 = true := by
  cases o with
  | weakMap entries => exact List.mem_filter
  | _ => simp [pruneWeak, Object.weakEntries]

theorem nodup_weakEntries (o : Object) : o.weakEntries.Nodup := by
  cases o with
  | weakMap entries => exact .of_map _ entries.nodup_keys
  | _ => exact .nil

/-- The entry at every number once the objects outside a set are taken out. -/
theorem getElem?_keptEntries (h : Heap) (m : MarkSet) (x : ObjectId) :
    ((h.keptEntries m)[x.index]?).join = if m.contains x then h.entry? x else none := by
  rw [keptEntries, Array.getElem?_mapIdx, entry?]
  cases h.entries[x.index]? with
  | none => simp
  | some e => by_cases hx : m.contains x = true <;> simp [hx]

/-! ## What is counted -/

/-- The number of objects at the places of an array. -/
theorem encard_objects (entries : Array (Option HeapEntry)) :
    {x : ObjectId | (entries[x.index]?).join.isSome = true}.encard =
      entries.countP Option.isSome := by
  rw [← encard_passing]
  congr 1
  ext x
  cases hx : entries[x.index]? <;> simp [hx]

/-- The number of entries of the weak maps at the places of an array. -/
theorem encard_weakEntries (entries : Array (Option HeapEntry)) :
    {p : ObjectId × ObjectId × Value |
      ∃ e, (entries[p.1.index]?).join = some e ∧ p.2 ∈ e.object.weakEntries}.encard =
      (allWeakEntries entries).length := by
  rw [allWeakEntries, ← encard_entriesOf]
  · congr 1
    ext p
    simp only [entriesOf, Set.mem_ofPred_eq, Array.getElem?_toList, Option.join_eq_some_iff]
    constructor
    · rintro ⟨e, he, hp⟩
      exact ⟨some e, he, hp⟩
    · rintro ⟨_ | e, he, hp⟩
      · exact absurd hp List.not_mem_nil
      · exact ⟨e, he, hp⟩
  · rintro (_ | e)
    · exact .nil
    · exact nodup_weakEntries e.object

/-- The objects that a sweep removes. -/
theorem encard_removed {h : Heap} {m : MarkSet} :
    {x | h.contains x = true ∧ m.contains x = false}.encard =
      ((h.objectCount - (h.keptEntries m).countP Option.isSome : Nat) : ℕ∞) := by
  rw [objectCount, ← encard_diff _ (encard_objects (h.keptEntries m)) (encard_objects h.entries)]
  · congr 1
    ext x
    simp only [Set.mem_sdiff, Set.mem_ofPred_eq, getElem?_keptEntries]
    rw [contains, entry?]
    by_cases hx : m.contains x = true
    · simp only [hx, if_true, and_not_self, Bool.true_eq_false, and_false]
    · simp only [hx, if_false, Option.isSome_none, Bool.false_eq_true, not_false_eq_true]
  · intro x hx
    simp only [Set.mem_ofPred_eq, getElem?_keptEntries] at hx ⊢
    split at hx
    · exact hx
    · exact absurd hx (by simp)

/-- The entries that a sweep takes out of the weak maps it keeps. -/
theorem encard_cleared {h : Heap} {m : MarkSet} :
    {p : ObjectId × ObjectId × Value | m.contains p.1 = true ∧ p.2 ∈ h.weakLinks p.1 ∧
        m.contains p.2.1 = false}.encard =
      (((allWeakEntries (h.keptEntries m)).length -
        (allWeakEntries (h.sweepEntries m)).length : Nat) : ℕ∞) := by
  have hlink : ∀ {p : ObjectId × ObjectId × Value} {e : HeapEntry},
      h.entry? p.1 = some e → (p.2 ∈ h.weakLinks p.1 ↔ p.2 ∈ e.object.weakEntries) :=
    fun he => by rw [weakLinks_of_some he]
  rw [← encard_diff _ (encard_weakEntries (h.sweepEntries m))
    (encard_weakEntries (h.keptEntries m))]
  · congr 1
    ext p
    simp only [Set.mem_sdiff, Set.mem_ofPred_eq, getElem?_keptEntries, entry?_sweepEntries]
    by_cases hp : m.contains p.1 = true
    · cases he : h.entry? p.1 with
      | none => simp [hp, weakLinks, he]
      | some e =>
        simp only [hp, hlink he, if_true, Option.map_some, Option.some.injEq, exists_eq_left',
          mem_weakEntries_pruneWeak, true_and, not_and, Bool.not_eq_true]
        exact and_congr_right fun hmem => ⟨fun hfree _ => hfree, fun hfree => hfree hmem⟩
    · simp [hp]
  · rintro p ⟨e', he', hp⟩
    rw [entry?_sweepEntries] at he'
    split at he'
    · next hk =>
      obtain ⟨e, he, rfl⟩ := Option.map_eq_some_iff.1 he'
      refine ⟨e, ?_, (mem_weakEntries_pruneWeak.1 hp).1⟩
      rw [getElem?_keptEntries, if_pos hk, he]
    · exact absurd he' (by simp)

/-- The weak maps after a collection hold the entries whose map and key were kept. -/
theorem Collected.mem_weakLinks {h h' : Heap} {keep : MarkSet} (hc : Collected h h' keep)
    {x : ObjectId} {p : ObjectId × Value} :
    p ∈ h'.weakLinks x ↔
      keep.contains x = true ∧ p ∈ h.weakLinks x ∧ keep.contains p.1 = true := by
  rw [weakLinks, weakLinks, hc.entry]
  by_cases hx : keep.contains x = true
  · cases h.entry? x with
    | none => simp [hx]
    | some e => simp [hx, mem_weakEntries_pruneWeak]
  · simp [hx]

/-- A collection leaves exactly the least set of objects it may keep, and counts what
it keeps, removes and takes out of the weak maps. -/
theorem collect_exact {h h' : Heap} {stats : CollectionStats}
    (hrun : h.collect? = some (stats, h')) :
    ∃ R : Set ObjectId, IsLeast {S | h.Saturated S} R ∧
      (∀ x, h'.contains x = true ↔ x ∈ R) ∧
      (∀ x ∈ R, ∀ e, h.entry? x = some e →
        ∃ left, h'.entry? x = some ⟨left, e.roots⟩ ∧ LeftBy R e.object left) ∧
      stats.marked = R.encard ∧
      stats.swept = {x | h.contains x = true ∧ h'.contains x = false}.encard ∧
      stats.weakCleared = {p : ObjectId × ObjectId × Value |
        p.1 ∈ R ∧ p.2 ∈ h.weakLinks p.1 ∧ p.2 ∉ h'.weakLinks p.1}.encard := by
  obtain ⟨m, r, hmark, hsweep⟩ := exists_sweep hrun
  have hc : Collected h h' m := by
    have := collected_sweep hmark
    rwa [hsweep] at this
  obtain rfl : stats = (h.sweep m r).1 := by rw [hsweep]
  have hR : {x | m.contains x = true} = {x | h.Reachable x} := Set.ext hc.keep_iff
  have hleft : ∀ x, h'.contains x = true ↔ m.contains x = true := fun x =>
    (hc.contains_iff_reachable x).trans (hc.keep_iff x).symm
  refine ⟨{x | m.contains x = true}, hR ▸ h.isLeast_reachable, hleft, fun x hx e he => ?_,
    m.encard_contains.symm, ?_, ?_⟩
  · exact ⟨_, hc.entry?_eq_some he ((hc.keep_iff x).1 hx), leftBy_pruneWeak m e.object⟩
  · refine encard_removed.symm.trans (congrArg Set.encard (Set.ext fun x => ?_))
    refine and_congr_right fun _ => ?_
    rw [← Bool.not_eq_true, ← Bool.not_eq_true, hleft]
  · refine encard_cleared.symm.trans (congrArg Set.encard (Set.ext fun p => ?_))
    refine and_congr_right fun hmap => and_congr_right fun hmem => ?_
    rw [hc.mem_weakLinks, ← Bool.not_eq_true]
    exact not_congr ⟨fun hkey => ⟨hmap, hmem, hkey⟩, fun hall => hall.2.2⟩

/-- A rooted weak map and a rooted key, from which two more objects are found one
after the other; the last entry has a key that nothing keeps. -/
def chained : Heap :=
  { empty with
    entries := #[
      some ⟨.weakMap (.ofList [(⟨1⟩, .object ⟨2⟩), (⟨2⟩, .object ⟨3⟩), (⟨4⟩, .object ⟨1⟩)]), 1⟩,
      some ⟨.ordinary ∅, 1⟩, some ⟨.ordinary ∅, 0⟩, some ⟨.cell none, 0⟩, some ⟨.ordinary ∅, 0⟩] }

/-- Values of a weak map are found round by round. -/
theorem collect_chained :
    ∃ stats h' R, chained.collect? = some (stats, h') ∧ stats.rounds = 3 ∧
      IsLeast {S | chained.Saturated S} R ∧ ⟨3⟩ ∈ R ∧ ⟨4⟩ ∉ R ∧ R.encard = 4 ∧
      {x | chained.contains x = true ∧ h'.contains x = false}.encard = 1 := by
  obtain ⟨⟨stats, h'⟩, hrun⟩ := Option.isSome_iff_exists.1
    (by decide +kernel : chained.collect?.isSome = true)
  have hcounts : stats.marked = 4 ∧ stats.swept = 1 ∧ stats.rounds = 3 ∧
      h'.contains ⟨3⟩ = true ∧ h'.contains ⟨4⟩ = false := by
    have hall : ∀ r ∈ chained.collect?, r.1.marked = 4 ∧ r.1.swept = 1 ∧ r.1.rounds = 3 ∧
        r.2.contains ⟨3⟩ = true ∧ r.2.contains ⟨4⟩ = false := by decide +kernel
    exact hall _ hrun
  obtain ⟨hmarked, hswept, hrounds, hkept, hgone⟩ := hcounts
  obtain ⟨R, hR, hleft, -, hsize, hremoved, -⟩ := collect_exact hrun
  refine ⟨stats, h', R, hrun, hrounds, hR, (hleft _).1 hkept, fun hmem => ?_, ?_, ?_⟩
  · rw [(hleft _).2 hmem] at hgone
    exact absurd hgone (by decide)
  · rw [← hsize, hmarked]
    rfl
  · rw [← hremoved, hswept]
    rfl

end Heap
end ClosureCache
