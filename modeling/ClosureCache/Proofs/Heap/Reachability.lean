/-
Which objects a collection keeps.

`Reachable` is the least set of objects that holds the rooted ones, what a member
keeps alive by itself, and the value of an entry of a weak map once both the map
and the key of the entry are members.  `mark?_contains_iff` says that marking
computes that set whenever it ends, and `Collected` is what a collection then does
to the objects.

Marking is a traversal inside a loop of rounds.  The traversal keeps `Pending`:
whatever a marked object keeps alive is marked or still to be visited.  With as
many visits as there are unmarked numbers nothing is left to be visited.
-/
import ClosureCache.Heap.Collection
import ClosureCache.Proofs.Heap.Entries

namespace ClosureCache

theorem Value.object?_eq_some {v : Value} {x : ObjectId} :
    v.object? = some x ↔ v = .object x := by
  cases v <;> simp [Value.object?]

/-! ## Sets of marks -/

namespace MarkSet

@[simp] theorem size_flags_insert (m : MarkSet) (x : ObjectId) :
    (m.insert x).flags.size = m.flags.size := by
  simp [insert]

theorem size_le (m : MarkSet) : m.size ≤ m.flags.size := Array.countP_le_size

theorem contains_insert_self {m : MarkSet} {x : ObjectId} (hx : x.index < m.flags.size) :
    (m.insert x).contains x = true := by
  simp [contains_insert, hx]

theorem contains_insert_of_contains {m : MarkSet} {x y : ObjectId} (hy : m.contains y = true) :
    (m.insert x).contains y = true := by
  simp [contains_insert, hy]

theorem eq_or_contains_of_insert {m : MarkSet} {x y : ObjectId}
    (hy : (m.insert x).contains y = true) : y = x ∨ m.contains y = true := by
  rw [contains_insert, Bool.or_eq_true, decide_eq_true_eq] at hy
  rcases hy with hy | hy
  · exact .inr hy
  · exact .inl hy.1.symm

/-- Marking an unmarked object leaves one unmarked object less. -/
theorem size_insert {m : MarkSet} {x : ObjectId} (hlt : x.index < m.flags.size)
    (hx : m.contains x = false) : (m.insert x).size = m.size + 1 := by
  have hflag : m.flags[x.index] = false := by
    simpa [contains, Array.getElem?_eq_getElem hlt] using hx
  rw [size, insert, Array.setIfInBounds, dif_pos hlt, Array.countP_set]
  simp [hflag, size]

/-- Two sets for one heap with the same members are one set. -/
theorem eq_of_contains {m m' : MarkSet} (hsize : m.flags.size = m'.flags.size)
    (hcontains : ∀ x, m.contains x = m'.contains x) : m = m' := by
  obtain ⟨flags⟩ := m
  obtain ⟨flags'⟩ := m'
  congr 1
  refine Array.ext hsize fun i hi hi' => ?_
  have := hcontains ⟨i⟩
  rwa [contains, contains, Array.getElem?_eq_getElem hi, Array.getElem?_eq_getElem hi'] at this

/-- A set with as many members as there are flags holds every number. -/
theorem contains_of_size_eq {m : MarkSet} (h : m.size = m.flags.size) {x : ObjectId}
    (hlt : x.index < m.flags.size) : m.contains x = true := by
  have hall : ∀ a ∈ m.flags, id a = true := Array.countP_eq_size.1 h
  rw [contains, Array.getElem?_eq_getElem hlt]
  exact hall _ (Array.getElem_mem hlt)

end MarkSet

namespace Heap

/-! ## Reachability -/

/-- The entries of a weak map, and none for a number without one. -/
def weakLinks (h : Heap) (x : ObjectId) : List (ObjectId × Value) :=
  match h.entry? x with
  | some entry => entry.object.weakEntries
  | none => []

/-- The objects that a collection has to keep. -/
inductive Reachable (h : Heap) : ObjectId → Prop where
  | root {x : ObjectId} {e : HeapEntry} : h.entry? x = some e → 0 < e.roots → Reachable h x
  | strong {x y : ObjectId} :
    Reachable h x → y ∈ h.strongRefs x → h.contains y = true → Reachable h y
  /-- A weak map passes life from a key to a value. -/
  | weak {map key y : ObjectId} :
    Reachable h map → (key, .object y) ∈ h.weakLinks map → Reachable h key →
      h.contains y = true → Reachable h y

theorem strongRefs_of_some {h : Heap} {x : ObjectId} {e : HeapEntry} (he : h.entry? x = some e) :
    h.strongRefs x = e.object.strongRefs := by
  rw [strongRefs, he]

theorem weakLinks_of_some {h : Heap} {x : ObjectId} {e : HeapEntry} (he : h.entry? x = some e) :
    h.weakLinks x = e.object.weakEntries := by
  rw [weakLinks, he]

theorem Reachable.contains {h : Heap} {x : ObjectId} (hx : h.Reachable x) :
    h.contains x = true := by
  cases hx with
  | root he _ => exact contains_of_some he
  | strong _ _ hc => exact hc
  | weak _ _ _ hc => exact hc

/-! ## What marking looks at -/

theorem isFresh_iff {h : Heap} {m : MarkSet} {x : ObjectId} :
    h.isFresh m x = true ↔ h.contains x = true ∧ m.contains x = false := by
  simp [isFresh]

theorem mem_ids {h : Heap} {x : ObjectId} : x ∈ h.ids ↔ x.index < h.entries.size := by
  rw [ids, List.mem_map]
  constructor
  · rintro ⟨i, hi, rfl⟩
    exact List.mem_range.1 hi
  · exact fun hx => ⟨x.index, List.mem_range.2 hx, rfl⟩

theorem mem_rooted {h : Heap} {x : ObjectId} :
    x ∈ h.rooted ↔ ∃ e, h.entry? x = some e ∧ 0 < e.roots := by
  rw [rooted, List.mem_filter, mem_ids]
  constructor
  · rintro ⟨-, hx⟩
    obtain ⟨e, he, hr⟩ := (Option.any_eq_true _ _).1 hx
    exact ⟨e, he, of_decide_eq_true hr⟩
  · rintro ⟨e, he, hr⟩
    refine ⟨lt_of_some he, ?_⟩
    rw [he]
    exact decide_eq_true hr

theorem mem_entryTargets {m : MarkSet} {entries : List (ObjectId × Value)} {y : ObjectId} :
    y ∈ entryTargets m entries ↔
      ∃ key, (key, .object y) ∈ entries ∧ m.contains key = true ∧ m.contains y = false := by
  rw [entryTargets, List.mem_filterMap]
  constructor
  · rintro ⟨⟨key, v⟩, hmem, hy⟩
    split at hy
    · next hkey =>
      obtain ⟨hv, hfree⟩ := Option.filter_eq_some_iff.1 hy
      obtain rfl := Value.object?_eq_some.1 hv
      exact ⟨key, hmem, hkey, by simpa using hfree⟩
    · exact absurd hy (by simp)
  · rintro ⟨key, hmem, hkey, hfree⟩
    exact ⟨(key, .object y), hmem, by simp [hkey, Value.object?, Option.filter, hfree]⟩

/-- A round finds the unmarked values of the entries with a marked key in the
marked weak maps. -/
theorem mem_weakTargets {h : Heap} {m : MarkSet} {y : ObjectId} :
    y ∈ h.weakTargets m ↔
      ∃ map key, m.contains map = true ∧ (key, .object y) ∈ h.weakLinks map ∧
        m.contains key = true ∧ m.contains y = false := by
  rw [weakTargets, List.mem_flatMap]
  constructor
  · rintro ⟨map, hmap, hy⟩
    have hmarked : m.contains map = true := (List.mem_filter.1 hmap).2
    split at hy
    · next e he =>
      obtain ⟨key, hmem, hkey, hfree⟩ := mem_entryTargets.1 hy
      exact ⟨map, key, hmarked, by rwa [weakLinks_of_some he], hkey, hfree⟩
    · exact absurd hy (by simp)
  · rintro ⟨map, key, hmap, hmem, hkey, hfree⟩
    cases he : h.entry? map with
    | none => simp [weakLinks, he] at hmem
    | some e =>
      refine ⟨map, List.mem_filter.2 ⟨mem_ids.2 (lt_of_some he), hmap⟩, ?_⟩
      rw [weakLinks_of_some he] at hmem
      simpa only [he] using mem_entryTargets.2 ⟨key, hmem, hkey, hfree⟩

/-! ## The traversal -/

/-- Whatever a marked object keeps alive is marked or still to be visited. -/
def Pending (h : Heap) (m : MarkSet) (work : List ObjectId) : Prop :=
  ∀ x, m.contains x = true → ∀ y ∈ h.strongRefs x, h.contains y = true →
    m.contains y = true ∨ y ∈ work

theorem Pending.mono {h : Heap} {m : MarkSet} {work work' : List ObjectId}
    (hp : h.Pending m work) (hsub : ∀ x ∈ work, x ∈ work') : h.Pending m work' :=
  fun x hx y hy hc => (hp x hx y hy hc).imp_right (hsub y)

/-- Numbers that are passed over are marked already or name no object. -/
theorem mem_of_mem_dropWhile {h : Heap} {m : MarkSet} {work : List ObjectId} {y : ObjectId}
    (hy : y ∈ work) (hc : h.contains y = true) :
    m.contains y = true ∨ y ∈ work.dropWhile fun x => !h.isFresh m x := by
  induction work with
  | nil => exact absurd hy (by simp)
  | cons x rest ih =>
    rw [List.dropWhile_cons]
    by_cases hx : h.isFresh m x = true
    · exact .inr (by simpa [hx] using hy)
    · rcases List.mem_cons.1 hy with rfl | hrest
      · left
        simpa [isFresh, hc] using hx
      · simpa [hx] using ih hrest

theorem head_of_dropWhile {h : Heap} {m : MarkSet} {work rest : List ObjectId} {x : ObjectId}
    (hw : work.dropWhile (fun x => !h.isFresh m x) = x :: rest) : h.isFresh m x = true := by
  have hne : work.dropWhile (fun x => !h.isFresh m x) ≠ [] := by rw [hw]; simp
  have hhead := List.head_dropWhile_not (fun x => !h.isFresh m x) hne
  simp only [hw, List.head_cons] at hhead
  simpa using hhead

/-- Marks are never taken back, and there are as many flags as before. -/
theorem visit_mono (h : Heap) (n : Nat) (m : MarkSet) (work : List ObjectId) :
    (h.visit n m work).flags.size = m.flags.size ∧
      ∀ x, m.contains x = true → (h.visit n m work).contains x = true := by
  induction n generalizing m work with
  | zero => exact ⟨rfl, fun _ hx => hx⟩
  | succ n ih =>
    rw [visit]
    split
    · exact ⟨rfl, fun _ hx => hx⟩
    · next x rest _ =>
      obtain ⟨hsize, hmono⟩ := ih (m.insert x) (h.strongRefs x ++ rest)
      refine ⟨hsize.trans (MarkSet.size_flags_insert m x), fun y hy => ?_⟩
      exact hmono y (MarkSet.contains_insert_of_contains hy)

/-- Every set that is closed under strong references and holds the marks and the
work holds what a traversal marks. -/
theorem visit_sound {h : Heap} {P : ObjectId → Prop}
    (hstrong : ∀ x y, P x → y ∈ h.strongRefs x → h.contains y = true → P y)
    {n : Nat} {m : MarkSet} {work : List ObjectId} (hm : ∀ x, m.contains x = true → P x)
    (hwork : ∀ x ∈ work, h.contains x = true → P x) :
    ∀ x, (h.visit n m work).contains x = true → P x := by
  induction n generalizing m work with
  | zero => exact hm
  | succ n ih =>
    rw [visit]
    split
    · exact hm
    · next x rest hw =>
      have hfresh := isFresh_iff.1 (head_of_dropWhile hw)
      have hsub : ∀ y ∈ x :: rest, y ∈ work := by
        rw [← hw]
        exact fun y hy => List.dropWhile_subset _ hy
      have hx : P x := hwork x (hsub x (by simp)) hfresh.1
      refine ih (fun y hy => ?_) (fun y hy hc => ?_)
      · rcases MarkSet.eq_or_contains_of_insert hy with rfl | hy
        · exact hx
        · exact hm y hy
      · rcases List.mem_append.1 hy with hy | hy
        · exact hstrong x y hx hy hc
        · exact hwork y (hsub y (List.mem_cons_of_mem x hy)) hc

/-- With as many visits as there are unmarked numbers, a traversal marks all of
its work and everything that the marked objects keep alive. -/
theorem visit_complete {h : Heap} {n : Nat} {m : MarkSet} {work : List ObjectId}
    (hsize : m.flags.size = h.entries.size) (hn : h.entries.size ≤ m.size + n)
    (hp : h.Pending m work) :
    (∀ x ∈ work, h.contains x = true → (h.visit n m work).contains x = true) ∧
      h.Pending (h.visit n m work) [] := by
  induction n generalizing m work with
  | zero =>
    have hfull : m.size = m.flags.size := Nat.le_antisymm m.size_le (by omega)
    have hall : ∀ x, h.contains x = true → m.contains x = true := fun x hx =>
      MarkSet.contains_of_size_eq hfull (hsize ▸ lt_of_contains hx)
    exact ⟨fun x _ hx => hall x hx, fun _ _ y _ hy => .inl (hall y hy)⟩
  | succ n ih =>
    rw [visit]
    split
    · next hw =>
      have hdone : ∀ x ∈ work, h.contains x = true → m.contains x = true := fun x hx hc => by
        rcases mem_of_mem_dropWhile (m := m) hx hc with hx | hx
        · exact hx
        · rw [hw] at hx
          exact absurd hx (by simp)
      refine ⟨hdone, fun x hx y hy hc => .inl ?_⟩
      rcases hp x hx y hy hc with hy | hy
      · exact hy
      · exact hdone y hy hc
    · next x rest hw =>
      have hfresh := isFresh_iff.1 (head_of_dropWhile hw)
      have hlt : x.index < m.flags.size := hsize ▸ lt_of_contains hfresh.1
      have hcount : (m.insert x).size = m.size + 1 := MarkSet.size_insert hlt hfresh.2
      have hsplit : ∀ y ∈ work, h.contains y = true →
          (m.insert x).contains y = true ∨ y ∈ h.strongRefs x ++ rest := fun y hy hc => by
        rcases mem_of_mem_dropWhile (m := m) hy hc with hy | hy
        · exact .inl (MarkSet.contains_insert_of_contains hy)
        · rw [hw] at hy
          rcases List.mem_cons.1 hy with rfl | hy
          · exact .inl (MarkSet.contains_insert_self hlt)
          · exact .inr (List.mem_append_right _ hy)
      have hpend : h.Pending (m.insert x) (h.strongRefs x ++ rest) := by
        intro y hy z hz hc
        rcases MarkSet.eq_or_contains_of_insert hy with rfl | hy
        · exact .inr (List.mem_append_left _ hz)
        · rcases hp y hy z hz hc with hz | hz
          · exact .inl (MarkSet.contains_insert_of_contains hz)
          · exact hsplit z hz hc
      obtain ⟨hwork, hclosed⟩ := ih (by simpa using hsize) (by omega) hpend
      refine ⟨fun y hy hc => ?_, hclosed⟩
      rcases hsplit y hy hc with hy | hy
      · exact (h.visit_mono n (m.insert x) _).2 y hy
      · exact hwork y hy hc

/-! ## The rounds -/

/-- When the rounds end, the marks are closed under strong references and no entry
of a weak map leads to anything new. -/
theorem markRounds_complete {h : Heap} {n r rounds : Nat} {m m' : MarkSet} {work : List ObjectId}
    (hsize : m.flags.size = h.entries.size) (hp : h.Pending m work)
    (hrun : h.markRounds n m work rounds = some (m', r)) :
    (∀ x ∈ work, h.contains x = true → m'.contains x = true) ∧
      (∀ x, m.contains x = true → m'.contains x = true) ∧
      h.Pending m' [] ∧ h.weakTargets m' = [] := by
  induction n generalizing m work rounds with
  | zero => exact absurd hrun (by simp [markRounds])
  | succ n ih =>
    rw [markRounds] at hrun
    obtain ⟨hwork, hclosed⟩ := visit_complete hsize (Nat.le_add_left _ m.size) hp
    obtain ⟨hflags, hmono⟩ := h.visit_mono h.entries.size m work
    split at hrun
    · next hnone =>
      obtain ⟨rfl, -⟩ := Prod.mk.inj (Option.some.inj hrun)
      exact ⟨hwork, hmono, hclosed, hnone⟩
    · obtain ⟨-, hmono', hend⟩ :=
        ih (hflags.trans hsize) (hclosed.mono fun x hx => absurd hx (by simp)) hrun
      exact ⟨fun x hx hc => hmono' x (hwork x hx hc), fun x hx => hmono' x (hmono x hx), hend⟩

/-- Every set closed under strong references and entries of weak maps that holds
the marks and the work holds what the rounds mark. -/
theorem markRounds_sound {h : Heap} {P : ObjectId → Prop}
    (hstrong : ∀ x y, P x → y ∈ h.strongRefs x → h.contains y = true → P y)
    (hweak : ∀ map key y, P map → (key, .object y) ∈ h.weakLinks map → P key →
      h.contains y = true → P y)
    {n r rounds : Nat} {m m' : MarkSet} {work : List ObjectId}
    (hm : ∀ x, m.contains x = true → P x) (hwork : ∀ x ∈ work, h.contains x = true → P x)
    (hrun : h.markRounds n m work rounds = some (m', r)) :
    ∀ x, m'.contains x = true → P x := by
  induction n generalizing m work rounds with
  | zero => exact absurd hrun (by simp [markRounds])
  | succ n ih =>
    rw [markRounds] at hrun
    have hvisit := visit_sound hstrong (n := h.entries.size) hm hwork
    split at hrun
    · obtain ⟨rfl, -⟩ := Prod.mk.inj (Option.some.inj hrun)
      exact hvisit
    · refine ih hvisit (fun y hy hc => ?_) hrun
      obtain ⟨map, key, hmap, hmem, hkey, -⟩ := mem_weakTargets.1 hy
      exact hweak map key y (hvisit map hmap) hmem (hvisit key hkey) hc

/-- Marks that hold the roots, are closed under strong references and lead through no entry of
a weak map to anything new are the marks of the reachable objects, if these are all they hold. -/
theorem contains_iff_of_closed {h : Heap} {m : MarkSet}
    (hroots : ∀ x ∈ h.rooted, m.contains x = true) (hclosed : h.Pending m [])
    (hnone : h.weakTargets m = []) (hsound : ∀ x, m.contains x = true → h.Reachable x)
    (x : ObjectId) : m.contains x = true ↔ h.Reachable x := by
  refine ⟨hsound x, fun hx => ?_⟩
  induction hx with
  | root he hr => exact hroots _ (mem_rooted.2 ⟨_, he, hr⟩)
  | strong _ hy hc ih => exact (hclosed _ ih _ hy hc).resolve_right List.not_mem_nil
  | @weak map key y _ hmem _ _ ihmap ihkey =>
    cases hy : m.contains y with
    | true => rfl
    | false =>
      have : y ∈ h.weakTargets m := mem_weakTargets.2 ⟨map, key, ihmap, hmem, ihkey, hy⟩
      rw [hnone] at this
      exact absurd this List.not_mem_nil

/-- When marking ends it has marked exactly the reachable objects. -/
theorem mark?_contains_iff {h : Heap} {m : MarkSet} {r : Nat} (hrun : h.mark? = some (m, r))
    (x : ObjectId) : m.contains x = true ↔ h.Reachable x := by
  have hstart : h.Pending (.empty h.entries.size) h.rooted := fun y hy =>
    absurd hy (by simp)
  obtain ⟨hroots, -, hclosed, hnone⟩ :=
    markRounds_complete (by simp [MarkSet.empty]) hstart hrun
  refine contains_iff_of_closed (fun y hy => ?_) hclosed hnone ?_ x
  · obtain ⟨e, he, -⟩ := mem_rooted.1 hy
    exact hroots y hy (contains_of_some he)
  · refine markRounds_sound (P := h.Reachable) (fun _ _ hx hy hc => .strong hx hy hc)
      (fun _ _ _ hmap hmem hkey hc => .weak hmap hmem hkey hc) (fun y hy => ?_) (fun y hy _ => ?_)
      hrun
    · exact absurd hy (by simp)
    · obtain ⟨e, he, hr⟩ := mem_rooted.1 hy
      exact .root he hr

/-! ## The sweep -/

/-- What a collection that keeps the objects marked by `keep` makes of a heap. -/
structure Collected (h h' : Heap) (keep : MarkSet) : Prop where
  keep_iff : ∀ x, keep.contains x = true ↔ h.Reachable x
  size : h'.entries.size = h.entries.size
  entry : ∀ x, h'.entry? x =
    if keep.contains x then (h.entry? x).map fun e => { e with object := pruneWeak keep e.object }
    else none

theorem entry?_sweepEntries (h : Heap) (m : MarkSet) (x : ObjectId) :
    ((h.sweepEntries m)[x.index]?).join =
      if m.contains x then (h.entry? x).map fun e => { e with object := pruneWeak m e.object }
      else none := by
  rw [sweepEntries, Array.getElem?_mapIdx, entry?]
  cases h.entries[x.index]? with
  | none => simp
  | some e =>
    by_cases hx : m.contains x = true <;> simp [hx]

/-- A sweep after marking that ended keeps exactly the reachable objects. -/
theorem collected_sweep {h : Heap} {m : MarkSet} {r : Nat} (hmark : h.mark? = some (m, r)) :
    Collected h (h.sweep m r).2 m :=
  ⟨mark?_contains_iff hmark, by simp [sweep, sweepEntries], fun x => entry?_sweepEntries h m x⟩

/-- A collection that ends is a sweep after marking that ended. -/
theorem exists_sweep {h h' : Heap} {stats : CollectionStats}
    (hrun : h.collect? = some (stats, h')) :
    ∃ m r, h.mark? = some (m, r) ∧ h.sweep m r = (stats, h') := by
  rwa [collect?, Option.map_eq_some_iff, Prod.exists] at hrun

/-- A collection that ends keeps exactly the reachable objects. -/
theorem collected_of_collect? {h h' : Heap} {stats : CollectionStats}
    (hrun : h.collect? = some (stats, h')) : ∃ keep, Collected h h' keep := by
  obtain ⟨m, r, hmark, hsweep⟩ := exists_sweep hrun
  have hc := collected_sweep hmark
  rw [hsweep] at hc
  exact ⟨m, hc⟩

namespace Collected

variable {h h' : Heap} {keep : MarkSet}

theorem entry?_eq_some (hc : Collected h h' keep) {x : ObjectId} {e : HeapEntry}
    (he : h.entry? x = some e) (hx : h.Reachable x) :
    h'.entry? x = some { e with object := pruneWeak keep e.object } := by
  rw [hc.entry, if_pos ((hc.keep_iff x).2 hx), he]
  rfl

/-- The objects after a collection are the reachable ones before it. -/
theorem contains_iff_reachable (hc : Collected h h' keep) (x : ObjectId) :
    h'.contains x = true ↔ h.Reachable x := by
  constructor
  · intro hx
    obtain ⟨e, he⟩ := contains_iff.1 hx
    rw [hc.entry] at he
    split at he
    · next hk => exact (hc.keep_iff x).1 hk
    · exact absurd he (by simp)
  · intro hx
    obtain ⟨e, he⟩ := contains_iff.1 hx.contains
    exact contains_of_some (hc.entry?_eq_some he hx)

end Collected

end Heap

end ClosureCache
