/-
What releasing a registry unpins.

A registry is emptied before its caches are released, and they are released one after the
other up to the first whose root has no pin left.  So what is unpinned are the roots of the
caches before that one.  The caches after it are forgotten with their pins in place, and no
step of the registry takes these back.
-/
import ClosureCache.Cache.Registry
import ClosureCache.Proofs.Heap.Entries

namespace ClosureCache

namespace Heap

variable {h h₁ h' : Heap} {x : ObjectId} {xs : List ObjectId}

/-- How often an object is pinned: never, if it is not in the heap. -/
def roots (h : Heap) (x : ObjectId) : Nat := (h.entry? x).elim 0 HeapEntry.roots

/-- The heap with the objects of the list unpinned, each of them as often as it is listed,
and nothing else changed. -/
structure Unpinned (h : Heap) (xs : List ObjectId) (h' : Heap) : Prop where
  /-- There were pins to take. -/
  enough : ∀ x, xs.count x ≤ h.roots x
  entry : ∀ x, h'.entry? x = (h.entry? x).map fun e => { e with roots := e.roots - xs.count x }
  surroundings : h' = { h with entries := h'.entries }

theorem Unpinned.nil (h : Heap) : h.Unpinned [] h :=
  ⟨fun _ => Nat.zero_le _, fun x => by cases h.entry? x <;> rfl, rfl⟩

/-- Pins that are taken and pins that are left are those there were. -/
theorem Unpinned.roots_add (hu : h.Unpinned xs h') (x : ObjectId) :
    h'.roots x + xs.count x = h.roots x := by
  have henough := hu.enough x
  rw [roots, hu.entry]
  rw [roots] at henough ⊢
  cases hx : h.entry? x with
  | none =>
    rw [hx] at henough
    exact (Nat.zero_add _).trans (Nat.eq_zero_of_le_zero henough)
  | some e =>
    rw [hx] at henough
    exact Nat.sub_add_cancel henough

/-- Unpinning either takes a pin, or there was none to take and the heap stays as it is. -/
theorem unroot_cases (h : Heap) (x : ObjectId) :
    (∃ h', unroot x h = (.ok (), h') ∧ h.Unpinned [x] h') ∨
      ∃ e, unroot x h = (.error e, h) ∧ h.roots x = 0 ∧
        (e = .objectNotFound x ∨ e = .notRooted x) := by
  rw [unroot]
  cases hx : h.entry? x with
  | none => exact .inr ⟨_, rfl, by rw [roots, hx]; rfl, .inl rfl⟩
  | some e =>
    by_cases hroots : e.roots = 0
    · exact .inr ⟨_, if_pos hroots, by rw [roots, hx]; exact hroots, .inr rfl⟩
    · have hother : ∀ y, y ≠ x → [x].count y = 0 := fun y hyx =>
        List.count_eq_zero_of_not_mem fun hy => hyx (List.mem_singleton.1 hy)
      refine .inl ⟨_, if_neg hroots, fun y => ?_, fun y => ?_, rfl⟩
      · by_cases hyx : y = x
        · rw [hyx, List.count_singleton_self, roots, hx]
          exact Nat.pos_of_ne_zero hroots
        · rw [hother y hyx]
          exact Nat.zero_le _
      · rw [entry?_modifyEntry]
        by_cases hyx : y = x
        · rw [if_pos hyx, hyx, List.count_singleton_self]
        · rw [if_neg hyx, hother y hyx]
          cases h.entry? y <;> rfl

theorem Unpinned.append {ys : List ObjectId} (a : h.Unpinned xs h₁) (b : h₁.Unpinned ys h') :
    h.Unpinned (xs ++ ys) h' where
  enough x := by
    have := a.roots_add x
    have := b.enough x
    rw [List.count_append]
    omega
  entry x := by
    rw [b.entry, a.entry, List.count_append]
    cases h.entry? x with
    | none => rfl
    | some e => simp [Nat.sub_sub]
  surroundings := by
    have hb := b.surroundings
    rw [a.surroundings] at hb
    exact hb

end Heap

namespace Registry

def roots (caches : List Cache) : List ObjectId := caches.map fun c => c.trie.root

/-- What releasing caches comes to: the first of them are released, and either these are all
or the root of the next one has no pin. -/
structure Released (caches : List Cache) (h : Heap) (result : Except CacheError Unit)
    (released rest : List Cache) (h' : Heap) : Prop where
  split : caches = released ++ rest
  unpinned : h.Unpinned (roots released) h'
  /-- Nothing is left, or an error names the root without a pin. -/
  stop : result = .ok () ∧ rest = [] ∨ ∃ c forgotten e, rest = c :: forgotten ∧
    h'.roots c.trie.root = 0 ∧ result = .error (.host e) ∧
    (e = .objectNotFound c.trie.root ∨ e = .notRooted c.trie.root)

section Released

variable {caches released rest : List Cache} {h h' : Heap} {result : Except CacheError Unit}

/-- Releasing caches one after the other releases the first of them. -/
theorem releaseEach_spec (caches : List Cache) (h : Heap) : ∃ result released rest h',
    releaseEach caches h = (result, h') ∧ Released caches h result released rest h' := by
  induction caches generalizing h with
  | nil => exact ⟨.ok (), [], [], h, rfl, rfl, .nil h, .inl ⟨rfl, rfl⟩⟩
  | cons c caches ih =>
    rw [releaseEach, Trie.release]
    rcases h.unroot_cases c.trie.root with ⟨h₁, hrun, hu⟩ | ⟨e, hrun, hroots, he⟩
    · obtain ⟨result, released, rest, h', hrest, hr⟩ := ih h₁
      refine ⟨result, c :: released, rest, h', ?_, ?_, hu.append hr.unpinned, hr.stop⟩
      · rw [HeapM.bind_of_ok (HeapM.mapError_of_ok hrun)]
        exact hrest
      · rw [hr.split]
        rfl
    · refine ⟨.error (.host e), [], c :: caches, h, ?_, rfl, .nil h,
        .inr ⟨c, caches, e, rfl, hroots, rfl, he⟩⟩
      rw [HeapM.bind_of_error (HeapM.mapError_of_error hrun)]

/-- It succeeds just if there is a pin for every cache. -/
theorem Released.ok_iff (hr : Released caches h result released rest h') :
    result = .ok () ↔ ∀ x, (roots caches).count x ≤ h.roots x := by
  have hcount : ∀ x, (roots caches).count x = (roots released).count x + (roots rest).count x :=
    fun x => by rw [hr.split, roots, List.map_append, List.count_append]; rfl
  rcases hr.stop with ⟨hok, rfl⟩ | ⟨c, forgotten, e, rfl, hroots, herror, -⟩
  · refine iff_of_true hok fun x => ?_
    rw [hcount]
    exact hr.unpinned.enough x
  · refine iff_of_false (fun hok => by rw [herror] at hok; cases hok) fun hall => ?_
    have hnext : 0 < (roots (c :: forgotten)).count c.trie.root :=
      List.count_pos_iff.2 List.mem_cons_self
    have hadd := hr.unpinned.roots_add c.trie.root
    have := hall c.trie.root
    have := hcount c.trie.root
    omega

end Released

/-- Releasing a registry forgets all caches.  It unpins the roots of the first of them, each
once for its cache, and changes nothing else in the heap.  Either these are all of them, or
the root of the next cache has no pin left, an error says so, and the caches after that one
keep theirs.  It succeeds just if every root has a pin for its cache. -/
theorem release_unpins (r : Registry) (h : Heap) : ∃ result released rest h',
    r.release h = (result, empty, h') ∧ Released r.toList h result released rest h' ∧
      (∀ x, h'.roots x + (roots released).count x = h.roots x) ∧
      (result = .ok () ↔ ∀ x, (roots r.toList).count x ≤ h.roots x) := by
  obtain ⟨result, released, rest, h', hrun, hr⟩ := releaseEach_spec r.toList h
  refine ⟨result, released, rest, h', ?_, hr, hr.unpinned.roots_add, hr.ok_iff⟩
  rw [release, hrun]

/-- Two caches are made, and the root of the first of them is unpinned. -/
def firstUnpinned : Registry × Heap :=
  let (_, r, h) := empty.getOrCreate ⟨0⟩ 0 Heap.empty
  let (_, r, h) := r.getOrCreate ⟨1⟩ 0 h
  (r, (Heap.unroot ⟨0⟩ h).2)

/-- Releasing these two forgets the second one with its root pinned: it is listed no more,
and its root has the pin that it had. -/
theorem leaked_firstUnpinned : ¬ ∀ (r : Registry) (h : Heap), ∀ c ∈ r.toList,
    c ∉ (r.release h).2.1.toList → 0 < h.roots c.trie.root →
      (r.release h).2.2.roots c.trie.root < h.roots c.trie.root := by
  intro hall
  have hmem : ⟨⟨⟨1⟩, 0, ⟨1⟩⟩, .zero⟩ ∈ firstUnpinned.1.toList := by decide
  have hforgotten : ⟨⟨⟨1⟩, 0, ⟨1⟩⟩, .zero⟩ ∉
      (firstUnpinned.1.release firstUnpinned.2).2.1.toList := by decide
  have hpinned : firstUnpinned.2.roots ⟨1⟩ = 1 := by decide
  have hleft : (firstUnpinned.1.release firstUnpinned.2).2.2.roots ⟨1⟩ = 1 := by decide
  have hless := hall _ _ _ hmem hforgotten (by rw [hpinned]; exact Nat.one_pos)
  rw [hpinned, hleft] at hless
  exact Nat.lt_irrefl _ hless

end Registry

end ClosureCache
