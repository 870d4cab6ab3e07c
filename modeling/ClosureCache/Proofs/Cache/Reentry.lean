/-
Fetching a closure while building goes back to the same cache.

Between the lookup that misses and the insertion that follows, building may use the cache
under any key through copies of its handle, and may collect.  `Reentrant` is what it can
do.  None of this takes an association away whose objects are still there: that is
`Trie.Holds`, which every operation respects and which is passed on from one to the next
because swept objects do not come back.  The insertion at the end walks the trie afresh,
so it meets what building has left.
-/
import ClosureCache.Proofs.Cache.Consistency

namespace ClosureCache

namespace Trie

variable {t : Trie} {h h₁ h₂ : Heap}

/-! ## What is held on to -/

/-- A change that takes no association from a trie while the objects of its key are in
the heap, and brings no object back. -/
structure Holds (t : Trie) (h h₁ : Heap) : Prop where
  size_le : h.entries.size ≤ h₁.entries.size
  gone : ∀ x : ObjectId, x.index < h.entries.size → h₁.contains x = true → h.contains x = true
  find : ∀ q f, h.find t.root q = some f → (∀ id, .object id ∈ q → h₁.contains id = true) →
    h₁.find t.root q = some f

namespace Holds

theorem refl (t : Trie) (h : Heap) : t.Holds h h :=
  ⟨Nat.le_refl _, fun _ _ => id, fun _ _ hf _ => hf⟩

theorem trans (ht : t.Sound h) (a : t.Holds h h₁) (b : t.Holds h₁ h₂) : t.Holds h h₂ where
  size_le := Nat.le_trans a.size_le b.size_le
  gone x hx hin := a.gone x hx (b.gone x (Nat.lt_of_lt_of_le hx a.size_le) hin)
  find q f hf hin := by
    obtain ⟨labels, hL, -⟩ := ht
    -- an object of the path was there at first, so it was not gone in between
    refine b.find q f (a.find q f hf fun id hid => ?_) hin
    have hlt := Heap.lt_of_contains (hL.contains_of_find hL.root hf id hid)
    exact b.gone id (Nat.lt_of_lt_of_le hlt a.size_le) (hin id hid)

end Holds

namespace Sound

theorem holds_spares (ht : t.Sound h) (hs : h.Spares (t.Owns h) h₁) : t.Holds h h₁ where
  size_le := hs.size_le
  gone x hx hin := by rwa [hs.contains x hx] at hin
  find q f hf _ := by
    rw [ht.find_eq fun x hx => hs.object_eq hx (ht.contains hx)]
    exact hf

theorem holds_collect {stats : CollectionStats} (ht : t.Sound h)
    (hrun : h.collect? = some (stats, h₁)) : t.Holds h h₁ := by
  obtain ⟨labels, hL, -⟩ := ht
  obtain ⟨keep, hk⟩ := Heap.collected_of_collect? hrun
  obtain ⟨e, he, hpos⟩ := hL.pinned
  have hroot := (hk.keep_iff t.root).2 (.root he hpos)
  refine ⟨Nat.le_of_eq hk.size.symm, fun x _ hx => ((hk.contains_iff_reachable x).1 hx).contains,
    fun q f hf hin => ?_⟩
  rw [hL.find_collect hk hL.root hroot, if_pos (keptPath_of_collected hk hin), hf]

theorem holds_insert (ht : t.Sound h) (key : Key) (f : ObjectId) :
    t.Holds h (t.insert key f h).2 := by
  obtain ⟨labels, hL, hB⟩ := ht
  by_cases hkey : key.arity = t.arity
  · obtain ⟨r, h₁, labels₁, hrun, hgrow, hend⟩ := hL.insert_spec hB hkey f
    rw [hrun]
    refine ⟨hgrow.frame.size_le, fun x hx hin => by rwa [hgrow.frame.contains_eq hx] at hin,
      fun q g hg _ => ?_⟩
    cases hend with
    | held _ _ hfind => rw [hfind, hg]
    | added hnone hfind =>
      rw [hfind, if_neg, hg]
      rintro rfl
      rw [hnone] at hg
      cases hg
    | refused _ _ _ hfind => rw [hfind, hg]
  · rw [insert_of_arity_ne hkey]
    exact .refl t h

theorem holds_compact (ht : t.Sound h) : t.Holds h (t.compact h).2 := by
  obtain ⟨labels, hL, -⟩ := ht
  obtain ⟨n, h₁, hrun, hprune⟩ := hL.compact_spec
  rw [hrun]
  exact ⟨Nat.le_of_eq hprune.size.symm,
    fun x hx hin => by rwa [hprune.frame.contains_eq hx] at hin,
    fun q f hf _ => by rw [hprune.find _ _ hL.root, hf]⟩

theorem lookup_eq_some_iff (ht : t.Sound h) {key : Key} {f : ObjectId} :
    t.lookup key h = .ok (some f) ↔ key.arity = t.arity ∧ h.find t.root key.path = some f := by
  obtain ⟨labels, hL, -⟩ := ht
  by_cases hkey : key.arity = t.arity
  · rw [hL.lookup_eq hkey, Except.ok.injEq, and_iff_right hkey]
  · rw [Cache.lookup_of_arity_ne hkey]
    simp [hkey]

/-- The closure that an insertion returns is found afterwards. -/
theorem find_of_insert (ht : t.Sound h) {key : Key} (hkey : key.arity = t.arity) {f g : ObjectId}
    {new : Bool} (hrun : (t.insert key f h).1 = .ok (g, new)) :
    (t.insert key f h).2.find t.root key.path = some g := by
  obtain ⟨labels, hL, hB⟩ := ht
  obtain ⟨r, h₁, labels₁, hins, -, hend⟩ := hL.insert_spec hB hkey f
  rw [hins] at hrun ⊢
  obtain rfl : r = _ := hrun
  cases hend with
  | held _ hg hfind => rw [hfind, hg]
  | added _ hfind => rw [hfind, if_pos rfl]

/-- The closure that is held under a key is not replaced. -/
theorem insert_of_held (ht : t.Sound h) {key : Key} (hkey : key.arity = t.arity) {f g : ObjectId}
    (hg : h.find t.root key.path = some g) : (t.insert key f h).1 = .ok (g, false) := by
  obtain ⟨labels, hL, hB⟩ := ht
  obtain ⟨r, h₁, labels₁, hins, hgrow, hend⟩ := hL.insert_spec hB hkey f
  rw [hins]
  cases hend with
  | held g' hg' _ => rw [Option.some.inj (hg.symm.trans hg')]
  | added hnone _ =>
    rw [hnone] at hg
    cases hg
  | refused id hid hnot _ =>
    have hin := hgrow.frame.mono id (hL.contains_of_find hL.root hg id hid)
    rw [hnot] at hin
    cases hin

end Sound

end Trie

namespace Cache

/-! ## Going back to the cache -/

/-- What can be done to the heap by those who hold a copy of a cache with the given trie:
they may use the copy, collect, and do what spares the trie. -/
inductive Reentrant (t : Trie) : Heap → Heap → Prop where
  | refl (h : Heap) : Reentrant t h h
  | outside {h h₁ h₂ : Heap} : Reentrant t h h₁ → h₁.Spares (t.Owns h₁) h₂ → Reentrant t h h₂
  | collect {h h₁ h₂ : Heap} {stats : CollectionStats} :
    Reentrant t h h₁ → h₁.collect? = some (stats, h₂) → Reentrant t h h₂
  | insert {h h₁ h₂ : Heap} {c c' : Cache} {key : Key} {f : ObjectId}
    {r : Except CacheError ObjectId} :
    Reentrant t h h₁ → c.trie = t → c.insert key f h₁ = (r, c', h₂) → Reentrant t h h₂
  /-- Building may go back to the cache in turn. -/
  | getOrInsertWith {ε : Type} {h h₁ h₂ : Heap} {c c' : Cache} {key : Key}
    {wrap : CacheError → ε} {build : HeapM ε ObjectId} {r : Except ε (ObjectId × CacheOutcome)} :
    Reentrant t h h₁ → c.trie = t →
    (t.lookup key h₁ = .ok none → Reentrant t h₁ (build h₁).2) →
    c.getOrInsertWith key wrap build h₁ = (r, c', h₂) → Reentrant t h h₂
  | compact {h h₁ h₂ : Heap} {c c' : Cache} {r : Except (Stop CacheError) Nat} :
    Reentrant t h h₁ → c.trie = t → c.compact h₁ = (r, c', h₂) → Reentrant t h h₂

/-- Every operation of the heap is open to them, on objects outside the trie. -/
theorem Reentrant.op {t : Trie} {h h₁ : Heap} (hr : Reentrant t h h₁) (op : HeapOp)
    (htarget : ∀ x, op.target? = some x → ¬ t.Owns h₁ x) : Reentrant t h (op.perform h₁) :=
  hr.outside (op.spares h₁ htarget)

/-- Whatever is done, the trie stays sound and holds on to its associations. -/
theorem Reentrant.holds {t : Trie} {h h' : Heap} (hr : Reentrant t h h') (ht : t.Sound h) :
    t.Sound h' ∧ t.Holds h h' := by
  -- each step is made in a sound state, so the steps add up
  have hstep : ∀ {h h₁ h₂}, t.Sound h → t.Sound h₁ ∧ t.Holds h h₁ →
      (t.Sound h₁ → t.Sound h₂ ∧ t.Holds h₁ h₂) → t.Sound h₂ ∧ t.Holds h h₂ :=
    fun ht a b => ⟨(b a.1).1, a.2.trans ht (b a.1).2⟩
  induction hr with
  | refl => exact ⟨ht, .refl t _⟩
  | outside _ hs ih =>
    exact hstep ht (ih ht) fun ht₁ =>
      ⟨ht₁.spared (Trie.spared_of_spares hs fun _ => ht₁.contains), ht₁.holds_spares hs⟩
  | collect _ hrun ih =>
    exact hstep ht (ih ht) fun ht₁ => ⟨ht₁.collect hrun, ht₁.holds_collect hrun⟩
  | insert _ htrie hrun ih =>
    obtain ⟨-, rfl⟩ := trie_heap_of_insert hrun
    rw [htrie]
    exact hstep ht (ih ht) fun ht₁ => ⟨ht₁.insert _ _, ht₁.holds_insert _ _⟩
  | getOrInsertWith _ htrie _ hrun ih ihbuild =>
    refine hstep ht (ih ht) fun ht₁ => ?_
    cases (fetched_of_run hrun).1 with
    | refused => exact ⟨ht₁, .refl t _⟩
    | hit => exact ⟨ht₁, .refl t _⟩
    | unbuilt e hlookup _ => exact ihbuild (htrie ▸ hlookup) ht₁
    | built f hlookup _ =>
      rw [htrie] at hlookup ⊢
      exact hstep ht₁ (ihbuild hlookup ht₁) fun ht₂ => ⟨ht₂.insert _ f, ht₂.holds_insert _ f⟩
  | compact _ htrie hrun ih =>
    obtain ⟨-, rfl⟩ := trie_heap_of_compact hrun
    rw [htrie]
    refine hstep ht (ih ht) fun ht₁ => ⟨?_, ht₁.holds_compact⟩
    obtain ⟨n, h₂, hcompact, hsound⟩ := ht₁.compact
    rw [hcompact]
    exact hsound

/-- A key keeps one closure, whatever building does with the cache: the closure that is
returned is the one that is held, one that building has brought about comes first, and
no association that was there is lost or replaced while its objects are in the heap. -/
theorem Standing.reentrant {ε : Type} {c c' : Cache} {h h' : Heap} {key : Key}
    {wrap : CacheError → ε} {build : HeapM ε ObjectId} {r : Except ε (ObjectId × CacheOutcome)}
    (hc : Standing c h) (hbuild : c.trie.lookup key h = .ok none → Reentrant c.trie h (build h).2)
    (hrun : c.getOrInsertWith key wrap build h = (r, c', h')) :
    (∀ f outcome, r = .ok (f, outcome) → c'.trie.lookup key h' = .ok (some f)) ∧
      (∀ f g, c.trie.lookup key h = .ok none → (build h).1 = .ok f →
        c.trie.lookup key (build h).2 = .ok (some g) →
          r = .ok (g, .miss) ∧ c'.trie.lookup key h' = .ok (some g) ∧ c'.stats =
            { c.stats with
              misses := c.stats.misses + 1
              discarded := c.stats.discarded + 1 }) ∧
      ∀ k f, c.trie.lookup k h = .ok (some f) →
        (∀ id ∈ k.weakObjects, h'.contains id = true) → c'.trie.lookup k h' = .ok (some f) := by
  have hall : Reentrant c.trie h h' := .getOrInsertWith (.refl h) rfl hbuild hrun
  obtain ⟨hsound', hholds⟩ := hall.holds hc.sound
  obtain ⟨hfetched, htrie⟩ := fetched_of_run hrun
  have hkey : ∀ {g}, c.trie.lookup key h = .ok g → key.arity = c.trie.arity := fun {g} hg => by
    by_contra hne
    rw [lookup_of_arity_ne hne] at hg
    cases hg
  have hreturned : ∀ f outcome, r = .ok (f, outcome) → c'.trie.lookup key h' = .ok (some f) := by
    intro f outcome hr
    rw [htrie]
    cases hfetched with
    | refused => cases hr
    | hit g hlookup =>
      obtain ⟨rfl, -⟩ := Prod.mk.inj (Except.ok.inj hr)
      exact hlookup
    | unbuilt => cases hr
    | built built hlookup _ =>
      have hbuilt := ((hbuild hlookup).holds hc.sound).1
      rw [hsound'.lookup_eq_some_iff]
      refine ⟨hkey hlookup, ?_⟩
      cases hins : (c.trie.insert key built (build h).2).1 with
      | error e =>
        rw [hins] at hr
        cases hr
      | ok stored =>
        rw [hins] at hr
        obtain ⟨rfl, -⟩ := Prod.mk.inj (Except.ok.inj hr)
        exact hbuilt.find_of_insert (hkey hlookup) hins
  refine ⟨hreturned, fun f g hlookup hbuilt hg => ?_, fun k f hf hin => ?_⟩
  · -- the insertion meets what building has brought about
    have hsound := ((hbuild hlookup).holds hc.sound).1
    have hins := hsound.insert_of_held (f := f) (hkey hlookup) (hsound.lookup_eq_some_iff.1 hg).2
    have hfound : r = .ok (g, .miss) ∧ c'.stats = { c.stats with
        misses := c.stats.misses + 1
        discarded := c.stats.discarded + 1 } := by
      have hbuilding : build h = (.ok f, (build h).2) := Prod.ext hbuilt rfl
      have hinsert : c.trie.insert key f (build h).2 =
          (.ok (g, false), (c.trie.insert key f (build h).2).2) := Prod.ext hins rfl
      rw [getOrInsertWith, hlookup, hbuilding] at hrun
      dsimp only at hrun
      rw [Cache.insert, trie_count, hinsert] at hrun
      obtain ⟨hr, hstate⟩ := Prod.mk.inj hrun
      obtain ⟨hcache, -⟩ := Prod.mk.inj hstate
      exact ⟨hr.symm, by rw [← hcache]; rfl⟩
    exact ⟨hfound.1, hreturned g _ hfound.1, hfound.2⟩
  · rw [htrie, hsound'.lookup_eq_some_iff]
    obtain ⟨hkey, hf⟩ := hc.sound.lookup_eq_some_iff.1 hf
    exact ⟨hkey, hholds.find _ f hf fun id hid => hin id (Key.object_mem_path.1 hid)⟩

/-- Builds an object after a closure has been inserted through a copy of a cache. -/
def insertThenBuild (c : Cache) (key : Key) (f : ObjectId) : HeapM CacheError ObjectId := fun h =>
  HeapM.change (fun h => h.allocate (.ordinary ∅)) (c.insert key f h).2.2

/-- What was inserted while building is returned and kept. -/
theorem reentrant_of_inserted :
    ∃ c₁ h₁ r c₂ h₂,
      Cache.create ⟨0⟩ 1 (Heap.empty.allocate (.ordinary ∅)).2 = (.ok c₁, h₁) ∧
      c₁.trie.lookup ⟨[.objectRef ⟨0⟩]⟩ h₁ = .ok none ∧
      (insertThenBuild c₁ ⟨[.objectRef ⟨0⟩]⟩ ⟨0⟩ h₁).1 = .ok ⟨4⟩ ∧
      c₁.getOrInsertWith ⟨[.objectRef ⟨0⟩]⟩ id (insertThenBuild c₁ ⟨[.objectRef ⟨0⟩]⟩ ⟨0⟩) h₁ =
        (r, c₂, h₂) ∧
      r = .ok (⟨0⟩, .miss) ∧ c₂.trie.lookup ⟨[.objectRef ⟨0⟩]⟩ h₂ = .ok (some ⟨0⟩) ∧
      c₂.stats.discarded = 1 := by
  have hkept : ∀ {c₁ h₁ r c₂ h₂},
      Cache.create ⟨0⟩ 1 (Heap.empty.allocate (.ordinary ∅)).2 = (.ok c₁, h₁) →
      c₁.trie.lookup ⟨[.objectRef ⟨0⟩]⟩ h₁ = .ok none →
      (insertThenBuild c₁ ⟨[.objectRef ⟨0⟩]⟩ ⟨0⟩ h₁).1 = .ok ⟨4⟩ →
      c₁.trie.lookup ⟨[.objectRef ⟨0⟩]⟩ (insertThenBuild c₁ ⟨[.objectRef ⟨0⟩]⟩ ⟨0⟩ h₁).2 =
        .ok (some ⟨0⟩) →
      c₁.getOrInsertWith ⟨[.objectRef ⟨0⟩]⟩ id (insertThenBuild c₁ ⟨[.objectRef ⟨0⟩]⟩ ⟨0⟩) h₁ =
        (r, c₂, h₂) → c₁.stats = .zero →
      r = .ok (⟨0⟩, .miss) ∧ c₂.trie.lookup ⟨[.objectRef ⟨0⟩]⟩ h₂ = .ok (some ⟨0⟩) ∧
        c₂.stats.discarded = 1 := by
    intro c₁ h₁ r c₂ h₂ hcreate hnone hbuilt hheld hget hzero
    have hreentrant := (Reached.create hcreate).standing.reentrant
      (fun _ => (Reentrant.insert (.refl h₁) rfl rfl).op (.allocate (.ordinary ∅)) fun x hx => by
        cases hx) hget
    obtain ⟨hr, hlookup, hstats⟩ := hreentrant.2.1 _ _ hnone hbuilt hheld
    refine ⟨hr, hlookup, ?_⟩
    rw [hstats, hzero]
    rfl
  exact ⟨_, _, _, _, _, rfl, rfl, rfl, rfl, hkept rfl rfl rfl rfl rfl rfl⟩

end Cache

end ClosureCache
