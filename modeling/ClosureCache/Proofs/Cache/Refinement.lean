/-
A cache is a finite map.

`Model` is the map: closures by path, where a path is a key in which objects and
cells are told apart by their identity alone.  `Run` is every way in which a cache
and the heap around it can come about, and carries the model along: an insertion
adds an entry where there is none, a miss adds the closure that was built, a
collection takes away the entries one of whose objects it sweeps, and compaction and
the changes of others take away nothing.

`Run.refines` is the refinement: in every run the operations of the cache answer as
the model says.  The invariant is `Represents`: the trie is proper, and finds under
every path what the model holds there.
-/
import ClosureCache.Cache.Basic
import ClosureCache.Proofs.Key
import ClosureCache.Proofs.Cache.Census
import ClosureCache.Proofs.Cache.Compaction
import ClosureCache.Proofs.Cache.Insertion
import ClosureCache.Proofs.Cache.SparedObjects
import ClosureCache.Proofs.Cache.Survival

namespace ClosureCache

/-! ## Order on edges

Primitives come first and then objects; both in their own order. -/

namespace Edge

def rank : Edge → Nat
  | primitive _ => 0
  | object _ => 1

/-- The primitive of an edge, and `undefined` for an object. -/
def primitivePart : Edge → Primitive
  | primitive p => p
  | object _ => .undefined

/-- The object of an edge, and the first object for a primitive. -/
def objectPart : Edge → ObjectId
  | primitive _ => ⟨0⟩
  | object id => id

def order : Edge → Edge → Ordering :=
  compareLex (compareOn rank) (compareLex (compareOn primitivePart) (compareOn objectPart))

instance : Ord Edge := ⟨order⟩

instance : Std.TransOrd Edge :=
  inferInstanceAs (Std.TransCmp (compareLex (compareOn rank)
    (compareLex (compareOn primitivePart) (compareOn objectPart))))

theorem order_eq_eq_iff {c d : Edge} : order c d = .eq ↔ c = d := by
  simp only [order, compareLex_eq_eq, compareOn, Std.compare_eq_iff_eq]
  constructor
  · cases c <;> cases d <;> simp_all [rank, primitivePart, objectPart]
  · rintro rfl
    simp

instance : Std.LawfulEqOrd Edge where
  compare_self := order_eq_eq_iff.2 rfl
  eq_of_compare h := order_eq_eq_iff.1 h

end Edge

namespace Cache

/-! ## The model -/

/-- The map that a cache stands for: closures by path. -/
abbrev Model := SortedMap (List Edge) ObjectId

namespace Model

/-- Adds an entry unless there is one. -/
def add (m : Model) (q : List Edge) (f : ObjectId) : Model :=
  if (m.get? q).isSome then m else m.insert q f

/-- The entries that a collection leaves: those none of whose objects are swept. -/
def surviving (m : Model) (h h' : Heap) : Model :=
  m.filterKeys (Trie.keptPath fun id => !(h.contains id && !h'.contains id))

theorem get?_add (m : Model) (q : List Edge) (f : ObjectId) (r : List Edge) :
    (m.add q f).get? r = if r = q then some ((m.get? q).getD f) else m.get? r := by
  rw [add]
  cases hq : m.get? q with
  | some g =>
    rw [if_pos (by simp)]
    split
    · next hr => rw [hr, hq]; rfl
    · rfl
  | none =>
    rw [if_neg (by simp), SortedMap.get?_insert]
    by_cases hr : r = q
    · rw [if_pos (Std.compare_eq_iff_eq.2 hr), if_pos hr]
      rfl
    · rw [if_neg (fun e => hr (Std.compare_eq_iff_eq.1 e)), if_neg hr]

end Model

/-! ## Runs -/

/-- What others do to the heap between two steps of a cache, or while a closure is
built, and what becomes of the model. -/
inductive Outside (t : Trie) : Heap → Model → Heap → Model → Prop where
  | refl (h : Heap) (m : Model) : Outside t h m h m
  /-- A change that neither writes nor unpins an object of the trie. -/
  | change {h h₁ h₂ : Heap} {m m₁ : Model} : Outside t h m h₁ m₁ → h₁.Spares (t.Owns h₁) h₂ →
    Outside t h m h₂ m₁
  | collect {h h₁ h₂ : Heap} {m m₁ : Model} {stats : CollectionStats} :
    Outside t h m h₁ m₁ → h₁.collect? = some (stats, h₂) →
    Outside t h m h₂ (m₁.surviving h₁ h₂)

/-- Every operation of the heap is open to others, on objects outside the trie. -/
theorem Outside.op {t : Trie} {h h₁ : Heap} {m m₁ : Model} (ho : Outside t h m h₁ m₁) (op : HeapOp)
    (htarget : ∀ x, op.target? = some x → ¬ t.Owns h₁ x) : Outside t h m (op.perform h₁) m₁ :=
  ho.change (op.spares h₁ htarget)

/-- The heaps and caches that can come about, with the map that the cache then
stands for.  Looking up and counting change nothing and are no steps. -/
inductive Run : Heap → Cache → Model → Prop where
  | create {h h' : Heap} {c : Cache} {site : SiteId} {arity : Nat} :
    Cache.create site arity h = (.ok c, h') → Run h' c ∅
  | outside {h h' : Heap} {c : Cache} {m m' : Model} :
    Run h c m → Outside c.trie h m h' m' → Run h' c m'
  | insert {h h' : Heap} {c c' : Cache} {m : Model} {key : Key} {f g : ObjectId} :
    Run h c m → c.insert key f h = (.ok g, c', h') → Run h' c' (m.add key.path f)
  | insertRefused {h h' : Heap} {c c' : Cache} {m : Model} {key : Key} {f : ObjectId}
    {e : CacheError} : Run h c m → c.insert key f h = (.error e, c', h') → Run h' c' m
  | hit {ε : Type} {h h' : Heap} {c c' : Cache} {m : Model} {key : Key} {wrap : CacheError → ε}
    {build : HeapM ε ObjectId} {f : ObjectId} :
    Run h c m → c.getOrInsertWith key wrap build h = (.ok (f, .hit), c', h') → Run h' c' m
  /-- On a miss the closure is built first, and what was built is then inserted. -/
  | miss {ε : Type} {h h₁ h' : Heap} {c c' : Cache} {m m₁ : Model} {key : Key}
    {wrap : CacheError → ε} {build : HeapM ε ObjectId} {f g : ObjectId} :
    Run h c m → build h = (.ok g, h₁) → Outside c.trie h m h₁ m₁ →
    c.getOrInsertWith key wrap build h = (.ok (f, .miss), c', h') → Run h' c' (m₁.add key.path g)
  /-- A key of another length is refused before anything is built. -/
  | missRefused {ε : Type} {h h' : Heap} {c c' : Cache} {m : Model} {key : Key}
    {wrap : CacheError → ε} {build : HeapM ε ObjectId} {e : ε} :
    Run h c m → key.arity ≠ c.trie.arity →
    c.getOrInsertWith key wrap build h = (.error e, c', h') → Run h' c' m
  | buildFailed {ε : Type} {h h₁ h' : Heap} {c c' : Cache} {m m₁ : Model} {key : Key}
    {wrap : CacheError → ε} {build : HeapM ε ObjectId} {e e' : ε} :
    Run h c m → key.arity = c.trie.arity → build h = (.error e, h₁) → Outside c.trie h m h₁ m₁ →
    c.getOrInsertWith key wrap build h = (.error e', c', h') → Run h' c' m₁
  /-- The closure was built, but an object of the key is no longer in the heap. -/
  | keyGone {ε : Type} {h h₁ h' : Heap} {c c' : Cache} {m m₁ : Model} {key : Key}
    {wrap : CacheError → ε} {build : HeapM ε ObjectId} {g : ObjectId} {e : ε} :
    Run h c m → key.arity = c.trie.arity → build h = (.ok g, h₁) → Outside c.trie h m h₁ m₁ →
    (∃ id ∈ key.weakObjects, h₁.contains id = false) →
    c.getOrInsertWith key wrap build h = (.error e, c', h') → Run h' c' m₁
  | compact {h h' : Heap} {c c' : Cache} {m : Model} {r : Except (Stop CacheError) Nat} :
    Run h c m → c.compact h = (r, c', h') → Run h' c' m

/-! ## The invariant -/

/-- The trie is proper and finds under every path what the model holds there. -/
def Represents (t : Trie) (h : Heap) (m : Model) : Prop :=
  ∃ labels, t.Labelled h labels ∧ Trie.Below labels h.entries.size ∧
    ∀ q, h.find t.root q = m.get? q

theorem Represents.change {t : Trie} {h h' : Heap} {m : Model} (hr : Represents t h m)
    (hs : h.Spares (t.Owns h) h') : Represents t h' m := by
  obtain ⟨labels, hL, hB, hfind⟩ := hr
  obtain ⟨labels', hL', hsub⟩ := hL.restrict
  have hspare := hL'.spare (hs.weaken fun x ⟨p, hx, _⟩ => (hsub x p hx).2)
  refine ⟨labels', hspare.1, fun x p hx => ?_, fun q => ?_⟩
  · have := hB x p (hsub x p hx).1
    have := hs.size_le
    omega
  · rw [hspare.2 _ _ hL'.root, hfind]

theorem Represents.collect {t : Trie} {h h' : Heap} {m : Model} {stats : CollectionStats}
    (hr : Represents t h m) (hrun : h.collect? = some (stats, h')) :
    Represents t h' (m.surviving h h') := by
  obtain ⟨labels, hL, hB, hfind⟩ := hr
  obtain ⟨keep, hk⟩ := Heap.collected_of_collect? hrun
  obtain ⟨e, he, hpos⟩ := hL.pinned
  have hroot := (hk.keep_iff t.root).2 (.root he hpos)
  refine ⟨_, hL.collect hk, hB.collect hk, fun q => ?_⟩
  rw [hL.find_collect hk hL.root hroot, Model.surviving, SortedMap.get?_filterKeys, ← hfind]
  cases hq : h.find t.root q with
  | none => rw [ite_self, ite_self]
  | some f =>
    -- the objects of an entry are in the heap, so to be swept is not to be kept
    have hin := hL.contains_of_find hL.root hq
    have hsame : Trie.keptPath keep.contains q =
        Trie.keptPath (fun id => !(h.contains id && !h'.contains id)) q := by
      rw [Bool.eq_iff_iff, Trie.keptPath, Trie.keptPath, List.all_eq_true, List.all_eq_true]
      refine forall₂_congr fun c hc => ?_
      cases c with
      | primitive p => exact Iff.rfl
      | object id =>
        rw [Trie.keptEdge, Trie.keptEdge, hin id hc, Bool.true_and, Bool.not_not, hk.keep_iff,
          hk.contains_iff_reachable]
    rw [hsame]

theorem Represents.outside {t : Trie} {h h' : Heap} {m m' : Model} (hr : Represents t h m)
    (ho : Outside t h m h' m') : Represents t h' m' := by
  induction ho with
  | refl => exact hr
  | change _ hs ih => exact (ih hr).change hs
  | collect _ hrun ih => exact (ih hr).collect hrun

/-- Inserting adds an entry where there is none, and fails only where the key names an
object that is not in the heap. -/
theorem Represents.insert {t : Trie} {h : Heap} {m : Model} (hr : Represents t h m) {key : Key}
    (hkey : key.arity = t.arity) (f : ObjectId) :
    ∃ r h', t.insert key f h = (r, h') ∧
      ((∃ new, r = .ok ((m.get? key.path).getD f, new)) ∧ Represents t h' (m.add key.path f) ∨
        (∃ id ∈ key.weakObjects, h.contains id = false) ∧ (∃ e, r = .error e) ∧
          Represents t h' m) := by
  obtain ⟨labels, hL, hB, hfind⟩ := hr
  obtain ⟨r, h', labels', hrun, hgrow, hend⟩ := hL.insert_spec hB hkey f
  refine ⟨r, h', hrun, ?_⟩
  have hsame : (∀ q, h'.find t.root q = h.find t.root q) → ∀ q, h'.find t.root q = m.get? q :=
    fun hq q => (hq q).trans (hfind q)
  cases hend with
  | held g hg hq =>
    rw [hfind] at hg
    refine .inl ⟨⟨false, by rw [hg]; rfl⟩, labels', hgrow.labelled, hgrow.below, fun q => ?_⟩
    rw [hsame hq, Model.add, if_pos (by rw [hg]; rfl)]
  | added hg hq =>
    rw [hfind] at hg
    refine .inl ⟨⟨true, by rw [hg]; rfl⟩, labels', hgrow.labelled, hgrow.below, fun q => ?_⟩
    rw [hq, Model.get?_add, hg, hfind]
    rfl
  | refused id hid hnot hq =>
    refine .inr ⟨⟨id, Key.object_mem_path.1 hid, ?_⟩, ⟨_, rfl⟩, labels', hgrow.labelled,
      hgrow.below,
      hsame hq⟩
    cases hin : h.contains id with
    | false => rfl
    | true => exact absurd (hgrow.frame.mono id hin) (by simp [hnot])

theorem Represents.compact {t : Trie} {h : Heap} {m : Model} (hr : Represents t h m) :
    ∃ n h', t.compact h = (.ok n, h') ∧ Represents t h' m := by
  obtain ⟨labels, hL, hB, hfind⟩ := hr
  obtain ⟨n, h', hrun, hprune⟩ := hL.compact_spec
  exact ⟨n, h', hrun, labels, hprune.labelled, hprune.size ▸ hB, fun q =>
    (hprune.find _ _ hL.root q).trans (hfind q)⟩

theorem Represents.lookup {t : Trie} {h : Heap} {m : Model} (hr : Represents t h m) {key : Key}
    (hkey : key.arity = t.arity) : t.lookup key h = .ok (m.get? key.path) := by
  obtain ⟨labels, hL, -, hfind⟩ := hr
  rw [hL.lookup_eq hkey, hfind]

/-! ## The steps of a cache -/

section Steps

variable {c c' : Cache} {h h' : Heap} {m : Model} {key : Key}

@[simp] theorem trie_count (c : Cache) (f : CacheStats → CacheStats) : (c.count f).trie = c.trie :=
  rfl

/-- Inserting into a cache is inserting into its trie. -/
theorem insert_eq (c : Cache) (key : Key) (f : ObjectId) (h : Heap) :
    (c.insert key f h).1 = (c.trie.insert key f h).1.map Prod.fst ∧
      (c.insert key f h).2.1.trie = c.trie ∧
      (c.insert key f h).2.2 = (c.trie.insert key f h).2 := by
  rw [Cache.insert]
  split
  · next heq => simp [heq, Except.map]
  · next heq => simp [heq, Except.map]
  · next heq => simp [heq, Except.map]

theorem trie_heap_of_insert {f : ObjectId} {r : Except CacheError ObjectId}
    (hrun : c.insert key f h = (r, c', h')) :
    c'.trie = c.trie ∧ h' = (c.trie.insert key f h).2 := by
  obtain ⟨-, htrie, hheap⟩ := insert_eq c key f h
  rw [hrun] at htrie hheap
  exact ⟨htrie, hheap⟩

theorem Represents.insert_ok (hr : Represents c.trie h m) {f g : ObjectId}
    (hrun : c.insert key f h = (.ok g, c', h')) :
    c'.trie = c.trie ∧ Represents c'.trie h' (m.add key.path f) ∧
      g = (m.get? key.path).getD f := by
  obtain ⟨hresult, htrie, hheap⟩ := insert_eq c key f h
  rw [hrun] at hresult htrie hheap
  by_cases hkey : key.arity = c.trie.arity
  · obtain ⟨r, h₁, hins, ⟨⟨new, rfl⟩, hrep⟩ | ⟨-, ⟨e, rfl⟩, -⟩⟩ := hr.insert hkey f
    · rw [hins] at hheap hresult
      obtain rfl : h' = h₁ := hheap
      exact ⟨htrie, (show c'.trie = c.trie from htrie) ▸ hrep, Except.ok.inj hresult⟩
    · rw [hins] at hresult
      exact absurd hresult (by simp [Except.map])
  · rw [Trie.insert_of_arity_ne hkey] at hresult
    exact absurd hresult (by simp [Except.map])

theorem Represents.insert_error (hr : Represents c.trie h m) {f : ObjectId} {e : CacheError}
    (hrun : c.insert key f h = (.error e, c', h')) :
    c'.trie = c.trie ∧ Represents c'.trie h' m := by
  obtain ⟨hresult, htrie, hheap⟩ := insert_eq c key f h
  rw [hrun] at hresult htrie hheap
  refine ⟨htrie, ?_⟩
  rw [show c'.trie = c.trie from htrie]
  by_cases hkey : key.arity = c.trie.arity
  · obtain ⟨r, h₁, hins, ⟨⟨new, rfl⟩, -⟩ | ⟨-, -, hrep⟩⟩ := hr.insert hkey f
    · rw [hins] at hresult
      exact absurd hresult (by simp [Except.map])
    · rw [hins] at hheap
      exact (show h' = h₁ from hheap) ▸ hrep
  · rw [Trie.insert_of_arity_ne hkey] at hheap
    exact (show h' = h from hheap) ▸ hr

/-- Where the objects of the key are in the heap, an insertion succeeds. -/
theorem Represents.insert_answer (hr : Represents c.trie h m) (hkey : key.arity = c.trie.arity)
    (hin : ∀ id ∈ key.weakObjects, h.contains id = true) (f : ObjectId) :
    (c.insert key f h).1 = .ok ((m.get? key.path).getD f) := by
  obtain ⟨r, h', hins, ⟨⟨new, rfl⟩, -⟩ | ⟨⟨id, hid, hnot⟩, -⟩⟩ := hr.insert hkey f
  · rw [(insert_eq c key f h).1, hins]
    rfl
  · exact absurd (hin id hid) (by simp [hnot])

theorem lookup_of_arity_ne {t : Trie} (hkey : key.arity ≠ t.arity) (h : Heap) :
    t.lookup key h = .error (.arityMismatch t.site t.arity key.arity) := by
  rw [Trie.lookup, Trie.checkArity, if_neg hkey]

variable {ε : Type} {wrap : CacheError → ε} {build : HeapM ε ObjectId}

/-- A hit is reported exactly when the model has the key, with the closure that the
model holds. -/
theorem Represents.hit_iff (hr : Represents c.trie h m) (hkey : key.arity = c.trie.arity)
    (f : ObjectId) : (c.getOrInsertWith key wrap build h).1 = .ok (f, .hit) ↔
      m.get? key.path = some f := by
  rw [getOrInsertWith, hr.lookup hkey]
  cases hm : m.get? key.path with
  | some g => simp
  | none =>
    simp only [reduceCtorEq, iff_false]
    split
    · simp
    · split <;> simp

theorem Represents.hit (hr : Represents c.trie h m) {f : ObjectId}
    (hrun : c.getOrInsertWith key wrap build h = (.ok (f, .hit), c', h')) :
    c'.trie = c.trie ∧ h' = h := by
  by_cases hkey : key.arity = c.trie.arity
  · have hm := (hr.hit_iff hkey f).1 (congrArg Prod.fst hrun)
    rw [getOrInsertWith, hr.lookup hkey, hm] at hrun
    obtain ⟨-, rfl, rfl⟩ := Prod.mk.inj hrun |>.imp_right Prod.mk.inj
    exact ⟨rfl, rfl⟩
  · rw [getOrInsertWith, lookup_of_arity_ne hkey] at hrun
    exact absurd (Prod.mk.inj hrun).1 (by simp)

section Miss

variable {h₁ : Heap} {m₁ : Model} {g : ObjectId}

/-- On a miss what was built is inserted where building has left the heap. -/
theorem Represents.miss {f : ObjectId} (hbuild : build h = (.ok g, h₁))
    (hr₁ : Represents c.trie h₁ m₁)
    (hrun : c.getOrInsertWith key wrap build h = (.ok (f, .miss), c', h')) :
    c'.trie = c.trie ∧ Represents c'.trie h' (m₁.add key.path g) := by
  rw [getOrInsertWith, hbuild] at hrun
  split at hrun
  · exact absurd (Prod.mk.inj hrun).1 (by simp)
  · exact absurd (Prod.mk.inj hrun).1 (by simp)
  · dsimp only at hrun
    split at hrun
    · exact absurd (Prod.mk.inj hrun).1 (by simp)
    · next stored c₁ h₂ hins =>
      obtain ⟨-, hrun⟩ := Prod.mk.inj hrun
      obtain ⟨rfl, rfl⟩ := Prod.mk.inj hrun
      obtain ⟨htrie, hrep, -⟩ := Represents.insert_ok (by simpa using hr₁) hins
      exact ⟨htrie, hrep⟩

/-- Where the model has no entry and the key can be held, the call reports a miss and
answers with what the map then holds: what was built, unless building has itself come to
an entry. -/
theorem Represents.miss_answer (hr : Represents c.trie h m) (hkey : key.arity = c.trie.arity)
    (hnone : m.get? key.path = none) (hbuild : build h = (.ok g, h₁))
    (hr₁ : Represents c.trie h₁ m₁) (hin : ∀ id ∈ key.weakObjects, h₁.contains id = true) :
    (c.getOrInsertWith key wrap build h).1 = .ok ((m₁.get? key.path).getD g, .miss) := by
  rw [getOrInsertWith, hr.lookup hkey, hnone, hbuild]
  dsimp only
  have hcount := (trie_count c fun s => { s with misses := s.misses + 1 }).symm
  have hinsert := Represents.insert_answer (hcount ▸ hr₁) (hcount ▸ hkey) hin g
  split
  · next heq =>
    rw [heq] at hinsert
    cases hinsert
  · next heq =>
    rw [heq] at hinsert
    rw [Except.ok.inj hinsert]

end Miss

/-- A call that fails leaves what building has left. -/
theorem Represents.missFailed (hr : Represents c.trie h m) (hkey : key.arity = c.trie.arity)
    {e : ε} {m₁ : Model} (hr₁ : Represents c.trie (build h).2 m₁)
    (hrun : c.getOrInsertWith key wrap build h = (.error e, c', h')) :
    c'.trie = c.trie ∧ Represents c'.trie h' m₁ := by
  rw [getOrInsertWith, hr.lookup hkey] at hrun
  split at hrun
  · next heq => exact absurd heq (by simp)
  · exact absurd (Prod.mk.inj hrun).1 (by simp)
  · split at hrun
    · next e h₁ hbuild =>
      rw [hbuild] at hr₁
      obtain ⟨-, hrun⟩ := Prod.mk.inj hrun
      obtain ⟨rfl, rfl⟩ := Prod.mk.inj hrun
      exact ⟨rfl, hr₁⟩
    · next built h₁ hbuild =>
      rw [hbuild] at hr₁
      dsimp only at hrun
      split at hrun
      · next e c₁ h₂ hins =>
        obtain ⟨-, hrun⟩ := Prod.mk.inj hrun
        obtain ⟨rfl, rfl⟩ := Prod.mk.inj hrun
        obtain ⟨htrie, hrep⟩ := Represents.insert_error (by simpa using hr₁) hins
        exact ⟨htrie, hrep⟩
      · exact absurd (Prod.mk.inj hrun).1 (by simp)

theorem getOrInsertWith_of_arity_ne (hkey : key.arity ≠ c.trie.arity)
    {r : Except ε (ObjectId × CacheOutcome)}
    (hrun : c.getOrInsertWith key wrap build h = (r, c', h')) : c' = c ∧ h' = h := by
  rw [getOrInsertWith, lookup_of_arity_ne hkey] at hrun
  obtain ⟨-, hrun⟩ := Prod.mk.inj hrun
  obtain ⟨rfl, rfl⟩ := Prod.mk.inj hrun
  exact ⟨rfl, rfl⟩

theorem compact_eq (c : Cache) (h : Heap) :
    (c.compact h).1 = (c.trie.compact h).1 ∧ (c.compact h).2.1.trie = c.trie ∧
      (c.compact h).2.2 = (c.trie.compact h).2 := by
  rw [Cache.compact]
  split
  · next heq => simp [heq]
  · next heq => simp [heq]

theorem trie_heap_of_compact {r : Except (Stop CacheError) Nat}
    (hrun : c.compact h = (r, c', h')) : c'.trie = c.trie ∧ h' = (c.trie.compact h).2 := by
  obtain ⟨-, htrie, hheap⟩ := compact_eq c h
  rw [hrun] at htrie hheap
  exact ⟨htrie, hheap⟩

end Steps

/-- In every run the trie represents the model. -/
theorem Run.represents {h : Heap} {c : Cache} {m : Model} (hrun : Run h c m) :
    Represents c.trie h m := by
  induction hrun with
  | @create h h' c site arity hcreate =>
    have hnone : Trie.Below (fun _ => none) h.entries.size := fun x p hx => absurd hx (by simp)
    obtain ⟨h₁, t, hnew, -, hL, hB, -, hfind, -⟩ := Trie.create_spec hnone site arity
    rw [Cache.create, HeapM.bind_of_ok hnew] at hcreate
    obtain ⟨hc, rfl⟩ := Prod.mk.inj hcreate
    obtain rfl := Except.ok.inj hc
    exact ⟨_, hL, hB, hfind⟩
  | outside _ ho ih => exact ih.outside ho
  | insert _ hins ih => exact (ih.insert_ok hins).2.1
  | insertRefused _ hins ih => exact (ih.insert_error hins).2
  | hit _ hget ih =>
    obtain ⟨htrie, rfl⟩ := ih.hit hget
    exact htrie ▸ ih
  | miss _ hbuild ho hget ih => exact (Represents.miss hbuild (ih.outside ho) hget).2
  | missRefused _ hkey hget ih =>
    obtain ⟨rfl, rfl⟩ := getOrInsertWith_of_arity_ne hkey hget
    exact ih
  | buildFailed _ hkey hbuild ho hget ih =>
    exact (ih.missFailed hkey (hbuild ▸ ih.outside ho) hget).2
  | keyGone _ hkey hbuild ho _ hget ih =>
    exact (ih.missFailed hkey (hbuild ▸ ih.outside ho) hget).2
  | compact _ hcompact ih =>
    obtain ⟨n, h₁, hrun, hrep⟩ := ih.compact
    obtain ⟨htrie, rfl⟩ := trie_heap_of_compact hcompact
    rw [htrie, hrun]
    exact hrep

/-- The operations of a cache answer as its model says. -/
structure Refines (h : Heap) (c : Cache) (m : Model) : Prop where
  lookup : ∀ key : Key, key.arity = c.trie.arity → c.trie.lookup key h = .ok (m.get? key.path)
  /-- The keys of the model have the arity of the cache. -/
  arity : ∀ q f, m.get? q = some f → q.length = c.trie.arity
  /-- An insertion whose key names only objects in the heap succeeds, and holds the
  closure that was held already or else the new one. -/
  insert : ∀ (key : Key) f, key.arity = c.trie.arity →
    (∀ id ∈ key.weakObjects, h.contains id = true) →
      (c.insert key f h).1 = .ok ((m.get? key.path).getD f)
  hit : ∀ {ε : Type} (key : Key) (wrap : CacheError → ε) (build : HeapM ε ObjectId) f,
    key.arity = c.trie.arity →
      ((c.getOrInsertWith key wrap build h).1 = .ok (f, .hit) ↔ m.get? key.path = some f)
  /-- On a miss the call succeeds if the closure can be built and the objects of the key
  are then in the heap, and answers with what the map then holds. -/
  miss : ∀ {ε : Type} (key : Key) (wrap : CacheError → ε) (build : HeapM ε ObjectId) g h₁ m₁,
    key.arity = c.trie.arity → m.get? key.path = none → build h = (.ok g, h₁) →
    Outside c.trie h m h₁ m₁ → (∀ id ∈ key.weakObjects, h₁.contains id = true) →
      (c.getOrInsertWith key wrap build h).1 = .ok ((m₁.get? key.path).getD g, .miss)
  compact : ∃ n, (c.compact h).1 = .ok n
  liveEntries : c.trie.liveEntries h = .ok m.size

/-- In every run a cache refines its model.  Keys take one path when they are the same but
for what tells a cell from an object, and the keys of one definition when they are equal. -/
theorem Run.refines {h : Heap} {c : Cache} {m : Model} (hrun : Run h c m) :
    Refines h c m ∧
      (∀ k k' : Key, k.path = k'.path ↔
        List.Forall₂ (fun a b => a = b ∨ a.isWeak = true ∧ a.object? = b.object?)
          k.components k'.components) ∧
      ∀ (spec : CaptureSpec) (live live' : LiveScope) (k k' : Key),
        spec.buildKey live = .ok k → spec.buildKey live' = .ok k' →
          (k.path = k'.path ↔ k = k') := by
  have hr := hrun.represents
  refine ⟨⟨fun key hkey => hr.lookup hkey, fun q f hq => ?_,
    fun key f hkey hin => hr.insert_answer hkey hin f,
    fun key wrap build f hkey => hr.hit_iff hkey f,
    fun key wrap build g h₁ m₁ hkey hnone hbuild ho hin =>
      hr.miss_answer hkey hnone hbuild (hr.outside ho) hin, ?_, ?_⟩,
    fun _ _ => Key.path_eq_iff, fun spec live live' k k' hk hk' => spec.key_eq_of_path_eq hk hk'⟩
  · obtain ⟨labels, hL, -, hfind⟩ := hr
    exact hL.length_of_find ((hfind q).trans hq)
  · obtain ⟨n, h', hcompact, -⟩ := hr.compact
    exact ⟨n, by rw [(compact_eq c h).1, hcompact]⟩
  · obtain ⟨labels, hL, -, hfind⟩ := hr
    obtain ⟨l, hlive, hlist⟩ := hL.liveEntries_spec
    rw [hlive,
      SortedMap.size_eq_length hlist.nodup fun q f => (hlist.mem q f).trans (by rw [hfind])]

/-- A closure is built and inserted under an object that nothing else holds on to, and a
collection takes the entry away. -/
theorem refines_of_collected :
    let build : HeapM CacheError ObjectId := fun h =>
      (.ok (h.allocate (.ordinary ∅)).1, (h.allocate (.ordinary ∅)).2)
    ∃ c₁ h₁ c₂ h₂ stats h₃,
      Cache.create ⟨0⟩ 1 (Heap.empty.allocate (.ordinary ∅)).2 = (.ok c₁, h₁) ∧
      c₁.getOrInsertWith ⟨[.objectRef ⟨0⟩]⟩ id build h₁ = (.ok (⟨2⟩, .miss), c₂, h₂) ∧
      h₂.collect? = some (stats, h₃) ∧
      Refines h₂ c₂ (Model.add ∅ [.object ⟨0⟩] ⟨2⟩) ∧ Refines h₃ c₂ ∅ := by
  intro build
  have hrefines : ∀ {c₁ h₁ c₂ h₂ stats h₃},
      Cache.create ⟨0⟩ 1 (Heap.empty.allocate (.ordinary ∅)).2 = (.ok c₁, h₁) →
      (build h₁).1 = .ok ⟨2⟩ →
      c₁.getOrInsertWith ⟨[.objectRef ⟨0⟩]⟩ id build h₁ = (.ok (⟨2⟩, .miss), c₂, h₂) →
      h₂.collect? = some (stats, h₃) →
      Model.surviving (Model.add ∅ [.object ⟨0⟩] ⟨2⟩) h₂ h₃ = ∅ →
      Refines h₂ c₂ (Model.add ∅ [.object ⟨0⟩] ⟨2⟩) ∧ Refines h₃ c₂ ∅ := by
    intro c₁ h₁ c₂ h₂ stats h₃ hcreate hbuild hget hcollect hempty
    have houtside : Outside c₁.trie h₁ ∅ (build h₁).2 ∅ :=
      (Outside.refl h₁ ∅).op (.allocate (.ordinary ∅)) fun x hx => by cases hx
    have hrun : Run h₂ c₂ (Model.add ∅ [.object ⟨0⟩] ⟨2⟩) :=
      .miss (.create hcreate) (Prod.ext hbuild rfl) houtside hget
    refine ⟨(Run.refines hrun).1, ?_⟩
    rw [← hempty]
    exact (Run.refines (hrun.outside (.collect (.refl h₂ _) hcollect))).1
  exact ⟨_, _, _, _, _, _, rfl, rfl, rfl, hrefines rfl rfl rfl rfl (by decide +kernel)⟩

end Cache
end ClosureCache
