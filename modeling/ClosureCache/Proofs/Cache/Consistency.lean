/-
A trie that only its cache writes to stays a finite tree.

`Reached` is every state in which a cache and its heap can be found: after the
operations of the cache, failed ones included, after collections, and after whatever
others have done without writing an object of the trie or taking the last pin off its
root.  `Trie.IsTree` is the shape that the trie then has, and `Consistent` how the
operations answer there.  A cache in such a state never finds fault with its trie: it
refuses keys of another length and objects that are gone, and nothing else.

The invariant is `Trie.Sound`, a labelling that no object of the trie contradicts.
-/
import Mathlib.Data.Set.Finite.Basic
import Mathlib.Data.Set.Finite.Lattice
import ClosureCache.Proofs.Cache.Refinement

namespace ClosureCache

namespace Trie

/-! ## What others may do -/

/-- A change of the heap that writes no object of the trie and leaves its root pinned. -/
structure Spared (t : Trie) (h h' : Heap) : Prop where
  size_le : h.entries.size ≤ h'.entries.size
  mono : ∀ x, h.contains x = true → h'.contains x = true
  object : ∀ x, t.Owns h x → h'.object x = h.object x
  pinned : (∃ e, h.entry? t.root = some e ∧ 0 < e.roots) →
    ∃ e, h'.entry? t.root = some e ∧ 0 < e.roots

/-- Taking a pin off an object of the trie is no harm unless it is the last one of the
root. -/
theorem spared_unroot {t : Trie} {h : Heap} {x : ObjectId}
    (hx : x = t.root → ∃ e, h.entry? x = some e ∧ 2 ≤ e.roots) :
    t.Spared h (Heap.unroot x h).2 := by
  have hrefl : t.Spared h h := ⟨Nat.le_refl _, fun _ => id, fun _ _ => rfl, id⟩
  rw [Heap.unroot]
  split
  · exact hrefl
  · split
    · exact hrefl
    · refine ⟨by simp, fun y hy => ?_, fun y _ => ?_, fun hpin => ?_⟩
      · rwa [Heap.contains, Heap.entry?_modifyEntry, apply_ite Option.isSome, Option.isSome_map,
          ite_eq_right_iff.2 fun hyx => by rw [hyx]]
      · by_cases hyx : y = x
        · rw [Heap.object, Heap.object, Heap.entry?_modifyEntry, if_pos hyx, hyx]
          cases h.entry? x <;> rfl
        · rw [Heap.object, Heap.object, Heap.entry?_modifyEntry, if_neg hyx]
      · obtain ⟨e, he, hpos⟩ := hpin
        by_cases hroot : t.root = x
        · obtain ⟨e', he', hroots⟩ := hx hroot.symm
          refine ⟨_, by rw [Heap.entry?_modifyEntry, if_pos hroot, he']; rfl, ?_⟩
          show 0 < e'.roots - 1
          omega
        · exact ⟨e, by rw [Heap.entry?_modifyEntry, if_neg hroot, he], hpos⟩

theorem spared_of_spares {t : Trie} {h h' : Heap} (hs : h.Spares (t.Owns h) h')
    (hin : ∀ x, t.Owns h x → h.contains x = true) : t.Spared h h' where
  size_le := hs.size_le
  mono := hs.mono
  object x hx := hs.object_eq hx (hin x hx)
  pinned := hs.rooted .root

/-! ## The invariant -/

/-- Some labelling says of every object of the trie what it is. -/
def Sound (t : Trie) (h : Heap) : Prop :=
  ∃ labels, t.Labelled h labels ∧ Below labels h.entries.size

namespace Sound

variable {t : Trie} {h h' : Heap}

theorem spared (ht : t.Sound h) (hs : t.Spared h h') : t.Sound h' := by
  obtain ⟨labels, hL, hB⟩ := ht
  obtain ⟨labels', hL', hsub⟩ := hL.restrict
  refine ⟨labels', hL'.transfer (fun _ _ _ => Iff.rfl)
    (fun x p hx _ => hs.object x (hsub x p hx).2) (hs.pinned hL.pinned) hs.mono, fun x p hx => ?_⟩
  have := hB x p (hsub x p hx).1
  have := hs.size_le
  omega

theorem collect {stats : CollectionStats} (ht : t.Sound h)
    (hrun : h.collect? = some (stats, h')) : t.Sound h' := by
  obtain ⟨labels, hL, hB⟩ := ht
  obtain ⟨keep, hk⟩ := Heap.collected_of_collect? hrun
  exact ⟨_, hL.collect hk, hB.collect hk⟩

/-- A failed insertion leaves the nodes it has made, and a sound trie. -/
theorem insert (ht : t.Sound h) (key : Key) (f : ObjectId) : t.Sound (t.insert key f h).2 := by
  obtain ⟨labels, hL, hB⟩ := ht
  by_cases hkey : key.arity = t.arity
  · obtain ⟨r, h₁, labels₁, hrun, hgrow, -⟩ := hL.insert_spec hB hkey f
    rw [hrun]
    exact ⟨labels₁, hgrow.labelled, hgrow.below⟩
  · rw [insert_of_arity_ne hkey]
    exact ⟨labels, hL, hB⟩

theorem compact (ht : t.Sound h) : ∃ n h', t.compact h = (.ok n, h') ∧ t.Sound h' := by
  obtain ⟨labels, hL, hB⟩ := ht
  obtain ⟨n, h', hrun, hprune⟩ := hL.compact_spec
  exact ⟨n, h', hrun, labels, hprune.labelled, hprune.size ▸ hB⟩

theorem contains (ht : t.Sound h) {x : ObjectId} (hx : t.Owns h x) : h.contains x = true := by
  obtain ⟨labels, hL, -⟩ := ht
  obtain ⟨p, hp, hroot⟩ := hL.label_of_owns hx
  exact hL.contains hp hroot

/-- Where the objects of a trie are the same, one walks as before. -/
theorem walk_eq (ht : t.Sound h) (hobject : ∀ x, t.Owns h x → h'.object x = h.object x)
    (q : List Edge) : h'.walk t.root q = h.walk t.root q := by
  obtain ⟨labels, hL, -⟩ := ht
  obtain ⟨labels', hL', hsub⟩ := hL.restrict
  have hsame : ∀ x p, labels' x = some p → p.root = t.root → h'.object x = h.object x :=
    fun x p hx _ => hobject x (hsub x p hx).2
  exact hL'.walk_congr (fun z p c hz => hL'.child_transfer hsame hz c) hL'.root q

/-- Where the objects of a trie are the same, so is what is found. -/
theorem find_eq (ht : t.Sound h) (hobject : ∀ x, t.Owns h x → h'.object x = h.object x)
    (q : List Edge) : h'.find t.root q = h.find t.root q := by
  obtain ⟨labels, hL, -⟩ := ht
  obtain ⟨labels', hL', hsub⟩ := hL.restrict
  exact hL'.find_transfer (fun x p hx _ => hobject x (hsub x p hx).2) hL'.root q

/-- What is found determines how a sound trie answers. -/
theorem answers_congr (ht : t.Sound h) (ht' : t.Sound h')
    (hfind : ∀ q, h'.find t.root q = h.find t.root q) :
    (∀ key, t.lookup key h' = t.lookup key h) ∧ t.liveEntries h' = t.liveEntries h := by
  obtain ⟨labels, hL, -⟩ := ht
  obtain ⟨labels', hL', -⟩ := ht'
  refine ⟨fun key => ?_, hL.liveEntries_congr hL' hfind⟩
  by_cases hkey : key.arity = t.arity
  · rw [hL.lookup_eq hkey, hL'.lookup_eq hkey, hfind]
  · rw [Cache.lookup_of_arity_ne hkey, Cache.lookup_of_arity_ne hkey]

end Sound

/-! ## The shape of a sound trie -/

/-- The trie is a finite tree of nodes: tuples of three slots that lead to maps of
further nodes and, at depth equal to the arity, to closures. -/
structure IsTree (t : Trie) (h : Heap) : Prop where
  node : ∀ q x, h.walk t.root q = some x →
    h.object x = .ok (.node (h.linkAt x)) ∧ q.length ≤ t.arity
  map : ∀ q x s m, h.walk t.root q = some x → s ≠ .terminal → h.linkAt x s = some m →
    (∃ o, h.object m = .ok o ∧ o.Serves s) ∧ q.length < t.arity ∧
      ∀ c v, h.edgeAt m c = some v → ∃ y, v = .object y ∧ h.walk t.root (q ++ [c]) = some y
  terminal : ∀ q f, h.find t.root q = some f → q.length = t.arity
  /-- No node stands in two places. -/
  node_unique : ∀ q q' x, h.walk t.root q = some x → h.walk t.root q' = some x → q = q'
  /-- No map stands in two nodes, nor in two slots of one node. -/
  map_unique : ∀ q q' x x' s s' m, h.walk t.root q = some x → h.walk t.root q' = some x' →
    s ≠ .terminal → s' ≠ .terminal → h.linkAt x s = some m → h.linkAt x' s' = some m →
      q = q' ∧ s = s'
  finite : {q : List Edge | (h.walk t.root q).isSome}.Finite

namespace Labelled

variable {t : Trie} {h : Heap} {labels : Labels}

/-- A node that is not the root hangs in a map, and maps hang in nodes that are not
yet at full depth. -/
theorem length_le (hL : t.Labelled h labels) {q : List Edge} {x : ObjectId}
    (hx : h.walk t.root q = some x) : q.length ≤ t.arity := by
  rcases List.eq_nil_or_concat q with rfl | ⟨q, c, rfl⟩
  · exact Nat.zero_le _
  · rw [List.concat_eq_append] at hx ⊢
    rw [Heap.walk_concat, Option.bind_eq_some_iff] at hx
    obtain ⟨y, hy, hx⟩ := hx
    obtain ⟨m, hm, -⟩ := Heap.child_eq_some_iff.1 hx
    have hlabel := (hL.node y q (hL.label_of_walk hy)).map _ m c.slot_ne_terminal hm
    rw [List.length_append]
    exact (hL.map m q _ hlabel).short

theorem isTree (hL : t.Labelled h labels) : t.IsTree h where
  node q x hx := ⟨(hL.node x q (hL.label_of_walk hx)).isNode, hL.length_le hx⟩
  map q x s m hx hs hm := by
    have hlabel := (hL.node x q (hL.label_of_walk hx)).map s m hs hm
    have hmap := hL.map m q s hlabel
    refine ⟨hmap.serves, hmap.short, fun c v hv => ?_⟩
    obtain ⟨y, rfl, -, hy⟩ := hL.child_of_edge (hL.label_of_walk hx) hs hm hv
    exact ⟨y, rfl, by rw [Heap.walk_concat, hx, Option.bind_some, hy]⟩
  terminal _ _ hf := hL.length_of_find hf
  node_unique q q' x hx hx' := by
    have := (hL.label_of_walk hx).symm.trans (hL.label_of_walk hx')
    simpa [nodePlace] using this
  map_unique q q' x x' s s' m hx hx' hs hs' hm hm' := by
    have hlabel := (hL.node x q (hL.label_of_walk hx)).map s m hs hm
    have hlabel' := (hL.node x' q' (hL.label_of_walk hx')).map s' m hs' hm'
    have := hlabel.symm.trans hlabel'
    simpa [mapPlace] using this
  finite := by
    -- a path is read off the label of the node at its end, and nodes have places in the heap
    have hsub : {q : List Edge | (h.walk t.root q).isSome} ⊆
        (fun n => ((labels ⟨n⟩).map Place.path).getD []) '' {n | n < h.entries.size} := by
      intro q hq
      obtain ⟨x, hx⟩ := Option.isSome_iff_exists.1 hq
      have hlabel := hL.label_of_walk hx
      refine ⟨x.index, Heap.lt_of_contains (hL.contains hlabel rfl), ?_⟩
      show ((labels x).map Place.path).getD [] = q
      rw [hlabel]
      rfl
    exact ((Set.finite_lt_nat _).image _).subset hsub

end Labelled

end Trie

namespace Cache

/-! ## Runs -/

/-- The states of a cache and its heap.  Looking up and counting change nothing and
are no steps. -/
inductive Reached : Cache → Heap → Prop where
  | create {h h' : Heap} {c : Cache} {site : SiteId} {arity : Nat} :
    Cache.create site arity h = (.ok c, h') → Reached c h'
  | insert {h h' : Heap} {c c' : Cache} {key : Key} {f : ObjectId}
    {r : Except CacheError ObjectId} :
    Reached c h → c.insert key f h = (r, c', h') → Reached c' h'
  /-- Building is what others do, and is done only if there is no closure yet. -/
  | getOrInsertWith {ε : Type} {h h' : Heap} {c c' : Cache} {key : Key} {wrap : CacheError → ε}
    {build : HeapM ε ObjectId} {r : Except ε (ObjectId × CacheOutcome)} :
    Reached c h → (c.trie.lookup key h = .ok none → Reached c (build h).2) →
    c.getOrInsertWith key wrap build h = (r, c', h') → Reached c' h'
  | compact {h h' : Heap} {c c' : Cache} {r : Except (Stop CacheError) Nat} :
    Reached c h → c.compact h = (r, c', h') → Reached c' h'
  | collect {h h' : Heap} {c : Cache} {stats : CollectionStats} :
    Reached c h → h.collect? = some (stats, h') → Reached c h'
  | outside {h h' : Heap} {c : Cache} : Reached c h → c.trie.Spared h h' → Reached c h'

/-- Inserting after a closure has been built. -/
theorem getOrInsertWith_of_built {ε : Type} {c : Cache} {h : Heap} {key : Key}
    {wrap : CacheError → ε} {build : HeapM ε ObjectId} {f : ObjectId}
    (hlookup : c.trie.lookup key h = .ok none) (hbuild : (build h).1 = .ok f) :
    (c.getOrInsertWith key wrap build h).1 =
        ((c.trie.insert key f (build h).2).1.map fun r => (r.1, .miss)).mapError wrap ∧
      (c.getOrInsertWith key wrap build h).2.1.trie = c.trie ∧
      (c.getOrInsertWith key wrap build h).2.2 = (c.trie.insert key f (build h).2).2 := by
  have hins := insert_eq (c.count fun s => { s with misses := s.misses + 1 }) key f (build h).2
  have hrun : build h = (.ok f, (build h).2) := Prod.ext hbuild rfl
  rw [getOrInsertWith, hlookup]
  dsimp only
  rw [hrun]
  dsimp only
  generalize Cache.insert _ key f (build h).2 = result at hins ⊢
  obtain ⟨r, c', h'⟩ := result
  obtain ⟨hr, htrie, hheap⟩ := hins
  dsimp only [trie_count] at hr htrie hheap
  subst hr hheap
  cases (c.trie.insert key f (build h).2).1 with
  | error e => exact ⟨rfl, htrie, rfl⟩
  | ok r => exact ⟨rfl, htrie, rfl⟩

/-- The ways in which a closure is fetched. -/
inductive Fetched {ε : Type} (c : Cache) (key : Key) (wrap : CacheError → ε)
    (build : HeapM ε ObjectId) (h : Heap) : Except ε (ObjectId × CacheOutcome) → Heap → Prop where
  | refused (e : CacheError) : c.trie.lookup key h = .error e →
    Fetched c key wrap build h (.error (wrap e)) h
  | hit (f : ObjectId) : c.trie.lookup key h = .ok (some f) →
    Fetched c key wrap build h (.ok (f, .hit)) h
  | unbuilt (e : ε) : c.trie.lookup key h = .ok none → (build h).1 = .error e →
    Fetched c key wrap build h (.error e) (build h).2
  | built (f : ObjectId) : c.trie.lookup key h = .ok none → (build h).1 = .ok f →
    Fetched c key wrap build h
      (((c.trie.insert key f (build h).2).1.map fun r => (r.1, .miss)).mapError wrap)
      (c.trie.insert key f (build h).2).2

theorem fetched {ε : Type} (c : Cache) (key : Key) (wrap : CacheError → ε)
    (build : HeapM ε ObjectId) (h : Heap) :
    Fetched c key wrap build h (c.getOrInsertWith key wrap build h).1
        (c.getOrInsertWith key wrap build h).2.2 ∧
      (c.getOrInsertWith key wrap build h).2.1.trie = c.trie := by
  cases hlookup : c.trie.lookup key h with
  | error e =>
    rw [getOrInsertWith, hlookup]
    exact ⟨.refused e hlookup, rfl⟩
  | ok found =>
    cases found with
    | some f =>
      rw [getOrInsertWith, hlookup]
      exact ⟨.hit f hlookup, rfl⟩
    | none =>
      cases hbuild : (build h).1 with
      | error e =>
        have hrun : build h = (.error e, (build h).2) := Prod.ext hbuild rfl
        have hget : c.getOrInsertWith key wrap build h =
            (.error e, c.count (fun s => { s with misses := s.misses + 1 }), (build h).2) := by
          rw [getOrInsertWith, hlookup]
          dsimp only
          rw [hrun]
        rw [hget]
        exact ⟨.unbuilt e hlookup hbuild, rfl⟩
      | ok f =>
        obtain ⟨hr, htrie, hheap⟩ :=
          @getOrInsertWith_of_built ε c h key wrap build f hlookup hbuild
        rw [hr, hheap]
        exact ⟨.built f hlookup hbuild, htrie⟩

theorem fetched_of_run {ε : Type} {c c' : Cache} {key : Key} {wrap : CacheError → ε}
    {build : HeapM ε ObjectId} {h h' : Heap} {r : Except ε (ObjectId × CacheOutcome)}
    (hrun : c.getOrInsertWith key wrap build h = (r, c', h')) :
    Fetched c key wrap build h r h' ∧ c'.trie = c.trie := by
  have hfetched := fetched c key wrap build h
  rwa [hrun] at hfetched

theorem create_eq_ok (site : SiteId) (arity : Nat) (h : Heap) :
    ∃ c h', Cache.create site arity h = (.ok c, h') ∧ c.trie.Sound h' := by
  have hnone : Trie.Below (fun _ => none) h.entries.size := fun x p hx => absurd hx (by simp)
  obtain ⟨h', t, hrun, -, hL, hB, -⟩ := Trie.create_spec hnone site arity
  refine ⟨⟨t, .zero⟩, h', ?_, _, hL, hB⟩
  rw [Cache.create, HeapM.bind_of_ok hrun]
  rfl

/-- In every state the trie is sound. -/
theorem Reached.sound {c : Cache} {h : Heap} (hc : Reached c h) : c.trie.Sound h := by
  induction hc with
  | @create h h' c site arity hcreate =>
    obtain ⟨c₁, h₁, hrun, hsound⟩ := create_eq_ok site arity h
    rw [hcreate] at hrun
    obtain ⟨hc, rfl⟩ := Prod.mk.inj hrun
    exact Except.ok.inj hc ▸ hsound
  | insert _ hins ih =>
    obtain ⟨htrie, rfl⟩ := trie_heap_of_insert hins
    rw [htrie]
    exact ih.insert _ _
  | getOrInsertWith _ _ hget ih ihbuild =>
    obtain ⟨hfetched, htrie⟩ := fetched_of_run hget
    rw [htrie]
    cases hfetched with
    | refused => exact ih
    | hit => exact ih
    | unbuilt e hlookup _ => exact ihbuild hlookup
    | built f hlookup _ => exact (ihbuild hlookup).insert _ f
  | compact _ hcompact ih =>
    obtain ⟨htrie, rfl⟩ := trie_heap_of_compact hcompact
    obtain ⟨n, h₁, hrun, hsound⟩ := ih.compact
    rw [htrie, hrun]
    exact hsound
  | collect _ hrun ih => exact ih.collect hrun
  | outside _ hs ih => exact ih.spared hs

/-- Every operation of the heap is open to others, on objects outside the trie; and
pins may be taken off the trie while one is left at the root. -/
theorem Reached.op {c : Cache} {h : Heap} (hc : Reached c h) (op : HeapOp)
    (htarget : ∀ x, op.target? = some x → c.trie.Owns h x →
      op = .unroot x ∧ (x = c.trie.root → ∃ e, h.entry? x = some e ∧ 2 ≤ e.roots)) :
    Reached c (op.perform h) := by
  by_cases howns : ∃ x, op.target? = some x ∧ c.trie.Owns h x
  · obtain ⟨x, hx, ho⟩ := howns
    obtain ⟨rfl, hroots⟩ := htarget x hx ho
    exact hc.outside (Trie.spared_unroot hroots)
  · have hspares := op.spares h fun x hx ho => howns ⟨x, hx, ho⟩
    exact hc.outside (Trie.spared_of_spares hspares fun _ => hc.sound.contains)

/-- A cache that has come about, or a copy of one that keeps its own statistics. -/
def Standing (c : Cache) (h : Heap) : Prop := ∃ d : Cache, d.trie = c.trie ∧ Reached d h

theorem Reached.standing {c : Cache} {h : Heap} (hc : Reached c h) : Standing c h := ⟨c, rfl, hc⟩

theorem Standing.sound {c : Cache} {h : Heap} (hc : Standing c h) : c.trie.Sound h := by
  obtain ⟨d, htrie, hd⟩ := hc
  exact htrie ▸ hd.sound

/-! ## Answers -/

/-- How a cache answers an insertion: it refuses a key of another length, and fails
where an object of the key is not in the heap. -/
structure InsertAnswer (t : Trie) (key : Key) (h : Heap) {α : Type} (r : Except CacheError α) :
    Prop where
  error : ∀ e, r = .error e →
    (key.arity ≠ t.arity ∧ e = .arityMismatch t.site t.arity key.arity) ∨
    (key.arity = t.arity ∧ ∃ id ∈ key.weakObjects, h.contains id = false ∧
      e = .host (.objectNotFound id))
  length : key.arity ≠ t.arity → r = .error (.arityMismatch t.site t.arity key.arity)
  ok : key.arity = t.arity → (∀ id ∈ key.weakObjects, h.contains id = true) → ∃ a, r = .ok a
  /-- An object that has been swept is missed. -/
  swept : key.arity = t.arity →
    ∀ id ∈ key.weakObjects, id.index < h.entries.size → h.contains id = false →
      ∃ id' ∈ key.weakObjects, h.contains id' = false ∧ r = .error (.host (.objectNotFound id'))

theorem InsertAnswer.map {t : Trie} {key : Key} {h : Heap} {α β : Type} {r : Except CacheError α}
    (hr : InsertAnswer t key h r) (f : α → β) : InsertAnswer t key h (r.map f) where
  error e he := by
    cases r with
    | error e' => exact hr.error e (congrArg _ (Except.error.inj he))
    | ok a => exact absurd he (by simp [Except.map])
  length hkey := by
    rw [hr.length hkey]
    rfl
  ok hkey hin := by
    obtain ⟨a, rfl⟩ := hr.ok hkey hin
    exact ⟨f a, rfl⟩
  swept hkey id hid hlt hnot := by
    obtain ⟨id', hid', hnot', rfl⟩ := hr.swept hkey id hid hlt hnot
    exact ⟨id', hid', hnot', rfl⟩

theorem insertAnswer {t : Trie} {h : Heap} (ht : t.Sound h) (key : Key) (f : ObjectId) :
    InsertAnswer t key h (t.insert key f h).1 := by
  obtain ⟨labels, hL, hB⟩ := ht
  by_cases hkey : key.arity = t.arity
  · obtain ⟨r, h', labels', hrun, hgrow, hend⟩ := hL.insert_spec hB hkey f
    have hgone : ∀ id, h'.contains id = false → h.contains id = false := fun id hnot => by
      by_contra hin
      rw [Bool.not_eq_false] at hin
      simp [hgrow.frame.mono id hin] at hnot
    rw [hrun]
    -- what is found under the key afterwards names only objects in the heap
    have hheld : ∀ g, h'.find t.root key.path = some g →
        ∀ id ∈ key.weakObjects, id.index < h.entries.size → h.contains id = true :=
      fun g hg id hid hlt => by
        rw [← hgrow.frame.contains_eq hlt]
        exact hgrow.labelled.contains_of_find hgrow.labelled.root hg id
          (Key.object_mem_path.2 hid)
    cases hend with
    | held g hg hq =>
      refine ⟨fun e he => absurd he (by simp), fun hne => absurd hkey hne,
        fun _ _ => ⟨_, rfl⟩, fun _ id hid hlt hnot => ?_⟩
      have := hheld g ((hq _).trans hg) id hid hlt
      simp [hnot] at this
    | added hg hq =>
      refine ⟨fun e he => absurd he (by simp), fun hne => absurd hkey hne,
        fun _ _ => ⟨_, rfl⟩, fun _ id hid hlt hnot => ?_⟩
      have := hheld f (by rw [hq, if_pos rfl]) id hid hlt
      simp [hnot] at this
    | refused id hid hnot hq =>
      have hmem := Key.object_mem_path.1 hid
      refine ⟨fun e he => .inr ⟨hkey, id, hmem, hgone id hnot, (Except.error.inj he).symm⟩,
        fun hne => absurd hkey hne, fun _ hin => ?_,
        fun _ _ _ _ _ => ⟨id, hmem, hgone id hnot, rfl⟩⟩
      have := hin id hmem
      simp [hgone id hnot] at this
  · rw [Trie.insert_of_arity_ne hkey]
    exact ⟨fun e he => .inl ⟨hkey, (Except.error.inj he).symm⟩, fun _ => rfl,
      fun h => absurd h hkey, fun h => absurd h hkey⟩

/-- How the operations of a cache answer when nobody has tampered with its trie. -/
structure Consistent (c : Cache) (h : Heap) : Prop where
  tree : c.trie.IsTree h
  lookup : ∀ key : Key, if key.arity = c.trie.arity then ∃ r, c.trie.lookup key h = .ok r
    else c.trie.lookup key h = .error (.arityMismatch c.trie.site c.trie.arity key.arity)
  liveEntries : ∃ n, c.trie.liveEntries h = .ok n
  compact : ∃ n, (c.compact h).1 = .ok n
  insert : ∀ (key : Key) f, InsertAnswer c.trie key h (c.insert key f h).1
  /-- An error is that of a key of another length, of building, or of the insertion
  that follows. -/
  getOrInsertWith : ∀ {ε : Type} (key : Key) (wrap : CacheError → ε) (build : HeapM ε ObjectId) e,
    (c.trie.lookup key h = .ok none → Reached c (build h).2) →
    (c.getOrInsertWith key wrap build h).1 = .error e →
      (key.arity ≠ c.trie.arity ∧ e = wrap (.arityMismatch c.trie.site c.trie.arity key.arity)) ∨
      (key.arity = c.trie.arity ∧ (build h).1 = .error e) ∨
      (key.arity = c.trie.arity ∧ (∃ f, (build h).1 = .ok f) ∧
        ∃ id ∈ key.weakObjects, (build h).2.contains id = false ∧
          e = wrap (.host (.objectNotFound id)))

theorem getOrInsertWith_error {c : Cache} {h : Heap} (hc : Reached c h) {ε : Type} (key : Key)
    (wrap : CacheError → ε) (build : HeapM ε ObjectId) {e : ε}
    (hbuild : c.trie.lookup key h = .ok none → Reached c (build h).2)
    (he : (c.getOrInsertWith key wrap build h).1 = .error e) :
    (key.arity ≠ c.trie.arity ∧ e = wrap (.arityMismatch c.trie.site c.trie.arity key.arity)) ∨
      (key.arity = c.trie.arity ∧ (build h).1 = .error e) ∨
      (key.arity = c.trie.arity ∧ (∃ f, (build h).1 = .ok f) ∧
        ∃ id ∈ key.weakObjects, (build h).2.contains id = false ∧
          e = wrap (.host (.objectNotFound id))) := by
  obtain ⟨labels, hL, -⟩ := hc.sound
  have hfetched := (fetched c key wrap build h).1
  by_cases hkey : key.arity = c.trie.arity
  · right
    rw [he] at hfetched
    generalize hr : (Except.error e : Except ε (ObjectId × CacheOutcome)) = r at hfetched
    generalize (c.getOrInsertWith key wrap build h).2.2 = h' at hfetched
    cases hfetched with
    | refused e' hlookup => exact absurd ((hL.lookup_eq hkey).symm.trans hlookup) (by simp)
    | hit => exact absurd hr (by simp)
    | unbuilt e' _ hfail =>
      obtain rfl := Except.error.inj hr
      exact .inl ⟨hkey, hfail⟩
    | built f hlookup hok =>
      have hanswer := insertAnswer (hbuild hlookup).sound key f
      cases hins : (c.trie.insert key f (build h).2).1 with
      | ok a =>
        rw [hins] at hr
        exact absurd hr (by simp [Except.map, Except.mapError])
      | error e' =>
        rw [hins] at hr
        obtain rfl := Except.error.inj hr
        rcases hanswer.error e' hins with ⟨hne, -⟩ | ⟨-, id, hid, hnot, rfl⟩
        · exact absurd hkey hne
        · exact .inr ⟨hkey, ⟨f, hok⟩, id, hid, hnot, rfl⟩
  · rw [getOrInsertWith, lookup_of_arity_ne hkey] at he
    exact .inl ⟨hkey, (Except.error.inj he).symm⟩

/-- A cache is made without an error, and answers consistently wherever it has come. -/
theorem reached_consistent :
    (∀ site arity h, ∃ c h', Cache.create site arity h = (.ok c, h')) ∧
      ∀ c h, Reached c h → Consistent c h := by
  refine ⟨fun site arity h => ?_, fun c h hc => ?_⟩
  · obtain ⟨c, h', hrun, -⟩ := create_eq_ok site arity h
    exact ⟨c, h', hrun⟩
  · have hsound := hc.sound
    obtain ⟨labels, hL, -⟩ := hsound
    refine ⟨hL.isTree, fun key => ?_, ?_, ?_, fun key f => ?_, fun key wrap build e hbuild he =>
      getOrInsertWith_error hc key wrap build hbuild he⟩
    · split
      · next hkey => exact ⟨_, hL.lookup_eq hkey⟩
      · next hkey => exact lookup_of_arity_ne hkey h
    · obtain ⟨l, hlive, -⟩ := hL.liveEntries_spec
      exact ⟨_, hlive⟩
    · obtain ⟨n, h', hrun, -⟩ := hc.sound.compact
      exact ⟨n, by rw [(compact_eq c h).1, hrun]⟩
    · rw [(insert_eq c key f h).1]
      exact (insertAnswer hc.sound key f).map Prod.fst

/-- An object is swept that a key names.  The cache refuses the key, and leaves a node
on the way to the object, which compaction takes away. -/
theorem consistent_of_swept :
    ∃ c₁ h₁ h₂ stats h₃ c₂ h₄,
      Cache.create ⟨0⟩ 2 Heap.empty = (.ok c₁, h₁) ∧
      (HeapOp.allocate (.ordinary ∅)).perform h₁ = h₂ ∧ h₂.collect? = some (stats, h₃) ∧
      c₁.insert ⟨[.primitive .null, .objectRef ⟨1⟩]⟩ c₁.trie.root h₃ =
        (.error (.host (.objectNotFound ⟨1⟩)), c₂, h₄) ∧
      Consistent c₁ h₂ ∧ Consistent c₁ h₃ ∧ Consistent c₂ h₄ ∧ (c₂.compact h₄).1 = .ok 1 := by
  have hconsistent : ∀ {c₁ h₁ stats h₃ r c₂ h₄},
      Cache.create ⟨0⟩ 2 Heap.empty = (.ok c₁, h₁) →
      ((HeapOp.allocate (.ordinary ∅)).perform h₁).collect? = some (stats, h₃) →
      c₁.insert ⟨[.primitive .null, .objectRef ⟨1⟩]⟩ c₁.trie.root h₃ = (r, c₂, h₄) →
      Consistent c₁ ((HeapOp.allocate (.ordinary ∅)).perform h₁) ∧ Consistent c₁ h₃ ∧
        Consistent c₂ h₄ := by
    intro c₁ h₁ stats h₃ r c₂ h₄ hcreate hcollect hinsert
    have hmade := (Reached.create hcreate).op (.allocate (.ordinary ∅)) fun x hx => by
      simp [HeapOp.target?] at hx
    have hswept := hmade.collect hcollect
    exact ⟨reached_consistent.2 _ _ hmade, reached_consistent.2 _ _ hswept,
      reached_consistent.2 _ _ (hswept.insert hinsert)⟩
  obtain ⟨hmade, hswept, hrefused⟩ := hconsistent rfl rfl rfl
  exact ⟨_, _, _, _, _, _, _, rfl, rfl, rfl, rfl, hmade, hswept, hrefused, by decide +kernel⟩

end Cache

end ClosureCache
