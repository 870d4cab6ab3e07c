/-
What a cache is left with when it refuses a key.

An insertion that fails has already made nodes on the way to the object it misses, and
they stay.  `Trie.FailedInsert` says that this is all: whatever was found is found, one can
walk where one could, and the only old objects that are written lie on the path of the key.
The new nodes lead to no closure, so the next compaction takes them away.
-/
import ClosureCache.Proofs.Cache.Consistency

namespace ClosureCache

namespace Trie

variable {t : Trie} {h h' : Heap} {labels : Labels} {x : ObjectId} {path : List Edge}

/-! ## Where the objects of a trie stand -/

/-- The objects of a trie on a path: the nodes that the path goes through, and the maps by
which it leaves them. -/
inductive OnPath (t : Trie) (h : Heap) (path : List Edge) : ObjectId → Prop where
  | node {q : List Edge} {x : ObjectId} :
    q <+: path → h.walk t.root q = some x → OnPath t h path x
  | map {q : List Edge} {c : Edge} {x m : ObjectId} :
    q ++ [c] <+: path → h.walk t.root q = some x → h.linkAt x c.slot = some m → OnPath t h path m

/-- An object that belongs to the trie is a node to which one can walk, or a map of one. -/
theorem Labelled.stands_of_owns (hL : t.Labelled h labels) (hx : t.Owns h x) :
    (∃ q, h.walk t.root q = some x) ∨
      ∃ q y s, s ≠ .terminal ∧ h.walk t.root q = some y ∧ h.linkAt y s = some x := by
  induction hx with
  | root => exact .inl ⟨[], rfl⟩
  | @map x m s _ hs hm ih =>
    rcases ih with ⟨q, hx⟩ | ⟨q, y, r, hr, hy, hx⟩
    · exact .inr ⟨q, x, s, hs, hx, hm⟩
    · rw [hL.linkAt_of_map ((hL.node y q (hL.label_of_walk hy)).map r x hr hx)] at hm
      cases hm
  | @child m y c _ hv ih =>
    rcases ih with ⟨q, hm⟩ | ⟨q, x, s, hs, hx, hm⟩
    · rw [hL.edgeAt_of_node (hL.label_of_walk hm)] at hv
      cases hv
    · obtain ⟨z, hz, -, hchild⟩ := hL.child_of_edge (hL.label_of_walk hx) hs hm hv
      obtain rfl := Value.object.inj hz
      exact .inl ⟨q ++ [c], by rw [Heap.walk_concat, hx, Option.bind_some, hchild]⟩

/-- The label of an object says truly whether it is on a path. -/
theorem Labelled.onPath_of_memberAlong (hL : t.Labelled h labels) (hx : t.Owns h x)
    (hm : t.MemberAlong labels path x) : t.OnPath h path x := by
  obtain ⟨p, hp, -, halong⟩ := hm
  rcases hL.stands_of_owns hx with ⟨q, hwalk⟩ | ⟨q, y, s, hs, hwalk, hlink⟩
  · rw [hL.label_of_walk hwalk] at hp
    obtain rfl := Option.some.inj hp
    exact .node halong hwalk
  · rw [(hL.node y q (hL.label_of_walk hwalk)).map s x hs hlink] at hp
    obtain rfl := Option.some.inj hp
    obtain ⟨c, rfl, hprefix⟩ := halong
    exact .map hprefix hwalk hlink

/-! ## A failed insertion -/

/-- What an insertion under a path makes of a heap when it fails. -/
structure FailedInsert (t : Trie) (path : List Edge) (h h' : Heap) : Prop where
  sound : t.Sound h'
  find : ∀ q, h'.find t.root q = h.find t.root q
  walk : ∀ q x, h.walk t.root q = some x → h'.walk t.root q = some x
  written : ∀ x, h.contains x = true → ¬ t.OnPath h path x → h'.entry? x = h.entry? x

theorem FailedInsert.refl (ht : t.Sound h) (path : List Edge) : t.FailedInsert path h h :=
  ⟨ht, fun _ => rfl, fun _ _ => id, fun _ _ _ => rfl⟩

theorem Sound.failedInsert (ht : t.Sound h) {key : Key} {f : ObjectId} {e : CacheError}
    (hrun : t.insert key f h = (.error e, h')) : t.FailedInsert key.path h h' := by
  by_cases hkey : key.arity = t.arity
  · obtain ⟨labels, hL, hB⟩ := ht
    obtain ⟨labels', hL', hsub⟩ := hL.restrict
    obtain ⟨r, h₁, labels₁, hins, hgrow, hend⟩ :=
      hL'.insert_spec (fun x p hx => hB x p (hsub x p hx).1) hkey f
    rw [hrun] at hins
    obtain ⟨rfl, rfl⟩ := Prod.mk.inj hins
    cases hend with
    | refused _ _ _ hfind =>
      refine ⟨⟨labels₁, hgrow.labelled, hgrow.below⟩, hfind, fun q x => hgrow.walk hL' hL'.root,
        fun x hx hoff => hgrow.frame.entry x (Heap.lt_of_contains hx) fun hm => hoff ?_⟩
      have ⟨p, hp, _⟩ := hm
      exact hL'.onPath_of_memberAlong (hsub x p hp).2 hm
  · rw [insert_of_arity_ne hkey] at hrun
    exact (Prod.mk.inj hrun).2 ▸ .refl ht _

/-- The nodes that are left after a compaction were there before the insertion, and stood
where they stand. -/
theorem FailedInsert.compact (hb : t.FailedInsert path h h') :
    ∃ n h'', t.compact h' = (.ok n, h'') ∧
      ∀ q x, h''.walk t.root q = some x → h.walk t.root q = some x := by
  obtain ⟨labels, hL, -⟩ := hb.sound
  obtain ⟨n, h'', hrun, htrim, htidy, -⟩ := hL.compact_trims
  refine ⟨n, h'', hrun, fun q x hx => ?_⟩
  by_cases hq : q = []
  · rw [hq] at hx ⊢
    exact hx
  · -- a closure is found below the node, so one could walk there before
    obtain ⟨r, f, hf⟩ := htidy.hasClosure q x hx hq
    have hfind : h.find t.root (q ++ r) = some f := by
      rw [← hb.find, ← htrim.find _ _ hL.root, Heap.find, Heap.walk_append, hx]
      exact hf
    rw [Heap.find, Heap.walk_append] at hfind
    obtain ⟨y, hy, -⟩ := Option.bind_eq_some_iff.1 (Option.bind_eq_some_iff.1 hfind).choose_spec.1
    have hthen := hb.walk q y hy
    rw [htrim.walk hL.root hx] at hthen
    rw [hy, hthen]

end Trie

namespace Cache

/-! ## Failed operations -/

/-- What a cache and its heap are after an operation under a key has failed.  The cache
has found the heap as `h₁` when it began to insert. -/
structure Refused (c : Cache) (key : Key) (h h₁ : Heap) (c' : Cache) (h' : Heap) : Prop where
  trie : c'.trie = c.trie
  counts : c'.stats.hits = c.stats.hits ∧ c'.stats.inserts = c.stats.inserts ∧
    c'.stats.discarded = c.stats.discarded
  lookup : ∀ k, c'.trie.lookup k h' = c.trie.lookup k h
  liveEntries : c'.trie.liveEntries h' = c.trie.liveEntries h
  /-- Only nodes and maps on the path of the key are written. -/
  written : ∀ x, h₁.contains x = true → ¬ c.trie.OnPath h₁ key.path x → h'.entry? x = h₁.entry? x
  /-- Compaction takes away every node that the failed operation has made. -/
  debris : ∃ n c'' h'', c'.compact h' = (.ok n, c'', h'') ∧
    ∀ q x, h''.walk c.trie.root q = some x → h.walk c.trie.root q = some x

theorem refused_of_failedInsert {c c' : Cache} {key : Key} {h h₁ h' : Heap} (hc : c.trie.Sound h)
    (hsame : ∀ x, c.trie.Owns h x → h₁.object x = h.object x)
    (hb : c.trie.FailedInsert key.path h₁ h') (htrie : c'.trie = c.trie)
    (hcounts : c'.stats.hits = c.stats.hits ∧ c'.stats.inserts = c.stats.inserts ∧
      c'.stats.discarded = c.stats.discarded) : Refused c key h h₁ c' h' := by
  obtain ⟨hlookup, hlive⟩ := hc.answers_congr hb.sound fun q =>
    (hb.find q).trans (hc.find_eq hsame q)
  obtain ⟨n, h'', hrun, hwalk⟩ := hb.compact
  refine ⟨htrie, hcounts, htrie ▸ hlookup, htrie ▸ hlive, hb.written,
    n, c'.count fun s => { s with pruned := s.pruned + n }, h'', ?_, fun q x hx => ?_⟩
  · rw [Cache.compact, htrie, hrun]
  · rw [← hc.walk_eq hsame]
    exact hwalk q x hx

theorem insert_of_error {c c' : Cache} {key : Key} {f : ObjectId} {h h' : Heap} {e : CacheError}
    (hrun : c.insert key f h = (.error e, c', h')) :
    c' = c ∧ c.trie.insert key f h = (.error e, h') := by
  rw [Cache.insert] at hrun
  split at hrun
  · next heq =>
    obtain ⟨he, hrun⟩ := Prod.mk.inj hrun
    obtain ⟨rfl, rfl⟩ := Prod.mk.inj hrun
    exact ⟨rfl, by rw [heq, Except.error.inj he]⟩
  · exact absurd (Prod.mk.inj hrun).1 (by simp)
  · exact absurd (Prod.mk.inj hrun).1 (by simp)

/-- How a closure can fail to be fetched. -/
theorem getOrInsertWith_of_error {ε : Type} {c c' : Cache} {key : Key} {wrap : CacheError → ε}
    {build : HeapM ε ObjectId} {h h' : Heap} {e : ε}
    (hrun : c.getOrInsertWith key wrap build h = (.error e, c', h')) :
    ((∃ e', c.trie.lookup key h = .error e') ∧ c' = c ∧ h' = h) ∨
      c.trie.lookup key h = .ok none ∧ c' = c.count (fun s => { s with misses := s.misses + 1 }) ∧
        (h' = (build h).2 ∨ ∃ f e', c.trie.insert key f (build h).2 = (.error e', h')) := by
  rw [getOrInsertWith] at hrun
  split at hrun
  · next e' hlookup =>
    obtain ⟨-, hrun⟩ := Prod.mk.inj hrun
    obtain ⟨rfl, rfl⟩ := Prod.mk.inj hrun
    exact .inl ⟨⟨e', hlookup⟩, rfl, rfl⟩
  · exact absurd (Prod.mk.inj hrun).1 (by simp)
  · next hlookup =>
    refine .inr ⟨hlookup, ?_⟩
    split at hrun
    · next h₁ hbuild =>
      obtain ⟨-, hrun⟩ := Prod.mk.inj hrun
      obtain ⟨rfl, rfl⟩ := Prod.mk.inj hrun
      exact ⟨rfl, .inl (by rw [hbuild])⟩
    · next f h₁ hbuild =>
      dsimp only at hrun
      split at hrun
      · next e' c₁ h₂ hins =>
        obtain ⟨-, hrun⟩ := Prod.mk.inj hrun
        obtain ⟨rfl, rfl⟩ := Prod.mk.inj hrun
        obtain ⟨rfl, htrie⟩ := insert_of_error hins
        exact ⟨rfl, .inr ⟨f, e', by rw [hbuild]; exact htrie⟩⟩
      · exact absurd (Prod.mk.inj hrun).1 (by simp)

/-- An operation that fails leaves the associations of the cache intact, as long as
building does not touch the trie. -/
theorem Standing.refused_intact {c : Cache} {h : Heap} (hc : Standing c h) (key : Key) :
    (∀ f e c' h', c.insert key f h = (.error e, c', h') → Refused c key h h c' h') ∧
      ∀ {ε : Type} (wrap : CacheError → ε) (build : HeapM ε ObjectId) e c' h',
        (c.trie.lookup key h = .ok none → Standing c (build h).2 ∧
          ∀ x, c.trie.Owns h x → (build h).2.object x = h.object x) →
        c.getOrInsertWith key wrap build h = (.error e, c', h') →
          Refused c key h (if key.arity = c.trie.arity then (build h).2 else h) c' h' := by
  refine ⟨fun f e c' h' hrun => ?_, fun wrap build e c' h' hbuild hrun => ?_⟩
  · obtain ⟨rfl, hins⟩ := insert_of_error hrun
    exact refused_of_failedInsert hc.sound (fun _ _ => rfl) (hc.sound.failedInsert hins) rfl
      ⟨rfl, rfl, rfl⟩
  · by_cases hkey : key.arity = c.trie.arity
    · rw [if_pos hkey]
      obtain ⟨labels, hL, -⟩ := hc.sound
      rcases getOrInsertWith_of_error hrun with ⟨⟨e', he⟩, -⟩ | ⟨hlookup, rfl, hend⟩
      · rw [hL.lookup_eq hkey] at he
        cases he
      · obtain ⟨hstanding, hsame⟩ := hbuild hlookup
        refine refused_of_failedInsert hc.sound hsame ?_ rfl ⟨rfl, rfl, rfl⟩
        rcases hend with rfl | ⟨f, e', hins⟩
        · exact .refl hstanding.sound _
        · exact hstanding.sound.failedInsert hins
    · rw [if_neg hkey]
      rcases getOrInsertWith_of_error hrun with ⟨-, rfl, rfl⟩ | ⟨hlookup, -⟩
      · exact refused_of_failedInsert hc.sound (fun _ _ => rfl) (.refl hc.sound _) rfl
          ⟨rfl, rfl, rfl⟩
      · rw [lookup_of_arity_ne hkey] at hlookup
        cases hlookup

/-- The object of a key is swept.  The cache refuses the key, with a closure that is given
and with one that is built. -/
theorem refused_of_swept :
    ∃ c₁ h₁ stats h₂ c₂ h₃ c₃ h₄,
      Cache.create ⟨0⟩ 2 (Heap.empty.allocate (.ordinary ∅)).2 = (.ok c₁, h₁) ∧
      h₁.collect? = some (stats, h₂) ∧
      c₁.insert ⟨[.primitive .null, .objectRef ⟨0⟩]⟩ ⟨1⟩ h₂ =
        (.error (.host (.objectNotFound ⟨0⟩)), c₂, h₃) ∧
      c₁.getOrInsertWith ⟨[.primitive .null, .objectRef ⟨0⟩]⟩ id
        (HeapM.change fun h => h.allocate (.ordinary ∅)) h₂ =
        (.error (.host (.objectNotFound ⟨0⟩)), c₃, h₄) ∧
      Refused c₁ ⟨[.primitive .null, .objectRef ⟨0⟩]⟩ h₂ h₂ c₂ h₃ ∧
      Refused c₁ ⟨[.primitive .null, .objectRef ⟨0⟩]⟩ h₂ (h₂.allocate (.ordinary ∅)).2 c₃ h₄ := by
  have hrefused : ∀ {c₁ h₁ stats h₂ c₂ h₃ c₃ h₄},
      Cache.create ⟨0⟩ 2 (Heap.empty.allocate (.ordinary ∅)).2 = (.ok c₁, h₁) →
      h₁.collect? = some (stats, h₂) →
      c₁.insert ⟨[.primitive .null, .objectRef ⟨0⟩]⟩ ⟨1⟩ h₂ =
        (.error (.host (.objectNotFound ⟨0⟩)), c₂, h₃) →
      c₁.getOrInsertWith ⟨[.primitive .null, .objectRef ⟨0⟩]⟩ id
        (HeapM.change fun h => h.allocate (.ordinary ∅)) h₂ =
        (.error (.host (.objectNotFound ⟨0⟩)), c₃, h₄) → c₁.trie.arity = 2 →
      Refused c₁ ⟨[.primitive .null, .objectRef ⟨0⟩]⟩ h₂ h₂ c₂ h₃ ∧
      Refused c₁ ⟨[.primitive .null, .objectRef ⟨0⟩]⟩ h₂ (h₂.allocate (.ordinary ∅)).2 c₃ h₄ := by
    intro c₁ h₁ stats h₂ c₂ h₃ c₃ h₄ hcreate hcollect hinsert hget harity
    have hreached := (Reached.create hcreate).collect hcollect
    obtain ⟨hgiven, hbuilt⟩ := hreached.standing.refused_intact ⟨[.primitive .null, .objectRef ⟨0⟩]⟩
    refine ⟨hgiven _ _ _ _ hinsert, ?_⟩
    have hbuilding := hbuilt id (HeapM.change fun h => h.allocate (.ordinary ∅)) _ _ _
      (fun _ => ⟨(hreached.op (.allocate (.ordinary ∅)) fun x hx => by cases hx).standing,
        fun x hx => Heap.object_allocate_of_contains _ (hreached.sound.contains hx)⟩) hget
    rwa [if_pos (by rw [harity]; rfl)] at hbuilding
  obtain ⟨hgiven, hbuilt⟩ := hrefused rfl rfl rfl rfl rfl
  exact ⟨_, _, _, _, _, _, _, _, rfl, rfl, rfl, rfl, hgiven, hbuilt⟩

end Cache

end ClosureCache
