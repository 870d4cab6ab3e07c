/-
What compaction makes of a cache, wherever the cache has come.

`Trims` speaks of one labelling and counts paths.  Here the labels are gone: a trie is a
set of nodes, and `Compacted` says that compaction takes away as many of them as it
reports, that no closure goes with them, and that a second compaction has nothing left
to do.
-/
import ClosureCache.Proofs.Cache.Consistency

namespace ClosureCache

namespace Trie

/-- The nodes that one comes to from the root. -/
def nodes (t : Trie) (h : Heap) : Set ObjectId := {x | ∃ q, h.walk t.root q = some x}

section Nodes

variable {t : Trie} {h h' : Heap} {labels : Labels}

/-- A trie has as many nodes as there are paths in it, since no node stands in two
places. -/
theorem Labelled.encard_nodes (hL : t.Labelled h labels) :
    (t.nodes h).encard = (h.paths t.root).encard := by
  have himage : t.nodes h = (fun q => (h.walk t.root q).getD t.root) '' h.paths t.root := by
    ext x
    constructor
    · rintro ⟨q, hq⟩
      exact ⟨q, by rw [Heap.mem_paths, hq]; rfl, by dsimp only; rw [hq]; rfl⟩
    · rintro ⟨q, hq, rfl⟩
      obtain ⟨x, hx⟩ := Option.isSome_iff_exists.1 hq
      exact ⟨q, hx.trans (congrArg some (by dsimp only; rw [hx]; rfl))⟩
  rw [himage]
  refine Set.InjOn.encard_image fun q hq q' hq' he => ?_
  obtain ⟨x, hx⟩ := Option.isSome_iff_exists.1 hq
  obtain ⟨x', hx'⟩ := Option.isSome_iff_exists.1 hq'
  rw [hx, hx', Option.getD_some, Option.getD_some] at he
  exact hL.isTree.node_unique q q' x hx (he ▸ hx')

theorem Labelled.finite_nodes (hL : t.Labelled h labels) : (t.nodes h).Finite := by
  rw [← Set.encard_lt_top_iff, hL.encard_nodes, Set.encard_lt_top_iff]
  exact hL.isTree.finite

theorem Trims.ncard_nodes {d n : Nat} (a : t.Trims labels d n h h') (hL : t.Labelled h labels) :
    (t.nodes h).ncard = (t.nodes h').ncard + n := by
  have hcount := a.count
  rw [← hL.encard_nodes, ← a.labelled.encard_nodes, ← hL.finite_nodes.cast_ncard_eq,
    ← a.labelled.finite_nodes.cast_ncard_eq] at hcount
  exact_mod_cast hcount

/-- Pruning writes no object that bears no label. -/
theorem Prunes.entry_eq (hp : t.Prunes labels h h') {x : ObjectId} (hx : labels x = none) :
    h'.entry? x = h.entry? x := by
  by_cases hlt : x.index < h.entries.size
  · refine hp.frame.entry x hlt ?_
    rintro ⟨p, hp, -⟩
    rw [hx] at hp
    cases hp
  · rw [Heap.entry?_none_of_size_le (Nat.le_of_not_lt hlt),
      Heap.entry?_none_of_size_le (hp.size ▸ Nat.le_of_not_lt hlt)]

end Nodes

end Trie

namespace Cache

/-- What a compaction that reports `n` nodes makes of a cache and its heap. -/
structure Compacted (c : Cache) (h : Heap) (n : Nat) (c' : Cache) (h' : Heap) : Prop where
  trie : c'.trie = c.trie
  stats : c'.stats = { c.stats with pruned := c.stats.pruned + n }
  lookup : ∀ key, c'.trie.lookup key h' = c.trie.lookup key h
  liveEntries : c'.trie.liveEntries h' = c.trie.liveEntries h
  /-- Objects outside the trie are as they were. -/
  untouched : ∀ x, ¬ c.trie.Owns h x → h'.entry? x = h.entry? x
  /-- Every node but the root has a closure at or below it, and no map is empty. -/
  tidy : h'.Tidy c.trie.root
  finite : (c.trie.nodes h).Finite
  count : (c.trie.nodes h).ncard = (c.trie.nodes h').ncard + n
  again : c'.compact h' = (.ok 0, c', h')

/-- Compaction ends well, takes away exactly the nodes without closures, and is done
after one time. -/
theorem Standing.compact_exact {c : Cache} {h : Heap} (hc : Standing c h) :
    ∃ n c' h', c.compact h = (.ok n, c', h') ∧ Compacted c h n c' h' := by
  have hsound := hc.sound
  obtain ⟨labels, hL, hB⟩ := hsound
  obtain ⟨labels', hL', hsub⟩ := hL.restrict
  obtain ⟨n, h', hrun, htrim, htidy, -⟩ := hL'.compact_trims
  -- a tidy trie is left alone
  obtain ⟨n₂, h₂, hrun₂, -, -, hstill⟩ := htrim.labelled.compact_trims
  obtain ⟨rfl, rfl⟩ := hstill htidy
  have hcompact : ∀ d : Cache, d.trie = c.trie → ∀ m h₀ h₁, c.trie.compact h₀ = (.ok m, h₁) →
      d.compact h₀ = (.ok m, d.count fun s => { s with pruned := s.pruned + m }, h₁) := by
    intro d hd m h₀ h₁ hm
    rw [Cache.compact, hd, hm]
  have hanswers := hc.sound.answers_congr
    ⟨labels', htrim.labelled, fun x p hx => by rw [htrim.size]; exact hB x p (hsub x p hx).1⟩
    (htrim.find _ _ hL'.root)
  refine ⟨n, c.count fun s => { s with pruned := s.pruned + n }, h₂, hcompact c rfl _ _ _ hrun,
    rfl, rfl, hanswers.1, hanswers.2, fun x hx => ?_, htidy, hL.finite_nodes,
    htrim.ncard_nodes hL', hcompact (c.count _) rfl _ _ _ hrun₂⟩
  refine htrim.entry_eq ?_
  by_contra hlabel
  obtain ⟨p, hp⟩ := Option.ne_none_iff_exists'.1 hlabel
  exact hx (hsub x p hp).2

/-- The object of a key is swept, and compaction takes away the one node that led to
it. -/
theorem compact_exact_of_swept :
    ∃ c₁ h₁ c₂ h₂ stats h₃,
      Cache.create ⟨0⟩ 2 (Heap.empty.allocate (.ordinary ∅)).2 = (.ok c₁, h₁) ∧
      c₁.insert ⟨[.primitive .null, .objectRef ⟨0⟩]⟩ ⟨0⟩ h₁ = (.ok ⟨0⟩, c₂, h₂) ∧
      h₂.collect? = some (stats, h₃) ∧ (c₂.compact h₃).1 = .ok 1 ∧
      Compacted c₂ h₃ 1 (c₂.compact h₃).2.1 (c₂.compact h₃).2.2 := by
  have hexact : ∀ {c₁ h₁ c₂ h₂ stats h₃},
      Cache.create ⟨0⟩ 2 (Heap.empty.allocate (.ordinary ∅)).2 = (.ok c₁, h₁) →
      c₁.insert ⟨[.primitive .null, .objectRef ⟨0⟩]⟩ ⟨0⟩ h₁ = (.ok ⟨0⟩, c₂, h₂) →
      h₂.collect? = some (stats, h₃) → (c₂.compact h₃).1 = .ok 1 →
      (c₂.compact h₃).1 = .ok 1 ∧ Compacted c₂ h₃ 1 (c₂.compact h₃).2.1 (c₂.compact h₃).2.2 := by
    intro c₁ h₁ c₂ h₂ stats h₃ hcreate hinsert hcollect hone
    have hreached := ((Reached.create hcreate).insert hinsert).collect hcollect
    obtain ⟨n, c', h', hrun, hdone⟩ := hreached.standing.compact_exact
    rw [hrun] at hone ⊢
    obtain rfl := Except.ok.inj hone
    exact ⟨rfl, hdone⟩
  exact ⟨_, _, _, _, _, _, rfl, rfl, rfl, hexact rfl rfl rfl (by decide +kernel)⟩

end Cache

end ClosureCache
