/-
What a collection does to a proper trie.

The root of the trie is pinned, so every map and every node that can be walked to
through the edges that are left is kept.  An edge under an object goes with the
object.  What is found afterwards is what was found before under the paths all of
whose objects are kept.
-/
import ClosureCache.Proofs.SortedMap
import ClosureCache.Proofs.Cache.Growth

namespace ClosureCache
namespace Trie

variable {t : Trie} {h h' : Heap} {keep : MarkSet} {labels : Labels}

def keptLabels (keep : MarkSet) (labels : Labels) : Labels :=
  fun x => if keep.contains x then labels x else none

theorem keptLabels_eq_some {x : ObjectId} {p : Place} :
    keptLabels keep labels x = some p ↔ keep.contains x = true ∧ labels x = some p := by
  rw [keptLabels]
  split
  · next hx => exact ⟨fun hp => ⟨hx, hp⟩, fun hp => hp.2⟩
  · next hx => exact ⟨fun hp => absurd hp (by simp), fun hp => absurd hp.1 hx⟩

/-- Whether an edge outlives the objects that are not kept. -/
def keptEdge (keep : ObjectId → Bool) : Edge → Bool
  | .primitive _ => true
  | .object id => keep id

/-- Whether all objects on a path are kept. -/
def keptPath (keep : ObjectId → Bool) (q : List Edge) : Bool := q.all (keptEdge keep)

/-- A path all of whose objects are left is a kept one. -/
theorem keptPath_of_collected (hc : Heap.Collected h h' keep) {q : List Edge}
    (hin : ∀ id, .object id ∈ q → h'.contains id = true) : keptPath keep.contains q = true := by
  rw [keptPath, List.all_eq_true]
  intro c hcq
  cases c with
  | primitive p => rfl
  | object id => exact (hc.keep_iff id).2 ((hc.contains_iff_reachable id).1 (hin id hcq))

/-- An object that is kept is the same as before, apart from the entries of a weak
map. -/
theorem object_of_kept (hc : Heap.Collected h h' keep) {x : ObjectId} {o : Object}
    (hx : keep.contains x = true) (ho : h.object x = .ok o) :
    h'.object x = .ok (Heap.pruneWeak keep o) := by
  obtain ⟨e, he, rfl⟩ := Heap.entry?_of_object ho
  exact Heap.object_of_some (hc.entry?_eq_some he ((hc.keep_iff x).1 hx))

theorem edge?_pruneWeak (keep : MarkSet) (o : Object) (c : Edge) :
    (Heap.pruneWeak keep o).edge? c = if keptEdge keep.contains c then o.edge? c else none := by
  cases o with
  | weakMap e =>
    cases c with
    | primitive p => rfl
    | object id =>
      show (e.filterKeys keep.contains).get? id = _
      rw [SortedMap.get?_filterKeys]
      rfl
  | strongMap e =>
    cases c with
    | primitive p => rfl
    | object id => exact (ite_self none).symm
  | _ => exact (ite_self none).symm

theorem pruneWeak_serves {o : Object} {s : NodeSlot} (ho : o.Serves s) :
    (Heap.pruneWeak keep o).Serves s := by
  cases o <;> cases s <;> exact ho

section Kept

variable {x m : ObjectId} {path : List Edge} {s : NodeSlot}

theorem Labelled.node_of_kept (hL : t.Labelled h labels) (hc : Heap.Collected h h' keep)
    (hx : labels x = some (t.nodePlace path)) (hk : keep.contains x = true) :
    h'.object x = .ok (.node (h.linkAt x)) :=
  object_of_kept hc hk (hL.node x path hx).isNode

/-- What a node that is kept refers to is kept. -/
theorem Labelled.kept_link (hL : t.Labelled h labels) (hc : Heap.Collected h h' keep)
    (hx : labels x = some (t.nodePlace path)) (hk : keep.contains x = true)
    (hm : h.linkAt x s = some m) (hin : h.contains m = true) : keep.contains m = true := by
  obtain ⟨e, he, ho⟩ := Heap.entry?_of_object (hL.node x path hx).isNode
  have href : m ∈ h.strongRefs x := by
    rw [Heap.strongRefs_of_some he, ho, Object.node, Object.strongRefs, objectsOf,
      List.mem_filterMap]
    refine ⟨slotValue (h.linkAt x s), ?_, by rw [hm]; rfl⟩
    cases s <;> simp
  exact (hc.keep_iff m).2 (.strong ((hc.keep_iff x).1 hk) href hin)

/-- The maps of a node that is kept are kept. -/
theorem Labelled.kept_map (hL : t.Labelled h labels) (hc : Heap.Collected h h' keep)
    (hx : labels x = some (t.nodePlace path)) (hk : keep.contains x = true) (hs : s ≠ .terminal)
    (hm : h.linkAt x s = some m) : keep.contains m = true :=
  hL.kept_link hc hx hk hm (hL.contains ((hL.node x path hx).map s m hs hm) rfl)

/-- A node in a map that is kept is kept if its edge is. -/
theorem Labelled.kept_child (hL : t.Labelled h labels) (hc : Heap.Collected h h' keep)
    (hm : labels m = some (t.mapPlace path s)) (hk : keep.contains m = true) {c : Edge}
    {y : ObjectId} (hy : h.edgeAt m c = some (.object y))
    (hkc : keptEdge keep.contains c = true) : keep.contains y = true := by
  have hmap := hL.map m path s hm
  obtain ⟨z, hz, hlabel⟩ := hmap.edge c _ hy
  obtain rfl := Value.object.inj hz
  have hin := hL.contains hlabel rfl
  obtain ⟨o, ho, hserves⟩ := hmap.serves
  obtain ⟨e, he, rfl⟩ := Heap.entry?_of_object ho
  rw [Heap.edgeAt_of_object ho] at hy
  have hreach := (hc.keep_iff m).1 hk
  refine (hc.keep_iff y).2 ?_
  obtain ⟨o, r⟩ := e
  cases o with
  | strongMap entries =>
    cases c with
    | primitive p =>
      refine .strong hreach ?_ hin
      rw [Heap.strongRefs_of_some he]
      exact List.mem_filterMap.2 ⟨.object y, List.mem_map.2
        ⟨_, SortedMap.mem_toList_iff.2 hy, rfl⟩, rfl⟩
    | object id => exact absurd hy (by simp [Object.edge?])
  | weakMap entries =>
    cases c with
    | primitive p => exact absurd hy (by simp [Object.edge?])
    | object id =>
      have hid : keep.contains id = true := hkc
      refine .weak hreach ?_ ((hc.keep_iff id).1 hid) hin
      rw [Heap.weakLinks_of_some he]
      exact SortedMap.mem_toList_iff.2 hy
  | _ => exact absurd hserves (by simp [Object.Serves])

theorem Labelled.edgeAt_of_kept (hL : t.Labelled h labels) (hc : Heap.Collected h h' keep)
    (hm : labels m = some (t.mapPlace path s)) (hk : keep.contains m = true) (c : Edge) :
    h'.edgeAt m c = if keptEdge keep.contains c then h.edgeAt m c else none := by
  obtain ⟨o, ho, -⟩ := (hL.map m path s hm).serves
  rw [Heap.edgeAt_of_object (object_of_kept hc hk ho), Heap.edgeAt_of_object ho, edge?_pruneWeak]

/-- After a collection the trie is as proper as before. -/
theorem Labelled.collect (hL : t.Labelled h labels) (hc : Heap.Collected h h' keep) :
    t.Labelled h' (keptLabels keep labels) where
  root := by
    obtain ⟨e, he, hr⟩ := hL.pinned
    exact keptLabels_eq_some.2 ⟨(hc.keep_iff t.root).2 (.root he hr), hL.root⟩
  pinned := by
    obtain ⟨e, he, hr⟩ := hL.pinned
    exact ⟨_, hc.entry?_eq_some he (.root he hr), hr⟩
  node x path hx := by
    obtain ⟨hk, hx⟩ := keptLabels_eq_some.1 hx
    have hnode := hL.node x path hx
    have hxo := hL.node_of_kept hc hx hk
    have hlink := Heap.linkAt_of_node hxo
    refine ⟨hlink ▸ hxo, hnode.depth, fun s m hs hm => ?_, fun f hf => ?_⟩
    · rw [hlink] at hm
      exact keptLabels_eq_some.2 ⟨hL.kept_map hc hx hk hs hm, hnode.map s m hs hm⟩
    · exact hnode.terminal f (hlink ▸ hf)
  map m path s hm := by
    obtain ⟨hk, hm⟩ := keptLabels_eq_some.1 hm
    have hmap := hL.map m path s hm
    obtain ⟨o, ho, hserves⟩ := hmap.serves
    have hedge : ∀ c v, h'.edgeAt m c = some v →
        keptEdge keep.contains c = true ∧ h.edgeAt m c = some v := by
      intro c v hv
      rw [hL.edgeAt_of_kept hc hm hk] at hv
      split at hv
      · next hkc => exact ⟨hkc, hv⟩
      · exact absurd hv (by simp)
    refine ⟨hmap.short, ⟨_, object_of_kept hc hk ho, pruneWeak_serves hserves⟩, fun c v hv => ?_,
      fun id v hv => ?_⟩
    · obtain ⟨hkc, hv⟩ := hedge c v hv
      obtain ⟨y, rfl, hy⟩ := hmap.edge c v hv
      exact ⟨y, rfl, keptLabels_eq_some.2 ⟨hL.kept_child hc hm hk hv hkc, hy⟩⟩
    · have hid : keep.contains id = true := (hedge _ v hv).1
      exact (hc.contains_iff_reachable id).2 ((hc.keep_iff id).1 hid)

theorem Below.collect (hB : Below labels h.entries.size) (hc : Heap.Collected h h' keep) :
    Below (keptLabels keep labels) h'.entries.size := fun x p hx => by
  rw [hc.size]
  exact hB x p (keptLabels_eq_some.1 hx).2

/-- After a collection a node finds what it found before, under the paths all of
whose objects are kept. -/
theorem Labelled.find_collect (hL : t.Labelled h labels) (hc : Heap.Collected h h' keep)
    (hx : labels x = some (t.nodePlace path)) (hk : keep.contains x = true) (q : List Edge) :
    h'.find x q = if keptPath keep.contains q then h.find x q else none := by
  have hlink : ∀ {x path}, labels x = some (t.nodePlace path) → keep.contains x = true →
      h'.linkAt x = h.linkAt x := fun hx hk => Heap.linkAt_of_node (hL.node_of_kept hc hx hk)
  induction q generalizing x path with
  | nil => exact congrFun (hlink hx hk) _
  | cons c rest ih =>
    have hsplit : keptPath keep.contains (c :: rest) =
        (keptEdge keep.contains c && keptPath keep.contains rest) := rfl
    rw [Heap.find_cons, Heap.find_cons, hsplit, Heap.child, Heap.child, hlink hx hk]
    cases hm : h.linkAt x c.slot with
    | none => exact (ite_self none).symm
    | some m =>
      have hlabel := (hL.node x path hx).map _ m c.slot_ne_terminal hm
      have hkm := hL.kept_map hc hx hk c.slot_ne_terminal hm
      rw [Option.bind_some, Option.bind_some, hL.edgeAt_of_kept hc hlabel hkm]
      by_cases hkc : keptEdge keep.contains c = true
      · rw [if_pos hkc, hkc, Bool.true_and]
        cases hv : h.edgeAt m c with
        | none => exact (ite_self none).symm
        | some v =>
          obtain ⟨y, rfl, hy⟩ := (hL.map m path _ hlabel).edge c v hv
          exact ih hy (hL.kept_child hc hlabel hkm hv hkc)
      · rw [if_neg hkc, if_neg]
        · rfl
        · simp [hkc]

/-- A closure that is found after a collection was kept. -/
theorem Labelled.kept_of_find (hL : t.Labelled h labels) (hc : Heap.Collected h h' keep)
    {q : List Edge} {f : ObjectId} (hf : h'.find t.root q = some f) (hin : h.contains f = true) :
    keep.contains f = true := by
  have hL' := hL.collect hc
  obtain ⟨y, hy, hlink⟩ := Option.bind_eq_some_iff.1 hf
  obtain ⟨hk, hy⟩ := keptLabels_eq_some.1 (hL'.label_walk hL'.root hy)
  rw [Heap.linkAt_of_node (hL.node_of_kept hc hy hk)] at hlink
  exact hL.kept_link hc hy hk hlink hin

end Kept

end Trie
end ClosureCache
