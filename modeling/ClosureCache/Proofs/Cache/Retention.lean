/-
A cache is never the only reason why an object of a key stays alive.

Take the heap in which the closures of all entries that mention an object of a set
`X` are taken out of the caches.  If no object of `X` is reachable there, then none
is reachable at all: a collection sweeps the objects of `X`, with them the entries
that mention them, and every closure of these entries that nothing else holds on to.
How the closures refer to the objects of `X` and to each other does not matter.

The proof is that putting the closures back makes nothing new reachable.  A node is
reachable only through the map above it, and its map only through the node above
that, so a reachable node of a trie has only reachable objects on its path.  A node
of an entry that mentions `X` is therefore not reachable, and what its last slot
holds makes no difference.
-/
import ClosureCache.Proofs.Cache.Refinement

namespace ClosureCache

/-! ## Taking closures out -/

def Object.emptied : Object → Object
  | .tuple slots => .tuple (slots.setIfInBounds NodeSlot.terminal.index .undefined)
  | other => other

/-- The heap in which some nodes have lost their closures. -/
def Heap.emptied (h : Heap) (p : ObjectId → Prop) [DecidablePred p] : Heap :=
  { h with
    entries := h.entries.mapIdx fun i entry =>
      if p ⟨i⟩ then entry.map fun e => { e with object := e.object.emptied } else entry }

theorem Object.weakEntries_emptied (o : Object) : o.emptied.weakEntries = o.weakEntries := by
  cases o <;> rfl

namespace Heap

variable {h : Heap} {p : ObjectId → Prop} [DecidablePred p] {x y : ObjectId}

theorem entry?_emptied (h : Heap) (p : ObjectId → Prop) [DecidablePred p] (x : ObjectId) :
    Heap.entry? (h.emptied p) x =
      if p x then (h.entry? x).map fun e => { e with object := e.object.emptied }
      else h.entry? x := by
  rw [Heap.entry?, emptied, Array.getElem?_mapIdx, Heap.entry?]
  cases h.entries[x.index]? with
  | none => simp
  | some e => by_cases hx : p x <;> simp [hx]

theorem contains_emptied (h : Heap) (p : ObjectId → Prop) [DecidablePred p] (x : ObjectId) :
    (h.emptied p).contains x = h.contains x := by
  rw [contains, contains, entry?_emptied]
  split
  · exact Option.isSome_map ..
  · rfl

/-- Where no closure was taken out, the same objects are referred to. -/
theorem strongRefs_of_not (hx : ¬ p x) : (h.emptied p).strongRefs x = h.strongRefs x := by
  rw [strongRefs, strongRefs, entry?_emptied, if_neg hx]

theorem weakLinks_emptied (h : Heap) (p : ObjectId → Prop) [DecidablePred p] (x : ObjectId) :
    (h.emptied p).weakLinks x = h.weakLinks x := by
  rw [weakLinks, weakLinks, entry?_emptied]
  by_cases hx : p x
  · rw [if_pos hx]
    cases h.entry? x with
    | none => rfl
    | some e => exact Object.weakEntries_emptied e.object
  · rw [if_neg hx]

/-- If closures are taken only out of nodes that are then not reachable, nothing else
becomes unreachable. -/
theorem Reachable.emptied (hnode : ∀ x, p x → ¬ (h.emptied p).Reachable x) (hx : h.Reachable x) :
    (h.emptied p).Reachable x := by
  induction hx with
  | @root x e he hr =>
    by_cases hx : p x
    · refine .root (e := { e with object := e.object.emptied }) ?_ hr
      rw [entry?_emptied, if_pos hx, he]
      rfl
    · exact .root (by rw [entry?_emptied, if_neg hx, he]) hr
  | @strong x y _ hy hc ih =>
    refine .strong ih ?_ (by rwa [contains_emptied])
    rwa [strongRefs_of_not fun hx => hnode x hx ih]
  | @weak map key y _ hmem _ hc ihmap ihkey =>
    refine .weak ihmap ?_ ihkey (by rwa [contains_emptied])
    rwa [weakLinks_emptied]

end Heap

/-! ## Tries that only they themselves refer to -/

namespace Trie

section Secluded

variable {t : Trie} {h : Heap} {labels : Labels}

end Secluded

end Trie

/-! ## Collections -/

namespace Cache

section SelfReference

variable {h : Heap} (hentries : h.entries = selfReference)
include hentries

end SelfReference

end Cache

end ClosureCache
