/-
What compacting a proper trie does.

Compaction takes away edges that lead to nodes without closures below them, and
maps without entries.  `Prunes` is what holds from one of these steps to the next:
no label changes, links and edges are only taken away, and every node finds what it
found before.

The maps under primitives and the weak maps are treated alike.  `Handles` says what
the two have in common.
-/
import ClosureCache.Proofs.SortedMap
import ClosureCache.Proofs.Cache.Growth

namespace ClosureCache

/-! ## The two kinds of maps -/

theorem Object.edge?_of_serves {o : Object} {s : NodeSlot} (ho : o.Serves s) {c : Edge}
    (hc : c.slot ≠ s) : o.edge? c = none := by
  cases o <;> cases s <;> simp only [Object.Serves] at ho <;> cases c <;>
    simp [Edge.slot, Object.edge?] at hc ⊢

/-- How the maps in one slot of the nodes are read and written: `edge` is the edge
under a key. -/
structure Handles {κ : Type} [Ord κ] (s : NodeSlot) (edge : κ → Edge)
    (entries : Heap → ObjectId → Except HeapError (SortedMap κ Value))
    (remove : ObjectId → κ → HeapM HeapError Bool) : Prop where
  slot : ∀ k, (edge k).slot = s
  all : ∀ c : Edge, c.slot = s → ∃ k, edge k = c
  inj : ∀ j k, edge j = edge k → j = k
  read : ∀ (h : Heap) m o, h.object m = .ok o → o.Serves s →
    ∃ e, entries h m = .ok e ∧ ∀ k, e.get? k = o.edge? (edge k)
  remove : ∀ (h : Heap) m o k, h.object m = .ok o → o.Serves s →
    ∃ b o', remove m k h = (.ok b, h.setObject m o') ∧ o'.Serves s ∧
      ∀ d, o'.edge? d = if d = edge k then none else o.edge? d

theorem handles_strong :
    Handles .primitive Edge.primitive Heap.strongEntries Heap.strongMapRemove where
  slot _ := rfl
  all c hc := by
    cases c with
    | primitive p => exact ⟨p, rfl⟩
    | object id => exact absurd hc (by simp [Edge.slot])
  inj _ _ := Edge.primitive.inj
  read h m o hm ho := by
    cases o with
    | strongMap e => exact ⟨e, by rw [Heap.strongEntries, hm], fun _ => rfl⟩
    | _ => exact absurd ho (by simp [Object.Serves])
  remove h m o k hm ho := by
    cases o with
    | strongMap e =>
      refine ⟨e.contains k, .strongMap (e.erase k), ?_, trivial, fun d => ?_⟩
      · rw [Heap.strongMapRemove, Heap.strongEntries, hm]
      · cases d with
        | primitive p =>
          rw [Object.edge?, SortedMap.get?_erase]
          by_cases hp : p = k
          · simp [hp]
          · simp [hp, Ne.symm hp, Object.edge?]
        | object id => simp [Object.edge?]
    | _ => exact absurd ho (by simp [Object.Serves])

theorem handles_weak : Handles .weak Edge.object Heap.weakEntries Heap.weakMapDelete where
  slot _ := rfl
  all c hc := by
    cases c with
    | primitive p => exact absurd hc (by simp [Edge.slot])
    | object id => exact ⟨id, rfl⟩
  inj _ _ := Edge.object.inj
  read h m o hm ho := by
    cases o with
    | weakMap e => exact ⟨e, by rw [Heap.weakEntries, hm], fun _ => rfl⟩
    | _ => exact absurd ho (by simp [Object.Serves])
  remove h m o k hm ho := by
    cases o with
    | weakMap e =>
      refine ⟨e.contains k, .weakMap (e.erase k), ?_, trivial, fun d => ?_⟩
      · rw [Heap.weakMapDelete, Heap.weakEntries, hm]
      · cases d with
        | primitive p => simp [Object.edge?]
        | object id =>
          rw [Object.edge?, SortedMap.get?_erase]
          by_cases hid : id = k
          · simp [hid]
          · simp [hid, Ne.symm hid, Object.edge?]
    | _ => exact absurd ho (by simp [Object.Serves])

namespace Trie

/-- What hangs in a map of a node is a child of the node. -/
theorem Labelled.child_of_edge {t : Trie} {h : Heap} {labels : Labels} {x m : ObjectId}
    {path : List Edge} {s : NodeSlot} (hL : t.Labelled h labels)
    (hx : labels x = some (t.nodePlace path)) (hs : s ≠ .terminal) (hm : h.linkAt x s = some m)
    {c : Edge} {v : Value} (hv : h.edgeAt m c = some v) :
    ∃ y, v = .object y ∧ c.slot = s ∧ h.child x c = some y := by
  have hmap := hL.map m path s ((hL.node x path hx).map s m hs hm)
  obtain ⟨y, rfl, -⟩ := hmap.edge c v hv
  obtain ⟨o, ho, hserves⟩ := hmap.serves
  have hslot : c.slot = s := by
    by_contra hne
    rw [Heap.edgeAt_of_object ho, Object.edge?_of_serves hserves hne] at hv
    cases hv
  exact ⟨y, rfl, hslot, Heap.child_eq_some_iff.2 ⟨m, hslot ▸ hm, hv⟩⟩

/-! ## Taking away -/

/-- What taking away links and edges that lead to no closure makes of a heap. -/
structure Prunes (t : Trie) (labels : Labels) (h h' : Heap) : Prop where
  labelled : t.Labelled h' labels
  size : h'.entries.size = h.entries.size
  frame : Heap.Frame (t.Member labels) h.entries.size h h'
  link : ∀ x path s y, labels x = some (t.nodePlace path) → h'.linkAt x s = some y →
    h.linkAt x s = some y
  edge : ∀ m path s c v, labels m = some (t.mapPlace path s) → h'.edgeAt m c = some v →
    h.edgeAt m c = some v
  find : ∀ x path, labels x = some (t.nodePlace path) → ∀ q, h'.find x q = h.find x q
  plain : ∀ x o, h'.object x = .ok o → o.isPart = false → h.object x = .ok o

namespace Prunes

variable {t : Trie} {labels : Labels} {h h₁ h₂ : Heap}

theorem refl (hL : t.Labelled h labels) : t.Prunes labels h h :=
  ⟨hL, rfl, .refl .., fun _ _ _ _ _ hy => hy, fun _ _ _ _ _ _ hv => hv, fun _ _ _ _ => rfl,
    fun _ _ ho _ => ho⟩

theorem trans (a : t.Prunes labels h h₁) (b : t.Prunes labels h₁ h₂) : t.Prunes labels h h₂ where
  labelled := b.labelled
  size := b.size.trans a.size
  frame := a.frame.trans (a.size ▸ b.frame)
  link x path s y hx hy := a.link x path s y hx (b.link x path s y hx hy)
  edge m path s c v hm hv := a.edge m path s c v hm (b.edge m path s c v hm hv)
  find x path hx q := (b.find x path hx q).trans (a.find x path hx q)
  plain x o hx ho := a.plain x o (b.plain x o hx ho) ho

end Prunes

section Steps

variable {t : Trie} {h : Heap} {labels : Labels} {x m : ObjectId} {path : List Edge} {s : NodeSlot}

/-- An edge that leads to no closure can be taken away. -/
theorem Labelled.prunes_edge (hL : t.Labelled h labels) (hm : labels m = some (t.mapPlace path s))
    {c : Edge} {o : Object} (hserves : o.Serves s)
    (hedge : ∀ d, o.edge? d = if d = c then none else h.edgeAt m d)
    (hnone : ∀ y, h.edgeAt m c = some (.object y) → ∀ q, h.find y q = none) :
    t.Prunes labels h (h.setObject m o) := by
  have hmo := Heap.object_setObject_self o (hL.contains hm rfl)
  have hmedge := Heap.edgeAt_of_object hmo
  have hne : ∀ z p, labels z = some (t.nodePlace p) → z ≠ m := fun z p hz e => by
    simp [← e, hz, nodePlace, mapPlace] at hm
  refine ⟨hL.setObject o (fun _ _ hy => hy) (fun y p hy hnew => ?_) (fun y p r hy hnew => ?_),
    Heap.size_setObject .., Heap.frame_setObject _ h (fun _ => member_of_map hm) o,
    fun z p r y hz hy => ?_, fun z p r d v hz hv => ?_, fun z p hz q => ?_,
    plain_setObject hserves.isPart⟩
  · obtain rfl := hnew.resolve_right (not_not_intro hy)
    exact absurd rfl (hne y p hy)
  · obtain rfl := hnew.resolve_right (not_not_intro hy)
    obtain ⟨rfl, rfl⟩ : p = path ∧ r = s := by simpa [mapPlace, hm, eq_comm] using hy
    have hmap := hL.map y p r hm
    have hold : ∀ d v, Heap.edgeAt (h.setObject y o) y d = some v → h.edgeAt y d = some v := by
      intro d v hv
      rw [hmedge, hedge] at hv
      split at hv
      · exact absurd hv (by simp)
      · exact hv
    refine ⟨hmap.short, ⟨o, hmo, hserves⟩, fun d v hv => hmap.edge d v (hold d v hv),
      fun id v hv => ?_⟩
    rw [Heap.contains_setObject]
    exact hmap.held id v (hold _ v hv)
  · rwa [Heap.linkAt_congr (Heap.object_setObject_of_ne o (hne z p hz))] at hy
  · by_cases hzm : z = m
    · rw [hzm, hmedge, hedge] at hv
      split at hv
      · exact absurd hv (by simp)
      · exact hzm ▸ hv
    · rwa [Heap.edgeAt_congr (Heap.object_setObject_of_ne o hzm)] at hv
  · refine hL.find_congr (fun w r d hw => ?_) (fun w r hw => ?_) hz q
    · by_cases hd : h.linkAt w d.slot = some m ∧ d = c
      · obtain ⟨hwm, rfl⟩ := hd
        refine .inr fun q => ⟨?_, ?_⟩
        · rw [Heap.child, hwm, Option.bind_some]
          cases hv : h.edgeAt m d with
          | none => rfl
          | some v =>
            obtain ⟨y, rfl, -⟩ := (hL.map m path s hm).edge d v hv
            exact hnone y hv q
        · rw [Heap.child, Heap.linkAt_congr (Heap.object_setObject_of_ne o (hne w r hw)), hwm,
            Option.bind_some, hmedge, hedge, if_pos rfl]
          rfl
      · exact .inl (hL.child_setMap hm hw fun hwm =>
          (hedge d).trans (if_neg fun e => hd ⟨hwm, e⟩))
    · rw [Heap.linkAt_congr (Heap.object_setObject_of_ne o (hne w r hw))]

/-- Taking a map without entries out of its slot takes no child away. -/
theorem Labelled.child_dropMap (hL : t.Labelled h labels) (hx : labels x = some (t.nodePlace path))
    (hempty : ∀ m, h.linkAt x s = some m → ∀ c, h.edgeAt m c = none) {z : ObjectId}
    {p : List Edge} (hz : labels z = some (t.nodePlace p)) (c : Edge) :
    Heap.child (h.setObject x (.node (Heap.setLink (h.linkAt x) s none))) z c = h.child z c := by
  by_cases hzc : z = x ∧ c.slot = s
  · obtain ⟨rfl, rfl⟩ := hzc
    rw [Heap.child, Heap.child,
      Heap.linkAt_of_node (Heap.object_setObject_self _ (hL.contains hx rfl)), Heap.setLink_self]
    cases hm : h.linkAt z c.slot with
    | none => rfl
    | some m => rw [Option.bind_some, hempty m hm]; rfl
  · exact hL.child_setNode hx hz fun e => Heap.setLink_of_ne _ _ fun e' => hzc ⟨e, e'⟩

/-- A map without entries can be taken out of its slot. -/
theorem Labelled.prunes_map (hL : t.Labelled h labels) (hx : labels x = some (t.nodePlace path))
    (hs : s ≠ .terminal) (hempty : ∀ m, h.linkAt x s = some m → ∀ c, h.edgeAt m c = none) :
    t.Prunes labels h (h.setObject x (.node (Heap.setLink (h.linkAt x) s none))) := by
  have hxo := Heap.object_setObject_self (.node (Heap.setLink (h.linkAt x) s none))
    (hL.contains hx rfl)
  have hxlink := Heap.linkAt_of_node hxo
  have hne : ∀ z p r, labels z = some (t.mapPlace p r) → z ≠ x := fun z p r hz e => by
    simp [← e, hz, nodePlace, mapPlace] at hx
  have hold : ∀ r y, Heap.linkAt (h.setObject x (.node (Heap.setLink (h.linkAt x) s none))) x r =
      some y → h.linkAt x r = some y := by
    intro r y hy
    rw [hxlink, Heap.setLink] at hy
    split at hy
    · exact absurd hy (by simp)
    · exact hy
  refine ⟨hL.setObject _ (fun _ _ hy => hy) (fun y p hy hnew => ?_) (fun y p r hy hnew => ?_),
    Heap.size_setObject .., Heap.frame_setObject _ h (fun _ => member_of_node hx) _,
    fun z p r y hz hy => ?_, fun z p r d v hz hv => ?_, fun z p hz q => ?_,
    plain_setObject (Object.isPart_node _)⟩
  · obtain rfl := hnew.resolve_right (not_not_intro hy)
    obtain rfl : p = path := by simpa [nodePlace, hx] using hy.symm
    have hnode := hL.node y p hx
    refine ⟨by rw [hxlink]; exact hxo, hnode.depth, fun r m hr hm => ?_, fun f hf => ?_⟩
    · exact hnode.map r m hr (hold r m hm)
    · exact hnode.terminal f (hold _ f hf)
  · obtain rfl := hnew.resolve_right (not_not_intro hy)
    exact absurd rfl (hne y p r hy)
  · by_cases hzx : z = x
    · subst hzx
      exact hold r y hy
    · rwa [Heap.linkAt_congr (Heap.object_setObject_of_ne _ hzx)] at hy
  · rwa [Heap.edgeAt_congr (Heap.object_setObject_of_ne _ (hne z p r hz))] at hv
  · refine hL.find_congr (fun w r c hw => .inl (hL.child_dropMap hx hempty hw c))
      (fun w r hw => ?_) hz q
    by_cases hwx : w = x
    · rw [hwx, hxlink, Heap.setLink_of_ne _ _ hs.symm]
    · rw [Heap.linkAt_congr (Heap.object_setObject_of_ne _ hwx)]

end Steps

end Trie

end ClosureCache
