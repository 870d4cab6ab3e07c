/-
How a proper trie fares when the heap around it changes.

`Heap.Frame` bounds a change: it says which old objects may differ.  A trie none of
whose objects differ is as proper as before, and finds what it found before; where
a single child or a single map changes, `walk_congr` and `find_congr` carry the
change of one child to whole paths.
-/
import ClosureCache.Proofs.Cache.Shape

namespace ClosureCache

namespace Heap

/-- A change that leaves alone the objects with numbers below `n` outside `D`, and
the roots of all objects below `n`. -/
structure Frame (D : ObjectId → Prop) (n : Nat) (h h' : Heap) : Prop where
  size_le : h.entries.size ≤ h'.entries.size
  entry : ∀ x, x.index < n → ¬ D x → h'.entry? x = h.entry? x
  roots : ∀ x, x.index < n → (h'.entry? x).map HeapEntry.roots = (h.entry? x).map HeapEntry.roots
  mono : ∀ x, h.contains x = true → h'.contains x = true

namespace Frame

variable {D D' : ObjectId → Prop} {n n' : Nat} {h h₁ h₂ : Heap}

theorem refl (D : ObjectId → Prop) (n : Nat) (h : Heap) : Frame D n h h :=
  ⟨Nat.le_refl _, fun _ _ _ => rfl, fun _ _ => rfl, fun _ hx => hx⟩

theorem trans (a : Frame D n h h₁) (b : Frame D n h₁ h₂) : Frame D n h h₂ where
  size_le := Nat.le_trans a.size_le b.size_le
  entry x hx hD := (b.entry x hx hD).trans (a.entry x hx hD)
  roots x hx := (b.roots x hx).trans (a.roots x hx)
  mono x hx := b.mono x (a.mono x hx)

theorem weaken (a : Frame D n h h₁) (hD : ∀ x, x.index < n' → D x → D' x) (hn : n' ≤ n) :
    Frame D' n' h h₁ where
  size_le := a.size_le
  entry x hx hx' := a.entry x (Nat.lt_of_lt_of_le hx hn) fun hd => hx' (hD x hx hd)
  roots x hx := a.roots x (Nat.lt_of_lt_of_le hx hn)
  mono := a.mono

theorem contains_eq (a : Frame D n h h₁) {x : ObjectId} (hx : x.index < n) :
    h₁.contains x = h.contains x := by
  have := congrArg Option.isSome (a.roots x hx)
  simpa [contains] using this

theorem object_eq (a : Frame D n h h₁) {x : ObjectId} (hx : x.index < n) (hD : ¬ D x) :
    h₁.object x = h.object x := by
  rw [object, object, a.entry x hx hD]

/-- An object below the bound keeps its roots. -/
theorem rooted (a : Frame D n h h₁) {x : ObjectId} (hx : x.index < n)
    (hr : ∃ e, h.entry? x = some e ∧ 0 < e.roots) : ∃ e, h₁.entry? x = some e ∧ 0 < e.roots := by
  obtain ⟨e, he, hpos⟩ := hr
  have hroots := a.roots x hx
  rw [he] at hroots
  obtain ⟨e', he', hsame⟩ := Option.map_eq_some_iff.1 hroots
  exact ⟨e', he', hsame ▸ hpos⟩

end Frame

theorem frame_allocate (D : ObjectId → Prop) {n : Nat} {h : Heap} (hn : n ≤ h.entries.size)
    (o : Object) : Frame D n h (h.allocate o).2 where
  size_le := by simp
  entry x hx _ := entry?_allocate_of_lt (Nat.lt_of_lt_of_le hx hn)
  roots x hx := by rw [entry?_allocate_of_lt (Nat.lt_of_lt_of_le hx hn)]
  mono x hx := by
    rw [contains, entry?_allocate_of_lt (lt_of_contains hx)]
    exact hx

theorem frame_setObject {D : ObjectId → Prop} (n : Nat) (h : Heap) {x : ObjectId}
    (hx : x.index < n → D x) (o : Object) : Frame D n h (h.setObject x o) where
  size_le := by simp
  entry y hy hD := entry?_setObject_of_ne o fun e => hD (e ▸ hx (e ▸ hy))
  roots y _ := by
    rw [entry?_setObject]
    split
    · next hyx => rw [hyx, Option.map_map]; rfl
    · rfl
  mono y hy := by rwa [contains_setObject]

theorem object_setObject_self {h : Heap} {x : ObjectId} (o : Object) (hx : h.contains x = true) :
    Heap.object (h.setObject x o) x = .ok o := by
  obtain ⟨e, he⟩ := contains_iff.1 hx
  exact object_of_some (entry?_setObject_self o he)

theorem object_setObject_of_ne {h : Heap} {x y : ObjectId} (o : Object) (hyx : y ≠ x) :
    Heap.object (h.setObject x o) y = h.object y := by
  rw [object, object, entry?_setObject_of_ne o hyx]

theorem object_allocate_self (h : Heap) (o : Object) :
    Heap.object (h.allocate o).2 ⟨h.entries.size⟩ = .ok o := by
  rw [object, entry?_allocate, if_pos rfl]

theorem object_allocate_of_contains {h : Heap} {x : ObjectId} (o : Object)
    (hx : h.contains x = true) : Heap.object (h.allocate o).2 x = h.object x := by
  rw [object, object, entry?_allocate_of_lt (lt_of_contains hx)]

theorem object_allocate_of_ne {h : Heap} {x : ObjectId} (o : Object)
    (hx : x ≠ ⟨h.entries.size⟩) : Heap.object (h.allocate o).2 x = h.object x := by
  rw [object, entry?_allocate, if_neg hx, object]

theorem object_of_allocate {h : Heap} {o o' : Object} {x : ObjectId}
    (hx : Heap.object (h.allocate o).2 x = .ok o') : o' = o ∨ h.object x = .ok o' := by
  by_cases hxs : x = ⟨h.entries.size⟩
  · rw [hxs, object_allocate_self] at hx
    exact .inl (Except.ok.inj hx).symm
  · rw [object_allocate_of_ne o hxs] at hx
    exact .inr hx

theorem object_of_setObject {h : Heap} {o o' : Object} {x y : ObjectId}
    (hy : Heap.object (h.setObject x o) y = .ok o') : o' = o ∨ h.object y = .ok o' := by
  by_cases hyx : y = x
  · have hin : h.contains x = true := by
      obtain ⟨e, he, -⟩ := entry?_of_object hy
      rw [← contains_setObject h x o, contains_of_some (hyx ▸ he)]
    rw [hyx, object_setObject_self o hin] at hy
    exact .inl (Except.ok.inj hy).symm
  · rw [object_setObject_of_ne o hyx] at hy
    exact .inr hy

/-! ## Setting the slots of nodes -/

/-- The slots of a node after one of them has been set. -/
def setLink (link : NodeSlot → Option ObjectId) (s : NodeSlot) (target : Option ObjectId) :
    NodeSlot → Option ObjectId :=
  fun r => if r = s then target else link r

@[simp] theorem setLink_self (link : NodeSlot → Option ObjectId) (s : NodeSlot)
    (target : Option ObjectId) : setLink link s target s = target := if_pos rfl

theorem setLink_of_ne (link : NodeSlot → Option ObjectId) {s r : NodeSlot}
    (target : Option ObjectId) (h : r ≠ s) : setLink link s target r = link r := if_neg h

theorem tupleSet_of_node {h : Heap} {x : ObjectId} {link : NodeSlot → Option ObjectId}
    (hx : h.object x = .ok (.node link)) (s : NodeSlot) (target : Option ObjectId) :
    tupleSet x s.index (slotValue target) h =
      (.ok (), h.setObject x (.node (setLink link s target))) := by
  rw [tupleSet, tupleSlots, hx]
  cases s <;> rfl

end Heap

/-! ## Tries whose objects stay the same -/

/-- The shape of a node is read off its object and the labels of its maps. -/
theorem Trie.NodeShape.transfer {t : Trie} {h h' : Heap} {labels labels' : Labels} {x : ObjectId}
    {path : List Edge} (hx : t.NodeShape h labels x path) (hobject : h'.object x = h.object x)
    (hkeep : ∀ y p, p.root = t.root → labels y = some p → labels' y = some p) :
    t.NodeShape h' labels' x path := by
  have hlink := Heap.linkAt_congr hobject
  refine ⟨?_, hx.depth, fun s m hs hm => ?_, fun f hf => ?_⟩
  · rw [hobject, hlink]
    exact hx.isNode
  · rw [hlink] at hm
    exact hkeep m _ rfl (hx.map s m hs hm)
  · rw [hlink] at hf
    exact hx.terminal f hf

/-- The shape of a map is read off its object, the labels of the nodes in it, and
the objects in the heap. -/
theorem Trie.MapShape.transfer {t : Trie} {h h' : Heap} {labels labels' : Labels} {m : ObjectId}
    {path : List Edge} {s : NodeSlot} (hm : t.MapShape h labels m path s)
    (hobject : h'.object m = h.object m)
    (hkeep : ∀ y p, p.root = t.root → labels y = some p → labels' y = some p)
    (hmono : ∀ x, h.contains x = true → h'.contains x = true) : t.MapShape h' labels' m path s := by
  have hedge := Heap.edgeAt_congr hobject
  refine ⟨hm.short, ?_, fun c v hv => ?_, fun id v hv => ?_⟩
  · rw [hobject]
    exact hm.serves
  · rw [hedge] at hv
    obtain ⟨y, rfl, hy⟩ := hm.edge c v hv
    exact ⟨y, rfl, hkeep y _ rfl hy⟩
  · rw [hedge] at hv
    exact hmono id (hm.held id v hv)

noncomputable def Trie.restrictLabels (P : ObjectId → Prop) (labels : Labels) : Labels :=
  open Classical in fun x => if P x then labels x else none

theorem Trie.restrictLabels_eq_some {P : ObjectId → Prop} {labels : Labels} {x : ObjectId}
    {p : Place} : restrictLabels P labels x = some p ↔ P x ∧ labels x = some p := by
  rw [restrictLabels]
  split
  · next hx => exact (and_iff_right hx).symm
  · next hx => simp [hx]

namespace Trie.Labelled

variable {t : Trie} {h h' : Heap} {labels labels' : Labels} {x : ObjectId} {path : List Edge}

theorem contains (hL : t.Labelled h labels) {p : Place} (hx : labels x = some p)
    (hp : p.root = t.root) : h.contains x = true := by
  obtain ⟨root, path, slot⟩ := p
  obtain rfl : root = t.root := hp
  cases slot with
  | none => exact Heap.contains_of_object (hL.node x path hx).isNode
  | some s =>
    obtain ⟨o, ho, -⟩ := (hL.map x path s hx).serves
    exact Heap.contains_of_object ho

/-- A trie stays proper under every change that leaves its objects and the pin of
its root alone and loses no object. -/
theorem transfer (hL : t.Labelled h labels)
    (hlabels : ∀ x p, p.root = t.root → (labels' x = some p ↔ labels x = some p))
    (hobject : ∀ x p, labels x = some p → p.root = t.root → h'.object x = h.object x)
    (hroot : ∃ e, h'.entry? t.root = some e ∧ 0 < e.roots)
    (hmono : ∀ x, h.contains x = true → h'.contains x = true) : t.Labelled h' labels' where
  root := (hlabels _ _ rfl).2 hL.root
  pinned := hroot
  node x path hx := by
    have hx := (hlabels x _ rfl).1 hx
    exact (hL.node x path hx).transfer (hobject x _ hx rfl) fun y p hp => (hlabels y p hp).2
  map m path s hm := by
    have hm := (hlabels m _ rfl).1 hm
    exact (hL.map m path s hm).transfer (hobject m _ hm rfl)
      (fun y p hp => (hlabels y p hp).2) hmono

/-- Where one object of the trie is rewritten and labels are added, only that object
and the newly labelled ones need to be looked at. -/
theorem setObject (hL : t.Labelled h labels) (o : Object)
    (hkeep : ∀ y p, labels y = some p → labels' y = some p)
    (hnode : ∀ y path, labels' y = some (t.nodePlace path) →
      (y = x ∨ labels y ≠ some (t.nodePlace path)) →
        t.NodeShape (h.setObject x o) labels' y path)
    (hmap : ∀ y path s, labels' y = some (t.mapPlace path s) →
      (y = x ∨ labels y ≠ some (t.mapPlace path s)) →
        t.MapShape (h.setObject x o) labels' y path s) :
    t.Labelled (h.setObject x o) labels' where
  root := hkeep _ _ hL.root
  pinned := (Heap.frame_setObject (D := fun _ => True) h.entries.size h (fun _ => trivial) o).rooted
    (Heap.lt_of_contains (hL.contains hL.root rfl)) hL.pinned
  node y path hy := by
    by_cases hnew : y = x ∨ labels y ≠ some (t.nodePlace path)
    · exact hnode y path hy hnew
    · obtain ⟨hyx, hold⟩ := not_or.1 hnew
      exact (hL.node y path (Decidable.not_not.1 hold)).transfer (Heap.object_setObject_of_ne o hyx)
        fun z p _ => hkeep z p
  map y path s hy := by
    by_cases hnew : y = x ∨ labels y ≠ some (t.mapPlace path s)
    · exact hmap y path s hy hnew
    · obtain ⟨hyx, hold⟩ := not_or.1 hnew
      refine (hL.map y path s (Decidable.not_not.1 hold)).transfer
        (Heap.object_setObject_of_ne o hyx)
        (fun z p _ => hkeep z p) fun z hz => ?_
      rwa [Heap.contains_setObject]

/-- Rewriting a node changes only the children that hang in the slots that differ. -/
theorem child_setNode (hL : t.Labelled h labels) (hx : labels x = some (t.nodePlace path))
    {link : NodeSlot → Option ObjectId} {z : ObjectId} {p : List Edge}
    (hz : labels z = some (t.nodePlace p)) {c : Edge}
    (hsame : z = x → link c.slot = h.linkAt x c.slot) :
    Heap.child (h.setObject x (.node link)) z c = h.child z c := by
  have hlink : Heap.linkAt (h.setObject x (.node link)) z c.slot = h.linkAt z c.slot := by
    by_cases hzx : z = x
    · subst hzx
      rw [Heap.linkAt_of_node (Heap.object_setObject_self _ (hL.contains hx rfl)), hsame rfl]
    · rw [Heap.linkAt_congr (Heap.object_setObject_of_ne _ hzx)]
  rw [Heap.child, Heap.child, hlink]
  cases hm : h.linkAt z c.slot with
  | none => rfl
  | some m =>
    have hlabel := (hL.node z p hz).map _ m c.slot_ne_terminal hm
    have hmx : m ≠ x := fun e => by simp [e, hx, nodePlace, mapPlace] at hlabel
    simp only [Option.bind_some, Heap.edgeAt_congr (Heap.object_setObject_of_ne _ hmx)]

/-- Rewriting a map changes only the children under the edges that differ. -/
theorem child_setMap (hL : t.Labelled h labels) {m : ObjectId} {s : NodeSlot}
    (hm : labels m = some (t.mapPlace path s)) {o : Object} {z : ObjectId} {p : List Edge}
    (hz : labels z = some (t.nodePlace p)) {c : Edge}
    (hsame : h.linkAt z c.slot = some m → o.edge? c = h.edgeAt m c) :
    Heap.child (h.setObject m o) z c = h.child z c := by
  have hzm : z ≠ m := fun e => by simp [← e, hz, nodePlace, mapPlace] at hm
  rw [Heap.child, Heap.child, Heap.linkAt_congr (Heap.object_setObject_of_ne o hzm)]
  cases hm' : h.linkAt z c.slot with
  | none => rfl
  | some m' =>
    rw [Option.bind_some, Option.bind_some]
    by_cases hmm : m' = m
    · subst hmm
      rw [Heap.edgeAt_of_object (Heap.object_setObject_self o (hL.contains hm rfl)), hsame hm']
    · rw [Heap.edgeAt_congr (Heap.object_setObject_of_ne o hmm)]

/-- Labels can be taken off as long as the trie keeps its root, the maps of its nodes and
the children in its maps. -/
theorem restrictTo (hL : t.Labelled h labels) {P : ObjectId → Prop} (hroot : P t.root)
    (hmap : ∀ x path s m, P x → labels x = some (t.nodePlace path) → s ≠ .terminal →
      h.linkAt x s = some m → P m)
    (hchild : ∀ m path s c y, P m → labels m = some (t.mapPlace path s) →
      h.edgeAt m c = some (.object y) → P y) : t.Labelled h (restrictLabels P labels) where
  root := restrictLabels_eq_some.2 ⟨hroot, hL.root⟩
  pinned := hL.pinned
  node x path hx := by
    obtain ⟨hP, hx⟩ := restrictLabels_eq_some.1 hx
    have hnode := hL.node x path hx
    exact ⟨hnode.isNode, hnode.depth, fun s m hs hm =>
      restrictLabels_eq_some.2 ⟨hmap x path s m hP hx hs hm, hnode.map s m hs hm⟩, hnode.terminal⟩
  map m path s hm := by
    obtain ⟨hP, hm⟩ := restrictLabels_eq_some.1 hm
    have hshape := hL.map m path s hm
    refine ⟨hshape.short, hshape.serves, fun c v hv => ?_, hshape.held⟩
    obtain ⟨y, rfl, hy⟩ := hshape.edge c v hv
    exact ⟨y, rfl, restrictLabels_eq_some.2 ⟨hchild m path s c y hP hm hv, hy⟩⟩

/-- Only the objects that belong to the trie need their labels. -/
theorem restrict (hL : t.Labelled h labels) :
    ∃ labels', t.Labelled h labels' ∧ ∀ x p, labels' x = some p → labels x = some p ∧ t.Owns h x :=
  ⟨restrictLabels (t.Owns h) labels,
    hL.restrictTo .root (fun _ _ _ _ ho _ => .map ho) (fun _ _ _ _ _ ho _ => .child ho),
    fun _ _ hp => (restrictLabels_eq_some.1 hp).symm⟩

/-- Where the children of nodes are the same, every path ends where it ended. -/
theorem walk_congr (hL : t.Labelled h labels)
    (hchild : ∀ z p c, labels z = some (t.nodePlace p) → h'.child z c = h.child z c)
    (hx : labels x = some (t.nodePlace path)) (q : List Edge) : h'.walk x q = h.walk x q := by
  induction q generalizing x path with
  | nil => rfl
  | cons c rest ih =>
    rw [Heap.walk, Heap.walk, hchild x path c hx]
    cases hz : h.child x c with
    | none => rfl
    | some z => exact ih (hL.label_child hx hz)

/-- Where the children of nodes are the same, or lead to no closure before and
after, the same closures are found. -/
theorem find_congr (hL : t.Labelled h labels)
    (hchild : ∀ z p c, labels z = some (t.nodePlace p) → h'.child z c = h.child z c ∨
      ∀ q, ((h.child z c).bind fun w => h.find w q) = none ∧
        ((h'.child z c).bind fun w => h'.find w q) = none)
    (hterminal : ∀ z p, labels z = some (t.nodePlace p) →
      h'.linkAt z .terminal = h.linkAt z .terminal)
    (hx : labels x = some (t.nodePlace path)) (q : List Edge) : h'.find x q = h.find x q := by
  induction q generalizing x path with
  | nil => exact hterminal x path hx
  | cons c rest ih =>
    rw [Heap.find_cons, Heap.find_cons]
    rcases hchild x path c hx with hsame | hnone
    · rw [hsame]
      cases hz : h.child x c with
      | none => rfl
      | some z => exact ih (hL.label_child hx hz)
    · rw [(hnone rest).1, (hnone rest).2]

/-- Where the objects of the trie are the same, so are the children of its nodes. -/
theorem child_transfer (hL : t.Labelled h labels)
    (hobject : ∀ x p, labels x = some p → p.root = t.root → h'.object x = h.object x)
    (hx : labels x = some (t.nodePlace path)) (c : Edge) : h'.child x c = h.child x c :=
  Heap.child_congr (hobject x _ hx rfl) fun m hm =>
    hobject m _ ((hL.node x path hx).map _ m c.slot_ne_terminal hm) rfl

/-- Where the objects of the trie are the same, the same closures are found. -/
theorem find_transfer (hL : t.Labelled h labels)
    (hobject : ∀ x p, labels x = some p → p.root = t.root → h'.object x = h.object x)
    (hx : labels x = some (t.nodePlace path)) (q : List Edge) : h'.find x q = h.find x q := by
  refine hL.find_congr (fun z p c hz => .inl (hL.child_transfer hobject hz c))
    (fun z p hz => ?_) hx q
  rw [Heap.linkAt_congr (hobject z _ hz rfl)]

end Trie.Labelled

end ClosureCache
