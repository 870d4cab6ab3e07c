/-
How a trie grows when a closure is inserted.

An insertion makes the missing nodes on the path of its key one by one and writes
the closure into the last of them.  `Grows` is what holds from one of these steps
to the next: the trie stays proper, its old objects keep their labels and their
children, and the only new labels are on new objects.  Each step is a rewrite of
one object, so what it preserves is checked at that object.
-/
import Mathlib.Logic.Function.Basic
import ClosureCache.Proofs.Cache.Change

namespace ClosureCache

/-- Whether a place is on a path: a node that the path goes through, or the map by which
it leaves one. -/
def Place.Along (p : Place) (path : List Edge) : Prop :=
  match p.slot with
  | none => p.path <+: path
  | some s => ∃ c, c.slot = s ∧ p.path ++ [c] <+: path

namespace Trie

/-- The objects whose labels name the trie. -/
def Member (t : Trie) (labels : Labels) (x : ObjectId) : Prop :=
  ∃ p, labels x = some p ∧ p.root = t.root

theorem member_of_node {t : Trie} {labels : Labels} {x : ObjectId} {path : List Edge}
    (hx : labels x = some (t.nodePlace path)) : t.Member labels x := ⟨_, hx, rfl⟩

theorem member_of_map {t : Trie} {labels : Labels} {x : ObjectId} {path : List Edge} {s : NodeSlot}
    (hx : labels x = some (t.mapPlace path s)) : t.Member labels x := ⟨_, hx, rfl⟩

/-- The objects of the trie on a path, by their labels. -/
def MemberAlong (t : Trie) (labels : Labels) (path : List Edge) (x : ObjectId) : Prop :=
  ∃ p, labels x = some p ∧ p.root = t.root ∧ p.Along path

/-- Labels stand on objects with numbers below `n` only, and name roots there. -/
def Below (labels : Labels) (n : Nat) : Prop :=
  ∀ x p, labels x = some p → x.index < n ∧ p.root.index < n

theorem Below.eq_none {labels : Labels} {n : Nat} (hB : Below labels n) {x : ObjectId}
    (hx : n ≤ x.index) : labels x = none := by
  by_contra hne
  obtain ⟨p, hp⟩ := Option.ne_none_iff_exists'.1 hne
  exact absurd (hB x p hp).1 (Nat.not_lt.2 hx)

/-- What adding objects to a trie makes of a heap and its labels.  The new objects
have numbers from `n` on, and of the old ones only those in `D` are written. -/
structure Grows (t : Trie) (D : ObjectId → Prop) (n : Nat) (h : Heap) (labels : Labels) (h' : Heap)
    (labels' : Labels) : Prop where
  labelled : t.Labelled h' labels'
  below : Below labels' h'.entries.size
  frame : Heap.Frame D n h h'
  keep : ∀ x p, labels x = some p → labels' x = some p
  fresh : ∀ x p, labels' x = some p → labels x = some p ∨ p.root = t.root ∧ n ≤ x.index
  child : ∀ x path c y, labels x = some (t.nodePlace path) → h.child x c = some y →
    h'.child x c = some y
  /-- Objects that are no parts of tries are neither added nor changed. -/
  plain : ∀ x o, h'.object x = .ok o → o.isPart = false → h.object x = .ok o

namespace Grows

variable {t : Trie} {D : ObjectId → Prop} {n : Nat} {h h₁ h₂ : Heap}
  {labels labels₁ labels₂ : Labels}

theorem refl (D : ObjectId → Prop) (n : Nat) (hL : t.Labelled h labels)
    (hB : Below labels h.entries.size) : t.Grows D n h labels h labels :=
  ⟨hL, hB, .refl .., fun _ _ hx => hx, fun _ _ hx => .inl hx, fun _ _ _ _ _ hy => hy,
    fun _ _ ho _ => ho⟩

theorem trans (a : t.Grows D n h labels h₁ labels₁) (b : t.Grows D n h₁ labels₁ h₂ labels₂) :
    t.Grows D n h labels h₂ labels₂ where
  labelled := b.labelled
  below := b.below
  frame := a.frame.trans b.frame
  keep x p hx := b.keep x p (a.keep x p hx)
  fresh x p hx := by
    rcases b.fresh x p hx with hx | hx
    · exact a.fresh x p hx
    · exact .inr hx
  child x path c y hx hy := b.child x path c y (a.keep x _ hx) (a.child x path c y hx hy)
  plain x o hx ho := a.plain x o (b.plain x o hx ho) ho

theorem weaken {D' : ObjectId → Prop} {n' : Nat} (a : t.Grows D n h labels h₁ labels₁)
    (hD : ∀ x, x.index < n' → D x → D' x) (hn : n' ≤ n) : t.Grows D' n' h labels h₁ labels₁ where
  labelled := a.labelled
  below := a.below
  frame := a.frame.weaken hD hn
  keep := a.keep
  fresh x p hx := (a.fresh x p hx).imp_right fun hp => ⟨hp.1, Nat.le_trans hn hp.2⟩
  child := a.child
  plain := a.plain

/-- The old objects on a path were on it before. -/
theorem memberAlong {path : List Edge} (a : t.Grows D n h labels h₁ labels₁) {x : ObjectId}
    (hlt : x.index < n) (hx : t.MemberAlong labels₁ path x) : t.MemberAlong labels path x := by
  obtain ⟨p, hp, hroot, halong⟩ := hx
  exact ⟨p, (a.fresh x p hp).resolve_right fun hnew => Nat.not_le_of_lt hlt hnew.2, hroot, halong⟩

/-- Where one could walk, one still can. -/
theorem walk (a : t.Grows D n h labels h₁ labels₁) (hL : t.Labelled h labels) {x y : ObjectId}
    {path q : List Edge} (hx : labels x = some (t.nodePlace path)) (hy : h.walk x q = some y) :
    h₁.walk x q = some y := by
  induction q generalizing x path with
  | nil => exact hy
  | cons c rest ih =>
    obtain ⟨z, hz, hy⟩ := Option.bind_eq_some_iff.1 hy
    rw [Heap.walk, a.child x path c z hx hz]
    exact ih (hL.label_child hx hz) hy

end Grows

/-- Growth that adds no closure. -/
structure Deepens (t : Trie) (D : ObjectId → Prop) (n : Nat) (h : Heap) (labels : Labels)
    (h' : Heap) (labels' : Labels) : Prop extends Grows t D n h labels h' labels' where
  find : ∀ x path, labels x = some (t.nodePlace path) → ∀ q, h'.find x q = h.find x q

namespace Deepens

variable {t : Trie} {D : ObjectId → Prop} {n : Nat} {h h₁ h₂ : Heap}
  {labels labels₁ labels₂ : Labels}

theorem refl (D : ObjectId → Prop) (n : Nat) (hL : t.Labelled h labels)
    (hB : Below labels h.entries.size) : t.Deepens D n h labels h labels :=
  ⟨.refl D n hL hB, fun _ _ _ _ => rfl⟩

theorem trans (a : t.Deepens D n h labels h₁ labels₁) (b : t.Deepens D n h₁ labels₁ h₂ labels₂) :
    t.Deepens D n h labels h₂ labels₂ :=
  ⟨a.toGrows.trans b.toGrows, fun x path hx q =>
    (b.find x path (a.keep x _ hx) q).trans (a.find x path hx q)⟩

theorem weaken {D' : ObjectId → Prop} {n' : Nat} (a : t.Deepens D n h labels h₁ labels₁)
    (hD : ∀ x, x.index < n' → D x → D' x) (hn : n' ≤ n) : t.Deepens D' n' h labels h₁ labels₁ :=
  ⟨a.toGrows.weaken hD hn, a.find⟩

end Deepens

/-! ## The steps

An object is allocated, a map is hung into a slot of a node, a node is hung into a
map, and a closure is written into a node. -/

section Steps

variable {t : Trie} {D : ObjectId → Prop} {h : Heap} {labels : Labels} {n : Nat} {x : ObjectId}
  {path : List Edge}

/-- A new object is no part of the trie. -/
theorem Labelled.grows_allocate (hL : t.Labelled h labels) (hB : Below labels h.entries.size)
    (D : ObjectId → Prop) (hn : n ≤ h.entries.size) {o : Object} (ho : o.isPart = true) :
    t.Deepens D n h labels (h.allocate o).2 labels := by
  have hsame : ∀ x p, labels x = some p → p.root = t.root →
      Heap.object (h.allocate o).2 x = h.object x := fun x p hx hp =>
    Heap.object_allocate_of_contains o (hL.contains hx hp)
  have hframe := Heap.frame_allocate D hn o
  have hroot : t.root.index < h.entries.size :=
    Heap.lt_of_contains (hL.contains hL.root rfl)
  have hpin := (Heap.frame_allocate D (Nat.le_refl _) o).rooted hroot hL.pinned
  refine ⟨⟨?_, ?_, hframe, fun _ _ hx => hx, fun _ _ hx => .inl hx,
    fun x path c y hx hy => (hL.child_transfer hsame hx c).trans hy, fun x o' hx ho' => ?_⟩,
    fun x path hx q => hL.find_transfer hsame hx q⟩
  · exact hL.transfer (fun _ _ _ => Iff.rfl) hsame hpin hframe.mono
  · intro x p hx
    have := hB x p hx
    simp only [Heap.size_allocate]
    omega
  · exact (Heap.object_of_allocate hx).resolve_left fun e => by simp [e, ho] at ho'

/-- Rewriting an object in `D`, or one that is new, stays within the frame. -/
theorem frame_setObject_of_mem (hx : D x ∨ n ≤ x.index) (o : Object) :
    Heap.Frame D n h (h.setObject x o) := by
  refine Heap.frame_setObject n h (fun hlt => ?_) o
  rcases hx with hx | hx
  · exact hx
  · omega

/-- Writing a part of a trie adds no other object. -/
theorem plain_setObject {y : ObjectId} {o : Object} (ho : o.isPart = true) :
    ∀ x o', Heap.object (h.setObject y o) x = .ok o' → o'.isPart = false → h.object x = .ok o' :=
  fun _ _ hx ho' => (Heap.object_of_setObject hx).resolve_left fun e => by simp [e, ho] at ho'

/-- Labelling an object that bears no label takes no label away. -/
theorem update_of_unlabelled {m : ObjectId} (hm : labels m = none) (p : Place) {y : ObjectId}
    {q : Place} (hy : labels y = some q) : Function.update labels m (some p) y = some q := by
  rwa [Function.update_of_ne (fun e => by simp [e, hm] at hy)]

theorem of_update {m : ObjectId} {p : Place} {y : ObjectId} {q : Place}
    (hy : Function.update labels m (some p) y = some q) : y = m ∧ q = p ∨ labels y = some q := by
  by_cases hym : y = m
  · rw [hym, Function.update_self] at hy
    exact .inl ⟨hym, (Option.some.inj hy).symm⟩
  · rw [Function.update_of_ne hym] at hy
    exact .inr hy

theorem Below.update (hB : Below labels h.entries.size) (hL : t.Labelled h labels) {y : ObjectId}
    (hy : h.contains y = true) {p : Place} (hp : p.root = t.root) :
    Below (Function.update labels y (some p)) h.entries.size := by
  intro z q hz
  rcases of_update hz with ⟨rfl, rfl⟩ | hold
  · exact ⟨Heap.lt_of_contains hy, hp ▸ (hB _ _ hL.root).1⟩
  · exact hB z q hold

/-- What is left to show when a new part is hung into an object of the trie: that the parts
have their shapes, and that no child is lost and nothing more is found. -/
theorem Labelled.deepens_setObject (hL : t.Labelled h labels) (hB : Below labels h.entries.size)
    {y : ObjectId} {o : Object} (hxD : D x ∨ n ≤ x.index) (ho : o.isPart = true)
    (hy : h.contains y = true) (hlabel : labels y = none) (hn : n ≤ y.index) {p : Place}
    (hp : p.root = t.root)
    (hlabelled : t.Labelled (h.setObject x o) (Function.update labels y (some p)))
    (hchild : ∀ z r c w, labels z = some (t.nodePlace r) → h.child z c = some w →
      Heap.child (h.setObject x o) z c = some w)
    (hfind : ∀ z r, labels z = some (t.nodePlace r) → ∀ q,
      Heap.find (h.setObject x o) z q = h.find z q) :
    t.Deepens D n h labels (h.setObject x o) (Function.update labels y (some p)) := by
  refine ⟨⟨hlabelled, ?_, frame_setObject_of_mem hxD _,
    fun _ _ => update_of_unlabelled hlabel _, fun z q hz => ?_, hchild, plain_setObject ho⟩, hfind⟩
  · rw [Heap.size_setObject]
    exact hB.update hL hy hp
  · rcases of_update hz with ⟨rfl, rfl⟩ | hold
    · exact .inr ⟨hp, hn⟩
    · exact .inl hold

/-- An empty map in a slot of a node that is not at full depth has its shape. -/
theorem Labelled.hangMap (hL : t.Labelled h labels) (hx : labels x = some (t.nodePlace path))
    {s : NodeSlot} (hs : s ≠ .terminal) (hshort : path.length < t.arity) {m : ObjectId}
    {o : Object} (hm : h.object m = .ok o) (hserves : o.Serves s)
    (hempty : ∀ c, o.edge? c = none) (hlabel : labels m = none) :
    t.Labelled (h.setObject x (.node (Heap.setLink (h.linkAt x) s (some m))))
      (Function.update labels m (some (t.mapPlace path s))) := by
  have hxo := Heap.object_setObject_self (.node (Heap.setLink (h.linkAt x) s (some m)))
    (hL.contains hx rfl)
  have hxlink := Heap.linkAt_of_node hxo
  have hmx : m ≠ x := fun e => by simp [← e, hlabel] at hx
  have hmo : Heap.object (h.setObject x (.node (Heap.setLink (h.linkAt x) s (some m)))) m =
      .ok o := (Heap.object_setObject_of_ne _ hmx).trans hm
  have hkeep : ∀ y p, labels y = some p →
      Function.update labels m (some (t.mapPlace path s)) y = some p :=
    fun y p => update_of_unlabelled hlabel _
  refine hL.setObject _ hkeep (fun y p hy hnew => ?_) (fun y p r hy hnew => ?_)
  · rcases of_update hy with ⟨rfl, hp⟩ | hold
    · simp [nodePlace, mapPlace] at hp
    · obtain rfl := hnew.resolve_right (not_not_intro hold)
      obtain rfl : p = path := by simpa [nodePlace, hx] using hold.symm
      have hnode := hL.node y p hx
      refine ⟨by rw [hxlink]; exact hxo, hnode.depth, fun r m' hr hm' => ?_, fun f hf => ?_⟩
      · rw [hxlink] at hm'
        by_cases hrs : r = s
        · subst hrs
          rw [Heap.setLink_self] at hm'
          rw [← Option.some.inj hm', Function.update_self]
        · rw [Heap.setLink_of_ne _ _ hrs] at hm'
          exact hkeep m' _ (hnode.map r m' hr hm')
      · rw [hxlink, Heap.setLink_of_ne _ _ hs.symm] at hf
        exact hnode.terminal f hf
  · rcases of_update hy with ⟨rfl, hp⟩ | hold
    · obtain ⟨rfl, rfl⟩ : p = path ∧ r = s := by simpa [mapPlace] using hp
      refine ⟨hshort, ⟨o, hmo, hserves⟩, fun c v hv => ?_, fun id v hv => ?_⟩ <;>
        simp [Heap.edgeAt_of_object hmo, hempty] at hv
    · obtain rfl := hnew.resolve_right (not_not_intro hold)
      simp [nodePlace, mapPlace, hx] at hold

/-- An empty map in a free slot leads no further than the free slot did. -/
theorem Labelled.child_hangMap (hL : t.Labelled h labels) (hx : labels x = some (t.nodePlace path))
    {s : NodeSlot} (hfree : h.linkAt x s = none) {m : ObjectId} {o : Object}
    (hm : h.object m = .ok o) (hempty : ∀ c, o.edge? c = none) (hlabel : labels m = none)
    {z : ObjectId} {p : List Edge} (hz : labels z = some (t.nodePlace p)) (c : Edge) :
    Heap.child (h.setObject x (.node (Heap.setLink (h.linkAt x) s (some m)))) z c =
      h.child z c := by
  have hmx : m ≠ x := fun e => by simp [← e, hlabel] at hx
  by_cases hzc : z = x ∧ c.slot = s
  · obtain ⟨rfl, rfl⟩ := hzc
    rw [Heap.child, Heap.child,
      Heap.linkAt_of_node (Heap.object_setObject_self _ (hL.contains hx rfl)), Heap.setLink_self,
      hfree, Option.bind_some, Heap.edgeAt_of_object ((Heap.object_setObject_of_ne _ hmx).trans hm),
      hempty]
    rfl
  · exact hL.child_setNode hx hz fun e => Heap.setLink_of_ne _ _ fun e' => hzc ⟨e, e'⟩

/-- An empty map can be hung into a free slot of a node. -/
theorem Labelled.grows_hangMap (hL : t.Labelled h labels) (hB : Below labels h.entries.size)
    (D : ObjectId → Prop) (hx : labels x = some (t.nodePlace path)) (hxD : D x ∨ n ≤ x.index)
    {s : NodeSlot} (hs : s ≠ .terminal) (hfree : h.linkAt x s = none)
    (hshort : path.length < t.arity) {m : ObjectId} {o : Object} (hm : h.object m = .ok o)
    (hserves : o.Serves s) (hempty : ∀ c, o.edge? c = none)
    (hlabel : labels m = none) (hn : n ≤ m.index) :
    t.Deepens D n h labels (h.setObject x (.node (Heap.setLink (h.linkAt x) s (some m))))
      (Function.update labels m (some (t.mapPlace path s))) := by
  have hchild : ∀ z p c, labels z = some (t.nodePlace p) →
      Heap.child (h.setObject x (.node (Heap.setLink (h.linkAt x) s (some m)))) z c =
        h.child z c := fun z p c hz => hL.child_hangMap hx hfree hm hempty hlabel hz c
  refine hL.deepens_setObject hB hxD (Object.isPart_node _) (Heap.contains_of_object hm) hlabel hn
    rfl (hL.hangMap hx hs hshort hm hserves hempty hlabel)
    (fun z p c y hz hy => (hchild z p c hz).trans hy) fun z p hz q => ?_
  refine hL.find_congr (fun w r c hw => .inl (hchild w r c hw)) (fun w r hw => ?_) hz q
  by_cases hwx : w = x
  · rw [hwx, Heap.linkAt_of_node (Heap.object_setObject_self _ (hL.contains hx rfl)),
      Heap.setLink_of_ne _ _ hs.symm]
  · rw [Heap.linkAt_congr (Heap.object_setObject_of_ne _ hwx)]

/-- Nothing is found below a node without links. -/
theorem find_of_blank {h : Heap} {y : ObjectId} (hy : h.linkAt y = fun _ => none) (q : List Edge) :
    h.find y q = none := by
  cases q with
  | nil => rw [Heap.find_nil, hy]
  | cons c rest =>
    rw [Heap.find_cons, Heap.child, hy]
    rfl

/-- A blank node under an edge of a map has its shape. -/
theorem Labelled.hangNode (hL : t.Labelled h labels) {m : ObjectId} {s : NodeSlot}
    (hm : labels m = some (t.mapPlace path s)) {c : Edge} {y : ObjectId}
    (hy : h.object y = .ok (.node fun _ => none)) {o : Object} (hserves : o.Serves s)
    (hedge : ∀ d, o.edge? d = if d = c then some (.object y) else h.edgeAt m d)
    (hheld : ∀ id, c = .object id → h.contains id = true) (hlabel : labels y = none)
    (hdepth : path.length < y.index) :
    t.Labelled (h.setObject m o)
      (Function.update labels y (some (t.nodePlace (path ++ [c])))) := by
  have hmo := Heap.object_setObject_self o (hL.contains hm rfl)
  have hmedge := Heap.edgeAt_of_object hmo
  have hym : y ≠ m := fun e => by simp [← e, hlabel] at hm
  have hyo : Heap.object (h.setObject m o) y = .ok (.node fun _ => none) :=
    (Heap.object_setObject_of_ne o hym).trans hy
  have hylink := Heap.linkAt_of_node hyo
  have hkeep : ∀ z p, labels z = some p →
      Function.update labels y (some (t.nodePlace (path ++ [c]))) z = some p :=
    fun z p => update_of_unlabelled hlabel _
  refine hL.setObject _ hkeep (fun z p hz hnew => ?_) (fun z p r hz hnew => ?_)
  · rcases of_update hz with ⟨rfl, hp⟩ | hold
    · obtain rfl : p = path ++ [c] := by simpa [nodePlace] using hp
      refine ⟨hylink ▸ hyo, ?_, fun r m' _ hm' => ?_, fun f hf => ?_⟩
      · rw [List.length_append, List.length_singleton]
        omega
      · simp [hylink] at hm'
      · simp [hylink] at hf
    · obtain rfl := hnew.resolve_right (not_not_intro hold)
      simp [nodePlace, mapPlace, hm] at hold
  · rcases of_update hz with ⟨rfl, hp⟩ | hold
    · simp [nodePlace, mapPlace] at hp
    · obtain rfl := hnew.resolve_right (not_not_intro hold)
      obtain ⟨rfl, rfl⟩ : p = path ∧ r = s := by
        simpa [mapPlace, hm, eq_comm] using hold
      have hmap := hL.map z p r hm
      refine ⟨hmap.short, ⟨o, hmo, hserves⟩, fun d v hv => ?_, fun id v hv => ?_⟩
      · rw [hmedge, hedge] at hv
        split at hv
        · next hd =>
          obtain rfl := Option.some.inj hv
          exact ⟨y, rfl, by rw [hd, Function.update_self]⟩
        · obtain ⟨w, rfl, hw⟩ := hmap.edge d v hv
          exact ⟨w, rfl, hkeep w _ hw⟩
      · rw [hmedge, hedge] at hv
        rw [Heap.contains_setObject]
        split at hv
        · next hd => exact hheld id hd.symm
        · exact hmap.held id v hv

/-- A blank node can be hung under a free edge of a map. -/
theorem Labelled.grows_hangNode (hL : t.Labelled h labels) (hB : Below labels h.entries.size)
    (D : ObjectId → Prop) {m : ObjectId} {s : NodeSlot} (hm : labels m = some (t.mapPlace path s))
    (hmD : D m ∨ n ≤ m.index) {c : Edge} (hfree : h.edgeAt m c = none) {y : ObjectId}
    (hy : h.object y = .ok (.node fun _ => none)) {o : Object} (hserves : o.Serves s)
    (hedge : ∀ d, o.edge? d = if d = c then some (.object y) else h.edgeAt m d)
    (hheld : ∀ id, c = .object id → h.contains id = true) (hlabel : labels y = none)
    (hdepth : path.length < y.index) (hn : n ≤ y.index) :
    t.Deepens D n h labels (h.setObject m o)
      (Function.update labels y (some (t.nodePlace (path ++ [c])))) := by
  have hlinks : ∀ w r, labels w = some (t.nodePlace r) →
      Heap.linkAt (h.setObject m o) w = h.linkAt w := fun w r hw =>
    Heap.linkAt_congr (Heap.object_setObject_of_ne o fun e => by
      simp [← e, hw, nodePlace, mapPlace] at hm)
  have hother : ∀ z p d, labels z = some (t.nodePlace p) → (h.linkAt z d.slot = some m → d ≠ c) →
      Heap.child (h.setObject m o) z d = h.child z d := fun z p d hz hd =>
    hL.child_setMap hm hz fun hzm => (hedge d).trans (if_neg (hd hzm))
  refine hL.deepens_setObject hB hmD hserves.isPart (Heap.contains_of_object hy) hlabel hn rfl
    (hL.hangNode hm hy hserves hedge hheld hlabel hdepth)
    (fun z p d w hz hw => ?_) fun z p hz q => ?_
  · rw [hother z p d hz, hw]
    rintro hzm rfl
    rw [Heap.child, hzm, Option.bind_some, hfree] at hw
    exact absurd hw (by simp)
  · refine hL.find_congr (fun w r d hw => ?_) (fun w r hw => congrFun (hlinks w r hw) _) hz q
    by_cases hd : h.linkAt w d.slot = some m ∧ d = c
    · obtain ⟨hwm, rfl⟩ := hd
      have hym : y ≠ m := fun e => by simp [← e, hlabel] at hm
      have hylink := Heap.linkAt_of_node ((Heap.object_setObject_of_ne o hym).trans hy)
      have hmedge := Heap.edgeAt_of_object (Heap.object_setObject_self o (hL.contains hm rfl))
      -- the edge leads to nothing before, and to the blank node after
      refine .inr fun q => ⟨?_, ?_⟩
      · rw [Heap.child, hwm, Option.bind_some, hfree]
        rfl
      · rw [Heap.child, hlinks w r hw, hwm, Option.bind_some, hmedge, hedge, if_pos rfl]
        exact find_of_blank hylink q
    · exact .inl (hother w r d hw fun hwm e => hd ⟨hwm, e⟩)

/-- The closure of a node at full depth can be set, and is found there. -/
theorem Labelled.grows_setTerminal (hL : t.Labelled h labels) (hB : Below labels h.entries.size)
    (D : ObjectId → Prop) (hx : labels x = some (t.nodePlace path)) (hxD : D x ∨ n ≤ x.index)
    (hwalk : h.walk t.root path = some x) (hfull : path.length = t.arity) (f : ObjectId) :
    t.Grows D n h labels (h.setObject x (.node (Heap.setLink (h.linkAt x) .terminal (some f))))
        labels ∧
      ∀ q, Heap.find (h.setObject x (.node (Heap.setLink (h.linkAt x) .terminal (some f))))
          t.root q = if q = path then some f else h.find t.root q := by
  have hxo := Heap.object_setObject_self (.node (Heap.setLink (h.linkAt x) .terminal (some f)))
    (hL.contains hx rfl)
  have hxlink := Heap.linkAt_of_node hxo
  have hchild : ∀ z p c, labels z = some (t.nodePlace p) →
      Heap.child (h.setObject x (.node (Heap.setLink (h.linkAt x) .terminal (some f)))) z c =
        h.child z c := fun z p c hz =>
    hL.child_setNode hx hz fun _ => Heap.setLink_of_ne _ _ c.slot_ne_terminal
  refine ⟨⟨hL.setObject _ (fun _ _ hy => hy) ?_ ?_, ?_,
    frame_setObject_of_mem hxD _, fun _ _ hy => hy,
    fun _ _ hy => .inl hy, fun z p c w hz hw => (hchild z p c hz).trans hw,
    plain_setObject (Object.isPart_node _)⟩, fun q => ?_⟩
  · intro y p hy hnew
    obtain rfl := hnew.resolve_right (not_not_intro hy)
    obtain rfl : p = path := by simpa [nodePlace, hx] using hy.symm
    have hnode := hL.node y p hx
    refine ⟨by rw [hxlink]; exact hxo, hnode.depth, fun r m hr hm => ?_, fun _ _ => hfull⟩
    rw [hxlink, Heap.setLink_of_ne _ _ hr] at hm
    exact hnode.map r m hr hm
  · intro y p r hy hnew
    obtain rfl := hnew.resolve_right (not_not_intro hy)
    simp [nodePlace, mapPlace, hx] at hy
  · intro y p hy
    rw [Heap.size_setObject]
    exact hB y p hy
  · rw [Heap.find, Heap.find, hL.walk_congr hchild hL.root q]
    cases hz : h.walk t.root q with
    | none =>
      rw [if_neg]
      · rfl
      · rintro rfl
        simp [hwalk] at hz
    | some z =>
      rw [Option.bind_some, Option.bind_some]
      by_cases hzx : z = x
      · -- a node stands at the end of one path only
        have hq : q = path := by
          have := hL.label_walk hL.root hz
          rw [hzx, hx] at this
          simpa [nodePlace] using this.symm
        rw [if_pos hq, hzx, hxlink, Heap.setLink_self]
      · have hq : q ≠ path := fun e => hzx (Option.some.inj ((e ▸ hz).symm.trans hwalk))
        rw [if_neg hq, Heap.linkAt_congr (Heap.object_setObject_of_ne _ hzx)]

end Steps

end Trie

end ClosureCache
