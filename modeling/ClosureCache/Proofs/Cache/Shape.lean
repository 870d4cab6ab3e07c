/-
The shape of a proper trie in a heap.

A trie is read through two partial functions: `linkAt`, the object that a slot of
a node leads to, and `edgeAt`, what a map holds for an edge.  `child`, `walk` and
`find` follow them, and are total and pure where the operations of the cache can
fail.

`Labelled` is the invariant.  Every object of the trie bears a label that says
which node or which map of which trie it is, and every condition on the objects is
about one object and the labels of those it leads to.  A label determines the path
from the root, so no object stands in two places, and a change of one object can
be checked at that object alone.  Two tries in one heap share the labelling and
differ in the root that the labels name.
-/
import ClosureCache.Cache.Trie
import ClosureCache.Proofs.Heap.Reachability

namespace ClosureCache

/-! ## Edges -/

/-- What a component of a key selects among the children of a node: an object and
a cell are both selected by their identity. -/
inductive Edge where
  | primitive (p : Primitive)
  | object (id : ObjectId)
deriving DecidableEq, Repr

/-- The slot of a node that leads to the children under an edge. -/
def Edge.slot : Edge → NodeSlot
  | primitive _ => .primitive
  | object _ => .weak

def KeyComponent.edge : KeyComponent → Edge
  | primitive p => .primitive p
  | objectRef id => .object id
  | cellRef id => .object id

/-- The way that a key takes through a trie. -/
def Key.path (k : Key) : List Edge := k.components.map KeyComponent.edge

theorem Trie.slotOf_eq (c : KeyComponent) : Trie.slotOf c = c.edge.slot := by
  cases c <;> rfl

theorem Edge.slot_ne_terminal (c : Edge) : c.slot ≠ .terminal := by
  cases c <;> simp [Edge.slot]

/-! ## Reading a trie -/

/-- What a slot of a node holds when it leads to an object or to nothing. -/
def slotValue : Option ObjectId → Value
  | none => .undefined
  | some x => .object x

/-- The object of a node whose slots lead to the given objects. -/
def Object.node (link : NodeSlot → Option ObjectId) : Object :=
  .tuple #[slotValue (link .primitive), slotValue (link .weak), slotValue (link .terminal)]

/-- The object that a slot of a node leads to. -/
def Object.link? : Object → NodeSlot → Option ObjectId
  | .tuple slots, s => (slots[s.index]?).bind Value.object?
  | _, _ => none

def Object.edge? : Object → Edge → Option Value
  | .strongMap entries, .primitive p => entries.get? p
  | .weakMap entries, .object id => entries.get? id
  | _, _ => none

/-- Whether an object can stand in a slot of a node as the map of its children. -/
def Object.Serves : Object → NodeSlot → Prop
  | .strongMap _, .primitive => True
  | .weakMap _, .weak => True
  | _, _ => False

/-- Whether an object is of a kind that tries are built from, and nothing else. -/
def Object.isPart : Object → Bool
  | .tuple _ => true
  | .strongMap _ => true
  | .weakMap _ => true
  | _ => false

theorem Object.isPart_node (link : NodeSlot → Option ObjectId) : (node link).isPart = true := rfl

theorem Object.Serves.isPart {o : Object} {s : NodeSlot} (ho : o.Serves s) : o.isPart = true := by
  cases o <;> cases s <;> simp only [Object.Serves] at ho <;> rfl

namespace Heap

/-- The object that a slot of a node in the heap leads to. -/
def linkAt (h : Heap) (x : ObjectId) (s : NodeSlot) : Option ObjectId :=
  (h.entry? x).bind fun e => e.object.link? s

def edgeAt (h : Heap) (m : ObjectId) (c : Edge) : Option Value :=
  (h.entry? m).bind fun e => e.object.edge? c

def child (h : Heap) (x : ObjectId) (c : Edge) : Option ObjectId :=
  (h.linkAt x c.slot).bind fun m => (h.edgeAt m c).bind Value.object?

def walk (h : Heap) : ObjectId → List Edge → Option ObjectId
  | x, [] => some x
  | x, c :: rest => (h.child x c).bind fun y => h.walk y rest

/-- The closure at the end of a path that starts at a node. -/
def find (h : Heap) (x : ObjectId) (path : List Edge) : Option ObjectId :=
  (h.walk x path).bind fun y => h.linkAt y .terminal

theorem find_nil (h : Heap) (x : ObjectId) : h.find x [] = h.linkAt x .terminal := rfl

theorem find_cons (h : Heap) (x : ObjectId) (c : Edge) (rest : List Edge) :
    h.find x (c :: rest) = (h.child x c).bind fun y => h.find y rest := by
  show ((h.child x c).bind fun y => h.walk y rest).bind _ = _
  rw [Option.bind_assoc]
  rfl

theorem child_eq_some_iff {h : Heap} {x y : ObjectId} {c : Edge} :
    h.child x c = some y ↔ ∃ m, h.linkAt x c.slot = some m ∧ h.edgeAt m c = some (.object y) := by
  simp only [child, Option.bind_eq_some_iff, Value.object?_eq_some, exists_eq_right]

theorem walk_append (h : Heap) (x : ObjectId) (q r : List Edge) :
    h.walk x (q ++ r) = (h.walk x q).bind fun y => h.walk y r := by
  induction q generalizing x with
  | nil => rfl
  | cons c rest ih =>
    rw [List.cons_append, walk, walk, Option.bind_assoc]
    exact congrArg _ (funext ih)

/-- The last step of a walk. -/
theorem walk_concat (h : Heap) (x : ObjectId) (q : List Edge) (c : Edge) :
    h.walk x (q ++ [c]) = (h.walk x q).bind fun y => h.child y c := by
  rw [walk_append]
  exact congrArg _ (funext fun y => Option.bind_fun_some (h.child y c))

/-- Where the objects are the same, what is read of them is the same. -/
theorem map_object_congr {h h' : Heap} {x : ObjectId} (he : h'.object x = h.object x) :
    (h'.entry? x).map HeapEntry.object = (h.entry? x).map HeapEntry.object := by
  rw [object, object] at he
  cases h1 : h.entry? x <;> cases h2 : h'.entry? x <;> simp_all

theorem linkAt_congr {h h' : Heap} {x : ObjectId} (he : h'.object x = h.object x) :
    h'.linkAt x = h.linkAt x := by
  funext s
  have := map_object_congr he
  rw [linkAt, linkAt]
  cases h1 : h.entry? x <;> cases h2 : h'.entry? x <;> simp_all

theorem edgeAt_congr {h h' : Heap} {m : ObjectId} (he : h'.object m = h.object m) :
    h'.edgeAt m = h.edgeAt m := by
  funext c
  have := map_object_congr he
  rw [edgeAt, edgeAt]
  cases h1 : h.entry? m <;> cases h2 : h'.entry? m <;> simp_all

theorem object?_slotValue (l : Option ObjectId) : (slotValue l).object? = l := by
  cases l <;> rfl

theorem linkAt_of_node {h : Heap} {x : ObjectId} {link : NodeSlot → Option ObjectId}
    (hx : h.object x = .ok (.node link)) : h.linkAt x = link := by
  funext s
  obtain ⟨e, he, ho⟩ := entry?_of_object hx
  obtain ⟨o, r⟩ := e
  obtain rfl : o = .node link := ho
  rw [linkAt, he, Option.bind_some]
  cases s <;> simp [Object.node, Object.link?, NodeSlot.index, object?_slotValue]

theorem edgeAt_of_object {h : Heap} {m : ObjectId} {o : Object} (hm : h.object m = .ok o) :
    h.edgeAt m = o.edge? := by
  funext c
  obtain ⟨e, he, rfl⟩ := entry?_of_object hm
  rw [edgeAt, he]
  rfl

/-- A child is read off a node and a map. -/
theorem child_congr {h h' : Heap} {x : ObjectId} {c : Edge} (hx : h'.object x = h.object x)
    (hm : ∀ m, h.linkAt x c.slot = some m → h'.object m = h.object m) :
    h'.child x c = h.child x c := by
  rw [child, child, linkAt_congr hx]
  cases hl : h.linkAt x c.slot with
  | none => rfl
  | some m => rw [Option.bind_some, Option.bind_some, edgeAt_congr (hm m hl)]

theorem contains_of_object {h : Heap} {x : ObjectId} {o : Object} (hx : h.object x = .ok o) :
    h.contains x = true := by
  obtain ⟨e, he, -⟩ := entry?_of_object hx
  exact contains_of_some he

/-- A node is read slot by slot. -/
theorem tupleGet_of_node {h : Heap} {x : ObjectId} {link : NodeSlot → Option ObjectId}
    (hx : h.object x = .ok (.node link)) (s : NodeSlot) :
    h.tupleGet x s.index = .ok (slotValue (link s)) := by
  rw [tupleGet, tupleSlots, hx]
  cases s <;> rfl

end Heap

/-! ## Labels -/

/-- The place of an object in a trie: the node at the end of a path, or the map in
a slot of that node. -/
structure Place where
  root : ObjectId
  path : List Edge
  /-- Absent for the node itself. -/
  slot : Option NodeSlot
deriving DecidableEq

/-- A place for every object that belongs to a trie. -/
abbrev Labels := ObjectId → Option Place

namespace Trie

def nodePlace (t : Trie) (path : List Edge) : Place := ⟨t.root, path, none⟩

def mapPlace (t : Trie) (path : List Edge) (s : NodeSlot) : Place := ⟨t.root, path, some s⟩

/-- The object that bears the label of a node is one. -/
structure NodeShape (t : Trie) (h : Heap) (labels : Labels) (x : ObjectId) (path : List Edge) :
    Prop where
  isNode : h.object x = .ok (.node (h.linkAt x))
  /-- Nodes are made after the nodes above them. -/
  depth : path.length ≤ x.index
  map : ∀ s m, s ≠ .terminal → h.linkAt x s = some m → labels m = some (t.mapPlace path s)
  terminal : ∀ f, h.linkAt x .terminal = some f → path.length = t.arity

/-- The object that bears the label of a map is one, and leads to nodes. -/
structure MapShape (t : Trie) (h : Heap) (labels : Labels) (m : ObjectId) (path : List Edge)
    (s : NodeSlot) : Prop where
  short : path.length < t.arity
  serves : ∃ o, h.object m = .ok o ∧ o.Serves s
  edge : ∀ c v, h.edgeAt m c = some v →
    ∃ y, v = .object y ∧ labels y = some (t.nodePlace (path ++ [c]))
  held : ∀ id v, h.edgeAt m (.object id) = some v → h.contains id = true

/-- Every object of the trie stands where its label says. -/
structure Labelled (t : Trie) (h : Heap) (labels : Labels) : Prop where
  root : labels t.root = some (t.nodePlace [])
  pinned : ∃ e, h.entry? t.root = some e ∧ 0 < e.roots
  node : ∀ x path, labels x = some (t.nodePlace path) → t.NodeShape h labels x path
  map : ∀ m path s, labels m = some (t.mapPlace path s) → t.MapShape h labels m path s

/-- The objects that belong to a trie: its root, the maps of its nodes, and the
children in its maps. -/
inductive Owns (t : Trie) (h : Heap) : ObjectId → Prop where
  | root : Owns t h t.root
  | map {x m : ObjectId} {s : NodeSlot} :
    Owns t h x → s ≠ .terminal → h.linkAt x s = some m → Owns t h m
  | child {m y : ObjectId} {c : Edge} : Owns t h m → h.edgeAt m c = some (.object y) → Owns t h y

end Trie

/-! ## The operations of the cache on a proper trie -/

section Reading

variable {t : Trie} {h : Heap} {labels : Labels} {x : ObjectId} {path : List Edge}

theorem Trie.partition?_eq {link : NodeSlot → Option ObjectId} (hx : h.object x = .ok (.node link))
    (s : NodeSlot) : t.partition? x s h = .ok (link s) := by
  rw [Trie.partition?, Heap.tupleGet_of_node hx]
  cases link s <;> rfl

theorem Trie.terminal?_eq {link : NodeSlot → Option ObjectId} (hx : h.object x = .ok (.node link)) :
    t.terminal? x h = .ok (link .terminal) := by
  rw [Trie.terminal?, Heap.tupleGet_of_node hx]
  cases link .terminal <;> rfl

/-- The entry of a map for a component, where the map is of the right kind. -/
theorem Trie.edge?_eq {m : ObjectId} {o : Object} (hm : h.object m = .ok o) {c : KeyComponent}
    (hs : o.Serves c.edge.slot) : Trie.edge? m h c = .ok (h.edgeAt m c.edge) := by
  rw [Heap.edgeAt_of_object hm]
  cases c <;> cases o <;> simp only [KeyComponent.edge, Edge.slot, Object.Serves] at hs
  all_goals
    simp only [Trie.edge?, Heap.strongEntries, Heap.weakEntries, hm, Except.map, Object.edge?,
      KeyComponent.edge]

namespace Trie.Labelled

/-- In a proper trie the children are found without an error. -/
theorem child?_eq (hL : t.Labelled h labels) (hx : labels x = some (t.nodePlace path))
    (c : KeyComponent) : t.child? x c h = .ok (h.child x c.edge) := by
  have hnode := hL.node x path hx
  rw [Trie.child?, Trie.slotOf_eq, Trie.partition?_eq hnode.isNode, Heap.child]
  cases hm : h.linkAt x c.edge.slot with
  | none => rfl
  | some m =>
    have hmap := hL.map m path c.edge.slot (hnode.map _ m c.edge.slot_ne_terminal hm)
    obtain ⟨o, ho, hserves⟩ := hmap.serves
    simp only [Trie.edge?_eq ho hserves, Option.bind_some]
    cases hv : h.edgeAt m c.edge with
    | none => rfl
    | some v =>
      obtain ⟨y, rfl, -⟩ := hmap.edge c.edge v hv
      rfl

/-- A child stands one edge below its parent. -/
theorem label_child (hL : t.Labelled h labels) (hx : labels x = some (t.nodePlace path)) {c : Edge}
    {y : ObjectId} (hy : h.child x c = some y) : labels y = some (t.nodePlace (path ++ [c])) := by
  rw [Heap.child, Option.bind_eq_some_iff] at hy
  obtain ⟨m, hm, hy⟩ := hy
  obtain ⟨v, hv, hy⟩ := Option.bind_eq_some_iff.1 hy
  obtain rfl := Value.object?_eq_some.1 hy
  have hmap := hL.map m path c.slot ((hL.node x path hx).map _ m c.slot_ne_terminal hm)
  obtain ⟨z, hz, hlabel⟩ := hmap.edge c _ hv
  exact (Value.object.inj hz) ▸ hlabel

/-- The node at the end of a path bears the path in its label. -/
theorem label_walk (hL : t.Labelled h labels) (hx : labels x = some (t.nodePlace path))
    {q : List Edge} {y : ObjectId} (hy : h.walk x q = some y) :
    labels y = some (t.nodePlace (path ++ q)) := by
  induction q generalizing x path with
  | nil =>
    obtain rfl := Option.some.inj hy
    simpa using hx
  | cons c rest ih =>
    obtain ⟨z, hz, hy⟩ := Option.bind_eq_some_iff.1 hy
    simpa using ih (hL.label_child hx hz) hy

/-- The node at the end of a path from the root bears the path as its label. -/
theorem label_of_walk (hL : t.Labelled h labels) {q : List Edge} (hx : h.walk t.root q = some x) :
    labels x = some (t.nodePlace q) := by
  simpa using hL.label_walk hL.root hx

theorem lookupFrom_eq (hL : t.Labelled h labels) (hx : labels x = some (t.nodePlace path))
    (components : List KeyComponent) :
    t.lookupFrom h x components = .ok (h.find x (components.map KeyComponent.edge)) := by
  induction components generalizing x path with
  | nil => exact Trie.terminal?_eq (hL.node x path hx).isNode
  | cons c rest ih =>
    rw [Trie.lookupFrom, hL.child?_eq hx, List.map_cons, Heap.find_cons]
    cases hy : h.child x c.edge with
    | none => rfl
    | some y => exact ih (hL.label_child hx hy)

/-- A key of the right length is looked up by walking its path. -/
theorem lookup_eq (hL : t.Labelled h labels) {key : Key} (hkey : key.arity = t.arity) :
    t.lookup key h = .ok (h.find t.root key.path) := by
  rw [Trie.lookup, Trie.checkArity, if_pos hkey]
  exact hL.lookupFrom_eq hL.root key.components

/-- An edge under an object is there only while the object is in the heap. -/
theorem contains_of_child (hL : t.Labelled h labels) (hx : labels x = some (t.nodePlace path))
    {id y : ObjectId} (hy : h.child x (.object id) = some y) : h.contains id = true := by
  rw [Heap.child, Option.bind_eq_some_iff] at hy
  obtain ⟨m, hm, hy⟩ := hy
  obtain ⟨v, hv, -⟩ := Option.bind_eq_some_iff.1 hy
  have hlabel := (hL.node x path hx).map _ m (Edge.slot_ne_terminal _) hm
  exact (hL.map m path _ hlabel).held id v hv

/-- The objects on the path of an association are in the heap. -/
theorem contains_of_find (hL : t.Labelled h labels) (hx : labels x = some (t.nodePlace path))
    {q : List Edge} {f : ObjectId} (hf : h.find x q = some f) :
    ∀ id, .object id ∈ q → h.contains id = true := by
  induction q generalizing x path with
  | nil => exact fun id hid => absurd hid (by simp)
  | cons c rest ih =>
    intro id hid
    rw [Heap.find_cons, Option.bind_eq_some_iff] at hf
    obtain ⟨y, hy, hf⟩ := hf
    rcases List.mem_cons.1 hid with rfl | hid
    · exact hL.contains_of_child hx hy
    · exact ih (hL.label_child hx hy) hf id hid

/-- Associations stand at depth equal to the arity. -/
theorem length_of_find (hL : t.Labelled h labels) {q : List Edge} {f : ObjectId}
    (hf : h.find t.root q = some f) : q.length = t.arity := by
  obtain ⟨y, hy, hf⟩ := Option.bind_eq_some_iff.1 hf
  simpa using (hL.node y _ (hL.label_walk hL.root hy)).terminal f hf

/-- Nothing hangs in a node itself. -/
theorem edgeAt_of_node (hL : t.Labelled h labels) (hx : labels x = some (t.nodePlace path))
    (c : Edge) : h.edgeAt x c = none := by
  rw [Heap.edgeAt_of_object (hL.node x path hx).isNode]
  cases c <;> rfl

/-- A map has no slots. -/
theorem linkAt_of_map (hL : t.Labelled h labels) {m : ObjectId} {s : NodeSlot}
    (hm : labels m = some (t.mapPlace path s)) (r : NodeSlot) : h.linkAt m r = none := by
  obtain ⟨o, ho, hserves⟩ := (hL.map m path s hm).serves
  obtain ⟨e, he, rfl⟩ := Heap.entry?_of_object ho
  obtain ⟨o, k⟩ := e
  rw [Heap.linkAt, he, Option.bind_some]
  cases o <;> cases s <;> simp only [Object.Serves] at hserves <;> rfl

/-- An object that belongs to the trie bears a label that says so. -/
theorem label_of_owns (hL : t.Labelled h labels) (hx : t.Owns h x) :
    ∃ p, labels x = some p ∧ p.root = t.root := by
  induction hx with
  | root => exact ⟨_, hL.root, rfl⟩
  | @map x m s _ hs hm ih =>
    obtain ⟨⟨root, path, slot⟩, hlabel, rfl⟩ := ih
    cases slot with
    | none => exact ⟨_, (hL.node x path hlabel).map s m hs hm, rfl⟩
    | some r =>
      rw [hL.linkAt_of_map hlabel] at hm
      cases hm
  | @child m y c _ hy ih =>
    obtain ⟨⟨root, path, slot⟩, hlabel, rfl⟩ := ih
    cases slot with
    | none =>
      rw [hL.edgeAt_of_node hlabel] at hy
      cases hy
    | some r =>
      obtain ⟨z, hz, hlabel⟩ := (hL.map m path r hlabel).edge c _ hy
      exact ⟨_, (Value.object.inj hz) ▸ hlabel, rfl⟩

end Trie.Labelled

end Reading

end ClosureCache
