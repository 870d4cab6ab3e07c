/-
What the operations of a cache keep to.

A cache puts new maps into its nodes, new nodes under the edges of its maps and closures
into its nodes, and takes them away again.  A `CacheRelation` is a relation between heaps
that allows this, and every operation of a cache keeps to it, also where it fails;
compaction needs less, a `Pruning`.  This needs no proper trie.
-/
import ClosureCache.Cache.Registry
import ClosureCache.Proofs.Cache.HeapRelations

namespace ClosureCache

/-- A relation between a heap and a later one that allows what is taken away from nodes and
maps. -/
structure Heap.Pruning extends Heap.StepRelation where
  tupleClear : ∀ h x index, Holds h (Heap.tupleSet x index .undefined h).2
  strongMapRemove : ∀ h x key, Holds h (Heap.strongMapRemove x key h).2
  weakMapDelete : ∀ h x key, Holds h (Heap.weakMapDelete x key h).2

/-- A relation that allows as well what caches add to their nodes and maps. -/
structure Heap.CacheRelation extends Heap.Pruning where
  /-- What may stand in a slot of a node. -/
  slots : Heap → ObjectId → Prop
  /-- What may stand under an edge of a map. -/
  mayLink : Heap → ObjectId → Prop
  slots_mono : ∀ {h h' y}, Holds h h' → slots h y → slots h' y
  mayLink_mono : ∀ {h h' y}, Holds h h' → mayLink h y → mayLink h' y
  slots_new : ∀ (h : Heap) (o : Object), o.isPart = true →
    slots (h.allocate o).2 ⟨h.entries.size⟩
  mayLink_new : ∀ (h : Heap) (o : Object), o.isPart = true →
    mayLink (h.allocate o).2 ⟨h.entries.size⟩
  newTuple : ∀ (h : Heap) n, Holds h (h.allocate (.tuple (Array.replicate n .undefined))).2
  newStrongMap : ∀ h : Heap, Holds h (h.allocate (.strongMap ∅)).2
  newWeakMap : ∀ h : Heap, Holds h (h.allocate (.weakMap ∅)).2
  /-- A new part may be rooted. -/
  pins : ∀ (h : Heap) (o : Object), o.isPart = true →
    Holds (h.allocate o).2 (Heap.root ⟨h.entries.size⟩ (h.allocate o).2).2
  tupleSet : ∀ h x index y, slots h y → Holds h (Heap.tupleSet x index (.object y) h).2
  strongMapSet : ∀ h x key y, mayLink h y → Holds h (Heap.strongMapSet x key (.object y) h).2
  weakMapSet : ∀ h x key y, mayLink h y → Holds h (Heap.weakMapSet x key (.object y) h).2

/-- A relation that allows what evaluation does and what caches do. -/
structure Heap.EvalCacheRelation extends Heap.EvalRelation, Heap.CacheRelation where
  slots_function : ∀ (h : Heap) (f : FunctionObject),
    slots (h.allocate (.function f)).2 ⟨h.entries.size⟩

open HeapM (Keeps)

variable (P : Heap.Pruning) (C : Heap.CacheRelation)

namespace Trie

/-! ## Making and inserting -/

theorem create_keeps (site : SiteId) (arity : Nat) :
    Keeps C.toStepRelation (create site arity) := by
  intro h
  refine C.bind (C.newTuple h 3) fun node h₁ hrun => ?_
  obtain ⟨hnode, rfl⟩ := Prod.mk.inj hrun
  obtain rfl := Except.ok.inj hnode
  exact C.bind (C.mapError (C.pins h _ rfl) _) fun _ h₂ _ => C.refl h₂

section Insert

variable (t : Trie) {h : Heap}

/-- A map comes into the slot of a node. -/
theorem partitionOrCreate_keeps (node : ObjectId) (slot : NodeSlot) {o : Object}
    (hnew : ∀ h : Heap, C.Holds h (h.allocate o).2) (ho : o.isPart = true) :
    Keeps C.toStepRelation (t.partitionOrCreate node slot fun h => h.allocate o) := by
  refine (Keeps.ask _).bind fun map => ?_
  cases map with
  | some map => exact .pure _
  | none =>
    intro h
    refine C.bind (hnew h) fun map h' hrun => ?_
    obtain ⟨hmap, rfl⟩ := Prod.mk.inj hrun
    obtain rfl := Except.ok.inj hmap
    refine C.bind (C.mapError (C.tupleSet _ node _ _ ?_) _) fun _ h'' _ => C.refl h''
    exact C.slots_new h o ho

theorem link_keeps {child : ObjectId} (hchild : C.mayLink h child) (node : ObjectId)
    (c : KeyComponent) : C.Holds h (t.link node child c h).2 := by
  have hmap : ∀ {o : Object} (slot : NodeSlot), (∀ h : Heap, C.Holds h (h.allocate o).2) →
      o.isPart = true → ∀ {set : ObjectId → HeapM HeapError Unit},
      (∀ h map, C.mayLink h child → C.Holds h (set map h).2) →
      C.Holds h ((do
        let map ← t.partitionOrCreate node slot fun h => h.allocate o
        HeapM.mapError .host (set map) : HeapM CacheError Unit) h).2 := by
    intro o slot hnew ho set hset
    have hcreate := t.partitionOrCreate_keeps C node slot hnew ho h
    refine C.bind hcreate fun map h' hrun => C.mapError (hset h' map ?_) _
    rw [hrun] at hcreate
    exact C.mayLink_mono hcreate hchild
  cases c with
  | primitive p =>
    exact hmap .primitive C.newStrongMap rfl fun h map hy => C.strongMapSet h map p child hy
  | objectRef id =>
    exact hmap .weak C.newWeakMap rfl fun h map hy => C.weakMapSet h map id child hy
  | cellRef id =>
    exact hmap .weak C.newWeakMap rfl fun h map hy => C.weakMapSet h map id child hy

theorem childOrCreate_keeps (node : ObjectId) (c : KeyComponent) :
    Keeps C.toStepRelation (t.childOrCreate node c) := by
  refine (Keeps.ask _).bind fun child => ?_
  cases child with
  | some child => exact .pure _
  | none =>
    intro h
    refine C.bind (C.newTuple h 3) fun child h' hrun => ?_
    obtain ⟨hchild, rfl⟩ := Prod.mk.inj hrun
    obtain rfl := Except.ok.inj hchild
    refine C.bind (t.link_keeps C ?_ node c) fun _ h'' _ => C.refl h''
    exact C.mayLink_new h _ rfl

theorem nodeAt_keeps (node : ObjectId) (q : List KeyComponent) :
    Keeps C.toStepRelation (t.nodeAt node q) := by
  induction q generalizing node with
  | nil => exact .pure _
  | cons c rest ih => exact (t.childOrCreate_keeps C node c).bind ih

theorem insert_keeps (key : Key) {function : ObjectId} (hfunction : C.slots h function) :
    C.Holds h (t.insert key function h).2 := by
  refine C.bind (C.refl h) fun _ h₁ hask => ?_
  obtain ⟨-, rfl⟩ := Prod.mk.inj hask
  have hnode := t.nodeAt_keeps C t.root key.components h
  refine C.bind hnode fun node h₁ hrun => C.bind (C.refl h₁) fun existing h₂ hask => ?_
  obtain ⟨-, rfl⟩ := Prod.mk.inj hask
  cases existing with
  | some existing => exact C.refl h₁
  | none =>
    refine C.bind (C.mapError (C.tupleSet _ node _ _ ?_) _) fun _ h₂ _ => C.refl h₂
    rw [hrun] at hnode
    exact C.slots_mono hnode hfunction

end Insert

/-! ## Compacting -/

section Compact

variable (t : Trie) {κ : Type} {visit : ObjectId → HeapM (Stop CacheError) (Bool × Nat)}

theorem compactEntries_keeps (hvisit : ∀ x, Keeps P.toStepRelation (visit x))
    {remove : κ → HeapM HeapError Bool} (hremove : ∀ key, Keeps P.toStepRelation (remove key))
    (l : List (κ × Value)) : Keeps P.toStepRelation (t.compactEntries visit remove l) := by
  induction l with
  | nil => exact .pure _
  | cons entry rest ih =>
    refine ((Keeps.ask _).mapError _).bind fun child => (hvisit child).bind fun visited => ?_
    obtain ⟨empty, below⟩ := visited
    dsimp only
    split
    · exact (((hremove entry.1).mapError _).mapError _).bind fun _ => ih.bind fun _ => .pure _
    · exact ih.bind fun _ => .pure _

theorem compactPartition_keeps [Ord κ] (hvisit : ∀ x, Keeps P.toStepRelation (visit x))
    (node : ObjectId) (slot : NodeSlot)
    (entries : Heap → ObjectId → Except HeapError (SortedMap κ Value))
    {remove : ObjectId → κ → HeapM HeapError Bool}
    (hremove : ∀ map key, Keeps P.toStepRelation (remove map key)) :
    Keeps P.toStepRelation (t.compactPartition visit node slot entries remove) := by
  refine ((Keeps.ask _).mapError _).bind fun map => ?_
  cases map with
  | none => exact .pure _
  | some map =>
    have hentries : Keeps P.toStepRelation
        (walking (HeapM.mapError .host (HeapM.ask fun h => entries h map))) :=
      ((Keeps.ask _).mapError _).mapError _
    refine hentries.bind fun l => (t.compactEntries_keeps P hvisit (hremove map) _).bind
      fun pruned => hentries.bind fun left => ?_
    split
    · exact Keeps.bind ((Keeps.mapError (fun h => P.tupleClear h _ _) _).mapError _)
        fun _ => .pure _
    · exact .pure _

theorem compactNode_keeps (n : Nat) (node : ObjectId) :
    Keeps P.toStepRelation (t.compactNode n node) := by
  induction n generalizing node with
  | zero => exact .throw _
  | succ n ih =>
    refine (t.compactPartition_keeps P ih node .primitive Heap.strongEntries
      fun map key h => P.strongMapRemove h map key).bind fun primitives => ?_
    refine (t.compactPartition_keeps P ih node .weak Heap.weakEntries
      fun map key h => P.weakMapDelete h map key).bind fun weak => ?_
    exact ((Keeps.ask _).mapError _).bind fun _ => .pure _

theorem compact_keeps : Keeps P.toStepRelation t.compact :=
  Keeps.bind (.of_eq fun _ => rfl) fun _ => (t.compactNode_keeps P _ _).bind fun _ => .pure _

end Compact

end Trie

/-! ## Caches -/

namespace Cache

variable {h : Heap}

theorem insert_keeps (c : Cache) (key : Key) {function : ObjectId}
    (hfunction : C.slots h function) : C.Holds h (c.insert key function h).2.2 := by
  have hinsert := c.trie.insert_keeps C key hfunction
  rw [insert]
  split
  all_goals
    next hrun =>
    rw [hrun] at hinsert
    exact hinsert

/-- What is built for a key has to be something that may stand in a node. -/
theorem getOrInsertWith_keeps {ε : Type} (c : Cache) (key : Key) (wrap : CacheError → ε)
    {build : HeapM ε ObjectId} (hbuild : Keeps C.toStepRelation build)
    (hbuilt : ∀ h f h', build h = (.ok f, h') → C.slots h' f) (h : Heap) :
    C.Holds h (c.getOrInsertWith key wrap build h).2.2 := by
  rw [getOrInsertWith]
  split
  · exact C.refl h
  · exact C.refl h
  · have hbuild := hbuild h
    dsimp only
    split
    · next hrun =>
      rw [hrun] at hbuild
      exact hbuild
    · next built h₁ hrun =>
      rw [hrun] at hbuild
      refine C.trans hbuild ?_
      have hinsert := (c.count fun s => { s with misses := s.misses + 1 }).insert_keeps C key
        (hbuilt h built h₁ hrun)
      split
      all_goals
        next hrun' =>
        rw [hrun'] at hinsert
        exact hinsert

theorem compact_keeps (c : Cache) (h : Heap) : P.Holds h (c.compact h).2.2 := by
  have hcompact := c.trie.compact_keeps P h
  rw [compact]
  split
  all_goals
    next hrun =>
    rw [hrun] at hcompact
    exact hcompact

end Cache

namespace Registry

theorem getOrCreate_keeps (r : Registry) (site : SiteId) (arity : Nat) (h : Heap) :
    C.Holds h (r.getOrCreate site arity h).2.2 := by
  rw [getOrCreate]
  split
  · split
    · exact C.refl h
    · exact C.refl h
  · have hcreate : Keeps C.toStepRelation (Cache.create site arity) :=
      (Trie.create_keeps C site arity).bind fun _ => .pure _
    have hcreate := hcreate h
    split
    all_goals
      next hrun =>
      rw [hrun] at hcreate
      exact hcreate

theorem reach_keeps {ε : Type} (r : Registry) (site : SiteId) (arity : Nat) (key : Key)
    (wrap : CacheError → ε) {build : HeapM ε ObjectId} (hbuild : Keeps C.toStepRelation build)
    (hbuilt : ∀ h f h', build h = (.ok f, h') → C.slots h' f) (h : Heap) :
    C.Holds h (r.reach site arity key wrap build h).2.2 := by
  have hcreate := r.getOrCreate_keeps C site arity h
  rw [reach]
  split
  · next hrun =>
    rw [hrun] at hcreate
    exact hcreate
  · next c created r₁ h₁ hrun =>
    rw [hrun] at hcreate
    refine C.trans hcreate ?_
    have hinsert := c.getOrInsertWith_keeps C key wrap hbuild hbuilt h₁
    split
    all_goals
      next hrun' =>
      rw [hrun'] at hinsert
      exact hinsert

theorem compactEach_keeps (l : List (SiteId × Cache)) (r : Registry) (n : Nat) (h : Heap) :
    P.Holds h (r.compactEach l n h).2.2 := by
  induction l generalizing r n h with
  | nil => exact P.refl h
  | cons entry rest ih =>
    have hcompact := entry.2.compact_keeps P h
    rw [compactEach]
    split
    · next hrun =>
      rw [hrun] at hcompact
      exact hcompact
    · next hrun =>
      rw [hrun] at hcompact
      exact P.trans hcompact (ih _ _ _)

theorem compactAll_keeps (r : Registry) (h : Heap) : P.Holds h (r.compactAll h).2.2 :=
  compactEach_keeps P _ r 0 h

end Registry

end ClosureCache
