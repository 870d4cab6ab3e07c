/-
Where the closures in caches come from.

`HeapM.KeepsCharted` is a triple for steps on a charted heap: the heap stays charted, objects
may take places, and what the step returns is as a condition on the chart says.  Through it
the operations of a cache are followed on any heap.  A closure that is found under a key was
given out for that key before, and `Registry.Charted` is kept by reaching definitions and by
compaction.
-/
import ClosureCache.Proofs.Cache.Placement

namespace ClosureCache

/-- A step that keeps a heap charted, whether it succeeds or fails, and returns what the
condition asks for. -/
def HeapM.KeepsCharted {ε α : Type} (given : Given) (x : HeapM ε α) (Q : Chart → α → Prop)
    (chart : Chart) (h : Heap) : Prop :=
  ∃ chart' : Chart, chart'.Extends chart ∧ (x h).2.Charted given chart' ∧
    ∀ a, (x h).1 = .ok a → Q chart' a

namespace HeapM.KeepsCharted

variable {ε ε' α β : Type} {given : Given} {chart : Chart} {h : Heap} {x : HeapM ε α}
  {Q : Chart → β → Prop} {R : Chart → α → Prop}

theorem pure (hc : h.Charted given chart) {b : β} (hb : Q chart b) :
    KeepsCharted given (pure b : HeapM ε β) Q chart h :=
  ⟨chart, .refl chart, hc, fun _ ha => Except.ok.inj ha ▸ hb⟩

theorem of_charted (hc : (x h).2.Charted given chart) :
    KeepsCharted given x (fun _ _ => True) chart h :=
  ⟨chart, .refl chart, hc, fun _ _ => trivial⟩

theorem bind {f : α → HeapM ε β} (hx : KeepsCharted given x R chart h)
    (hf : ∀ a chart' h', chart'.Extends chart → h'.Charted given chart' → R chart' a →
      KeepsCharted given (f a) Q chart' h') : KeepsCharted given (x >>= f) Q chart h := by
  obtain ⟨chart₁, hext₁, hc₁, hR⟩ := hx
  cases hrun : x h with
  | mk r h₁ =>
    rw [hrun] at hc₁ hR
    cases r with
    | error e =>
      rw [KeepsCharted, bind_of_error hrun]
      exact ⟨chart₁, hext₁, hc₁, fun _ ha => by cases ha⟩
    | ok a =>
      obtain ⟨chart₂, hext₂, hc₂, hQ⟩ := hf a chart₁ h₁ hext₁ hc₁ (hR a rfl)
      rw [KeepsCharted, bind_of_ok hrun]
      exact ⟨chart₂, hext₂.trans hext₁, hc₂, hQ⟩

theorem ask_bind (hc : h.Charted given chart) {g : Heap → Except ε α} {f : α → HeapM ε β}
    (hf : ∀ a, g h = .ok a → KeepsCharted given (f a) Q chart h) :
    KeepsCharted given (HeapM.ask g >>= f) Q chart h := by
  have hask : HeapM.ask g h = (g h, h) := ask_apply g h
  cases hg : g h with
  | error e =>
    rw [hg] at hask
    rw [KeepsCharted, bind_of_error hask]
    exact ⟨chart, .refl chart, hc, fun _ ha => by cases ha⟩
  | ok a =>
    rw [hg] at hask
    rw [KeepsCharted, bind_of_ok hask]
    exact hf a hg

theorem mapError (hx : KeepsCharted given x R chart h) (g : ε → ε') :
    KeepsCharted given (HeapM.mapError g x) R chart h := by
  obtain ⟨chart₁, hext₁, hc₁, hR⟩ := hx
  refine ⟨chart₁, hext₁, HeapM.ends_mapError (P := fun h => h.Charted given chart₁) hc₁ g,
    fun a ha => hR a ?_⟩
  rw [HeapM.mapError] at ha
  cases hrun : x h with
  | mk r h₁ =>
    rw [hrun] at ha
    cases r with
    | ok b => exact congrArg Except.ok (Except.ok.inj ha)
    | error e => cases ha

/-- A new object that leads to nothing takes a place. -/
theorem allocate (hc : h.Charted given chart) (p : CachePlace) {o : Object}
    (hpart : o.isPart = true)
    (hlink : ∀ s, o.link? s = none) (hedge : ∀ c, o.edge? c = none) :
    KeepsCharted given (HeapM.change fun h => h.allocate o : HeapM ε ObjectId)
      (fun chart' y => chart' y = some p) chart h := by
  obtain ⟨chart', hext, hnew, hc'⟩ := hc.allocate p hpart hlink hedge
  exact ⟨chart', hext, hc', fun y hy => Except.ok.inj hy ▸ hnew⟩

end HeapM.KeepsCharted

/-! ## Nodes and maps -/

theorem NodeSlot.index_inj {s r : NodeSlot} (h : s.index = r.index) : s = r := by
  cases s <;> cases r <;> first | rfl | cases h

namespace Heap

variable {given : Given} {chart : Chart} {h : Heap} {x y m : ObjectId} {site : SiteId}
  {path : List Edge} {s : NodeSlot}

theorem linkAt_of_tupleGet (hv : h.tupleGet x s.index = .ok (.object m)) :
    h.linkAt x s = some m := by
  rw [tupleGet, tupleSlots] at hv
  cases ho : h.object x with
  | error e =>
    rw [ho] at hv
    cases hv
  | ok o =>
    rw [ho] at hv
    cases o with
    | tuple slots =>
      dsimp only at hv
      refine linkAt_eq_some.2 ⟨_, ho, ?_⟩
      rw [Object.link?]
      split at hv
      · next v hslot =>
        obtain rfl := Except.ok.inj hv
        rw [hslot]
        rfl
      · cases hv
    | _ => cases hv

/-- What is put into a slot of a node is the map of that slot, or a closure that was given
out for the node. -/
theorem Charted.tupleSet (hc : h.Charted given chart) (hx : chart x = some (.node site path))
    (hmap : s ≠ .terminal → chart m = some (.map site path s))
    (hclosure : s = .terminal → given site path m ∧ h.contains m = true) :
    (Heap.tupleSet x s.index (.object m) h).2.Charted given chart := by
  rcases tupleSet_cases h x s.index (.object m) with heq | ⟨slots, ho, heq⟩
  · rwa [heq]
  · rw [heq]
    refine hc.setObject fun p hp => ?_
    obtain rfl := Option.some.inj (hx.symm.trans hp)
    have hfits := hc.fitsPlace x _ _ hx ho
    refine ⟨rfl, fun _ r m' hr hm' => ?_, fun _ f hf => ?_, fun hslot => absurd rfl hslot⟩
    · rcases Object.link?_tuple_set hm' with ⟨hv, hindex⟩ | hold
      · obtain rfl := NodeSlot.index_inj hindex
        obtain rfl := Value.object.inj hv
        exact hmap hr
      · exact hfits.map rfl r m' hr hold
    · rcases Object.link?_tuple_set hf with ⟨hv, hindex⟩ | hold
      · obtain rfl := NodeSlot.index_inj hindex
        obtain rfl := Value.object.inj hv
        exact hclosure rfl
      · exact hfits.closure rfl f hold

/-- What stands in a map under an edge is the node at the end of the edge. -/
theorem Charted.setEdge (hc : h.Charted given chart) (hm : chart m = some (.map site path s))
    {c : KeyComponent} (hy : chart y = some (.node site (path ++ [c.edge]))) :
    (Heap.setEdge m c (.object y) h).2.Charted given chart := by
  have hset : ∀ {o o' : Object}, h.object m = .ok o → o'.isPart = true →
      (∀ d v, o'.edge? d = some v → d = c.edge ∧ v = .object y ∨ o.edge? d = some v) →
      (h.setObject m o').Charted given chart := by
    intro o o' ho hpart hedge
    refine hc.setObject fun p hp => ?_
    obtain rfl := Option.some.inj (hm.symm.trans hp)
    refine ⟨hpart, fun hslot => (by cases hslot), fun hslot => (by cases hslot),
      fun _ d z hz => ?_⟩
    rcases hedge d _ hz with ⟨rfl, hv⟩ | hold
    · obtain rfl := Value.object.inj hv
      exact hy
    · exact (hc.fitsPlace m _ o hm ho).child (fun hslot => by cases hslot) d z hold
  have hweak : ∀ id, c.edge = .object id →
      (Heap.weakMapSet m id (.object y) h).2.Charted given chart := by
    intro id hid
    rcases weakMapSet_cases h m id (.object y) with heq | ⟨entries, ho, heq⟩
    · rwa [heq]
    · rw [heq]
      refine hset ho rfl fun d v hv => ?_
      cases d with
      | primitive q => cases hv
      | object id' =>
        rcases SortedMap.get?_insert_cases hv with ⟨rfl, rfl⟩ | hold
        · exact .inl ⟨hid.symm, rfl⟩
        · exact .inr hold
  cases c with
  | primitive p =>
    rcases strongMapSet_cases h m p (.object y) with heq | ⟨entries, ho, heq⟩
    · show (Heap.strongMapSet m p (.object y) h).2.Charted given chart
      rwa [heq]
    · show (Heap.strongMapSet m p (.object y) h).2.Charted given chart
      rw [heq]
      refine hset ho rfl fun d v hv => ?_
      cases d with
      | primitive q =>
        rcases SortedMap.get?_insert_cases hv with ⟨rfl, rfl⟩ | hold
        · exact .inl ⟨rfl, rfl⟩
        · exact .inr hold
      | object id => cases hv
  | objectRef id => exact hweak id rfl
  | cellRef id => exact hweak id rfl

end Heap

/-! ## Tries -/

namespace Trie

variable {t : Trie} {given : Given} {chart : Chart} {h : Heap} {x y m f : ObjectId}
  {site : SiteId} {path : List Edge} {s : NodeSlot} {c : KeyComponent}

theorem linkAt_of_partition? (hm : t.partition? x s h = .ok (some m)) :
    h.linkAt x s = some m := by
  rw [partition?] at hm
  split at hm
  · cases hm
  · cases hm
  · next hv =>
    obtain rfl := Option.some.inj (Except.ok.inj hm)
    exact Heap.linkAt_of_tupleGet hv
  · cases hm

theorem linkAt_of_terminal? (hf : t.terminal? x h = .ok (some f)) :
    h.linkAt x .terminal = some f := by
  rw [terminal?] at hf
  split at hf
  · cases hf
  · cases hf
  · next hv =>
    obtain rfl := Option.some.inj (Except.ok.inj hf)
    exact Heap.linkAt_of_tupleGet hv
  · cases hf

theorem edgeAt_of_edge? {v : Value} (hv : edge? m h c = .ok (some v)) :
    h.edgeAt m c.edge = some v := by
  cases ho : h.object m with
  | error e => cases c <;> simp [edge?, Heap.strongEntries, Heap.weakEntries, ho, Except.map] at hv
  | ok o =>
    rw [Heap.edgeAt_of_object ho]
    cases c <;> cases o <;>
      simp_all [edge?, Heap.strongEntries, Heap.weakEntries, Except.map, KeyComponent.edge,
        Object.edge?]

theorem child_of_child? (hy : t.child? x c h = .ok (some y)) : h.child x c.edge = some y := by
  rw [child?, slotOf_eq] at hy
  split at hy
  · cases hy
  · cases hy
  · next map hmap =>
    split at hy
    · cases hy
    · cases hy
    · next value hedge =>
      rw [Heap.child, linkAt_of_partition? hmap, Option.bind_some, edgeAt_of_edge? hedge]
      cases value with
      | object child => exact congrArg some (Option.some.inj (Except.ok.inj hy))
      | _ => cases hy

theorem keepsCharted_partitionOrCreate (hc : h.Charted given chart)
    (hx : chart x = some (.node site path)) (hs : s ≠ .terminal) :
    HeapM.KeepsCharted given (t.partitionOrCreate x s fun h => h.allocate (.emptyMap s))
      (fun chart' m => chart' m = some (.map site path s)) chart h := by
  refine .ask_bind hc fun map hmap => ?_
  cases map with
  | some map => exact .pure hc (hc.map hx hs (linkAt_of_partition? hmap))
  | none =>
    have hblank : ∀ r, (Object.emptyMap s).link? r = none := fun r => by cases s <;> rfl
    refine (HeapM.KeepsCharted.allocate hc (.map site path s) (Object.emptyMap_serves hs).isPart
      hblank (Object.edge?_emptyMap s)).bind fun map chart₁ h₁ hext hc₁ hmap => ?_
    have hset := hc₁.tupleSet (hext x _ hx) (fun _ => hmap) fun hterminal => absurd hterminal hs
    exact ((HeapM.KeepsCharted.of_charted hset).mapError _).bind fun _ chart₂ h₂ hext₂ hc₂ _ =>
      .pure hc₂ (hext₂ map _ hmap)

theorem keepsCharted_link (hc : h.Charted given chart) (hx : chart x = some (.node site path))
    (hy : chart y = some (.node site (path ++ [c.edge]))) :
    HeapM.KeepsCharted given (t.link x y c) (fun _ _ => True) chart h := by
  rw [link_eq]
  exact (keepsCharted_partitionOrCreate hc hx c.edge.slot_ne_terminal).bind
    fun map chart₁ h₁ hext hc₁ hmap => (HeapM.KeepsCharted.of_charted
      (hc₁.setEdge hmap (hext y _ hy))).mapError _

theorem keepsCharted_childOrCreate (hc : h.Charted given chart)
    (hx : chart x = some (.node site path))
    (c : KeyComponent) : HeapM.KeepsCharted given (t.childOrCreate x c)
      (fun chart' y => chart' y = some (.node site (path ++ [c.edge]))) chart h := by
  refine .ask_bind hc fun child hchild => ?_
  cases child with
  | some child => exact .pure hc (hc.child hx (child_of_child? hchild))
  | none =>
    refine (HeapM.KeepsCharted.allocate hc (.node site (path ++ [c.edge]))
      (o := .node fun _ => none) rfl (fun r => by cases r <;> rfl) fun _ => rfl).bind
      fun child chart₁ h₁ hext hc₁ hchild => ?_
    exact (keepsCharted_link hc₁ (hext x _ hx) hchild).bind fun _ chart₂ h₂ hext₂ hc₂ _ =>
      .pure hc₂ (hext₂ child _ hchild)

theorem keepsCharted_nodeAt (hc : h.Charted given chart) (hx : chart x = some (.node site path))
    (q : List KeyComponent) : HeapM.KeepsCharted given (t.nodeAt x q)
      (fun chart' y => chart' y = some (.node site (path ++ q.map KeyComponent.edge))) chart h := by
  induction q generalizing x path chart h with
  | nil =>
    refine .pure hc ?_
    rwa [List.map_nil, List.append_nil]
  | cons c rest ih =>
    refine (keepsCharted_childOrCreate hc hx c).bind fun child chart₁ h₁ _ hc₁ hchild => ?_
    have hrest := ih hc₁ hchild
    rwa [List.append_assoc, List.singleton_append] at hrest

/-- What is found under a path was given out for it. -/
theorem given_of_lookupFrom (hc : h.Charted given chart) (hx : chart x = some (.node site path))
    {q : List KeyComponent} (hf : t.lookupFrom h x q = .ok (some f)) :
    given site (path ++ q.map KeyComponent.edge) f ∧ h.contains f = true := by
  induction q generalizing x path with
  | nil =>
    rw [List.map_nil, List.append_nil]
    exact hc.closure hx (linkAt_of_terminal? hf)
  | cons c rest ih =>
    rw [lookupFrom] at hf
    split at hf
    · cases hf
    · cases hf
    · next child hchild =>
      have hrest := ih (hc.child hx (child_of_child? hchild)) hf
      rwa [List.append_assoc, List.singleton_append] at hrest

theorem given_of_lookup (hc : h.Charted given chart) (hroot : chart t.root = some (.node site []))
    {key : Key} (hf : t.lookup key h = .ok (some f)) :
    given site key.path f ∧ h.contains f = true := by
  rw [lookup] at hf
  split at hf
  · cases hf
  · exact given_of_lookupFrom hc hroot hf

/-! ## Giving out closures -/

/-- What asking for a closure under a path comes to: nothing, a closure that was given out
for the path before, or a new one, which is `o`.  There were `n` objects before. -/
inductive Supplies (given : Given) (site : SiteId) (path : List Edge) (o : Object) (n : Nat)
    (h' : Heap) : Given → Option ObjectId → Prop where
  | nothing : Supplies given site path o n h' given none
  | old (f : ObjectId) : given site path f → h'.contains f = true →
    Supplies given site path o n h' given (some f)
  | new (f : ObjectId) : n ≤ f.index → h'.object f = .ok o →
    Supplies given site path o n h' (given.add site path f) (some f)

theorem Heap.tupleSet_of_error {h h' : Heap} {x : ObjectId} {i : Nat} {v : Value} {e : HeapError}
    (hrun : Heap.tupleSet x i v h = (.error e, h')) : h' = h := by
  rw [Heap.tupleSet] at hrun
  split at hrun
  · exact (Prod.mk.inj hrun).2.symm
  · split at hrun
    · cases (Prod.mk.inj hrun).1
    · exact (Prod.mk.inj hrun).2.symm

section Insert

variable {o : Object} {n : Nat}

/-- At the node of the path the closure is held, unless one is held there already. -/
theorem hold_supplies (hc : h.Charted given chart) (hx : chart x = some (.node site path))
    (hf : h.object f = .ok o) (ho : o.isPart = false) (hn : n ≤ f.index) :
    ∃ r h' given', (do
        match ← HeapM.ask (t.terminal? x) with
        | some existing => return (existing, false)
        | none =>
          HeapM.mapError .host (Heap.tupleSet x NodeSlot.terminal.index (.object f))
          return (f, true) : HeapM CacheError (ObjectId × Bool)) h = (r, h') ∧
      h'.Charted given' chart ∧
      Supplies given site path o n h' given' (r.toOption.map Prod.fst) := by
  rw [HeapM.bind_apply, HeapM.ask_apply]
  cases hterminal : t.terminal? x h with
  | error e => exact ⟨_, h, given, rfl, hc, .nothing⟩
  | ok held =>
    cases held with
    | some g =>
      obtain ⟨hgiven, hin⟩ := hc.closure hx (linkAt_of_terminal? hterminal)
      exact ⟨_, h, given, rfl, hc, .old g hgiven hin⟩
    | none =>
      have hc' : h.Charted (given.add site path f) chart := hc.given_mono fun _ _ _ => .inl
      have hset := hc'.tupleSet (m := f) (s := .terminal) hx (fun hne => absurd rfl hne)
        fun _ => ⟨.inr ⟨rfl, rfl, rfl⟩, Heap.contains_of_object hf⟩
      have hobject := ((Heap.CacheRelation.adding fun _ => False).tupleSet h x
        NodeSlot.terminal.index f trivial).object f o hf ho
      dsimp only
      rw [HeapM.bind_apply, HeapM.mapError]
      cases hrun : Heap.tupleSet x NodeSlot.terminal.index (.object f) h with
      | mk r h' =>
        rw [hrun] at hset hobject
        cases r with
        | error e =>
          obtain rfl := Heap.tupleSet_of_error hrun
          exact ⟨_, h', given, rfl, hc, .nothing⟩
        | ok _ => exact ⟨_, h', _, rfl, hset, .new f hn hobject⟩

theorem insert_supplies (hc : h.Charted given chart) (hroot : chart t.root = some (.node site []))
    (key : Key) (hf : h.object f = .ok o) (ho : o.isPart = false) (hn : n ≤ f.index) :
    ∃ r h' given' chart', t.insert key f h = (r, h') ∧ chart'.Extends chart ∧
      h'.Charted given' chart' ∧
      Supplies given site key.path o n h' given' (r.toOption.map Prod.fst) := by
  have hadds := t.nodeAt_keeps (.adding fun _ => False) t.root key.components h
  obtain ⟨chart₁, hext, hc₁, hnode⟩ := keepsCharted_nodeAt (t := t) hc hroot key.components
  rw [insert, HeapM.bind_apply, HeapM.ask_apply]
  cases t.checkArity key with
  | error e => exact ⟨_, h, given, chart, rfl, .refl chart, hc, .nothing⟩
  | ok _ =>
    dsimp only
    rw [HeapM.bind_apply]
    cases hrun : t.nodeAt t.root key.components h with
    | mk r h₁ =>
      rw [hrun] at hadds hc₁ hnode
      cases r with
      | error e => exact ⟨_, h₁, given, chart₁, rfl, hext, hc₁, .nothing⟩
      | ok node =>
        obtain ⟨r, h', given', hrun', hc', hsupplies⟩ :=
          hold_supplies (t := t) hc₁ (hnode node rfl) (hadds.object f o hf ho) ho hn
        exact ⟨r, h', given', chart₁, hrun', hext, hc', hsupplies⟩

end Insert

theorem keepsCharted_create (hc : h.Charted given chart) (site : SiteId) (arity : Nat) :
    HeapM.KeepsCharted given (create site arity)
      (fun chart' t => chart' t.root = some (.node site [])) chart h := by
  refine (HeapM.KeepsCharted.allocate hc (.node site []) (o := .node fun _ => none) rfl
    (fun r => by cases r <;> rfl) fun _ => rfl).bind fun root chart₁ h₁ _ hc₁ hroot => ?_
  have hrooted := hc₁.shrink (.of_object_eq (Heap.size_root h₁ root) (Heap.object_root h₁ root))
  exact ((HeapM.KeepsCharted.of_charted hrooted).mapError _).bind fun _ chart₂ h₂ hext hc₂ _ =>
    .pure hc₂ (hext root _ hroot)

end Trie

/-! ## Caches -/

section Caches

variable {given : Given} {chart : Chart} {h : Heap} {site : SiteId} {o : Object} {n : Nat}

theorem Cache.getOrInsertWith_supplies {ε : Type} {c : Cache} (hc : h.Charted given chart)
    (hroot : chart c.trie.root = some (.node site [])) (key : Key) (wrap : CacheError → ε)
    (ho : o.isPart = false) (hn : n ≤ h.entries.size) :
    ∃ result c' h', c.getOrInsertWith key wrap (HeapM.change fun h => h.allocate o) h =
        (result, c', h') ∧ c'.trie = c.trie ∧
      ∃ given' chart', chart'.Extends chart ∧ h'.Charted given' chart' ∧
        Trie.Supplies given site key.path o n h' given' (result.toOption.map Prod.fst) := by
  rw [getOrInsertWith]
  cases hlookup : c.trie.lookup key h with
  | error e => exact ⟨_, c, h, rfl, rfl, given, chart, .refl chart, hc, .nothing⟩
  | ok held =>
    cases held with
    | some f =>
      obtain ⟨hgiven, hin⟩ := Trie.given_of_lookup hc hroot hlookup
      exact ⟨_, _, h, rfl, rfl, given, chart, .refl chart, hc, .old f hgiven hin⟩
    | none =>
      dsimp only
      rw [HeapM.change_apply]
      dsimp only
      have hc₁ := hc.spare (Heap.spares_allocate _ h o)
      generalize hcount : (c.count fun s => { s with misses := s.misses + 1 }) = c₁
      have htrie₁ : c₁.trie = c.trie := by rw [← hcount]; rfl
      obtain ⟨r, h₂, given', chart', hinsert, hext, hc', hsupplies⟩ :=
        Trie.insert_supplies (t := c₁.trie) hc₁ (htrie₁ ▸ hroot) key
          (Heap.object_allocate_self h o) ho hn
      obtain ⟨c₂, hrun, htrie₂⟩ := Registry.insert_of_trie hinsert
      have htrie := htrie₂.trans htrie₁
      rw [Heap.allocate_fst, hrun]
      cases r with
      | error e => exact ⟨_, c₂, h₂, rfl, htrie, given', chart', hext, hc', hsupplies⟩
      | ok stored => exact ⟨_, c₂, h₂, rfl, htrie, given', chart', hext, hc', hsupplies⟩

end Caches

namespace Registry

/-- The caches stand in a charted heap, each with its root. -/
structure Charted (given : Given) (chart : Chart) (r : Registry) (h : Heap) : Prop where
  heap : h.Charted given chart
  root : ∀ site c, r.get? site = some c → chart c.trie.root = some (.node site [])

section Charted

variable {given given' : Given} {chart chart' : Chart} {r : Registry} {h h' : Heap}
  {site : SiteId} {c : Cache} {o : Object}

theorem Charted.extend (hr : r.Charted given chart h) (hext : chart'.Extends chart)
    (hc : h'.Charted given' chart') : r.Charted given' chart' h' :=
  ⟨hc, fun s d hd => hext _ _ (hr.root s d hd)⟩

theorem Charted.put (hr : r.Charted given chart h)
    (hroot : chart c.trie.root = some (.node site [])) :
    Charted given chart (r.put site c) h := by
  refine ⟨hr.heap, fun s d hd => ?_⟩
  rw [get?_put] at hd
  split at hd
  · next hs =>
    obtain rfl := Option.some.inj hd
    rw [hs, hroot]
  · exact hr.root s d hd

theorem charted_empty (h : Heap) : Charted (fun _ _ _ => False) (fun _ => none) .empty h :=
  ⟨⟨fun _ _ hx => (by cases hx), fun _ _ _ hx => (by cases hx)⟩,
    fun _ _ hc => (by rw [get?_empty] at hc; cases hc)⟩

/-- Asking for a cache. -/
theorem Charted.getOrCreate (hr : r.Charted given chart h) (site : SiteId) (arity : Nat) :
    ∃ chart', chart'.Extends chart ∧
      (r.getOrCreate site arity h).2.1.Charted given chart' (r.getOrCreate site arity h).2.2 ∧
      ∀ c created, (r.getOrCreate site arity h).1 = .ok (c, created) →
        chart' c.trie.root = some (.node site []) := by
  rw [Registry.getOrCreate]
  cases hget : r.get? site with
  | some c =>
    dsimp only
    split
    · refine ⟨chart, .refl chart, hr, fun d created hd => ?_⟩
      obtain ⟨rfl, -⟩ := Prod.mk.inj (Except.ok.inj hd)
      exact hr.root site c hget
    · exact ⟨chart, .refl chart, hr, fun d created hd => by cases hd⟩
  | none =>
    have hcreate : HeapM.KeepsCharted given (Cache.create site arity)
        (fun chart' c => chart' c.trie.root = some (.node site [])) chart h :=
      (Trie.keepsCharted_create hr.heap site arity).bind
        fun t chart₁ h₁ _ hc₁ hroot => .pure hc₁ hroot
    obtain ⟨chart₁, hext, hc₁, hroot⟩ := hcreate
    cases hrun : Cache.create site arity h with
    | mk result h₁ =>
      rw [hrun] at hc₁ hroot
      cases result with
      | error e => exact ⟨chart₁, hext, hr.extend hext hc₁, fun d created hd => by cases hd⟩
      | ok c =>
        have hroot := hroot c rfl
        refine ⟨chart₁, hext, (hr.extend hext hc₁).put hroot, fun d created hd => ?_⟩
        obtain ⟨rfl, -⟩ := Prod.mk.inj (Except.ok.inj hd)
        exact hroot

/-- Reaching a definition gives out a closure that was given out under the key before, or a
new one. -/
theorem Charted.reach {ε : Type} (hr : r.Charted given chart h) (site : SiteId) (arity : Nat)
    (key : Key) (wrap : CacheError → ε) (ho : o.isPart = false) :
    ∃ result r' h', r.reach site arity key wrap (HeapM.change fun h => h.allocate o) h =
        (result, r', h') ∧
      ∃ given' chart', r'.Charted given' chart' h' ∧
        Trie.Supplies given site key.path o h.entries.size h' given'
          (result.toOption.map Reached.function) := by
  have hadds := r.getOrCreate_keeps (.adding fun _ => False) site arity h
  obtain ⟨chart₁, -, hr₁, hroot⟩ := hr.getOrCreate site arity
  rw [Registry.reach]
  cases hrun : r.getOrCreate site arity h with
  | mk result rest =>
    obtain ⟨r₁, h₁⟩ := rest
    rw [hrun] at hadds hr₁ hroot
    cases result with
    | error e => exact ⟨_, r₁, h₁, rfl, given, chart₁, hr₁, .nothing⟩
    | ok found =>
      obtain ⟨c, created⟩ := found
      have hroot := hroot c created rfl
      obtain ⟨result, c', h₂, hrun₂, htrie, given', chart', hext, hc', hsupplies⟩ :=
        Cache.getOrInsertWith_supplies hr₁.heap hroot key wrap ho hadds.size_le
      have hr' : Charted given' chart' (r₁.put site c') h₂ :=
        (hr₁.extend hext hc').put (htrie ▸ hext _ _ hroot)
      dsimp only
      rw [hrun₂]
      cases result with
      | error e => exact ⟨_, _, h₂, rfl, given', chart', hr', hsupplies⟩
      | ok stored => exact ⟨_, _, h₂, rfl, given', chart', hr', hsupplies⟩

/-- Compaction only takes away. -/
def shrinking : Heap.Pruning where
  Holds := Heap.Shrinks
  refl := .refl
  trans := .trans
  tupleClear h x index := by
    rcases Heap.tupleSet_cases h x index .undefined with heq | ⟨slots, ho, heq⟩ <;> rw [heq]
    · exact .refl h
    · exact Heap.shrinks_setObject ho (Object.shrinks_tuple slots index)
  strongMapRemove h x key := by
    rcases Heap.strongMapRemove_cases h x key with heq | ⟨entries, ho, heq⟩ <;> rw [heq]
    · exact .refl h
    · exact Heap.shrinks_setObject ho (Object.shrinks_strongMap entries key)
  weakMapDelete h x key := by
    rcases Heap.weakMapDelete_cases h x key with heq | ⟨entries, ho, heq⟩ <;> rw [heq]
    · exact .refl h
    · exact Heap.shrinks_setObject ho (Object.shrinks_weakMap entries key)

theorem Charted.compactEach (hr : r.Charted given chart h) (l : List (SiteId × Cache)) (n : Nat)
    (hl : ∀ site c, (site, c) ∈ l → chart c.trie.root = some (.node site [])) :
    (r.compactEach l n h).2.1.Charted given chart (r.compactEach l n h).2.2 := by
  induction l generalizing r n h with
  | nil => exact hr
  | cons entry rest ih =>
    obtain ⟨site, c⟩ := entry
    have hshrinks := c.trie.compact_keeps shrinking h
    have hroot := hl site c List.mem_cons_self
    rw [Registry.compactEach, Cache.compact]
    cases hrun : c.trie.compact h with
    | mk result h₁ =>
      rw [hrun] at hshrinks
      have hr₁ : r.Charted given chart h₁ := hr.extend (.refl chart) (hr.heap.shrink hshrinks)
      cases result with
      | error e => exact hr₁
      | ok pruned =>
        exact ih (hr₁.put (c := c.count _) hroot) _ fun s d hd => hl s d (List.mem_cons_of_mem _ hd)

theorem Charted.compactAll (hr : r.Charted given chart h) :
    (r.compactAll h).2.1.Charted given chart (r.compactAll h).2.2 :=
  hr.compactEach _ 0 fun site c hc => hr.root site c (SortedMap.mem_toList_iff.1 hc)

end Charted

end Registry

end ClosureCache
