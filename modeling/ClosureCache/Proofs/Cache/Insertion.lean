/-
What inserting a closure into a proper trie does.

The operations are followed one by one along the path of the key.  Each of them
either succeeds and deepens the trie, or meets a component that names an object
which is not in the heap; the nodes made up to there stay, and lead to no closure.
The old objects that are written are those on the path.

`insert_spec` is what comes out: the closure that is held under the key afterwards
is the one that was held before or else the new one, and under every other key the
trie finds what it found before.
-/
import ClosureCache.Proofs.Cache.Growth

namespace ClosureCache

/-! ## Writing an edge -/

/-- An empty map of the kind that stands in a slot of a node. -/
def Object.emptyMap : NodeSlot → Object
  | .primitive => .strongMap ∅
  | _ => .weakMap ∅

theorem Object.emptyMap_serves {s : NodeSlot} (hs : s ≠ .terminal) : (emptyMap s).Serves s := by
  cases s
  · trivial
  · trivial
  · exact absurd rfl hs

theorem Object.edge?_emptyMap (s : NodeSlot) (c : Edge) : (emptyMap s).edge? c = none := by
  cases s <;> cases c <;> rfl

def Heap.setEdge (map : ObjectId) : KeyComponent → Value → HeapM HeapError Unit
  | .primitive p => strongMapSet map p
  | .objectRef id => weakMapSet map id
  | .cellRef id => weakMapSet map id

/-- Writing an entry changes one edge of the map.  An object that is to be a key has
to be in the heap. -/
theorem Heap.setEdge_spec {h : Heap} {m : ObjectId} {o : Object} (hm : h.object m = .ok o)
    (c : KeyComponent) (hs : o.Serves c.edge.slot) (v : Value) :
    (∃ o' : Object, setEdge m c v h = (.ok (), h.setObject m o') ∧ o'.Serves c.edge.slot ∧
      (∀ d, o'.edge? d = if d = c.edge then some v else o.edge? d) ∧
      ∀ id, c.edge = .object id → h.contains id = true) ∨
    ∃ id, c.edge = .object id ∧ h.contains id = false ∧
      setEdge m c v h = (.error (.objectNotFound id), h) := by
  have hweak : ∀ id, c.edge = .object id → setEdge m c v = weakMapSet m id v := fun id hc => by
    cases c <;> simp [KeyComponent.edge] at hc <;> subst hc <;> rfl
  cases hc : c.edge with
  | primitive p =>
    rw [hc] at hs
    have hset : setEdge m c v = strongMapSet m p v := by
      cases c <;> simp [KeyComponent.edge] at hc
      subst hc
      rfl
    left
    cases o with
    | strongMap entries =>
      refine ⟨.strongMap (entries.insert p v), ?_, trivial, fun d => ?_, fun id hid => ?_⟩
      · rw [hset, strongMapSet, strongEntries, hm]
      · cases d with
        | primitive q => simp [Object.edge?, SortedMap.get?_insert]
        | object id => simp [Object.edge?]
      · exact absurd hid (by simp)
    | _ => exact absurd hs (by simp [Object.Serves, Edge.slot])
  | object id =>
    rw [hc] at hs
    rw [hweak id hc]
    cases hin : h.contains id with
    | false =>
      refine .inr ⟨id, rfl, hin, ?_⟩
      rw [weakMapSet, hin]
      rfl
    | true =>
      left
      cases o with
      | weakMap entries =>
        refine ⟨.weakMap (entries.insert id v), ?_, trivial, fun d => ?_, fun id' hid => ?_⟩
        · rw [weakMapSet, if_pos hin, weakEntries, hm]
        · cases d with
          | primitive q => simp [Object.edge?]
          | object id' => simp [Object.edge?, SortedMap.get?_insert]
        · rw [← Edge.object.inj hid]
          exact hin
      | _ => exact absurd hs (by simp [Object.Serves, Edge.slot])

namespace Trie

theorem link_eq (t : Trie) (x y : ObjectId) (c : KeyComponent) :
    t.link x y c = (do
      let map ← t.partitionOrCreate x c.edge.slot fun h => h.allocate (.emptyMap c.edge.slot)
      HeapM.mapError .host (Heap.setEdge map c (.object y))) := by
  cases c <;> rfl

section Steps

variable {t : Trie} {h : Heap} {labels : Labels} {x : ObjectId} {path : List Edge}

/-- The map in a slot of a node is found or made. -/
theorem Labelled.partitionOrCreate_spec (hL : t.Labelled h labels)
    (hB : Below labels h.entries.size) (hx : labels x = some (t.nodePlace path)) {s : NodeSlot}
    (hs : s ≠ .terminal) (hshort : path.length < t.arity) :
    ∃ h' labels' m, t.Deepens (· = x) h.entries.size h labels h' labels' ∧
      t.partitionOrCreate x s (fun h => h.allocate (.emptyMap s)) h = (.ok m, h') ∧
      h'.linkAt x s = some m ∧ (h.linkAt x s = some m ∨ h.entries.size ≤ m.index) ∧
      ∀ c, h'.edgeAt m c = (h.linkAt x s).bind fun m => h.edgeAt m c := by
  have hnode := hL.node x path hx
  have hask : HeapM.ask (t.partition? x s) h = (.ok (h.linkAt x s), h) := by
    rw [HeapM.ask_apply, Trie.partition?_eq hnode.isNode]
  cases hm : h.linkAt x s with
  | some m =>
    refine ⟨h, labels, m, .refl _ _ hL hB, ?_, hm, .inl rfl, fun c => rfl⟩
    rw [Trie.partitionOrCreate, HeapM.bind_of_ok hask, hm]
    rfl
  | none =>
    have hgrow := hL.grows_allocate hB (· = x) (Nat.le_refl _) (Object.emptyMap_serves hs).isPart
    have hxin := hL.contains hx rfl
    have hxo : Heap.object (h.allocate (.emptyMap s)).2 x = .ok (.node (h.linkAt x)) :=
      (Heap.object_allocate_of_contains _ hxin).trans hnode.isNode
    have hlink : Heap.linkAt (h.allocate (.emptyMap s)).2 x = h.linkAt x := Heap.linkAt_of_node hxo
    have hfree : labels ⟨h.entries.size⟩ = none := hB.eq_none (Nat.le_refl _)
    have hhang := hgrow.labelled.grows_hangMap hgrow.below (· = x) hx (.inl rfl) hs
      (by rw [hlink, hm]) hshort (Heap.object_allocate_self h _) (Object.emptyMap_serves hs)
      (Object.edge?_emptyMap s) hfree (Nat.le_refl _)
    rw [hlink] at hhang
    have htuple : Heap.tupleSet x s.index (.object (h.allocate (.emptyMap s)).1)
        (h.allocate (.emptyMap s)).2 = _ := Heap.tupleSet_of_node hxo s (some ⟨h.entries.size⟩)
    have hxin' := Heap.contains_of_object hxo
    have hne : (⟨h.entries.size⟩ : ObjectId) ≠ x := fun e =>
      Nat.lt_irrefl _ (e ▸ Heap.lt_of_contains hxin)
    refine ⟨_, _, ⟨h.entries.size⟩, hgrow.trans hhang, ?_, ?_, .inr (Nat.le_refl _), fun c => ?_⟩
    · rw [Trie.partitionOrCreate, HeapM.bind_of_ok hask, hm]
      show (HeapM.change _ >>= _) h = _
      rw [HeapM.bind_of_ok (HeapM.change_apply _ h),
        HeapM.bind_of_ok (HeapM.mapError_of_ok htuple)]
      rfl
    · rw [Heap.linkAt_of_node (Heap.object_setObject_self _ hxin'), Heap.setLink_self]
    · rw [Heap.edgeAt_congr (Heap.object_setObject_of_ne _ hne),
        Heap.edgeAt_of_object (Heap.object_allocate_self h _), Object.edge?_emptyMap]
      rfl

/-- Without a child under an edge there is no edge. -/
theorem Labelled.edge_eq_none_of_child (hL : t.Labelled h labels)
    (hx : labels x = some (t.nodePlace path)) {c : Edge} (hy : h.child x c = none) :
    ((h.linkAt x c.slot).bind fun m => h.edgeAt m c) = none := by
  by_contra hne
  obtain ⟨v, hv⟩ := Option.ne_none_iff_exists'.1 hne
  obtain ⟨m, hm, hv⟩ := Option.bind_eq_some_iff.1 hv
  have hlabel := (hL.node x path hx).map _ m c.slot_ne_terminal hm
  obtain ⟨w, rfl, -⟩ := (hL.map m path _ hlabel).edge c v hv
  rw [Heap.child_eq_some_iff.2 ⟨m, hm, hv⟩] at hy
  cases hy

/-- A blank node that is no part of the trie yet is linked under a component, unless the
component names an object that is not in the heap. -/
theorem Labelled.link_spec (hL : t.Labelled h labels) (hB : Below labels h.entries.size)
    (hx : labels x = some (t.nodePlace path)) (hshort : path.length < t.arity) (c : KeyComponent)
    (hfree : h.child x c.edge = none) {y : ObjectId} (hy : h.object y = .ok (.node fun _ => none))
    (hlabel : labels y = none) (hdepth : path.length < y.index) {n : Nat} (hn : n ≤ y.index) :
    ∃ h' labels', t.Deepens (fun z => z = x ∨ h.linkAt x c.edge.slot = some z) n
        h labels h' labels' ∧
      (t.link x y c h = (.ok (), h') ∧ h'.child x c.edge = some y ∨
        ∃ id, c.edge = .object id ∧ h'.contains id = false ∧
          t.link x y c h = (.error (.host (.objectNotFound id)), h')) := by
  have hysize : y.index < h.entries.size := Heap.lt_of_contains (Heap.contains_of_object hy)
  obtain ⟨h₁, labels₁, m, hgrow, hpart, hlink, hold, hedge⟩ :=
    hL.partitionOrCreate_spec hB hx c.edge.slot_ne_terminal hshort
  have hx₁ := hgrow.keep x _ hx
  have hm₁ := (hgrow.labelled.node x path hx₁).map _ m c.edge.slot_ne_terminal hlink
  obtain ⟨o, ho, hserves⟩ := (hgrow.labelled.map m path _ hm₁).serves
  have hgrow' : t.Deepens (fun z => z = x ∨ h.linkAt x c.edge.slot = some z) n h labels h₁
      labels₁ := hgrow.weaken (fun z _ hz => .inl hz) (Nat.le_trans hn (Nat.le_of_lt hysize))
  rw [link_eq, HeapM.bind_of_ok hpart]
  rcases Heap.setEdge_spec ho c hserves (.object y) with
    ⟨o', hset, hserves', hedge', hheld⟩ | ⟨id, hid, hnot, hset⟩
  · have hylabel : labels₁ y = none := by
      by_contra hne
      obtain ⟨p, hp⟩ := Option.ne_none_iff_exists'.1 hne
      rcases hgrow.fresh y p hp with hp | ⟨-, hge⟩
      · simp [hlabel] at hp
      · exact Nat.not_lt.2 hge hysize
    have hyx : y ≠ x := fun e => by simp [← e, hlabel] at hx
    have hyo : h₁.object y = .ok (.node fun _ => none) :=
      (hgrow.frame.object_eq hysize hyx).trans hy
    have hwritten : (m = x ∨ h.linkAt x c.edge.slot = some m) ∨ n ≤ m.index :=
      hold.imp .inr fun hge => Nat.le_trans hn (Nat.le_trans (Nat.le_of_lt hysize) hge)
    have hblank : h₁.edgeAt m c.edge = none :=
      (hedge c.edge).trans (hL.edge_eq_none_of_child hx hfree)
    have hhang := hgrow.labelled.grows_hangNode hgrow.below
      (fun z => z = x ∨ h.linkAt x c.edge.slot = some z) hm₁ hwritten hblank hyo hserves'
      (by rw [Heap.edgeAt_of_object ho]; exact hedge') hheld hylabel hdepth hn
    have hxm : x ≠ m := fun e => by simp [← e, hx₁, nodePlace, mapPlace] at hm₁
    refine ⟨_, _, hgrow'.trans hhang, .inl ⟨HeapM.mapError_of_ok hset, ?_⟩⟩
    rw [Heap.child, Heap.linkAt_congr (Heap.object_setObject_of_ne _ hxm), hlink, Option.bind_some,
      Heap.edgeAt_of_object (Heap.object_setObject_self _ (Heap.contains_of_object ho)), hedge',
      if_pos rfl]
    rfl
  · exact ⟨h₁, labels₁, hgrow', .inr ⟨id, hid, hnot, HeapM.mapError_of_error hset⟩⟩

/-- A child is found or made, unless the component names an object that is not in
the heap. -/
theorem Labelled.childOrCreate_spec (hL : t.Labelled h labels) (hB : Below labels h.entries.size)
    (hx : labels x = some (t.nodePlace path)) (hshort : path.length < t.arity) (c : KeyComponent) :
    ∃ h' labels', t.Deepens (fun z => z = x ∨ h.linkAt x c.edge.slot = some z) h.entries.size
        h labels h' labels' ∧
      ((∃ y, t.childOrCreate x c h = (.ok y, h') ∧ h'.child x c.edge = some y) ∨
        ∃ id, c.edge = .object id ∧ h'.contains id = false ∧
          t.childOrCreate x c h = (.error (.host (.objectNotFound id)), h')) := by
  have hask : HeapM.ask (t.child? x c) h = (.ok (h.child x c.edge), h) := by
    rw [HeapM.ask_apply, hL.child?_eq hx]
  cases hy : h.child x c.edge with
  | some y =>
    refine ⟨h, labels, .refl _ _ hL hB, .inl ⟨y, ?_, hy⟩⟩
    rw [Trie.childOrCreate, HeapM.bind_of_ok hask, hy]
    rfl
  | none =>
    have hgrow := hL.grows_allocate hB (fun z => z = x ∨ h.linkAt x c.edge.slot = some z)
      (Nat.le_refl _) (Object.isPart_node fun _ => none)
    have hsame : ∀ z p, labels z = some p → p.root = t.root →
        Heap.object (h.allocate (.node fun _ => none)).2 z = h.object z := fun z p hz hp =>
      Heap.object_allocate_of_contains _ (hL.contains hz hp)
    have hdepth : path.length < h.entries.size :=
      Nat.lt_of_le_of_lt (hL.node x path hx).depth (Heap.lt_of_contains (hL.contains hx rfl))
    obtain ⟨h', labels', hgrow', hstep⟩ := hgrow.labelled.link_spec hgrow.below hx hshort c
      ((hL.child_transfer hsame hx c.edge).trans hy) (Heap.object_allocate_self h _)
      (hB.eq_none (Nat.le_refl _)) hdepth (Nat.le_refl _)
    rw [Heap.linkAt_congr (hsame x _ hx rfl)] at hgrow'
    have hcreate : t.childOrCreate x c h =
        (t.link x ⟨h.entries.size⟩ c >>= fun _ => pure ⟨h.entries.size⟩)
          (h.allocate (.node fun _ => none)).2 := by
      rw [Trie.childOrCreate, HeapM.bind_of_ok hask, hy]
      exact HeapM.bind_of_ok (HeapM.change_apply (Heap.newTuple 3) h)
    refine ⟨h', labels', hgrow.trans hgrow', ?_⟩
    rcases hstep with ⟨hrun, hchild⟩ | ⟨id, hid, hnot, hrun⟩
    · refine .inl ⟨⟨h.entries.size⟩, ?_, hchild⟩
      rw [hcreate, HeapM.bind_of_ok hrun]
      rfl
    · refine .inr ⟨id, hid, hnot, ?_⟩
      rw [hcreate, HeapM.bind_of_error hrun]

/-- The node at the end of a path is found or made, unless a component on the way
names an object that is not in the heap. -/
theorem Labelled.nodeAt_spec (hL : t.Labelled h labels) (hB : Below labels h.entries.size)
    (hx : labels x = some (t.nodePlace path)) (components : List KeyComponent)
    (hlength : path.length + components.length = t.arity) :
    ∃ h' labels', t.Deepens
        (t.MemberAlong labels (path ++ components.map KeyComponent.edge)) h.entries.size
        h labels h' labels' ∧
      ((∃ y, t.nodeAt x components h = (.ok y, h') ∧
          h'.walk x (components.map KeyComponent.edge) = some y) ∨
        ∃ id, .object id ∈ components.map KeyComponent.edge ∧ h'.contains id = false ∧
          t.nodeAt x components h = (.error (.host (.objectNotFound id)), h')) := by
  induction components generalizing h labels x path with
  | nil => exact ⟨h, labels, .refl _ _ hL hB, .inl ⟨x, rfl, rfl⟩⟩
  | cons c rest ih =>
    rw [List.length_cons] at hlength
    obtain ⟨h₁, labels₁, hgrow₁, hstep⟩ := hL.childOrCreate_spec hB hx (by omega) c
    -- the node and the map in it are on the path
    have halong : ∀ z, z = x ∨ h.linkAt x c.edge.slot = some z →
        t.MemberAlong labels (path ++ (c :: rest).map KeyComponent.edge) z := by
      rintro z (rfl | hz)
      · exact ⟨_, hx, rfl, List.prefix_append _ _⟩
      · refine ⟨_, (hL.node x path hx).map _ z c.edge.slot_ne_terminal hz, rfl, c.edge, rfl, ?_⟩
        exact ⟨rest.map KeyComponent.edge, List.append_assoc ..⟩
    replace hgrow₁ := hgrow₁.weaken (fun z _ => halong z) (Nat.le_refl _)
    rcases hstep with ⟨y, hrun, hy⟩ | ⟨id, hid, hnot, hrun⟩
    · have hx₁ := hgrow₁.keep x _ hx
      have hy₁ := hgrow₁.labelled.label_child hx₁ hy
      obtain ⟨h₂, labels₂, hgrow₂, hend⟩ := ih hgrow₁.labelled hgrow₁.below hy₁
        (by rw [List.length_append, List.length_singleton]; omega)
      rw [List.append_assoc, List.singleton_append] at hgrow₂
      refine ⟨h₂, labels₂, hgrow₁.trans (hgrow₂.weaken (fun z hlt hz => hgrow₁.memberAlong hlt hz)
        hgrow₁.frame.size_le), ?_⟩
      rcases hend with ⟨z, hrun', hz⟩ | ⟨id, hid, hnot, hrun'⟩
      · refine .inl ⟨z, ?_, ?_⟩
        · rw [Trie.nodeAt, HeapM.bind_of_ok hrun, hrun']
        · rw [List.map_cons, Heap.walk, hgrow₂.child x path _ y hx₁ hy, Option.bind_some, hz]
      · refine .inr ⟨id, List.mem_cons_of_mem _ hid, hnot, ?_⟩
        rw [Trie.nodeAt, HeapM.bind_of_ok hrun, hrun']
    · refine ⟨h₁, labels₁, hgrow₁, .inr ⟨id, ?_, hnot, ?_⟩⟩
      · rw [List.map_cons, hid]
        exact List.mem_cons_self
      · rw [Trie.nodeAt, HeapM.bind_of_error hrun]

/-! ## Inserting -/

/-- How an insertion of `f` under a path can end, and what is found afterwards. -/
inductive Inserted (t : Trie) (path : List Edge) (f : ObjectId) (h h' : Heap) :
    Except CacheError (ObjectId × Bool) → Prop where
  /-- The closure that was held stays. -/
  | held (g : ObjectId) : h.find t.root path = some g →
    (∀ q, h'.find t.root q = h.find t.root q) → Inserted t path f h h' (.ok (g, false))
  | added : h.find t.root path = none →
    (∀ q, h'.find t.root q = if q = path then some f else h.find t.root q) →
    Inserted t path f h h' (.ok (f, true))
  /-- An object of the key is not in the heap. -/
  | refused (id : ObjectId) : .object id ∈ path → h'.contains id = false →
    (∀ q, h'.find t.root q = h.find t.root q) →
    Inserted t path f h h' (.error (.host (.objectNotFound id)))

/-- Inserting under a key of the right length. -/
theorem Labelled.insert_spec (hL : t.Labelled h labels) (hB : Below labels h.entries.size)
    {key : Key} (hkey : key.arity = t.arity) (f : ObjectId) :
    ∃ r h' labels', t.insert key f h = (r, h') ∧
      t.Grows (t.MemberAlong labels key.path) h.entries.size h labels h' labels' ∧
      Inserted t key.path f h h' r := by
  have hcheck : HeapM.ask (fun _ => t.checkArity key) h = (.ok (), h) := by
    rw [HeapM.ask_apply, checkArity, if_pos hkey]
  have hlength : ([] : List Edge).length + key.components.length = t.arity := by
    rw [← hkey]
    exact Nat.zero_add _
  obtain ⟨h₁, labels₁, hgrow, hstep⟩ := hL.nodeAt_spec hB hL.root key.components hlength
  have hfind := hgrow.find t.root [] hL.root
  rcases hstep with ⟨y, hrun, hy⟩ | ⟨id, hid, hnot, hrun⟩
  · have hylabel := hgrow.labelled.label_walk hgrow.labelled.root hy
    have hheld : h₁.linkAt y .terminal = h.find t.root key.path := by
      rw [← hfind, Heap.find, Key.path, hy, Option.bind_some]
    have hask : HeapM.ask (t.terminal? y) h₁ = (.ok (h.find t.root key.path), h₁) := by
      rw [HeapM.ask_apply, terminal?_eq (hgrow.labelled.node y _ hylabel).isNode, hheld]
    rw [insert, HeapM.bind_of_ok hcheck, HeapM.bind_of_ok hrun, HeapM.bind_of_ok hask]
    cases hg : h.find t.root key.path with
    | some g => exact ⟨_, h₁, labels₁, rfl, hgrow.toGrows, .held g hg hfind⟩
    | none =>
      have hwritten : t.MemberAlong labels key.path y ∨ h.entries.size ≤ y.index := by
        rw [or_iff_not_imp_right, Nat.not_le]
        exact fun hlt => hgrow.memberAlong hlt ⟨_, hylabel, rfl, List.prefix_rfl⟩
      have hterminal := hgrow.labelled.grows_setTerminal hgrow.below _ hylabel hwritten hy
        (by rw [List.nil_append, List.length_map]; exact hkey) f
      have htuple : Heap.tupleSet y NodeSlot.terminal.index (.object f) h₁ = _ :=
        Heap.tupleSet_of_node (hgrow.labelled.node y _ hylabel).isNode .terminal (some f)
      refine ⟨_, _, labels₁, ?_, hgrow.toGrows.trans hterminal.1, .added hg fun q => ?_⟩
      · show (HeapM.mapError _ _ >>= _) h₁ = _
        rw [HeapM.bind_of_ok (HeapM.mapError_of_ok htuple)]
        rfl
      · rw [hterminal.2, hfind]
        rfl
  · refine ⟨_, h₁, labels₁, ?_, hgrow.toGrows, .refused id hid hnot hfind⟩
    rw [insert, HeapM.bind_of_ok hcheck, HeapM.bind_of_error hrun]

/-- A key of another length is refused before anything is made. -/
theorem insert_of_arity_ne {t : Trie} {key : Key} (hkey : key.arity ≠ t.arity) (f : ObjectId)
    (h : Heap) : t.insert key f h = (.error (.arityMismatch t.site t.arity key.arity), h) := by
  have hcheck : HeapM.ask (fun _ => t.checkArity key) h =
      (.error (.arityMismatch t.site t.arity key.arity), h) := by
    rw [HeapM.ask_apply, checkArity, if_neg hkey]
  rw [insert, HeapM.bind_of_error hcheck]

end Steps

end Trie

end ClosureCache
