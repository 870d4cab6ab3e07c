/-
Counting the closures of a proper trie.

The walk that counts visits every node once.  `Lists` says what it brings back: a
list with one entry for every path at which a closure is found.
-/
import ClosureCache.Proofs.Cache.Pruning

namespace ClosureCache
namespace Trie

/-- A list that has one entry for every path at which a node finds a closure, and no
other. -/
structure Lists (h : Heap) (x : ObjectId) (l : List (List Edge × ObjectId)) : Prop where
  nodup : (l.map Prod.fst).Nodup
  mem : ∀ q f, (q, f) ∈ l ↔ h.find x q = some f

section Children

variable {t : Trie} {h : Heap} {labels : Labels} {x : ObjectId} {path : List Edge}

theorem mapM_asNode (t : Trie) (l : List (Edge × ObjectId)) :
    (l.map fun e => Value.object e.2).mapM t.asNode = .ok (l.map Prod.snd) := by
  induction l with
  | nil => rfl
  | cons e rest ih =>
    rw [List.map_cons, List.mapM_cons, ih]
    rfl

/-- Values that are all objects. -/
theorem exists_objects {κ : Type} {l : List (κ × Value)} (hl : ∀ e ∈ l, ∃ y, e.2 = .object y) :
    ∃ l' : List (κ × ObjectId), l = l'.map fun e => (e.1, .object e.2) := by
  induction l with
  | nil => exact ⟨[], rfl⟩
  | cons e rest ih =>
    obtain ⟨k, v⟩ := e
    obtain ⟨y, hy⟩ := hl (k, v) List.mem_cons_self
    obtain rfl : v = .object y := hy
    obtain ⟨rest', rfl⟩ := ih fun e he => hl e (List.mem_cons_of_mem _ he)
    exact ⟨(k, y) :: rest', rfl⟩

/-- The map in one slot of a node holds the children under the edges of the slot. -/
theorem Labelled.edges_spec {κ : Type} [Ord κ] [Std.LawfulEqOrd κ] {s : NodeSlot}
    {edge : κ → Edge} {entries : Heap → ObjectId → Except HeapError (SortedMap κ Value)}
    {remove : ObjectId → κ → HeapM HeapError Bool} (hH : Handles s edge entries remove)
    (hs : s ≠ .terminal) (hL : t.Labelled h labels) (hx : labels x = some (t.nodePlace path))
    (hdef : t.edges x s h = match t.partition? x s h with
      | .error e => .error e
      | .ok none => .ok []
      | .ok (some map) => ((entries h map).map SortedMap.values).mapError .host) :
    ∃ l : List (Edge × ObjectId), t.edges x s h = .ok (l.map fun e => .object e.2) ∧
      (l.map Prod.fst).Nodup ∧ ∀ c y, (c, y) ∈ l ↔ c.slot = s ∧ h.child x c = some y := by
  have hnode := hL.node x path hx
  rw [partition?_eq hnode.isNode] at hdef
  cases hm : h.linkAt x s with
  | none =>
    rw [hm] at hdef
    refine ⟨[], hdef, List.nodup_nil, fun c y => ⟨fun hmem => absurd hmem (by simp), ?_⟩⟩
    rintro ⟨rfl, hy⟩
    simp [Heap.child, hm] at hy
  | some m =>
    have hmap := hL.map m path s (hnode.map s m hs hm)
    obtain ⟨o, ho, hserves⟩ := hmap.serves
    obtain ⟨e, he, hget⟩ := hH.read h m o ho hserves
    have hedge : ∀ k v, (k, v) ∈ e.toList ↔ h.edgeAt m (edge k) = some v := fun k v => by
      rw [SortedMap.mem_toList_iff, hget, Heap.edgeAt_of_object ho]
    obtain ⟨l, hl⟩ := exists_objects (l := e.toList) fun kv hkv => by
      obtain ⟨y, hy, -⟩ := hmap.edge _ kv.2 ((hedge kv.1 kv.2).1 hkv)
      exact ⟨y, hy⟩
    have hchild : ∀ k y, (k, y) ∈ l ↔ h.child x (edge k) = some y := fun k y => by
      have hmem : (k, y) ∈ l ↔ (k, Value.object y) ∈ e.toList := by
        rw [hl, List.mem_map]
        refine ⟨fun hky => ⟨_, hky, rfl⟩, ?_⟩
        rintro ⟨⟨k', y'⟩, hky, heq⟩
        obtain ⟨rfl, hyy⟩ := Prod.mk.inj heq
        exact Value.object.inj hyy ▸ hky
      rw [hmem, hedge, Heap.child, hH.slot, hm, Option.bind_some, Option.bind_eq_some_iff]
      simp only [Value.object?_eq_some, exists_eq_right]
    refine ⟨l.map fun e => (edge e.1, e.2), ?_, ?_, fun c y => ⟨fun hmem => ?_, ?_⟩⟩
    · rw [hdef, hm]
      show ((entries h m).map SortedMap.values).mapError CacheError.host = _
      rw [he]
      show Except.ok (e.toList.map Prod.snd) = _
      rw [hl, List.map_map, List.map_map]
      rfl
    · have hkeys : (l.map Prod.fst).Nodup := by
        have := e.nodup_keys
        rwa [SortedMap.keys, show e.entries = _ from hl, List.map_map] at this
      rw [List.map_map]
      have := hkeys.map (f := edge) fun j k => hH.inj j k
      rwa [List.map_map] at this
    · obtain ⟨⟨k, z⟩, hkz, heq⟩ := List.mem_map.1 hmem
      obtain ⟨rfl, rfl⟩ := Prod.mk.inj heq
      exact ⟨hH.slot k, (hchild k z).1 hkz⟩
    · rintro ⟨hc, hy⟩
      obtain ⟨k, rfl⟩ := hH.all c hc
      exact List.mem_map.2 ⟨(k, y), (hchild k y).2 hy, rfl⟩

/-- The children of a node, with the edges that lead to them. -/
theorem Labelled.children_spec (hL : t.Labelled h labels)
    (hx : labels x = some (t.nodePlace path)) :
    ∃ l : List (Edge × ObjectId), t.children x h = .ok (l.map Prod.snd) ∧
      (l.map Prod.fst).Nodup ∧ ∀ c y, (c, y) ∈ l ↔ h.child x c = some y := by
  obtain ⟨l₁, hrun₁, hnodup₁, hmem₁⟩ := hL.edges_spec handles_strong (by decide) hx rfl
  obtain ⟨l₂, hrun₂, hnodup₂, hmem₂⟩ := hL.edges_spec handles_weak (by decide) hx rfl
  refine ⟨l₁ ++ l₂, ?_, ?_, fun c y => ?_⟩
  · rw [children, hrun₁, hrun₂]
    show (do
      let primitives ← (l₁.map fun (e : Edge × ObjectId) => Value.object e.2).mapM t.asNode
      let weak ← (l₂.map fun (e : Edge × ObjectId) => Value.object e.2).mapM t.asNode
      return primitives ++ weak) = _
    rw [mapM_asNode, mapM_asNode, List.map_append]
    rfl
  · rw [List.map_append]
    refine List.Nodup.append hnodup₁ hnodup₂ fun c hc₁ hc₂ => ?_
    obtain ⟨⟨_, y₁⟩, hy₁, rfl⟩ := List.mem_map.1 hc₁
    obtain ⟨⟨_, y₂⟩, hy₂, rfl⟩ := List.mem_map.1 hc₂
    have h₁ := ((hmem₁ _ _).1 hy₁).1
    have h₂ := ((hmem₂ _ _).1 hy₂).1
    exact absurd (h₁.symm.trans h₂) (by decide)
  · rw [List.mem_append, hmem₁, hmem₂]
    cases c <;> simp [Edge.slot]

end Children

/-! ## The count -/

section Count

variable {t : Trie} {h : Heap} {labels : Labels}

/-- The closures below some of the children of a node, put together. -/
theorem closures_below {run : ObjectId → Except (Stop CacheError) (List ObjectId)}
    (cs : List (Edge × ObjectId)) (hcs : (cs.map Prod.fst).Nodup)
    (hrun : ∀ c y, (c, y) ∈ cs → ∃ l, run y = .ok (l.map Prod.snd) ∧ Lists h y l) :
    ∃ (ls : List (List ObjectId)) (l : List (List Edge × ObjectId)),
      (cs.map Prod.snd).mapM run = .ok ls ∧ ls.flatten = l.map Prod.snd ∧
      (l.map Prod.fst).Nodup ∧
      ∀ q f, (q, f) ∈ l ↔ ∃ c y rest, q = c :: rest ∧ (c, y) ∈ cs ∧ h.find y rest = some f := by
  induction cs with
  | nil => exact ⟨[], [], rfl, rfl, List.nodup_nil, fun q f => by simp⟩
  | cons e cs ih =>
    obtain ⟨c, y⟩ := e
    obtain ⟨hfirst, hcs⟩ := List.nodup_cons.1 hcs
    obtain ⟨l₁, hrun₁, hlist⟩ := hrun c y List.mem_cons_self
    obtain ⟨ls, l₂, hrun₂, hflat, hnodup, hmem⟩ :=
      ih hcs fun c y hcy => hrun c y (List.mem_cons_of_mem _ hcy)
    refine ⟨l₁.map Prod.snd :: ls, (l₁.map fun e => (c :: e.1, e.2)) ++ l₂, ?_, ?_, ?_,
      fun q f => ?_⟩
    · rw [List.map_cons, List.mapM_cons, hrun₁, hrun₂]
      rfl
    · rw [List.flatten_cons, hflat, List.map_append, List.map_map]
      rfl
    · rw [List.map_append, List.map_map]
      refine List.Nodup.append ?_ hnodup fun q hq₁ hq₂ => ?_
      · have := hlist.nodup.map (f := fun q => c :: q) fun p q hpq => (List.cons.inj hpq).2
        rwa [List.map_map] at this
      · obtain ⟨e₁, -, rfl⟩ := List.mem_map.1 hq₁
        obtain ⟨⟨q, f⟩, he₂, hq⟩ := List.mem_map.1 hq₂
        obtain ⟨c', y', rest, rfl, hin, -⟩ := (hmem q f).1 he₂
        exact hfirst (List.mem_map.2 ⟨(c', y'), hin, (List.cons.inj hq).1⟩)
    · rw [List.mem_append, hmem, List.mem_map]
      constructor
      · rintro (⟨⟨p, g⟩, hpg, heq⟩ | ⟨c', y', rest, rfl, hin, hf⟩)
        · obtain ⟨rfl, rfl⟩ := Prod.mk.inj heq
          exact ⟨c, y, p, rfl, List.mem_cons_self, (hlist.mem p g).1 hpg⟩
        · exact ⟨c', y', rest, rfl, List.mem_cons_of_mem _ hin, hf⟩
      · rintro ⟨c', y', rest, rfl, hin, hf⟩
        rcases List.mem_cons.1 hin with heq | hin
        · obtain ⟨rfl, rfl⟩ := Prod.mk.inj heq
          exact .inl ⟨(rest, f), (hlist.mem rest f).2 hf, rfl⟩
        · exact .inr ⟨c', y', rest, rfl, hin, hf⟩

/-- The walk brings back the closures below a node, with enough fuel for the depth
that is left. -/
theorem Labelled.closuresFrom_spec (hL : t.Labelled h labels) (n : Nat) {x : ObjectId}
    {path : List Edge} (hx : labels x = some (t.nodePlace path))
    (hfuel : h.entries.size < path.length + n) :
    ∃ l, t.closuresFrom h n x = .ok (l.map Prod.snd) ∧ Lists h x l := by
  induction n generalizing x path with
  | zero =>
    have := (hL.node x path hx).depth
    have := Heap.lt_of_contains (hL.contains hx rfl)
    omega
  | succ n ih =>
    obtain ⟨cs, hchildren, hnodup, hmem⟩ := hL.children_spec hx
    obtain ⟨ls, l, hrun, hflat, hnodup', hmem'⟩ := closures_below (h := h) cs.reverse
      (by rw [List.map_reverse]; exact List.nodup_reverse.2 hnodup) fun c y hcy =>
        ih (hL.label_child hx ((hmem c y).1 (List.mem_reverse.1 hcy)))
          (by rw [List.length_append, List.length_singleton]; omega)
    refine ⟨(h.linkAt x .terminal).toList.map (fun f => ([], f)) ++ l, ?_, ?_, fun q f => ?_⟩
    · rw [closuresFrom, terminal?_eq (hL.node x path hx).isNode, hchildren]
      show (do
        let below ← (cs.map Prod.snd).reverse.mapM (t.closuresFrom h n)
        return (h.linkAt x .terminal).toList ++ below.flatten) = _
      rw [← List.map_reverse, hrun]
      show Except.ok _ = _
      rw [hflat, List.map_append, List.map_map]
      congr 2
      exact (List.map_id _).symm
    · rw [List.map_append, List.map_map]
      refine List.Nodup.append ?_ hnodup' fun q hq₁ hq₂ => ?_
      · cases h.linkAt x .terminal <;> simp
      · obtain ⟨f, -, rfl⟩ := List.mem_map.1 hq₁
        obtain ⟨⟨q, f⟩, hqf, hq⟩ := List.mem_map.1 hq₂
        obtain ⟨c, y, rest, rfl, -⟩ := (hmem' q f).1 hqf
        exact absurd hq (by simp)
    · rw [List.mem_append, hmem']
      simp only [List.mem_reverse, hmem]
      cases q with
      | nil => simp [Heap.find_nil, eq_comm]
      | cons c rest => simp [Heap.find_cons, Option.bind_eq_some_iff]

/-- The number of closures is the number of paths at which one is found. -/
theorem Labelled.liveEntries_spec (hL : t.Labelled h labels) :
    ∃ l, t.liveEntries h = .ok l.length ∧ Lists h t.root l := by
  obtain ⟨l, hrun, hlist⟩ := hL.closuresFrom_spec (h.entries.size + 1) hL.root
    (by rw [List.length_nil]; omega)
  refine ⟨l, ?_, hlist⟩
  rw [liveEntries, hrun]
  show Except.ok (l.map Prod.snd).length = _
  rw [List.length_map]

/-- Lists of the same closures are of the same length. -/
theorem Lists.length_eq {h' : Heap} {x : ObjectId} {l l' : List (List Edge × ObjectId)}
    (hl : Lists h x l) (hl' : Lists h' x l') (hfind : ∀ q, h'.find x q = h.find x q) :
    l'.length = l.length := by
  have hmem : ∀ e, e ∈ l' ↔ e ∈ l := fun ⟨q, f⟩ => by rw [hl'.mem, hl.mem, hfind]
  exact ((List.perm_ext_iff_of_nodup hl'.nodup.of_map hl.nodup.of_map).2 hmem).length_eq

/-- Where the same closures are found, as many are counted. -/
theorem Labelled.liveEntries_congr {h' : Heap} {labels' : Labels} (hL : t.Labelled h labels)
    (hL' : t.Labelled h' labels') (hfind : ∀ q, h'.find t.root q = h.find t.root q) :
    t.liveEntries h' = t.liveEntries h := by
  obtain ⟨l, hlive, hlist⟩ := hL.liveEntries_spec
  obtain ⟨l', hlive', hlist'⟩ := hL'.liveEntries_spec
  rw [hlive, hlive', hlist.length_eq hlist' hfind]

end Count

end Trie
end ClosureCache
