/-
The walk that compacts a proper trie.

The walk goes down the trie and ends because a node is never deeper than its number is
large.  On the way it prunes, which never takes anything from what is found, and so never
makes an ordered branch disorderly: `Tidy` says of a node that every node below it leads to
a closure and that no map is empty, and pruning keeps it.  A node is therefore tidy when
its children have been visited one after the other.

`Trims` adds to `Prunes` what the walk needs to know of itself: it stays below a given
depth, so it does not cut off the branch it stands on, and it counts the paths that it
takes away.
-/
import Mathlib.Data.List.Induction
import Mathlib.Data.Set.Card
import ClosureCache.Proofs.Cache.Pruning

namespace ClosureCache

namespace Heap

/-- A closure is found at a node or below it. -/
def HasClosure (h : Heap) (x : ObjectId) : Prop := ∃ q f, h.find x q = some f

/-- The paths on which one can walk from a node. -/
def paths (h : Heap) (x : ObjectId) : Set (List Edge) := {q | (h.walk x q).isSome}

theorem mem_paths {h : Heap} {x : ObjectId} {q : List Edge} :
    q ∈ h.paths x ↔ (h.walk x q).isSome = true := Iff.rfl

/-- Every node below the node leads to a closure, and none of the maps at the node or below
it is empty. -/
structure Tidy (h : Heap) (x : ObjectId) : Prop where
  hasClosure : ∀ q z, h.walk x q = some z → q ≠ [] → h.HasClosure z
  map : ∀ q z s m, h.walk x q = some z → s ≠ .terminal → h.linkAt z s = some m →
    ∃ c v, h.edgeAt m c = some v

/-- The part of `Tidy` that concerns one slot of a node. -/
structure TidySlot (h : Heap) (x : ObjectId) (s : NodeSlot) : Prop where
  map : ∀ m, h.linkAt x s = some m → ∃ c v, h.edgeAt m c = some v
  child : ∀ c y, c.slot = s → h.child x c = some y → h.HasClosure y ∧ h.Tidy y

variable {h : Heap} {x y : ObjectId} {s : NodeSlot}

theorem Tidy.walk (hx : h.Tidy x) {q : List Edge} (hy : h.walk x q = some y) : h.Tidy y where
  hasClosure r z hz hr := hx.hasClosure (q ++ r) z (by rw [walk_append, hy, Option.bind_some, hz])
    fun e => hr (List.append_eq_nil_iff.1 e).2
  map r z s m hz := hx.map (q ++ r) z s m (by rw [walk_append, hy, Option.bind_some, hz])

theorem Tidy.slot (hx : h.Tidy x) (hs : s ≠ .terminal) : h.TidySlot x s where
  map m hm := hx.map [] x s m rfl hs hm
  child c y _ hy := by
    have hwalk : h.walk x [c] = some y := by rw [Heap.walk, hy]; rfl
    exact ⟨hx.hasClosure [c] y hwalk (by simp), hx.walk hwalk⟩

theorem tidySlot_of_none (hx : h.linkAt x s = none) : h.TidySlot x s where
  map m hm := by
    rw [hx] at hm
    cases hm
  child c y hc hy := by
    obtain ⟨m, hm, -⟩ := Heap.child_eq_some_iff.1 hy
    rw [hc, hx] at hm
    cases hm

theorem tidy_of_slots (hx : ∀ s, s ≠ .terminal → h.TidySlot x s) : h.Tidy x where
  hasClosure q z hz hq := by
    cases q with
    | nil => exact absurd rfl hq
    | cons c rest =>
      obtain ⟨y, hy, hz⟩ := Option.bind_eq_some_iff.1 hz
      obtain ⟨hclosure, htidy⟩ := (hx c.slot c.slot_ne_terminal).child c y rfl hy
      by_cases hrest : rest = []
      · subst hrest
        exact Option.some.inj hz ▸ hclosure
      · exact htidy.hasClosure rest z hz hrest
  map q z s m hz hs hm := by
    cases q with
    | nil =>
      obtain rfl := Option.some.inj hz
      exact (hx s hs).map m hm
    | cons c rest =>
      obtain ⟨y, hy, hz⟩ := Option.bind_eq_some_iff.1 hz
      exact ((hx c.slot c.slot_ne_terminal).child c y rfl hy).2.map rest z s m hz hs hm

theorem HasClosure.of_child {c : Edge} (hc : h.child x c = some y) (hy : h.HasClosure y) :
    h.HasClosure x := by
  obtain ⟨q, f, hf⟩ := hy
  exact ⟨c :: q, f, by rw [find_cons, hc, Option.bind_some, hf]⟩

end Heap

namespace Trie

/-! ## Tidy branches stay tidy -/

section Tidy

variable {t : Trie} {h h' : Heap} {labels : Labels} {x y : ObjectId} {path : List Edge}
  {s : NodeSlot}

namespace Prunes

theorem child (hp : t.Prunes labels h h') (hx : labels x = some (t.nodePlace path)) {c : Edge}
    (hy : h'.child x c = some y) : h.child x c = some y := by
  obtain ⟨m, hm, hv⟩ := Heap.child_eq_some_iff.1 hy
  have hlabel := (hp.labelled.node x path hx).map _ m c.slot_ne_terminal hm
  exact Heap.child_eq_some_iff.2
    ⟨m, hp.link x path _ m hx hm, hp.edge m path _ c _ hlabel hv⟩

theorem walk (hp : t.Prunes labels h h') (hx : labels x = some (t.nodePlace path)) {q : List Edge}
    (hy : h'.walk x q = some y) : h.walk x q = some y := by
  induction q generalizing x path with
  | nil => exact hy
  | cons c rest ih =>
    obtain ⟨z, hz, hy⟩ := Option.bind_eq_some_iff.1 hy
    rw [Heap.walk, hp.child hx hz]
    exact ih (hp.labelled.label_child hx hz) hy

theorem hasClosure_iff (hp : t.Prunes labels h h') (hx : labels x = some (t.nodePlace path)) :
    h'.HasClosure x ↔ h.HasClosure x := by
  rw [Heap.HasClosure, Heap.HasClosure]
  simp only [hp.find x path hx]

/-- A child that leads to a closure is not taken away. -/
theorem child_of_hasClosure (hp : t.Prunes labels h h') (hx : labels x = some (t.nodePlace path))
    {c : Edge} (hy : h.child x c = some y) (hclosure : h.HasClosure y) : h'.child x c = some y := by
  obtain ⟨q, f, hf⟩ := hclosure
  have hfind : h'.find x (c :: q) = some f := by
    rw [hp.find x path hx, Heap.find_cons, hy, Option.bind_some, hf]
  rw [Heap.find_cons, Option.bind_eq_some_iff] at hfind
  obtain ⟨z, hz, -⟩ := hfind
  rw [hz, ← hp.child hx hz, hy]

/-- A map with a child that leads to a closure does not become empty. -/
theorem map_of_tidySlot (hp : t.Prunes labels h h') (hL : t.Labelled h labels)
    (hx : labels x = some (t.nodePlace path)) (hs : s ≠ .terminal) (hxs : h.TidySlot x s)
    {m : ObjectId} (hm : h'.linkAt x s = some m) : ∃ c v, h'.edgeAt m c = some v := by
  have hold := hp.link x path s m hx hm
  obtain ⟨c, v, hv⟩ := hxs.map m hold
  obtain ⟨y, rfl, rfl, hy⟩ := hL.child_of_edge hx hs hold hv
  have hstays := hp.child_of_hasClosure hx hy (hxs.child c y rfl hy).1
  obtain ⟨m', hm', hv'⟩ := Heap.child_eq_some_iff.1 hstays
  rw [hm] at hm'
  exact ⟨c, _, Option.some.inj hm' ▸ hv'⟩

theorem tidy (hp : t.Prunes labels h h') (hL : t.Labelled h labels)
    (hx : labels x = some (t.nodePlace path)) (htidy : h.Tidy x) : h'.Tidy x where
  hasClosure q z hz hq := by
    have hold := hp.walk hx hz
    exact (hp.hasClosure_iff (hL.label_walk hx hold)).2 (htidy.hasClosure q z hold hq)
  map q z s m hz hs hm := by
    have hold := hp.walk hx hz
    exact hp.map_of_tidySlot hL (hL.label_walk hx hold) hs ((htidy.walk hold).slot hs) hm

theorem tidySlot (hp : t.Prunes labels h h') (hL : t.Labelled h labels)
    (hx : labels x = some (t.nodePlace path)) (hs : s ≠ .terminal) (hxs : h.TidySlot x s) :
    h'.TidySlot x s where
  map _ hm := hp.map_of_tidySlot hL hx hs hxs hm
  child c y hc hy := by
    have hold := hp.child hx hy
    have hlabel := hL.label_child hx hold
    obtain ⟨hclosure, htidy⟩ := hxs.child c y hc hold
    exact ⟨(hp.hasClosure_iff hlabel).2 hclosure, hp.tidy hL hlabel htidy⟩

end Prunes

/-- A tidy node that is not blank leads to a closure. -/
theorem Labelled.hasClosure_of_tidy (hL : t.Labelled h labels)
    (hx : labels x = some (t.nodePlace path)) (htidy : h.Tidy x)
    (hne : h.linkAt x ≠ fun _ => none) : h.HasClosure x := by
  obtain ⟨s, hs⟩ := Function.ne_iff.1 hne
  obtain ⟨m, hm⟩ := Option.ne_none_iff_exists'.1 hs
  by_cases hterminal : s = .terminal
  · exact ⟨[], m, by rw [Heap.find_nil, ← hterminal, hm]⟩
  · obtain ⟨c, v, hv⟩ := htidy.map [] x s m rfl hterminal hm
    obtain ⟨y, rfl, hc, hy⟩ := hL.child_of_edge hx hterminal hm hv
    exact .of_child hy ((htidy.slot hterminal).child c y hc hy).1

theorem not_hasClosure_of_blank (hx : h.linkAt x = fun _ => none) : ¬ h.HasClosure x := by
  rintro ⟨q, f, hf⟩
  rw [find_of_blank hx] at hf
  cases hf

end Tidy

/-! ## Counting what is taken away -/

/-- Pruning that stays at depth `d` or below it and takes away `n` of the paths of the
trie. -/
structure Trims (t : Trie) (labels : Labels) (d n : Nat) (h h' : Heap) : Prop extends
    Prunes t labels h h' where
  above : ∀ x p, labels x = some p → p.root = t.root → p.path.length < d →
    h'.object x = h.object x
  count : (h.paths t.root).encard = (h'.paths t.root).encard + n

namespace Trims

variable {t : Trie} {labels : Labels} {h h₁ h₂ : Heap} {d n n' : Nat}

theorem refl (hL : t.Labelled h labels) (d : Nat) : t.Trims labels d 0 h h :=
  ⟨.refl hL, fun _ _ _ _ _ => rfl, (add_zero _).symm⟩

theorem trans (a : t.Trims labels d n h h₁) (b : t.Trims labels d n' h₁ h₂) :
    t.Trims labels d (n + n') h h₂ where
  toPrunes := a.toPrunes.trans b.toPrunes
  above x p hx hp hd := (b.above x p hx hp hd).trans (a.above x p hx hp hd)
  count := by
    rw [a.count, b.count, Nat.cast_add, add_comm (n : ℕ∞), add_assoc]

/-- What stays below a depth stays below a lesser one. -/
theorem deepen {d' : Nat} (a : t.Trims labels d' n h h₁) (hd : d ≤ d') :
    t.Trims labels d n h h₁ :=
  ⟨a.toPrunes, fun x p hx hp hlt => a.above x p hx hp (Nat.lt_of_lt_of_le hlt hd), a.count⟩

/-- The branch on which a walk stands is not cut off. -/
theorem walk_eq (a : t.Trims labels d n h h₁) (hL : t.Labelled h labels) {q : List Edge}
    (hq : q.length ≤ d) : h₁.walk t.root q = h.walk t.root q := by
  suffices ∀ x p, labels x = some (t.nodePlace p) → p.length + q.length ≤ d →
      h₁.walk x q = h.walk x q from this _ [] hL.root (by rwa [List.length_nil, Nat.zero_add])
  clear hq
  induction q with
  | nil => exact fun _ _ _ _ => rfl
  | cons c rest ih =>
    intro x p hx hd
    rw [List.length_cons] at hd
    have hchild : h₁.child x c = h.child x c := by
      refine Heap.child_congr (a.above x _ hx rfl (by show p.length < d; omega)) fun m hm => ?_
      exact a.above m _ ((hL.node x p hx).map _ m c.slot_ne_terminal hm) rfl
        (by show p.length < d; omega)
    rw [Heap.walk, Heap.walk, hchild]
    cases hy : h.child x c with
    | none => rfl
    | some y =>
      exact ih y (p ++ [c]) (hL.label_child hx hy)
        (by rw [List.length_append, List.length_singleton]; omega)

end Trims

section Steps

variable {t : Trie} {h : Heap} {labels : Labels} {x m : ObjectId} {path : List Edge} {s : NodeSlot}

/-- After the edge to a blank child has been taken away, one can walk everywhere but to
that child. -/
theorem Labelled.walk_dropEdge (hL : t.Labelled h labels) (hx : h.walk t.root path = some x)
    (hs : s ≠ .terminal) (hm : h.linkAt x s = some m) {c : Edge} {o : Object}
    (hedge : ∀ d, o.edge? d = if d = c then none else h.edgeAt m d) {y : ObjectId}
    (hy : h.edgeAt m c = some (.object y)) (hblank : h.linkAt y = fun _ => none) (q : List Edge) :
    Heap.walk (h.setObject m o) t.root q =
      if q = path ++ [c] then none else h.walk t.root q := by
  have hxlabel := hL.label_of_walk hx
  have hmlabel := (hL.node x path hxlabel).map s m hs hm
  obtain ⟨y', hy', rfl, hchild⟩ := hL.child_of_edge hxlabel hs hm hy
  obtain rfl := Value.object.inj hy'
  induction q using List.reverseRecOn with
  | nil => rw [if_neg (by simp)]; rfl
  | append_singleton q d ih =>
    rw [Heap.walk_concat, Heap.walk_concat, ih]
    by_cases hq : q = path ++ [c]
    · -- below the child there was nothing
      rw [if_pos hq, if_neg (by simp [hq]), hq, Heap.walk_concat, hx, Option.bind_some, hchild,
        Option.bind_some, Heap.child, hblank]
      rfl
    · rw [if_neg hq]
      cases hz : h.walk t.root q with
      | none => exact (ite_self none).symm
      | some z =>
        have hzlabel := hL.label_of_walk hz
        rw [Option.bind_some, Option.bind_some]
        by_cases hqd : q ++ [d] = path ++ [c]
        · obtain ⟨rfl, hdc⟩ := List.append_inj' hqd rfl
          obtain rfl := List.singleton_inj.1 hdc
          rw [if_pos rfl]
          obtain rfl : x = z := Option.some.inj (hx.symm.trans hz)
          have hxm : x ≠ m := fun e => by simp [← e, hxlabel, nodePlace, mapPlace] at hmlabel
          rw [Heap.child, Heap.linkAt_congr (Heap.object_setObject_of_ne o hxm), hm,
            Option.bind_some, Heap.edgeAt_of_object
              (Heap.object_setObject_self o (hL.contains hmlabel rfl)), hedge, if_pos rfl]
          rfl
        · rw [if_neg hqd]
          refine hL.child_setMap hmlabel hzlabel fun hzm => ?_
          have hlabel := (hL.node z q hzlabel).map _ m d.slot_ne_terminal hzm
          obtain ⟨rfl, -⟩ : q = path ∧ d.slot = c.slot := by
            simpa [mapPlace, hmlabel, eq_comm] using hlabel
          rw [hedge, if_neg fun e : d = c => hqd (by rw [e])]

/-- The edge to a blank child can be taken away, and the child is the only node that is
lost. -/
theorem Labelled.trims_edge (hL : t.Labelled h labels) (hx : h.walk t.root path = some x)
    (hs : s ≠ .terminal) (hm : h.linkAt x s = some m) {c : Edge} {o : Object}
    (hserves : o.Serves s) (hedge : ∀ d, o.edge? d = if d = c then none else h.edgeAt m d)
    {y : ObjectId} (hy : h.edgeAt m c = some (.object y)) (hblank : h.linkAt y = fun _ => none) :
    t.Trims labels path.length 1 h (h.setObject m o) := by
  have hxlabel := hL.label_of_walk hx
  have hmlabel := (hL.node x path hxlabel).map s m hs hm
  refine ⟨hL.prunes_edge hmlabel hserves hedge fun z hz q => ?_, fun z p hz _ hd => ?_, ?_⟩
  · rw [hy] at hz
    exact find_of_blank (Value.object.inj (Option.some.inj hz) ▸ hblank) q
  · refine Heap.object_setObject_of_ne o fun e => ?_
    rw [e, hmlabel] at hz
    exact absurd hd (by rw [← Option.some.inj hz]; exact Nat.lt_irrefl _)
  · have hwalk := hL.walk_dropEdge hx hs hm hedge hy hblank
    have hold : h.walk t.root (path ++ [c]) = some y := by
      obtain ⟨z, hz, -, hchild⟩ := hL.child_of_edge hxlabel hs hm hy
      rw [Heap.walk_concat, hx, Option.bind_some, hchild, Value.object.inj hz]
    have hinsert : h.paths t.root =
        Insert.insert (path ++ [c]) (Heap.paths (h.setObject m o) t.root) := by
      ext q
      rw [Set.mem_insert_iff, Heap.mem_paths, Heap.mem_paths, hwalk]
      by_cases hq : q = path ++ [c]
      · simp [hq, hold]
      · simp [hq]
    rw [hinsert, Set.encard_insert_of_notMem]
    · rfl
    · rw [Heap.mem_paths, hwalk, if_pos rfl]
      exact Bool.false_ne_true

/-- A map without entries can be taken out of its slot, and no node is lost. -/
theorem Labelled.trims_map (hL : t.Labelled h labels) (hx : labels x = some (t.nodePlace path))
    (hs : s ≠ .terminal) (hempty : ∀ m, h.linkAt x s = some m → ∀ c, h.edgeAt m c = none) :
    t.Trims labels path.length 0 h
      (h.setObject x (.node (Heap.setLink (h.linkAt x) s none))) := by
  refine ⟨hL.prunes_map hx hs hempty, fun z p hz _ hd => ?_, ?_⟩
  · refine Heap.object_setObject_of_ne _ fun e => ?_
    rw [e, hx] at hz
    exact absurd hd (by rw [← Option.some.inj hz]; exact Nat.lt_irrefl _)
  · have hwalk := hL.walk_congr (fun z p c hz => hL.child_dropMap hx hempty hz c) hL.root
    simp only [Heap.paths, hwalk, Nat.cast_zero, add_zero]

end Steps

/-! ## The walk -/

section Walk

variable {t : Trie} {labels : Labels} {path : List Edge} {s : NodeSlot} {κ : Type} [Ord κ]
  [Std.LawfulEqOrd κ] {edge : κ → Edge}
  {entries : Heap → ObjectId → Except HeapError (SortedMap κ Value)}
  {remove : ObjectId → κ → HeapM HeapError Bool}

theorem walking_of_ok {α : Type} {x : HeapM CacheError α} {h h' : Heap} {a : α}
    (hx : x h = (.ok a, h')) : walking x h = (.ok a, h') := HeapM.mapError_of_ok hx

/-- What visiting a child has to do: it trims the branch of the child and leaves it tidy,
says truly whether the child is blank then, and does nothing where all is tidy. -/
def Visits (t : Trie) (labels : Labels) (size : Nat) (path : List Edge)
    (visit : ObjectId → HeapM (Stop CacheError) (Bool × Nat)) : Prop :=
  ∀ h y, t.Labelled h labels → h.entries.size = size → h.walk t.root path = some y →
    ∃ empty n h', visit y h = (.ok (empty, n), h') ∧ t.Trims labels path.length n h h' ∧
      h'.Tidy y ∧ (empty = true ↔ h'.linkAt y = fun _ => none) ∧
      (h.Tidy y → h' = h ∧ n = 0)

omit [Std.LawfulEqOrd κ] in
/-- After the visit to a child, the edge to the child goes if the child is blank. -/
theorem Labelled.removeBlank_spec (hH : Handles s edge entries remove) (hs : s ≠ .terminal)
    {h : Heap} (hL : t.Labelled h labels) {x m y : ObjectId} (hx : h.walk t.root path = some x)
    (hm : h.linkAt x s = some m) {k : κ} (hy : h.edgeAt m (edge k) = some (.object y))
    {empty : Bool} (hempty : empty = true → h.linkAt y = fun _ => none) :
    ∃ h', (∀ f : HeapM (Stop CacheError) Nat, (if empty = true then (do
          let _ ← walking (HeapM.mapError .host (remove m k))
          f) else f : HeapM (Stop CacheError) Nat) h = f h') ∧
      t.Trims labels path.length (if empty then 1 else 0) h h' ∧ h'.linkAt x s = some m ∧
      (∀ d, h'.edgeAt m d = if empty = true ∧ d = edge k then none else h.edgeAt m d) ∧
      (empty = false → h' = h) := by
  cases empty with
  | false => exact ⟨h, fun _ => rfl, .refl hL _, hm, fun _ => rfl, fun _ => rfl⟩
  | true =>
    have hxlabel := hL.label_of_walk hx
    have hmlabel := (hL.node x path hxlabel).map s m hs hm
    obtain ⟨o, ho, hserves⟩ := (hL.map m path s hmlabel).serves
    obtain ⟨b, o', hremove, hserves', hedge⟩ := hH.remove h m o k ho hserves
    have hxm : x ≠ m := fun e => by simp [← e, hxlabel, nodePlace, mapPlace] at hmlabel
    have hedgeAt := Heap.edgeAt_of_object ho
    refine ⟨h.setObject m o', fun f => ?_, ?_, ?_, fun d => ?_, fun e => by cases e⟩
    · rw [if_pos rfl, HeapM.bind_of_ok (walking_of_ok (HeapM.mapError_of_ok hremove))]
    · exact hL.trims_edge hx hs hm hserves' (by rw [hedgeAt]; exact hedge) hy (hempty rfl)
    · rw [Heap.linkAt_congr (Heap.object_setObject_of_ne o' hxm), hm]
    · rw [Heap.edgeAt_of_object (Heap.object_setObject_self o' (Heap.contains_of_object ho)),
        hedge, hedgeAt]
      simp only [true_and]

omit [Std.LawfulEqOrd κ] in
/-- The children at the end of some entries of a map are visited, and the blank ones go. -/
theorem Labelled.compactEntries_spec (hH : Handles s edge entries remove) (hs : s ≠ .terminal)
    {visit : ObjectId → HeapM (Stop CacheError) (Bool × Nat)} {size : Nat}
    (hvisit : ∀ c, t.Visits labels size (path ++ [c]) visit) {x m : ObjectId}
    (l : List (κ × Value)) (hl : (l.map Prod.fst).Nodup) {h : Heap} (hL : t.Labelled h labels)
    (hsize : h.entries.size = size) (hx : h.walk t.root path = some x)
    (hm : h.linkAt x s = some m) (hedges : ∀ e ∈ l, h.edgeAt m (edge e.1) = some e.2) :
    ∃ n h', t.compactEntries visit (remove m) l h = (.ok n, h') ∧
      t.Trims labels path.length n h h' ∧
      (∀ e ∈ l, ∀ y, h'.edgeAt m (edge e.1) = some (.object y) → h'.HasClosure y ∧ h'.Tidy y) ∧
      (h.TidySlot x s → h' = h ∧ n = 0) := by
  induction l generalizing h with
  | nil =>
    exact ⟨0, h, rfl, .refl hL _, fun e he => absurd he List.not_mem_nil, fun _ => ⟨rfl, rfl⟩⟩
  | cons e rest ih =>
    obtain ⟨k, v⟩ := e
    obtain ⟨hk, hrest⟩ := List.nodup_cons.1 hl
    have hxlabel := hL.label_of_walk hx
    have hmlabel := (hL.node x path hxlabel).map s m hs hm
    have hkv := hedges (k, v) List.mem_cons_self
    obtain ⟨y, rfl, hslot, hchild⟩ := hL.child_of_edge hxlabel hs hm hkv
    have hy : h.walk t.root (path ++ [edge k]) = some y := by
      rw [Heap.walk_concat, hx, Option.bind_some, hchild]
    obtain ⟨empty, below, h₁, hrun₁, htrim₁, htidy₁, hblank, hstill₁⟩ :=
      hvisit (edge k) h y hL hsize hy
    -- the visit stays below the map, so the map is as it was
    have hdepth : path.length < (path ++ [edge k]).length := by simp
    have hx₁ : h₁.walk t.root path = some x := by rw [htrim₁.walk_eq hL (Nat.le_of_lt hdepth), hx]
    have hm₁ : h₁.linkAt x s = some m := by
      rw [Heap.linkAt_congr (htrim₁.above x _ hxlabel rfl hdepth), hm]
    have hedge₁ := Heap.edgeAt_congr (htrim₁.above m _ hmlabel rfl hdepth)
    have hask : walking (HeapM.ask fun _ => t.asNode (.object y)) h = (.ok y, h) := rfl
    obtain ⟨h₂, hrun₂, htrim₂, hm₂, hedge₂, hstill₂⟩ := htrim₁.labelled.removeBlank_spec hH hs hx₁
      hm₁ (by rw [hedge₁]; exact hkv) hblank.1
    have htrim := (htrim₁.deepen (Nat.le_of_lt hdepth)).trans htrim₂
    obtain ⟨others, h₃, hrun₃, htrim₃, hdone, hstill₃⟩ := ih hrest htrim.labelled
      (htrim.size.trans hsize) (by rw [htrim.walk_eq hL (Nat.le_refl _), hx]) hm₂ fun e he => by
        have hne : edge e.1 ≠ edge k := fun heq =>
          hk (List.mem_map.2 ⟨e, he, hH.inj _ _ heq⟩)
        rw [hedge₂, if_neg fun h => hne h.2, hedge₁]
        exact hedges e (List.mem_cons_of_mem _ he)
    refine ⟨below + (if empty then 1 else 0) + others, h₃, ?_, htrim.trans htrim₃,
      fun e he z hz => ?_, fun hslots => ?_⟩
    · rw [compactEntries, HeapM.bind_of_ok hask, HeapM.bind_of_ok hrun₁]
      exact (hrun₂ _).trans (HeapM.bind_of_ok hrun₃)
    · rcases List.mem_cons.1 he with rfl | he
      · have hz₂ := htrim₃.edge m path s _ _ hmlabel hz
        rw [hedge₂] at hz₂
        split at hz₂
        · cases hz₂
        · next hne =>
          have hempty : ¬ empty = true := fun h => hne ⟨h, rfl⟩
          rw [hedge₁, hkv] at hz₂
          obtain rfl := Value.object.inj (Option.some.inj hz₂)
          have hylabel := hL.label_of_walk hy
          have hclosure := htrim₁.labelled.hasClosure_of_tidy hylabel htidy₁
            fun e => hempty (hblank.2 e)
          have hlater := htrim₂.toPrunes.trans htrim₃.toPrunes
          exact ⟨(hlater.hasClosure_iff hylabel).2 hclosure,
            hlater.tidy htrim₁.labelled hylabel htidy₁⟩
      · exact hdone e he z hz
    · obtain ⟨hclosure, htidy⟩ := hslots.child _ y hslot hchild
      obtain ⟨rfl, rfl⟩ := hstill₁ htidy
      have hempty : empty = false := by
        rw [← Bool.not_eq_true, hblank]
        exact fun e => not_hasClosure_of_blank e hclosure
      obtain rfl := hstill₂ hempty
      obtain ⟨rfl, rfl⟩ := hstill₃ hslots
      exact ⟨rfl, by rw [hempty]; rfl⟩

omit [Std.LawfulEqOrd κ] in
/-- The entries of a map are the edges in it. -/
theorem Labelled.readEntries_spec (hH : Handles s edge entries remove) {h : Heap}
    (hL : t.Labelled h labels) {m : ObjectId} (hm : labels m = some (t.mapPlace path s)) :
    ∃ e : SortedMap κ Value,
      walking (HeapM.mapError .host (HeapM.ask fun h => entries h m)) h = (.ok e, h) ∧
        ∀ k, e.get? k = h.edgeAt m (edge k) := by
  obtain ⟨o, ho, hserves⟩ := (hL.map m path s hm).serves
  obtain ⟨e, he, hget⟩ := hH.read h m o ho hserves
  refine ⟨e, walking_of_ok (HeapM.mapError_of_ok ?_), ?_⟩
  · rw [HeapM.ask_apply, he]
  · rw [Heap.edgeAt_of_object ho]
    exact hget

omit [Std.LawfulEqOrd κ] in
/-- A map has no edges but those of its entries. -/
theorem Labelled.edgeAt_eq_none (hH : Handles s edge entries remove) {h : Heap}
    (hL : t.Labelled h labels) {m : ObjectId} (hm : labels m = some (t.mapPlace path s))
    (hnone : ∀ k, h.edgeAt m (edge k) = none) (c : Edge) : h.edgeAt m c = none := by
  by_cases hc : c.slot = s
  · obtain ⟨k, rfl⟩ := hH.all c hc
    exact hnone k
  · obtain ⟨o, ho, hserves⟩ := (hL.map m path s hm).serves
    rw [Heap.edgeAt_of_object ho, Object.edge?_of_serves hserves hc]

/-- The map in one slot of a node is pruned, and taken out if nothing is left in
it. -/
theorem Labelled.compactPartition_spec (hH : Handles s edge entries remove)
    (hs : s ≠ .terminal) {visit : ObjectId → HeapM (Stop CacheError) (Bool × Nat)} {h : Heap}
    (hL : t.Labelled h labels) (hvisit : ∀ c, t.Visits labels h.entries.size (path ++ [c]) visit)
    {x : ObjectId} (hx : h.walk t.root path = some x) :
    ∃ n h', t.compactPartition visit x s entries remove h = (.ok n, h') ∧
      t.Trims labels path.length n h h' ∧ h'.TidySlot x s ∧
      (h.TidySlot x s → h' = h ∧ n = 0) := by
  have hxlabel := hL.label_of_walk hx
  have hnode := hL.node x path hxlabel
  have hask : walking (HeapM.ask (t.partition? x s)) h = (.ok (h.linkAt x s), h) :=
    walking_of_ok (by rw [HeapM.ask_apply, partition?_eq hnode.isNode])
  cases hm : h.linkAt x s with
  | none =>
    refine ⟨0, h, ?_, .refl hL _, Heap.tidySlot_of_none hm, fun _ => ⟨rfl, rfl⟩⟩
    rw [compactPartition, HeapM.bind_of_ok hask, hm]
    rfl
  | some m =>
    have hlabel := hnode.map s m hs hm
    obtain ⟨e, he, hget⟩ := hL.readEntries_spec hH hlabel
    have hkeys : ∀ k v, (k, v) ∈ e.toList ↔ h.edgeAt m (edge k) = some v := fun k v => by
      rw [SortedMap.mem_toList_iff, hget]
    obtain ⟨n, h₁, hrun₁, htrim₁, hdone, hstill⟩ := hL.compactEntries_spec hH hs hvisit e.toList
      e.nodup_keys rfl hx hm fun ⟨k, v⟩ hkv => (hkeys k v).1 hkv
    obtain ⟨e₁, he₁, hget₁⟩ := htrim₁.labelled.readEntries_spec hH hlabel
    have hsame : ∀ m', h₁.linkAt x s = some m' → m' = m := fun m' hm' =>
      Option.some.inj ((htrim₁.link x path s m' hxlabel hm').symm.trans hm)
    cases hempty : e₁.isEmpty with
    | false =>
      refine ⟨n, h₁, ?_, htrim₁, ⟨fun m' hm' => ?_, fun c y hc hy => ?_⟩, hstill⟩
      · rw [compactPartition, HeapM.bind_of_ok hask, hm]
        refine (HeapM.bind_of_ok he).trans ((HeapM.bind_of_ok hrun₁).trans
          ((HeapM.bind_of_ok he₁).trans ?_))
        rw [if_neg (by simp [hempty])]
        rfl
      · obtain rfl := hsame m' hm'
        by_contra hnone
        refine Bool.eq_false_iff.1 hempty (SortedMap.isEmpty_iff.2 fun k => ?_)
        rw [hget₁]
        by_contra hv
        obtain ⟨v, hv⟩ := Option.ne_none_iff_exists'.1 hv
        exact hnone ⟨_, v, hv⟩
      · obtain ⟨m', hm', hv⟩ := Heap.child_eq_some_iff.1 hy
        obtain rfl := hsame m' (hc ▸ hm')
        obtain ⟨k, rfl⟩ := hH.all c hc
        exact hdone _ ((hkeys k _).2 (htrim₁.edge m' path s _ _ hlabel hv)) y hv
    | true =>
      have hnode₁ := htrim₁.labelled.node x path hxlabel
      have hnothing := htrim₁.labelled.edgeAt_eq_none hH hlabel fun k => by
        rw [← hget₁, SortedMap.isEmpty_iff.1 hempty]
      have htrim₂ := htrim₁.labelled.trims_map hxlabel hs fun m' hm' => hsame m' hm' ▸ hnothing
      refine ⟨n, _, ?_, htrim₁.trans htrim₂, Heap.tidySlot_of_none ?_, fun hslots => ?_⟩
      · have htuple : Heap.tupleSet x s.index .undefined h₁ = _ :=
          Heap.tupleSet_of_node hnode₁.isNode s none
        rw [compactPartition, HeapM.bind_of_ok hask, hm]
        refine (HeapM.bind_of_ok he).trans ((HeapM.bind_of_ok hrun₁).trans
          ((HeapM.bind_of_ok he₁).trans ?_))
        rw [if_pos hempty]
        exact HeapM.bind_of_ok (walking_of_ok (HeapM.mapError_of_ok htuple))
      · rw [Heap.linkAt_of_node (Heap.object_setObject_self _
          (htrim₁.labelled.contains hxlabel rfl)), Heap.setLink_self]
      · -- a map with a child that leads to a closure does not become empty
        obtain ⟨rfl, -⟩ := hstill hslots
        obtain ⟨c, v, hv⟩ := hslots.map m hm
        rw [hnothing c] at hv
        cases hv

end Walk

section Compact

variable {t : Trie} {labels : Labels} {h : Heap}

theorem Labelled.isEmptyNode_eq (hL : t.Labelled h labels) {x : ObjectId} {path : List Edge}
    (hx : labels x = some (t.nodePlace path)) :
    ∃ empty, t.isEmptyNode x h = .ok empty ∧ (empty = true ↔ h.linkAt x = fun _ => none) := by
  have hnode := (hL.node x path hx).isNode
  refine ⟨(h.linkAt x .terminal).isNone && (h.linkAt x .primitive).isNone &&
    (h.linkAt x .weak).isNone, ?_, ?_⟩
  · rw [isEmptyNode, terminal?_eq hnode, partition?_eq hnode, partition?_eq hnode]
    cases h.linkAt x .terminal <;> cases h.linkAt x .primitive <;> cases h.linkAt x .weak <;> rfl
  · simp only [Bool.and_eq_true, Option.isNone_iff_eq_none]
    refine ⟨fun hnone => funext fun s => ?_, fun hnone => ?_⟩
    · cases s
      · exact hnone.1.2
      · exact hnone.2
      · exact hnone.1.1
    · rw [hnone]
      exact ⟨⟨rfl, rfl⟩, rfl⟩

/-- Compacting a node with enough fuel for the depth that is left. -/
theorem visits_compactNode (t : Trie) (labels : Labels) (h : Heap) (n : Nat) :
    ∀ path, h.entries.size < path.length + n →
      t.Visits labels h.entries.size path (t.compactNode n) := by
  induction n with
  | zero =>
    intro path hfuel h' x hL hsize hx
    have := (hL.node x path (hL.label_of_walk hx)).depth
    have := Heap.lt_of_contains (hL.contains (hL.label_of_walk hx) rfl)
    omega
  | succ n ih =>
    intro path hfuel h' x hL hsize hx
    have hxlabel := hL.label_of_walk hx
    have hbelow : ∀ c, t.Visits labels h.entries.size (path ++ [c]) (t.compactNode n) := fun c =>
      ih _ (by rw [List.length_append, List.length_singleton]; omega)
    obtain ⟨n₁, h₁, hrun₁, htrim₁, hslot₁, hstill₁⟩ :=
      hL.compactPartition_spec handles_strong (by decide) (hsize ▸ hbelow) hx
    obtain ⟨n₂, h₂, hrun₂, htrim₂, hslot₂, hstill₂⟩ :=
      htrim₁.labelled.compactPartition_spec handles_weak (by decide)
      (htrim₁.size.trans hsize ▸ hbelow) (by rw [htrim₁.walk_eq hL (Nat.le_refl _), hx])
    obtain ⟨empty, hempty, hblank⟩ := htrim₂.labelled.isEmptyNode_eq hxlabel
    have hask : walking (HeapM.ask (t.isEmptyNode x)) h₂ = (.ok empty, h₂) :=
      walking_of_ok (by rw [HeapM.ask_apply, hempty])
    refine ⟨empty, n₁ + n₂, h₂, ?_, htrim₁.trans htrim₂, Heap.tidy_of_slots fun s hs => ?_, hblank,
      fun htidy => ?_⟩
    · rw [compactNode]
      exact (HeapM.bind_of_ok hrun₁).trans ((HeapM.bind_of_ok hrun₂).trans (HeapM.bind_of_ok hask))
    · cases s with
      | primitive => exact htrim₂.tidySlot htrim₁.labelled hxlabel hs hslot₁
      | weak => exact hslot₂
      | terminal => exact absurd rfl hs
    · obtain ⟨rfl, rfl⟩ := hstill₁ (htidy.slot (by decide))
      obtain ⟨rfl, rfl⟩ := hstill₂ (htidy.slot (by decide))
      exact ⟨rfl, rfl⟩

/-- Compacting a proper trie ends and leaves it tidy, and does nothing to a tidy one. -/
theorem Labelled.compact_trims (hL : t.Labelled h labels) :
    ∃ n h', t.compact h = (.ok n, h') ∧ t.Trims labels 0 n h h' ∧ h'.Tidy t.root ∧
      (h.Tidy t.root → h' = h ∧ n = 0) := by
  obtain ⟨empty, n, h', hrun, htrim, htidy, -, hstill⟩ := visits_compactNode t labels h
    (h.entries.size + 1) [] (by omega) h t.root hL rfl rfl
  refine ⟨n, h', ?_, htrim, htidy, hstill⟩
  have hget : (get : HeapM (Stop CacheError) Heap) h = (.ok h, h) := rfl
  exact (HeapM.bind_of_ok hget).trans (HeapM.bind_of_ok hrun)

/-- Compacting a proper trie ends, and changes nothing about what is found. -/
theorem Labelled.compact_spec (hL : t.Labelled h labels) :
    ∃ n h', t.compact h = (.ok n, h') ∧ t.Prunes labels h h' := by
  obtain ⟨n, h', hrun, htrim, -⟩ := hL.compact_trims
  exact ⟨n, h', hrun, htrim.toPrunes⟩

end Compact

end Trie

end ClosureCache
