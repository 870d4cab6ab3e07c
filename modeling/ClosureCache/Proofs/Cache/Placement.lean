/-
The places of objects in caches.

A chart says of objects for which place in which cache they were made.  Numbers are not used
again, so a place is given once.  In a charted heap an object leads only to objects in the
places that follow its own, and the closure in a node was given out for the path of the
node.  Nothing says that an object is still there, or that what was given out is still held.
So a heap stays charted whoever roots and unroots what, and every operation of a cache keeps
it so, on any heap and also where it fails.
-/
import ClosureCache.Proofs.Cache.Adding
import ClosureCache.Proofs.Cache.Sharing

namespace ClosureCache

/-- What an object was made for: the node at the end of a path in the cache of a definition,
or the map in a slot of that node. -/
structure CachePlace where
  site : SiteId
  path : List Edge
  /-- Absent for the node itself. -/
  slot : Option NodeSlot

def CachePlace.node (site : SiteId) (path : List Edge) : CachePlace := ⟨site, path, none⟩

def CachePlace.map (site : SiteId) (path : List Edge) (s : NodeSlot) : CachePlace :=
  ⟨site, path, some s⟩

abbrev Chart := ObjectId → Option CachePlace

def Chart.Extends (chart' chart : Chart) : Prop := ∀ x p, chart x = some p → chart' x = some p

theorem Chart.Extends.refl (chart : Chart) : chart.Extends chart := fun _ _ hx => hx

theorem Chart.Extends.trans {chart chart₁ chart' : Chart} (b : chart'.Extends chart₁)
    (a : chart₁.Extends chart) : chart'.Extends chart := fun x p hx => b x p (a x p hx)

/-- What an object in a place may lead to. -/
structure Object.FitsPlace (given : Given) (chart : Chart) (h : Heap) (p : CachePlace)
    (o : Object) : Prop where
  part : o.isPart = true
  map : p.slot = none → ∀ s m, s ≠ .terminal → o.link? s = some m →
    chart m = some (.map p.site p.path s)
  closure : p.slot = none → ∀ f, o.link? .terminal = some f →
    given p.site p.path f ∧ h.contains f = true
  child : p.slot ≠ none → ∀ c y, o.edge? c = some (.object y) →
    chart y = some (.node p.site (p.path ++ [c]))

/-- The objects that stand in places lead where they may. -/
structure Heap.Charted (given : Given) (chart : Chart) (h : Heap) : Prop where
  below : ∀ x p, chart x = some p → x.index < h.entries.size
  fitsPlace : ∀ x p o, chart x = some p → h.object x = .ok o → o.FitsPlace given chart h p

/-- The object leads to no more than another one. -/
structure Object.Shrinks (o o' : Object) : Prop where
  part : o.isPart = true → o'.isPart = true
  link : ∀ s m, o'.link? s = some m → o.link? s = some m
  edge : ∀ c v, o'.edge? c = some v → o.edge? c = some v

namespace Object

variable {given given' : Given} {chart chart' : Chart} {h h' : Heap} {p : CachePlace}
  {o o' o₁ : Object}

theorem FitsPlace.mono (hs : o.FitsPlace given chart h p)
    (hgiven : ∀ f, given p.site p.path f → given' p.site p.path f)
    (hchart : chart'.Extends chart) (hcontains : ∀ x, h.contains x = true → h'.contains x = true) :
    o.FitsPlace given' chart' h' p where
  part := hs.part
  map hp s m hne hm := hchart _ _ (hs.map hp s m hne hm)
  closure hp f hf := (hs.closure hp f hf).imp (hgiven f) (hcontains f)
  child hp c y hy := hchart _ _ (hs.child hp c y hy)

/-- What leads to nothing fits every place. -/
theorem fitsPlace_of_blank (hpart : o.isPart = true) (hlink : ∀ s, o.link? s = none)
    (hedge : ∀ c, o.edge? c = none) : o.FitsPlace given chart h p where
  part := hpart
  map _ s m _ hm := by rw [hlink] at hm; cases hm
  closure _ f hf := by rw [hlink] at hf; cases hf
  child _ c y hy := by rw [hedge] at hy; cases hy

theorem Shrinks.refl (o : Object) : o.Shrinks o := ⟨id, fun _ _ => id, fun _ _ => id⟩

theorem Shrinks.trans (a : o.Shrinks o₁) (b : o₁.Shrinks o') : o.Shrinks o' :=
  ⟨fun hpart => b.part (a.part hpart), fun s m hm => a.link s m (b.link s m hm),
    fun c v hv => a.edge c v (b.edge c v hv)⟩

theorem FitsPlace.shrinks (hs : o.FitsPlace given chart h p) (ho : o.Shrinks o')
    (hkept : ∀ f, o'.link? .terminal = some f → h.contains f = true → h'.contains f = true) :
    o'.FitsPlace given chart h' p where
  part := ho.part hs.part
  map hp s m hne hm := hs.map hp s m hne (ho.link s m hm)
  closure hp f hf := (hs.closure hp f (ho.link _ f hf)).imp id (hkept f hf)
  child hp c y hy := hs.child hp c y (ho.edge c _ hy)

theorem shrinks_pruneWeak (keep : MarkSet) (o : Object) : o.Shrinks (Heap.pruneWeak keep o) := by
  refine ⟨fun hpart => ?_, fun s m hm => ?_, fun c v hv => ?_⟩
  · cases o <;> exact hpart
  · cases o <;> exact hm
  · rw [Trie.edge?_pruneWeak] at hv
    split at hv
    · exact hv
    · cases hv

theorem link?_tuple_set {slots : Array Value} {i : Nat} {v : Value} {s : NodeSlot} {m : ObjectId}
    (hm : (tuple (slots.setIfInBounds i v)).link? s = some m) :
    v = .object m ∧ s.index = i ∨ (tuple slots).link? s = some m := by
  rw [link?, Array.getElem?_setIfInBounds] at hm
  split at hm
  · next hi =>
    split at hm
    · exact .inl ⟨Value.object?_eq_some.1 hm, hi.symm⟩
    · cases hm
  · exact .inr hm

theorem shrinks_tuple (slots : Array Value) (i : Nat) :
    (tuple slots).Shrinks (.tuple (slots.setIfInBounds i .undefined)) := by
  refine ⟨id, fun s m hm => ?_, fun c v hv => hv⟩
  rcases link?_tuple_set hm with ⟨hv, -⟩ | hold
  · cases hv
  · exact hold

theorem shrinks_strongMap (entries : SortedMap Primitive Value) (key : Primitive) :
    (strongMap entries).Shrinks (.strongMap (entries.erase key)) := by
  refine ⟨id, fun s m hm => hm, fun c v hv => ?_⟩
  cases c with
  | primitive p =>
    have hget : (entries.erase key).get? p = some v := hv
    rw [SortedMap.get?_erase] at hget
    split at hget
    · cases hget
    · exact hget
  | object id => exact hv

theorem shrinks_weakMap (entries : SortedMap ObjectId Value) (key : ObjectId) :
    (weakMap entries).Shrinks (.weakMap (entries.erase key)) := by
  refine ⟨id, fun s m hm => hm, fun c v hv => ?_⟩
  cases c with
  | primitive p => exact hv
  | object id =>
    have hget : (entries.erase key).get? id = some v := hv
    rw [SortedMap.get?_erase] at hget
    split at hget
    · cases hget
    · exact hget

end Object

namespace Heap

variable {given given' : Given} {chart : Chart} {h h₁ h' : Heap} {x y m f : ObjectId}
  {p : CachePlace}
  {site : SiteId} {path : List Edge} {s : NodeSlot} {c : Edge}

/-! ## Reading a charted heap -/

theorem linkAt_eq_some : h.linkAt x s = some m ↔ ∃ o, h.object x = .ok o ∧ o.link? s = some m := by
  constructor
  · intro hm
    obtain ⟨e, he, hm⟩ := Option.bind_eq_some_iff.1 hm
    exact ⟨_, object_of_some he, hm⟩
  · rintro ⟨o, ho, hm⟩
    obtain ⟨e, he, rfl⟩ := entry?_of_object ho
    exact Option.bind_eq_some_iff.2 ⟨e, he, hm⟩

theorem Charted.map (hc : h.Charted given chart) (hx : chart x = some (.node site path))
    (hs : s ≠ .terminal) (hm : h.linkAt x s = some m) : chart m = some (.map site path s) := by
  obtain ⟨o, ho, hm⟩ := linkAt_eq_some.1 hm
  exact (hc.fitsPlace x _ o hx ho).map rfl s m hs hm

theorem Charted.closure (hc : h.Charted given chart) (hx : chart x = some (.node site path))
    (hf : h.linkAt x .terminal = some f) : given site path f ∧ h.contains f = true := by
  obtain ⟨o, ho, hf⟩ := linkAt_eq_some.1 hf
  exact (hc.fitsPlace x _ o hx ho).closure rfl f hf

theorem Charted.child (hc : h.Charted given chart) (hx : chart x = some (.node site path))
    (hy : h.child x c = some y) : chart y = some (.node site (path ++ [c])) := by
  obtain ⟨m, hm, hy⟩ := child_eq_some_iff.1 hy
  have hmap := hc.map hx c.slot_ne_terminal hm
  obtain ⟨e, he, hy⟩ := Option.bind_eq_some_iff.1 hy
  exact (hc.fitsPlace m _ _ hmap (object_of_some he)).child (fun hslot => by cases hslot) c y hy

/-! ## Changes of a charted heap -/

theorem Charted.given_mono (hc : h.Charted given chart)
    (hgiven : ∀ s q f, given s q f → given' s q f) : h.Charted given' chart :=
  ⟨hc.below, fun x p o hx ho => (hc.fitsPlace x p o hx ho).mono (hgiven p.site p.path) (.refl chart)
    fun _ hin => hin⟩

/-- Every object leads to no more than before, and what is left of the closures is there. -/
structure Shrinks (h h' : Heap) : Prop where
  size_le : h.entries.size ≤ h'.entries.size
  object : ∀ x o', x.index < h.entries.size → h'.object x = .ok o' →
    ∃ o, h.object x = .ok o ∧ o.Shrinks o'
  kept : ∀ x o' f, x.index < h.entries.size → h'.object x = .ok o' →
    o'.link? .terminal = some f → h.contains f = true → h'.contains f = true

theorem Shrinks.of_object_eq (hsize : h'.entries.size = h.entries.size)
    (heq : ∀ x, h'.object x = h.object x) : h.Shrinks h' :=
  ⟨Nat.le_of_eq hsize.symm, fun x o' _ ho' => ⟨o', by rw [← heq x, ho'], .refl o'⟩,
    fun _ _ f _ _ _ hf => by rwa [contains_eq_of_object_eq (heq f)]⟩

theorem Shrinks.refl (h : Heap) : h.Shrinks h := .of_object_eq rfl fun _ => rfl

theorem Shrinks.trans (a : h.Shrinks h₁) (b : h₁.Shrinks h') : h.Shrinks h' where
  size_le := Nat.le_trans a.size_le b.size_le
  object x o' hx ho' := by
    obtain ⟨o₁, ho₁, hshrinks₁⟩ := b.object x o' (Nat.lt_of_lt_of_le hx a.size_le) ho'
    obtain ⟨o, ho, hshrinks⟩ := a.object x o₁ hx ho₁
    exact ⟨o, ho, hshrinks.trans hshrinks₁⟩
  kept x o' f hx ho' hf hin := by
    have hx₁ := Nat.lt_of_lt_of_le hx a.size_le
    obtain ⟨o₁, ho₁, hshrinks₁⟩ := b.object x o' hx₁ ho'
    exact b.kept x o' f hx₁ ho' hf (a.kept x o₁ f hx ho₁ (hshrinks₁.link _ f hf) hin)

theorem shrinks_setObject {o o' : Object} (ho : h.object x = .ok o) (hshrinks : o.Shrinks o') :
    h.Shrinks (h.setObject x o') := by
  refine ⟨Nat.le_of_eq (size_setObject ..).symm, fun y o₁ _ ho₁ => ?_,
    fun _ _ f _ _ _ hf => by rwa [contains_setObject]⟩
  by_cases hyx : y = x
  · subst hyx
    rw [object_setObject_self o' (contains_of_object ho)] at ho₁
    obtain rfl := Except.ok.inj ho₁
    exact ⟨o, ho, hshrinks⟩
  · rw [object_setObject_of_ne o' hyx] at ho₁
    exact ⟨o₁, ho₁, .refl o₁⟩

/-- A collection keeps what an object that it keeps leads to, apart from weak entries. -/
theorem Collected.shrinks {keep : MarkSet} (hc : Collected h h' keep) : h.Shrinks h' := by
  have hold : ∀ x o', h'.object x = .ok o' → keep.contains x = true ∧
      ∃ e, h.entry? x = some e ∧ o' = pruneWeak keep e.object := by
    intro x o' ho'
    obtain ⟨e', he', rfl⟩ := entry?_of_object ho'
    rw [hc.entry] at he'
    split at he'
    · next hkeep =>
      obtain ⟨e, he, rfl⟩ := Option.map_eq_some_iff.1 he'
      exact ⟨hkeep, e, he, rfl⟩
    · cases he'
  refine ⟨Nat.le_of_eq hc.size.symm, fun x o' _ ho' => ?_, fun x o' f _ ho' hf hin => ?_⟩
  · obtain ⟨-, e, he, rfl⟩ := hold x o' ho'
    exact ⟨e.object, object_of_some he, Object.shrinks_pruneWeak keep e.object⟩
  · -- a node that is kept holds on to its closure
    obtain ⟨hkeep, e, he, rfl⟩ := hold x o' ho'
    have hlink := (Object.shrinks_pruneWeak keep e.object).link _ f hf
    refine (hc.contains_iff_reachable f).2 (.strong ((hc.keep_iff x).1 hkeep) ?_ hin)
    rw [strongRefs_of_some he]
    generalize e.object = o at hlink
    cases o with
    | tuple slots =>
      obtain ⟨v, hv, hobject⟩ := Option.bind_eq_some_iff.1 hlink
      exact List.mem_filterMap.2 ⟨v, Array.mem_toList_iff.2 (Array.mem_of_getElem? hv), hobject⟩
    | _ => cases hlink

theorem Charted.shrink (hc : h.Charted given chart) (hf : h.Shrinks h') :
    h'.Charted given chart := by
  refine ⟨fun x p hx => Nat.lt_of_lt_of_le (hc.below x p hx) hf.size_le, fun x p o' hx ho' => ?_⟩
  have hlt := hc.below x p hx
  obtain ⟨o, ho, hshrinks⟩ := hf.object x o' hlt ho'
  exact (hc.fitsPlace x p o hx ho).shrinks hshrinks fun f => hf.kept x o' f hlt ho'

/-- What is done beside the caches leaves the chart as it is. -/
theorem Charted.spare (hc : h.Charted given chart) (hs : h.Spares h.IsPart h') :
    h'.Charted given chart := by
  refine ⟨fun x p hx => Nat.lt_of_lt_of_le (hc.below x p hx) hs.size_le, fun x p o' hx ho' => ?_⟩
  have hin : h.contains x = true := by
    rw [← hs.contains x (hc.below x p hx)]
    exact contains_of_object ho'
  obtain ⟨e, he⟩ := contains_iff.1 hin
  have hfits := hc.fitsPlace x p _ hx (object_of_some he)
  have hsame := hs.object_eq ⟨_, object_of_some he, hfits.part⟩ hin
  rw [hsame, object_of_some he] at ho'
  obtain rfl := Except.ok.inj ho'
  exact hfits.mono (fun _ => id) (.refl chart) fun y => hs.mono y

/-- An object is replaced by one that fits its place. -/
theorem Charted.setObject (hc : h.Charted given chart) {o' : Object}
    (hfits : ∀ p, chart x = some p → o'.FitsPlace given chart h p) :
    (h.setObject x o').Charted given chart := by
  have hmono : ∀ {p} {o₁ : Object}, o₁.FitsPlace given chart h p →
      o₁.FitsPlace given chart (h.setObject x o') p := fun hs =>
    hs.mono (fun _ => id) (.refl chart) fun y hin => by rwa [contains_setObject]
  refine ⟨fun y p hy => by rw [size_setObject]; exact hc.below y p hy, fun y p o₁ hy ho₁ => ?_⟩
  by_cases hyx : y = x
  · subst hyx
    have hin : h.contains y = true := by
      rw [← contains_setObject h y o' y]
      exact contains_of_object ho₁
    rw [object_setObject_self o' hin] at ho₁
    obtain rfl := Except.ok.inj ho₁
    exact hmono (hfits p hy)
  · rw [object_setObject_of_ne o' hyx] at ho₁
    exact hmono (hc.fitsPlace y p o₁ hy ho₁)

/-- A new object that leads to nothing takes a place. -/
theorem Charted.allocate (hc : h.Charted given chart) (p : CachePlace) {o : Object}
    (hpart : o.isPart = true) (hlink : ∀ s, o.link? s = none) (hedge : ∀ c, o.edge? c = none) :
    ∃ chart' : Chart, chart'.Extends chart ∧ chart' ⟨h.entries.size⟩ = some p ∧
      (h.allocate o).2.Charted given chart' := by
  have hext : Chart.Extends (Function.update chart ⟨h.entries.size⟩ (some p)) chart := by
    intro y q hy
    rw [Function.update_of_ne, hy]
    rintro rfl
    exact Nat.lt_irrefl _ (hc.below _ q hy)
  refine ⟨Function.update chart ⟨h.entries.size⟩ (some p), hext, Function.update_self ..,
    fun y q hy => ?_, fun y q o₁ hy ho₁ => ?_⟩
  · rw [size_allocate]
    by_cases hnew : y = ⟨h.entries.size⟩
    · rw [hnew]
      exact Nat.lt_succ_self _
    · rw [Function.update_of_ne hnew] at hy
      exact Nat.lt_succ_of_lt (hc.below y q hy)
  · by_cases hnew : y = ⟨h.entries.size⟩
    · rw [hnew, object_allocate_self] at ho₁
      obtain rfl := Except.ok.inj ho₁
      exact Object.fitsPlace_of_blank hpart hlink hedge
    · rw [Function.update_of_ne hnew] at hy
      rw [object_allocate_of_ne o hnew] at ho₁
      refine (hc.fitsPlace y q o₁ hy ho₁).mono (fun _ => id) hext fun z hz => ?_
      rwa [contains, entry?_allocate_of_lt (lt_of_contains hz)]

end Heap

end ClosureCache
