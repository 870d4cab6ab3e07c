/-
The caches of a registry leave each other alone.

`Arises` is every state in which a registry and its heap can be found.  In each of them
one labelling says of every object to which cache it belongs, so no object belongs to
two, and an operation on one cache writes objects of that cache only.  This does not
depend on the keys: what tries share, objects of keys and closures, is part of none.
-/
import ClosureCache.Proofs.Cache.Consistency
import ClosureCache.Proofs.Cache.Registry

namespace ClosureCache

namespace Trie

variable {t : Trie} {h h' : Heap} {labels : Labels}

/-- Where the objects of a trie are the same, the same objects belong to it. -/
theorem Owns.congr (hobject : ∀ x, t.Owns h x → h'.object x = h.object x) {x : ObjectId}
    (hx : t.Owns h x) : t.Owns h' x := by
  induction hx with
  | root => exact .root
  | map hx hs hm ih => exact .map ih hs (by rw [Heap.linkAt_congr (hobject _ hx), hm])
  | child hm hy ih => exact .child ih (by rw [Heap.edgeAt_congr (hobject _ hm), hy])

theorem Labelled.changes_refl (hL : t.Labelled h labels) (hB : Below labels h.entries.size) :
    t.Changes h labels h labels := (Prunes.refl hL).changes hB

theorem Labelled.changes_insert (hL : t.Labelled h labels) (hB : Below labels h.entries.size)
    (key : Key) (f : ObjectId) : ∃ labels', t.Changes h labels (t.insert key f h).2 labels' := by
  by_cases hkey : key.arity = t.arity
  · obtain ⟨r, h₁, labels₁, hrun, hgrow, -⟩ := hL.insert_spec hB hkey f
    exact ⟨labels₁, by rw [hrun]; exact hgrow.changes⟩
  · rw [insert_of_arity_ne hkey]
    exact ⟨labels, hL.changes_refl hB⟩

theorem Labelled.changes_compact (hL : t.Labelled h labels) (hB : Below labels h.entries.size) :
    t.Changes h labels (t.compact h).2 labels := by
  obtain ⟨n, h₁, hrun, hprune⟩ := hL.compact_spec
  rw [hrun]
  exact hprune.changes hB

end Trie

namespace Registry

variable {r : Registry} {h h₁ h' : Heap} {labels labels₁ labels' : Labels} {site s : SiteId}
  {c c' d : Cache}

/-! ## The states of a registry -/

/-- The states of a registry and its heap. -/
inductive Arises : Registry → Heap → Prop where
  | empty (h : Heap) : Arises empty h
  | getOrCreate {r r' : Registry} {h h' : Heap} {site : SiteId} {arity : Nat}
    {res : Except CacheError (Cache × Bool)} :
    Arises r h → r.getOrCreate site arity h = (res, r', h') → Arises r' h'
  | insert {r : Registry} {h h' : Heap} {site : SiteId} {c c' : Cache} {key : Key} {f : ObjectId}
    {res : Except CacheError ObjectId} :
    Arises r h → r.get? site = some c → c.insert key f h = (res, c', h') →
    Arises (r.put site c') h'
  | getOrInsertWith {ε : Type} {r : Registry} {h h' : Heap} {site : SiteId} {c c' : Cache}
    {key : Key} {wrap : CacheError → ε} {build : HeapM ε ObjectId}
    {res : Except ε (ObjectId × CacheOutcome)} :
    Arises r h → r.get? site = some c →
    (c.trie.lookup key h = .ok none → Arises r (build h).2) →
    c.getOrInsertWith key wrap build h = (res, c', h') → Arises (r.put site c') h'
  | compact {r : Registry} {h h' : Heap} {site : SiteId} {c c' : Cache}
    {res : Except (Stop CacheError) Nat} :
    Arises r h → r.get? site = some c → c.compact h = (res, c', h') → Arises (r.put site c') h'
  | compactAll {r r' : Registry} {h h' : Heap} {res : Except (Stop CacheError) Nat} :
    Arises r h → r.compactAll h = (res, r', h') → Arises r' h'
  | collect {r : Registry} {h h' : Heap} {stats : CollectionStats} :
    Arises r h → h.collect? = some (stats, h') → Arises r h'
  | outside {r : Registry} {h h' : Heap} :
    Arises r h → (∀ s c, r.get? s = some c → c.trie.Spared h h') → Arises r h'
  /-- A copy of a cache, with statistics of its own, is used in its place. -/
  | copy {r : Registry} {h : Heap} {site : SiteId} {c d : Cache} :
    Arises r h → r.get? site = some c → d.trie = c.trie → Arises (r.put site d) h

/-- Only the objects that belong to a cache need their labels. -/
theorem Proper.restrict (hP : r.Proper h labels) :
    ∃ labels', r.Proper h labels' ∧ ∀ x p, labels' x = some p →
      ∃ s c, r.get? s = some c ∧ c.trie.Owns h x := by
  refine ⟨Trie.restrictLabels (fun x => ∃ s c, r.get? s = some c ∧ c.trie.Owns h x) labels,
    ⟨fun s c hc => ?_, hP.root_inj, fun x p hx => ?_, fun x p hx => ?_⟩,
    fun x p hx => (Trie.restrictLabels_eq_some.1 hx).1⟩
  · refine (hP.labelled s c hc).restrictTo ⟨s, c, hc, .root⟩ ?_ ?_
    · rintro x path slot m ⟨s, d, hd, ho⟩ - hslot hm
      exact ⟨s, d, hd, .map ho hslot hm⟩
    · rintro m path slot e y ⟨s, d, hd, ho⟩ - hy
      exact ⟨s, d, hd, .child ho hy⟩
  · exact hP.below x p (Trie.restrictLabels_eq_some.1 hx).2
  · exact hP.owner x p (Trie.restrictLabels_eq_some.1 hx).2

/-- A change that spares every cache keeps the registry proper. -/
theorem Proper.spared (hP : r.Proper h labels)
    (hs : ∀ s c, r.get? s = some c → c.trie.Spared h h') : ∃ labels', r.Proper h' labels' := by
  obtain ⟨labels', hP', howned⟩ := hP.restrict
  refine ⟨labels', fun s c hc => ?_, hP'.root_inj, fun x p hx => ?_, hP'.owner⟩
  · refine (hP'.labelled s c hc).transfer (fun _ _ _ => Iff.rfl) (fun x p hx _ => ?_)
      ((hs s c hc).pinned (hP'.labelled s c hc).pinned) (hs s c hc).mono
    obtain ⟨s', d, hd, ho⟩ := howned x p hx
    exact (hs s' d hd).object x ho
  · obtain ⟨s, c, hc, -⟩ := howned x p hx
    have hlt := hP'.below x p hx
    have hle := (hs s c hc).size_le
    omega

theorem Proper.changed (hP : r.Proper h labels) (hc : r.get? site = some c)
    (hch : c.trie.Changes h labels h' labels') (htrie : c'.trie = c.trie) :
    Proper (r.put site c') h' labels' :=
  (hP.put_of_get? (fun _ => True) hc hch htrie).1.proper

def arityOf (r : Registry) (site : SiteId) : Option Nat := (r.get? site).map fun c => c.trie.arity

theorem fits_arityOf (r : Registry) : r.Fits r.arityOf := fun s c hc => by
  rw [arityOf, hc]
  rfl

/-- In every state one labelling serves all caches. -/
theorem Arises.proper (hr : Arises r h) : ∃ labels, r.Proper h labels := by
  induction hr with
  | empty h => exact ⟨_, proper_empty h⟩
  | @getOrCreate r r' h h' site arity res _ hrun ih =>
    obtain ⟨labels, hP⟩ := ih
    by_cases harity : ∀ c, r.get? site = some c → c.trie.arity = arity
    · obtain ⟨c, created, r₁, h₁, labels₁, hspec, -, -, -, hext, -⟩ :=
        hP.getOrCreate_spec (fun _ => True) site harity
      rw [hrun] at hspec
      obtain ⟨-, hspec⟩ := Prod.mk.inj hspec
      obtain ⟨rfl, rfl⟩ := Prod.mk.inj hspec
      exact ⟨labels₁, hext.proper⟩
    · -- a cache of another arity is refused
      simp only [not_forall] at harity
      obtain ⟨c, hc, hne⟩ := harity
      rw [Registry.getOrCreate, hc] at hrun
      dsimp only at hrun
      rw [if_neg hne] at hrun
      obtain ⟨-, hrun⟩ := Prod.mk.inj hrun
      obtain ⟨rfl, rfl⟩ := Prod.mk.inj hrun
      exact ⟨labels, hP⟩
  | insert _ hc hrun ih =>
    obtain ⟨labels, hP⟩ := ih
    obtain ⟨htrie, rfl⟩ := Cache.trie_heap_of_insert hrun
    obtain ⟨labels', hch⟩ := (hP.labelled _ _ hc).changes_insert hP.below _ _
    exact ⟨labels', hP.changed hc hch htrie⟩
  | @getOrInsertWith ε r h h' site c c' key wrap build res _ hc _ hrun ih ihbuild =>
    obtain ⟨labels, hP⟩ := ih
    obtain ⟨hfetched, htrie⟩ := Cache.fetched_of_run hrun
    have hrefl : ∀ {h labels}, r.Proper h labels → ∃ labels, Proper (r.put site c') h labels :=
      fun hP => ⟨_, hP.changed hc ((hP.labelled site c hc).changes_refl hP.below) htrie⟩
    cases hfetched with
    | refused => exact hrefl hP
    | hit => exact hrefl hP
    | unbuilt e hlookup _ =>
      obtain ⟨labels₁, hP₁⟩ := ihbuild hlookup
      exact hrefl hP₁
    | built f hlookup _ =>
      obtain ⟨labels₁, hP₁⟩ := ihbuild hlookup
      obtain ⟨labels', hch⟩ := (hP₁.labelled site c hc).changes_insert hP₁.below key f
      exact ⟨labels', hP₁.changed hc hch htrie⟩
  | compact _ hc hrun ih =>
    obtain ⟨labels, hP⟩ := ih
    obtain ⟨htrie, rfl⟩ := Cache.trie_heap_of_compact hrun
    exact ⟨labels, hP.changed hc ((hP.labelled _ _ hc).changes_compact hP.below) htrie⟩
  | @compactAll r r' h h' res _ hrun ih =>
    obtain ⟨labels, hP⟩ := ih
    obtain ⟨n, r₁, h₁, hspec, -, hext, -⟩ := hP.compactAll_spec (fun _ => True) r.fits_arityOf
    rw [hrun] at hspec
    obtain ⟨-, hspec⟩ := Prod.mk.inj hspec
    obtain ⟨rfl, rfl⟩ := Prod.mk.inj hspec
    exact ⟨labels, hext.proper⟩
  | collect _ hrun ih =>
    obtain ⟨labels, hP⟩ := ih
    obtain ⟨keep, hk⟩ := Heap.collected_of_collect? hrun
    exact ⟨_, (hP.collect hk).1⟩
  | outside _ hs ih =>
    obtain ⟨labels, hP⟩ := ih
    exact hP.spared hs
  | @copy r h site c d _ hc htrie ih =>
    obtain ⟨labels, hP⟩ := ih
    exact ⟨labels, hP.changed hc ((hP.labelled site c hc).changes_refl hP.below) htrie⟩

/-! ## What the others see -/

/-- A cache and its objects are the same in two heaps. -/
structure LeftAlone (d : Cache) (h h' : Heap) : Prop where
  lookup : ∀ key, d.trie.lookup key h' = d.trie.lookup key h
  liveEntries : d.trie.liveEntries h' = d.trie.liveEntries h
  /-- Objects and pins are the same, those of the root among them. -/
  entry : ∀ x, d.trie.Owns h x → h'.entry? x = h.entry? x
  pinned : ∃ e, h'.entry? d.trie.root = some e ∧ 0 < e.roots

/-- An operation on the cache of one definition, seen from the others. -/
def Apart (r : Registry) (site : SiteId) (h : Heap) (c' : Cache) (h' : Heap) : Prop :=
  ∀ s d, s ≠ site → r.get? s = some d →
    Registry.get? (r.put site c') s = some d ∧ LeftAlone d h h'

/-- The objects and pins of all caches are the same in two heaps. -/
def Untouched (r : Registry) (h h' : Heap) : Prop :=
  ∀ s d x, r.get? s = some d → d.trie.Owns h x → h'.entry? x = h.entry? x

theorem Untouched.refl (r : Registry) (h : Heap) : r.Untouched h h := fun _ _ _ _ _ => rfl

theorem Proper.sound (hP : r.Proper h labels) (hd : r.get? s = some d) : d.trie.Sound h :=
  ⟨labels, hP.labelled s d hd, hP.below⟩

/-- A change of the trie of one cache leaves those of the others alone, also where others
have been at work before. -/
theorem Proper.apart (hP : r.Proper h labels) (hP₁ : r.Proper h₁ labels₁)
    (hbefore : r.Untouched h h₁) (hc : r.get? site = some c)
    (hch : c.trie.Changes h₁ labels₁ h' labels') : r.Apart site h c' h' := by
  intro s d hs hd
  refine ⟨by rw [get?_put, if_neg hs, hd], ?_⟩
  have hne : d.trie.root ≠ c.trie.root := fun e => hs (hP.root_inj s site d c hd hc e)
  have hL₁ := hP₁.labelled s d hd
  have hL' := (hL₁.beside hch hne).1
  have hobject₁ : ∀ x, d.trie.Owns h x → h₁.object x = h.object x := fun x hx => by
    rw [Heap.object, Heap.object, hbefore s d x hd hx]
  have hentry : ∀ x, d.trie.Owns h x → h'.entry? x = h.entry? x := by
    intro x hx
    obtain ⟨p, hp, hroot⟩ := hL₁.label_of_owns (hx.congr hobject₁)
    rw [← hbefore s d x hd hx]
    refine hch.frame.entry x (Heap.lt_of_contains (hL₁.contains hp hroot)) ?_
    rintro ⟨p', hp', hroot'⟩
    rw [hp] at hp'
    exact hne (hroot.symm.trans ((Option.some.inj hp') ▸ hroot'))
  have hobject : ∀ x, d.trie.Owns h x → h'.object x = h.object x := fun x hx => by
    rw [Heap.object, Heap.object, hentry x hx]
  have hfind := (hP.sound hd).find_eq hobject
  obtain ⟨hlookup, hlive⟩ := (hP.sound hd).answers_congr ⟨labels', hL', hch.below⟩ hfind
  exact ⟨hlookup, hlive, hentry, hL'.pinned⟩

/-- Caches of different definitions do not interfere: an operation on one of them, whether
it succeeds or fails, leaves the others alone, and compacting all of them changes no
answer. -/
theorem Arises.isolated (hr : Arises r h) :
    (∀ site c, r.get? site = some c →
      (∀ key f res c' h', c.insert key f h = (res, c', h') → r.Apart site h c' h') ∧
      (∀ {ε : Type} key (wrap : CacheError → ε) (build : HeapM ε ObjectId) res c' h',
        (c.trie.lookup key h = .ok none →
          Arises r (build h).2 ∧ r.Untouched h (build h).2) →
        c.getOrInsertWith key wrap build h = (res, c', h') → r.Apart site h c' h') ∧
      ∀ res c' h', c.compact h = (res, c', h') → r.Apart site h c' h') ∧
    ∃ n r' h', r.compactAll h = (.ok n, r', h') ∧ ∀ s d, r.get? s = some d →
      ∃ d', r'.get? s = some d' ∧ d'.trie = d.trie ∧
        (∀ key, d'.trie.lookup key h' = d.trie.lookup key h) ∧
        d'.trie.liveEntries h' = d.trie.liveEntries h := by
  obtain ⟨labels, hP⟩ := hr.proper
  refine ⟨fun site c hc => ⟨fun key f res c' h' hrun => ?_,
    fun key wrap build res c' h' hbuild hrun => ?_, fun res c' h' hrun => ?_⟩, ?_⟩
  · obtain ⟨-, rfl⟩ := Cache.trie_heap_of_insert hrun
    obtain ⟨labels', hch⟩ := (hP.labelled site c hc).changes_insert hP.below key f
    exact hP.apart hP (.refl r h) hc hch
  · have hsame : r.Apart site h c' h :=
      hP.apart hP (.refl r h) hc ((hP.labelled site c hc).changes_refl hP.below)
    cases (Cache.fetched_of_run hrun).1 with
    | refused => exact hsame
    | hit => exact hsame
    | unbuilt e hlookup _ =>
      obtain ⟨hr₁, hbefore⟩ := hbuild hlookup
      obtain ⟨labels₁, hP₁⟩ := hr₁.proper
      exact hP.apart hP₁ hbefore hc ((hP₁.labelled site c hc).changes_refl hP₁.below)
    | built f hlookup _ =>
      obtain ⟨hr₁, hbefore⟩ := hbuild hlookup
      obtain ⟨labels₁, hP₁⟩ := hr₁.proper
      obtain ⟨labels', hch⟩ := (hP₁.labelled site c hc).changes_insert hP₁.below key f
      exact hP.apart hP₁ hbefore hc hch
  · obtain ⟨-, rfl⟩ := Cache.trie_heap_of_compact hrun
    exact hP.apart hP (.refl r h) hc ((hP.labelled site c hc).changes_compact hP.below)
  · obtain ⟨n, r', h', hrun, -, hext, hview⟩ := hP.compactAll_spec (fun _ => True) r.fits_arityOf
    refine ⟨n, r', h', hrun, fun s d hd => ?_⟩
    obtain ⟨d', hd', htrie⟩ := hext.cache s d hd
    have hsound' := hext.proper.sound hd'
    rw [htrie] at hsound'
    obtain ⟨hlookup, hlive⟩ := (hP.sound hd).answers_congr hsound' fun q => by
      rw [← htrie, ← view_of_get? hd', hview, view_of_get? hd, htrie]
    exact ⟨d', hd', htrie, htrie ▸ hlookup, htrie ▸ hlive⟩

/-- Two definitions hold one closure under one object, and the second does not disturb the
first. -/
theorem isolated_of_shared :
    ∃ c₀ r₁ h₁ c₁ r₂ h₂ c₀' h₃ c₁' h₄,
      Registry.empty.getOrCreate ⟨0⟩ 1 (Heap.empty.allocate (.ordinary ∅)).2 =
        (.ok (c₀, true), r₁, h₁) ∧
      r₁.getOrCreate ⟨1⟩ 1 h₁ = (.ok (c₁, true), r₂, h₂) ∧
      c₀.insert ⟨[.objectRef ⟨0⟩]⟩ ⟨0⟩ h₂ = (.ok ⟨0⟩, c₀', h₃) ∧
      c₁.getOrInsertWith ⟨[.objectRef ⟨0⟩]⟩ id (pure ⟨0⟩) h₃ = (.ok (⟨0⟩, .miss), c₁', h₄) ∧
      c₀'.trie.lookup ⟨[.objectRef ⟨0⟩]⟩ h₃ = .ok (some ⟨0⟩) ∧
      Registry.get? ((r₂.put ⟨0⟩ c₀').put ⟨1⟩ c₁') ⟨0⟩ = some c₀' ∧ LeftAlone c₀' h₃ h₄ := by
  have halone : ∀ {c₀ r₁ h₁ c₁ r₂ h₂ c₀' h₃ c₁' h₄ res},
      Registry.empty.getOrCreate ⟨0⟩ 1 (Heap.empty.allocate (.ordinary ∅)).2 =
        (.ok (c₀, true), r₁, h₁) →
      r₁.getOrCreate ⟨1⟩ 1 h₁ = (.ok (c₁, true), r₂, h₂) →
      c₀.insert ⟨[.objectRef ⟨0⟩]⟩ ⟨0⟩ h₂ = (res, c₀', h₃) →
      c₁.getOrInsertWith ⟨[.objectRef ⟨0⟩]⟩ id (pure ⟨0⟩) h₃ = (.ok (⟨0⟩, .miss), c₁', h₄) →
      r₂.get? ⟨0⟩ = some c₀ → r₂.get? ⟨1⟩ = some c₁ →
      Registry.get? ((r₂.put ⟨0⟩ c₀').put ⟨1⟩ c₁') ⟨0⟩ = some c₀' ∧ LeftAlone c₀' h₃ h₄ := by
    intro c₀ r₁ h₁ c₁ r₂ h₂ c₀' h₃ c₁' h₄ res hfirst hsecond hinsert hget hc₀ hc₁
    have harises := (((Arises.empty _).getOrCreate hfirst).getOrCreate hsecond).insert hc₀ hinsert
    have hc₁' : Registry.get? (r₂.put ⟨0⟩ c₀') ⟨1⟩ = some c₁ := by
      rw [get?_put, if_neg (by decide), hc₁]
    exact (harises.isolated.1 _ _ hc₁').2.1 _ _ _ _ _ _ (fun _ => ⟨harises, .refl _ _⟩) hget
      _ _ (by decide) (by rw [get?_put, if_pos rfl])
  exact ⟨_, _, _, _, _, _, _, _, _, _, rfl, rfl, rfl, rfl, rfl, halone rfl rfl rfl rfl rfl rfl⟩

end Registry

end ClosureCache
