/-
The caches of a program side by side.

All tries of a registry share one labelling and differ in the root that the labels
name, so a change of one of them leaves the others proper and what they find as it
was.  `Proper` is the invariant and `Extends` what a step does to a registry and the
heap.  `reach_spec` follows the one step that both makes caches and inserts into
them.
-/
import ClosureCache.Cache.Registry
import ClosureCache.Proofs.Key
import ClosureCache.Proofs.Cache.Compaction
import ClosureCache.Proofs.Cache.Insertion
import ClosureCache.Proofs.Cache.SparedObjects
import ClosureCache.Proofs.Cache.Survival

namespace ClosureCache

namespace Trie

/-! ## A change of one trie beside others -/

/-- A change of one trie, as it is seen from the others. -/
structure Changes (t : Trie) (h : Heap) (labels : Labels) (h' : Heap) (labels' : Labels) :
    Prop where
  labelled : t.Labelled h' labels'
  below : Below labels' h'.entries.size
  frame : Heap.Frame (t.Member labels) h.entries.size h h'
  keep : ∀ x p, labels x = some p → labels' x = some p
  fresh : ∀ x p, labels' x = some p → labels x = some p ∨
    p.root = t.root ∧ h.entries.size ≤ x.index
  plain : ∀ x o, h'.object x = .ok o → o.isPart = false → h.object x = .ok o

section Changes

variable {t u : Trie} {h h' : Heap} {labels labels' : Labels}

theorem Grows.changes {path : List Edge}
    (hg : t.Grows (t.MemberAlong labels path) h.entries.size h labels h' labels') :
    t.Changes h labels h' labels' :=
  ⟨hg.labelled, hg.below,
    hg.frame.weaken (fun _ _ ⟨p, hp, hroot, _⟩ => ⟨p, hp, hroot⟩) (Nat.le_refl _), hg.keep,
    hg.fresh, hg.plain⟩

theorem Prunes.changes (hp : t.Prunes labels h h') (hB : Below labels h.entries.size) :
    t.Changes h labels h' labels :=
  ⟨hp.labelled, hp.size ▸ hB, hp.frame, fun _ _ hx => hx, fun _ _ hx => .inl hx, hp.plain⟩

/-- A trie beside one that changes stays proper and finds what it found. -/
theorem Labelled.beside (hL : u.Labelled h labels) (hc : t.Changes h labels h' labels')
    (hne : u.root ≠ t.root) : u.Labelled h' labels' ∧
      ∀ x path, labels x = some (u.nodePlace path) → ∀ q, h'.find x q = h.find x q := by
  have hobject : ∀ x p, labels x = some p → p.root = u.root → h'.object x = h.object x := by
    intro x p hx hp
    refine hc.frame.object_eq (Heap.lt_of_contains (hL.contains hx hp)) ?_
    rintro ⟨p', hx', hp'⟩
    rw [hx] at hx'
    exact hne (hp.symm.trans (Option.some.inj hx' ▸ hp'))
  refine ⟨hL.transfer (fun x p hp => ⟨fun hx => ?_, hc.keep x p⟩) hobject ?_ hc.frame.mono,
    fun x path hx q => hL.find_transfer hobject hx q⟩
  · exact (hc.fresh x p hx).resolve_right fun hp' => hne (hp.symm.trans hp'.1)
  · exact hc.frame.rooted (Heap.lt_of_contains (hL.contains hL.root rfl)) hL.pinned

end Changes

end Trie

namespace Registry

/-! ## The invariant -/

/-- What the caches hold: closures by definition and path. -/
def view (r : Registry) (h : Heap) (site : SiteId) (q : List Edge) : Option ObjectId :=
  (r.get? site).bind fun c => h.find c.trie.root q

/-- All tries are proper, no two caches share one, and there are no labels but theirs. -/
structure Proper (r : Registry) (h : Heap) (labels : Labels) : Prop where
  labelled : ∀ site c, r.get? site = some c → c.trie.Labelled h labels
  root_inj : ∀ site site' c c', r.get? site = some c → r.get? site' = some c' →
    c.trie.root = c'.trie.root → site = site'
  below : Trie.Below labels h.entries.size
  owner : ∀ x p, labels x = some p → ∃ site c, r.get? site = some c ∧ p.root = c.trie.root

/-- What a step does to a registry and the heap: caches stay, the only old objects that
change are objects of tries, and the new ones that are no parts of tries are as `made`
says. -/
structure Extends (made : Object → Prop) (r : Registry) (h : Heap) (labels : Labels)
    (r' : Registry) (h' : Heap) (labels' : Labels) : Prop where
  proper : r'.Proper h' labels'
  frame : Heap.Frame (fun x => ∃ p, labels x = some p) h.entries.size h h'
  old : ∀ x p, labels' x = some p → x.index < h.entries.size → labels x = some p
  cache : ∀ site c, r.get? site = some c → ∃ c', r'.get? site = some c' ∧ c'.trie = c.trie
  plain : ∀ x o, h'.object x = .ok o → o.isPart = false →
    h.object x = .ok o ∨ h.entries.size ≤ x.index ∧ made o

section Extends

variable {made : Object → Prop} {r r₁ r₂ : Registry} {h h₁ h₂ : Heap}
  {labels labels₁ labels₂ : Labels} {site : SiteId} {c c' : Cache}

theorem Extends.refl (hP : r.Proper h labels) : Extends made r h labels r h labels :=
  ⟨hP, .refl .., fun _ _ hx _ => hx, fun _ c hc => ⟨c, hc, rfl⟩, fun _ _ ho _ => .inl ho⟩

theorem Extends.trans (a : Extends made r h labels r₁ h₁ labels₁)
    (b : Extends made r₁ h₁ labels₁ r₂ h₂ labels₂) : Extends made r h labels r₂ h₂ labels₂ where
  proper := b.proper
  frame := a.frame.trans (b.frame.weaken (fun x hx ⟨p, hp⟩ => ⟨p, a.old x p hp hx⟩) a.frame.size_le)
  old x p hx hlt := a.old x p (b.old x p hx (Nat.lt_of_lt_of_le hlt a.frame.size_le)) hlt
  cache site c hc := by
    obtain ⟨c₁, hc₁, htrie₁⟩ := a.cache site c hc
    obtain ⟨c₂, hc₂, htrie₂⟩ := b.cache site c₁ hc₁
    exact ⟨c₂, hc₂, htrie₂.trans htrie₁⟩
  plain x o hx ho := by
    rcases b.plain x o hx ho with hx | ⟨hge, hmade⟩
    · exact a.plain x o hx ho
    · exact .inr ⟨Nat.le_trans a.frame.size_le hge, hmade⟩

theorem get?_put (r : Registry) (site : SiteId) (c : Cache) (s : SiteId) :
    Registry.get? (r.put site c) s = if s = site then some c else r.get? s := by
  rw [Registry.get?, put, SortedMap.get?_insert]
  by_cases hs : s = site
  · rw [if_pos (Std.compare_eq_iff_eq.2 hs), if_pos hs]
  · rw [if_neg fun e => hs (Std.compare_eq_iff_eq.1 e), if_neg hs]
    rfl

theorem get?_empty (site : SiteId) : empty.get? site = none := rfl

/-- Without caches there is nothing to label. -/
theorem proper_empty (h : Heap) : empty.Proper h fun _ => none :=
  ⟨fun _ _ hc => (by cases hc), fun _ _ _ _ hc => (by cases hc), fun _ _ hx => (by cases hx),
    fun _ _ hx => (by cases hx)⟩

theorem view_of_get? (hc : r.get? site = some c) (h : Heap) (q : List Edge) :
    r.view h site q = h.find c.trie.root q := by
  rw [view, hc]
  rfl

/-- An object that bears a label is part of a trie. -/
theorem Proper.isPart (hP : r.Proper h labels) {x : ObjectId} {p : Place}
    (hx : labels x = some p) : h.IsPart x := by
  obtain ⟨site, c, hc, hp⟩ := hP.owner x p hx
  have hL := hP.labelled site c hc
  obtain ⟨root, path, slot⟩ := p
  obtain rfl : root = c.trie.root := hp
  cases slot with
  | none => exact ⟨_, (hL.node x path hx).isNode, Object.isPart_node _⟩
  | some s =>
    obtain ⟨o, ho, hserves⟩ := (hL.map x path s hx).serves
    exact ⟨o, ho, hserves.isPart⟩

theorem Proper.unlabelled (hP : r.Proper h labels) {x : ObjectId} {o : Object}
    (hx : h.object x = .ok o) (ho : o.isPart = false) : labels x = none := by
  cases hl : labels x with
  | none => rfl
  | some p =>
    obtain ⟨o', ho', hpart⟩ := hP.isPart hl
    rw [hx] at ho'
    rw [Except.ok.inj ho', hpart] at ho
    cases ho

/-- The change of a trie that no other cache has extends the registry, and what the
others hold stays. -/
theorem Proper.put (made : Object → Prop) (hP : r.Proper h labels) {t : Trie}
    (hhad : ∀ d, r.get? site = some d → d.trie = t)
    (hother : ∀ s d, s ≠ site → r.get? s = some d → d.trie.root ≠ t.root)
    (hch : t.Changes h labels h₁ labels₁) (htrie : c.trie = t) :
    Extends made r h labels (r.put site c) h₁ labels₁ ∧
      ∀ s q, Registry.view (r.put site c) h₁ s q =
        if s = site then h₁.find t.root q else r.view h s q := by
  have hget : ∀ s d, Registry.get? (r.put site c) s = some d →
      s = site ∧ d.trie = t ∨ s ≠ site ∧ r.get? s = some d := by
    intro s d hd
    rw [get?_put] at hd
    split at hd
    · next hs => exact .inl ⟨hs, by rw [← Option.some.inj hd, htrie]⟩
    · next hs => exact .inr ⟨hs, hd⟩
  have hkeep : ∀ s d, r.get? s = some d →
      ∃ d', Registry.get? (r.put site c) s = some d' ∧ d'.trie = d.trie := by
    intro s d hd
    by_cases hs : s = site
    · subst hs
      exact ⟨c, by rw [get?_put, if_pos rfl], by rw [htrie, hhad d hd]⟩
    · exact ⟨d, by rw [get?_put, if_neg hs, hd], rfl⟩
  refine ⟨⟨⟨fun s d hd => ?_, fun s s' d d' hd hd' he => ?_, hch.below, fun x p hx => ?_⟩, ?_, ?_,
    hkeep, fun x o hx ho => .inl (hch.plain x o hx ho)⟩, fun s q => ?_⟩
  · rcases hget s d hd with ⟨-, hd⟩ | ⟨hs, hd⟩
    · rw [hd]
      exact hch.labelled
    · exact ((hP.labelled s d hd).beside hch (hother s d hs hd)).1
  · rcases hget s d hd with ⟨hs, hroot⟩ | ⟨hs, hold⟩
    · rcases hget s' d' hd' with ⟨hs', _⟩ | ⟨hs', hold'⟩
      · rw [hs, hs']
      · rw [hroot] at he
        exact absurd he.symm (hother s' d' hs' hold')
    · rcases hget s' d' hd' with ⟨_, hroot'⟩ | ⟨_, hold'⟩
      · rw [hroot'] at he
        exact absurd he (hother s d hs hold)
      · exact hP.root_inj s s' d d' hold hold' he
  · rcases hch.fresh x p hx with hold | ⟨hroot, -⟩
    · obtain ⟨s, d, hd, hp⟩ := hP.owner x p hold
      obtain ⟨d', hd', htrie'⟩ := hkeep s d hd
      exact ⟨s, d', hd', by rw [hp, htrie']⟩
    · exact ⟨site, c, by rw [get?_put, if_pos rfl], by rw [hroot, htrie]⟩
  · exact hch.frame.weaken (fun x _ ⟨p, hx, _⟩ => ⟨p, hx⟩) (Nat.le_refl _)
  · intro x p hx hlt
    exact (hch.fresh x p hx).resolve_right fun hp => absurd hp.2 (Nat.not_le_of_lt hlt)
  · rw [view, get?_put]
    by_cases hs : s = site
    · rw [if_pos hs, if_pos hs, Option.bind_some, htrie]
    · rw [if_neg hs, if_neg hs, view]
      cases hd : r.get? s with
      | none => rfl
      | some d =>
        have hL := hP.labelled s d hd
        exact (hL.beside hch (hother s d hs hd)).2 _ _ hL.root q

/-- A cache that changes its trie extends the registry. -/
theorem Proper.put_of_get? (made : Object → Prop) (hP : r.Proper h labels)
    (hc : r.get? site = some c)
    (hch : c.trie.Changes h labels h₁ labels₁) (htrie : c'.trie = c.trie) :
    Extends made r h labels (r.put site c') h₁ labels₁ ∧
      ∀ s q, Registry.view (r.put site c') h₁ s q =
        if s = site then h₁.find c.trie.root q else r.view h s q := by
  refine hP.put made (fun d hd => ?_) (fun s d hs hd e => hs ?_) hch htrie
  · rw [Option.some.inj (hd.symm.trans hc)]
  · exact hP.root_inj s site d c hd hc e

/-- A change that leaves the tries alone extends the registry, and what the caches
hold stays. -/
theorem Proper.spare (hP : r.Proper h labels)
    (hs : h.Spares (fun x => ∃ p, labels x = some p) h₁) :
    r.Proper h₁ labels ∧ ∀ s q, r.view h₁ s q = r.view h s q := by
  have hspare : ∀ s d, r.get? s = some d → h.Spares (d.trie.Member labels) h₁ :=
    fun s d _ => hs.weaken fun x ⟨p, hx, _⟩ => ⟨p, hx⟩
  refine ⟨⟨fun s d hd => ((hP.labelled s d hd).spare (hspare s d hd)).1, hP.root_inj,
    fun x p hx => ?_, hP.owner⟩, fun s q => ?_⟩
  · have := hP.below x p hx
    have := hs.size_le
    omega
  · rw [view, view]
    cases hd : r.get? s with
    | none => rfl
    | some d =>
      have hL := hP.labelled s d hd
      exact (hL.spare (hspare s d hd)).2 _ _ hL.root q

/-- A new object that is no part of a trie extends the registry. -/
theorem Proper.allocate (hP : r.Proper h labels) {o : Object} (hmade : made o) :
    Extends made r h labels r (h.allocate o).2 labels ∧
      ∀ s q, r.view (h.allocate o).2 s q = r.view h s q := by
  obtain ⟨hP', hview⟩ := hP.spare (Heap.spares_allocate _ h o)
  refine ⟨⟨hP', Heap.frame_allocate _ (Nat.le_refl _) o, fun _ _ hx _ => hx,
    fun _ c hc => ⟨c, hc, rfl⟩, fun x o' hx _ => ?_⟩, hview⟩
  by_cases hxs : x = ⟨h.entries.size⟩
  · rw [hxs, Heap.object_allocate_self] at hx
    exact .inr ⟨Nat.le_of_eq (by rw [hxs]), Except.ok.inj hx ▸ hmade⟩
  · rw [Heap.object, Heap.entry?_allocate, if_neg hxs] at hx
    exact .inl hx

end Extends

/-! ## Reaching a definition -/

/-- Every cache has keys of the length that its definition asks for. -/
def Fits (arity : SiteId → Option Nat) (r : Registry) : Prop :=
  ∀ site c, r.get? site = some c → arity site = some c.trie.arity

theorem Fits.put {arity : SiteId → Option Nat} {r : Registry} (hf : r.Fits arity) {site : SiteId}
    {c : Cache} (hc : arity site = some c.trie.arity) : (r.put site c).Fits arity := by
  intro s d hd
  rw [get?_put] at hd
  split at hd
  · next hs => rw [hs, hc, Option.some.inj hd]
  · exact hf s d hd

/-- How reaching a definition with a path can end when the closure `o` is to be made,
and what the caches hold afterwards. -/
inductive Outcome {ε : Type} (r : Registry) (site : SiteId) (path : List Edge) (o : Object)
    (wrap : CacheError → ε) (h : Heap) (r' : Registry) (h' : Heap) :
    Except ε ObjectId → Prop where
  | hit (f : ObjectId) : r.view h site path = some f →
    (∀ s q, r'.view h' s q = r.view h s q) → Outcome r site path o wrap h r' h' (.ok f)
  | miss (f : ObjectId) : r.view h site path = none → h.entries.size ≤ f.index →
    h'.object f = .ok o →
    (∀ s q, r'.view h' s q = if s = site ∧ q = path then some f else r.view h s q) →
    Outcome r site path o wrap h r' h' (.ok f)
  /-- An object of the key is not in the heap. -/
  | refused (id : ObjectId) : .object id ∈ path → h'.contains id = false →
    (∀ s q, r'.view h' s q = r.view h s q) →
    Outcome r site path o wrap h r' h' (.error (wrap (.host (.objectNotFound id))))

section Reach

variable {ε : Type} {made : Object → Prop} {r : Registry} {h : Heap} {labels : Labels}

/-- Asking for a cache finds it or makes it, and changes nothing about what the caches
hold. -/
theorem Proper.getOrCreate_spec (made : Object → Prop) (hP : r.Proper h labels) (site : SiteId)
    {arity : Nat}
    (harity : ∀ c, r.get? site = some c → c.trie.arity = arity) :
    ∃ c created r' h' labels', r.getOrCreate site arity h = (.ok (c, created), r', h') ∧
      r'.get? site = some c ∧ c.trie.arity = arity ∧ (r' = r ∨ r' = r.put site c) ∧
      Extends made r h labels r' h' labels' ∧ ∀ s q, r'.view h' s q = r.view h s q := by
  rw [getOrCreate]
  cases hc : r.get? site with
  | some c =>
    have ha := harity c hc
    exact ⟨c, false, r, h, labels, if_pos ha, hc, ha, .inl rfl, .refl hP, fun _ _ => rfl⟩
  | none =>
    obtain ⟨h', t, hrun, ht, hL, hB, hframe, hfind, hplain⟩ :=
      Trie.create_spec hP.below site arity
    have hroot : t.root = ⟨h.entries.size⟩ := by rw [ht]
    have hold : ∀ x p, labels x = some p → x ≠ t.root := fun x p hx e =>
      Nat.ne_of_lt (hP.below x p hx).1 (by rw [e, hroot])
    have hch : t.Changes h labels h' (Function.update labels t.root (some (t.nodePlace []))) := by
      refine ⟨hL, hB, hframe.weaken (fun _ _ hf => hf.elim) (Nat.le_refl _), fun x p hx => ?_,
        fun x p hx => ?_, hplain⟩
      · rw [Function.update_of_ne (hold x p hx), hx]
      · rcases Trie.of_update hx with ⟨rfl, rfl⟩ | hx
        · exact .inr ⟨rfl, Nat.le_of_eq (by rw [hroot])⟩
        · exact .inl hx
    have hother : ∀ s d, s ≠ site → r.get? s = some d → d.trie.root ≠ t.root := fun s d _ hd =>
      hold _ _ (hP.labelled s d hd).root
    have hcreate : Cache.create site arity h = (.ok ⟨t, .zero⟩, h') := by
      rw [Cache.create, HeapM.bind_of_ok hrun]
      rfl
    obtain ⟨hext, hview⟩ := hP.put made (fun d hd => by rw [hc] at hd; cases hd) hother hch
      (c := ⟨t, .zero⟩) rfl
    refine ⟨⟨t, .zero⟩, true, _, h', _, by rw [hcreate], by rw [get?_put, if_pos rfl], by rw [ht],
      .inr rfl, hext, fun s q => ?_⟩
    rw [hview]
    split
    · next hs => rw [hfind, hs, view, hc]; rfl
    · rfl

/-- What an insertion into a cache gives, and that the cache keeps its trie. -/
theorem insert_of_trie {c : Cache} {key : Key} {f : ObjectId} {h h' : Heap}
    {res : Except CacheError (ObjectId × Bool)} (hins : c.trie.insert key f h = (res, h')) :
    ∃ c', c.insert key f h = (res.map Prod.fst, c', h') ∧ c'.trie = c.trie := by
  rw [Cache.insert, hins]
  cases res with
  | error e => exact ⟨c, rfl, rfl⟩
  | ok stored =>
    obtain ⟨g, fresh⟩ := stored
    cases fresh
    · exact ⟨_, rfl, rfl⟩
    · exact ⟨_, rfl, rfl⟩

/-- Looking in a cache for a key, with a closure to be made if there is none. -/
theorem Proper.getOrInsertWith_spec (hP : r.Proper h labels) {site : SiteId} {c : Cache}
    (hc : r.get? site = some c) {key : Key} (hkey : key.arity = c.trie.arity) {o : Object}
    (ho : o.isPart = false) (hmade : made o) (wrap : CacheError → ε) :
    ∃ result c' h' labels',
      c.getOrInsertWith key wrap (HeapM.change fun h => h.allocate o) h = (result, c', h') ∧
      c'.trie = c.trie ∧ Extends made r h labels (r.put site c') h' labels' ∧
      Outcome r site key.path o wrap h (r.put site c') h' (result.map Prod.fst) := by
  have hL := hP.labelled site c hc
  have hview : ∀ q, r.view h site q = h.find c.trie.root q := view_of_get? hc h
  rw [Cache.getOrInsertWith, hL.lookup_eq hkey]
  cases hfind : h.find c.trie.root key.path with
  | some f =>
    obtain ⟨hext, hsame⟩ := hP.put_of_get? made hc ((Trie.Prunes.refl hL).changes hP.below)
      (show (c.count fun s => { s with hits := s.hits + 1 }).trie = c.trie from rfl)
    refine ⟨_, _, h, labels, rfl, rfl, hext, .hit f ((hview _).trans hfind) fun s q => ?_⟩
    rw [hsame]
    split
    · next hs => rw [hs, hview]
    · rfl
  | none =>
    dsimp only
    generalize hc₁ : (c.count fun s => { s with misses := s.misses + 1 }) = c₁
    have htrie₁ : c₁.trie = c.trie := by rw [← hc₁]; rfl
    obtain ⟨hext₁, hview₁⟩ := hP.allocate hmade
    generalize hh₁ : (h.allocate o).2 = h₁ at hext₁ hview₁
    have hbuild : (HeapM.change fun h => h.allocate o : HeapM ε ObjectId) h =
        (.ok ⟨h.entries.size⟩, h₁) := by
      rw [HeapM.change_apply, hh₁]
      rfl
    have hP₁ := hext₁.proper
    have hnew : h₁.object ⟨h.entries.size⟩ = .ok o := by rw [← hh₁, Heap.object_allocate_self]
    have hfind₁ : ∀ q, h₁.find c.trie.root q = h.find c.trie.root q := fun q => by
      rw [← view_of_get? hc h₁, hview₁, hview]
    obtain ⟨res, h₂, labels₂, hins, hgrow, hend⟩ :=
      (hP₁.labelled site c hc).insert_spec hP₁.below hkey ⟨h.entries.size⟩
    obtain ⟨c', hrun, htrie'⟩ := insert_of_trie (htrie₁ ▸ hins)
    have htrie := htrie'.trans htrie₁
    obtain ⟨hext₂, hput⟩ := hP₁.put_of_get? made hc hgrow.changes htrie
    rw [hbuild]
    dsimp only
    rw [hrun]
    cases hend with
    | held g hg => rw [hfind₁, hfind] at hg; cases hg
    | added hnone hadd =>
      refine ⟨_, c', h₂, labels₂, rfl, htrie, hext₁.trans hext₂,
        .miss _ ((hview _).trans hfind) (Nat.le_refl _) ?_ fun s q => ?_⟩
      · rw [hgrow.frame.object_eq (Heap.lt_of_contains (Heap.contains_of_object hnew)), hnew]
        rintro ⟨p, hp, -⟩
        rw [hP₁.unlabelled hnew ho] at hp
        cases hp
      · rw [hput, hadd, hfind₁]
        by_cases hs : s = site
        · rw [if_pos hs, hs, hview]
          simp
        · rw [if_neg hs, if_neg fun hsq => hs hsq.1, hview₁]
    | refused id hid hout hsame =>
      refine ⟨_, c', h₂, labels₂, rfl, htrie, hext₁.trans hext₂, .refused id hid hout fun s q => ?_⟩
      rw [hput, hsame, hfind₁]
      split
      · next hs => rw [hs, hview]
      · rw [hview₁]

/-- Reaching a definition: one closure is looked up or made, and nothing else that the
caches hold changes. -/
theorem Proper.reach_spec (hP : r.Proper h labels) {arity : SiteId → Option Nat} (hf : r.Fits arity)
    (site : SiteId) (key : Key) (hsite : arity site = some key.arity) (o : Object)
    (ho : o.isPart = false) (wrap : CacheError → ε) :
    ∃ result r' h' labels',
      r.reach site key.arity key wrap (HeapM.change fun h => h.allocate o) h = (result, r', h') ∧
      r'.Fits arity ∧ Extends (Eq o) r h labels r' h' labels' ∧
      Outcome r site key.path o wrap h r' h' (result.map Reached.function) := by
  obtain ⟨c, created, r₁, h₁, labels₁, hrun₁, hc, harity, hr₁, hext₁, hview⟩ :=
    hP.getOrCreate_spec (Eq o) site fun c hc =>
      Option.some.inj ((hf site c hc).symm.trans hsite)
  obtain ⟨result, c', h₂, labels₂, hrun₂, htrie, hext₂, hout⟩ :=
    hext₁.proper.getOrInsertWith_spec hc harity.symm ho rfl wrap
  have hf₁ : r₁.Fits arity := by
    rcases hr₁ with rfl | rfl
    · exact hf
    · exact hf.put (by rw [hsite, harity])
  refine ⟨result.map fun stored => ⟨stored.1, stored.2, created⟩, r₁.put site c', h₂, labels₂, ?_,
    hf₁.put (by rw [htrie, hsite, harity]), hext₁.trans hext₂, ?_⟩
  · rw [reach, hrun₁]
    dsimp only
    rw [hrun₂]
    cases result <;> rfl
  · have hfunction : (result.map fun stored => (⟨stored.1, stored.2, created⟩ : Reached)).map
        Reached.function = result.map Prod.fst := by cases result <;> rfl
    rw [hfunction]
    generalize result.map Prod.fst = end' at hout
    cases hout with
    | hit f hf hsame => exact .hit f (by rw [← hview, hf]) fun s q => by rw [hsame, hview]
    | miss f hf hge hobject hadd =>
      exact .miss f (by rw [← hview, hf]) (Nat.le_trans hext₁.frame.size_le hge) hobject
        fun s q => by rw [hadd, hview]
    | refused id hid hnot hsame => exact .refused id hid hnot fun s q => by rw [hsame, hview]

end Reach

/-! ## Compaction and collection -/

section Collect

variable {made : Object → Prop} {r : Registry} {h h' : Heap} {labels : Labels}

/-- Compacting caches of the registry one after the other ends, and changes nothing
about what they hold. -/
theorem Proper.compactEach_spec (hP : r.Proper h labels) {arity : SiteId → Option Nat}
    (hf : r.Fits arity) (caches : List (SiteId × Cache)) (pruned : Nat)
    (hin : ∀ site c, (site, c) ∈ caches → ∃ d, r.get? site = some d ∧ d.trie = c.trie) :
    ∃ n r' h', r.compactEach caches pruned h = (.ok n, r', h') ∧ r'.Fits arity ∧
      Extends made r h labels r' h' labels ∧ ∀ s q, r'.view h' s q = r.view h s q := by
  induction caches generalizing r h pruned with
  | nil => exact ⟨pruned, r, h, rfl, hf, .refl hP, fun _ _ => rfl⟩
  | cons entry rest ih =>
    obtain ⟨site, c⟩ := entry
    obtain ⟨d, hd, htrie⟩ := hin site c List.mem_cons_self
    have hL := hP.labelled site d hd
    obtain ⟨n, h₁, hrun, hprune⟩ := hL.compact_spec
    obtain ⟨c', hcompact, htrie'⟩ : ∃ c', c.compact h = (.ok n, c', h₁) ∧ c'.trie = d.trie := by
      rw [Cache.compact, ← htrie, hrun]
      exact ⟨c.count fun s => { s with
        pruned := s.pruned + n }, rfl, htrie.symm⟩
    obtain ⟨hext, hview⟩ := hP.put_of_get? made hd (hprune.changes hP.below) htrie'
    have hview : ∀ s q, Registry.view (r.put site c') h₁ s q = r.view h s q := by
      intro s q
      rw [hview]
      split
      · next hs => rw [hs, view_of_get? hd, hprune.find _ _ hL.root]
      · rfl
    have hf₁ : (r.put site c').Fits arity := hf.put (by rw [htrie', hf site d hd])
    obtain ⟨m, r₂, h₂, hrun₂, hf₂, hext₂, hview₂⟩ :=
      ih hext.proper hf₁ (pruned + n) fun s e he => by
      obtain ⟨d₀, hd₀, htrie₀⟩ := hin s e (List.mem_cons_of_mem _ he)
      obtain ⟨d₁, hd₁, htrie₁⟩ := hext.cache s d₀ hd₀
      exact ⟨d₁, hd₁, htrie₁.trans htrie₀⟩
    refine ⟨m, r₂, h₂, ?_, hf₂, hext.trans hext₂, fun s q => by rw [hview₂, hview]⟩
    rw [compactEach, hcompact]
    exact hrun₂

/-- Compacting all caches ends, and changes nothing about what they hold. -/
theorem Proper.compactAll_spec (made : Object → Prop) (hP : r.Proper h labels)
    {arity : SiteId → Option Nat}
    (hf : r.Fits arity) :
    ∃ n r' h', r.compactAll h = (.ok n, r', h') ∧ r'.Fits arity ∧
      Extends made r h labels r' h' labels ∧ ∀ s q, r'.view h' s q = r.view h s q :=
  hP.compactEach_spec hf _ 0 fun _ c hc => ⟨c, SortedMap.mem_toList_iff.1 hc, rfl⟩

/-- After a collection the caches hold what they held before, under the paths all of
whose objects are kept. -/
theorem Proper.collect (hP : r.Proper h labels) {keep : MarkSet} (hc : Heap.Collected h h' keep) :
    r.Proper h' (Trie.keptLabels keep labels) ∧
      ∀ s q, r.view h' s q =
        if Trie.keptPath keep.contains q then r.view h s q else none := by
  refine ⟨⟨fun s d hd => (hP.labelled s d hd).collect hc, hP.root_inj, hP.below.collect hc,
    fun x p hx => hP.owner x p (Trie.keptLabels_eq_some.1 hx).2⟩, fun s q => ?_⟩
  rw [view, view]
  cases hd : r.get? s with
  | none => exact (ite_self none).symm
  | some d =>
    have hL := hP.labelled s d hd
    obtain ⟨hkeep, -⟩ := Trie.keptLabels_eq_some.1 (hL.collect hc).root
    exact hL.find_collect hc hL.root hkeep q

end Collect

end Registry

end ClosureCache
