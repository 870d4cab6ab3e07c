/-
What the caches remember of the closures they gave out.

`Sharing` relates the caches to everything that was ever given out.  A closure is
held as long as all objects on its path are in the heap: collections take only what
lies under an object that they sweep, and numbers are not used again, so what has
left the caches cannot be asked for.  A closure that is made is new, so it differs
from all that were given out before.
-/
import ClosureCache.Proofs.Cache.Registry

namespace ClosureCache

/-- The closures that were given out, by definition and path. -/
abbrev Given := SiteId → List Edge → ObjectId → Prop

/-- The closures after one more was given out. -/
def Given.add (given : Given) (site : SiteId) (path : List Edge) (f : ObjectId) : Given :=
  fun s q g => given s q g ∨ s = site ∧ q = path ∧ g = f

namespace Registry

/-- How the caches of a registry and the closures that were given out agree. -/
structure Sharing (given : Given) (r : Registry) (h : Heap) : Prop where
  held : ∀ s q f, given s q f → (∀ id, .object id ∈ q → h.contains id = true) →
    r.view h s q = some f
  noted : ∀ s q f, r.view h s q = some f → given s q f
  live : ∀ s q f, r.view h s q = some f → h.contains f = true
  unique : ∀ s q f g, given s q f → given s q g → f = g
  injective : ∀ s s' q q' f, given s q f → given s' q' f → s = s' ∧ q = q'
  below : ∀ s q f, given s q f →
    f.index < h.entries.size ∧ ∀ id, .object id ∈ q → id.index < h.entries.size

variable {given : Given} {r r' : Registry} {h h' : Heap} {labels : Labels}

/-- Without caches nothing was given out. -/
theorem sharing_empty (h : Heap) : Sharing (fun _ _ _ => False) .empty h :=
  ⟨fun _ _ _ hf => False.elim hf, fun _ _ _ hf => absurd hf (by simp [view, get?_empty]),
    fun _ _ _ hf => absurd hf (by simp [view, get?_empty]), fun _ _ _ _ hf => False.elim hf,
    fun _ _ _ _ _ hf => False.elim hf,
    fun _ _ _ hf => False.elim hf⟩

/-- The objects on the path of a closure that is held are in the heap. -/
theorem Proper.contains_of_view (hP : r.Proper h labels) {s : SiteId} {q : List Edge}
    {f : ObjectId} (hf : r.view h s q = some f) {id : ObjectId} (hid : .object id ∈ q) :
    h.contains id = true := by
  rw [view] at hf
  obtain ⟨c, hc, hfind⟩ := Option.bind_eq_some_iff.1 hf
  have hL := hP.labelled s c hc
  exact hL.contains_of_find hL.root hfind id hid

/-- A change of the heap that loses no object and brings none back, and after which the
caches hold what they held. -/
theorem Sharing.of_view_eq (hs : Sharing given r h) (hsize : h.entries.size ≤ h'.entries.size)
    (hcontains : ∀ x : ObjectId, x.index < h.entries.size → h'.contains x = h.contains x)
    (hview : ∀ s q, r'.view h' s q = r.view h s q) : Sharing given r' h' where
  held s q f hf hin := by
    rw [hview]
    refine hs.held s q f hf fun id hid => ?_
    rw [← hcontains id ((hs.below s q f hf).2 id hid)]
    exact hin id hid
  noted s q f hf := hs.noted s q f (by rw [← hview, hf])
  live s q f hf := by
    rw [hview] at hf
    rw [hcontains f (hs.below s q f (hs.noted s q f hf)).1]
    exact hs.live s q f hf
  unique := hs.unique
  injective := hs.injective
  below s q f hf := by
    obtain ⟨hlt, hobjects⟩ := hs.below s q f hf
    exact ⟨Nat.lt_of_lt_of_le hlt hsize, fun id hid => Nat.lt_of_lt_of_le (hobjects id hid) hsize⟩

/-- A closure is given out again. -/
theorem Sharing.again (hs : Sharing given r h) {site : SiteId} {path : List Edge} {f : ObjectId}
    (hf : r.view h site path = some f) : Sharing (given.add site path f) r h := by
  have hsame : given.add site path f = given := by
    funext s q g
    refine propext ⟨fun hg => ?_, .inl⟩
    rcases hg with hg | ⟨rfl, rfl, rfl⟩
    · exact hg
    · exact hs.noted _ _ _ hf
  rw [hsame]
  exact hs

/-- A new closure is given out, which the caches hold from then on. -/
theorem Sharing.new (hs : Sharing given r h) (hsize : h.entries.size ≤ h'.entries.size)
    (hcontains : ∀ x : ObjectId, x.index < h.entries.size → h'.contains x = h.contains x)
    {site : SiteId} {path : List Edge} {f : ObjectId} (hnone : r.view h site path = none)
    (hf : h.entries.size ≤ f.index) (hin : h'.contains f = true)
    (hobjects : ∀ id, .object id ∈ path → h'.contains id = true)
    (hview : ∀ s q, r'.view h' s q = if s = site ∧ q = path then some f else r.view h s q) :
    Sharing (given.add site path f) r' h' := by
  -- a closure given out under this path would still be held
  have hfirst : ∀ g, ¬ given site path g := by
    intro g hg
    have hheld := hs.held site path g hg fun id hid => by
      rw [← hcontains id ((hs.below site path g hg).2 id hid)]
      exact hobjects id hid
    rw [hnone] at hheld
    cases hheld
  have hfresh : ∀ s q, ¬ given s q f := fun s q hg =>
    Nat.not_lt_of_le hf (hs.below s q f hg).1
  refine ⟨fun s q g hg hq => ?_, fun s q g hg => ?_, fun s q g hg => ?_, fun s q a b ha hb => ?_,
    fun s s' q q' g hg hg' => ?_, fun s q g hg => ?_⟩
  · rw [hview]
    rcases hg with hg | ⟨rfl, rfl, rfl⟩
    · rw [if_neg]
      · refine hs.held s q g hg fun id hid => ?_
        rw [← hcontains id ((hs.below s q g hg).2 id hid)]
        exact hq id hid
      · rintro ⟨rfl, rfl⟩
        exact hfirst g hg
    · rw [if_pos ⟨rfl, rfl⟩]
  · rw [hview] at hg
    split at hg
    · next hsq => exact .inr ⟨hsq.1, hsq.2, (Option.some.inj hg).symm⟩
    · exact .inl (hs.noted s q g hg)
  · rw [hview] at hg
    split at hg
    · exact Option.some.inj hg ▸ hin
    · rw [hcontains g (hs.below s q g (hs.noted s q g hg)).1]
      exact hs.live s q g hg
  · rcases ha with ha | ⟨rfl, rfl, rfl⟩
    · rcases hb with hb | ⟨rfl, rfl, rfl⟩
      · exact hs.unique s q a b ha hb
      · exact absurd ha (hfirst a)
    · rcases hb with hb | ⟨-, -, rfl⟩
      · exact absurd hb (hfirst b)
      · rfl
  · rcases hg with hg | ⟨rfl, rfl, rfl⟩
    · rcases hg' with hg' | ⟨rfl, rfl, rfl⟩
      · exact hs.injective s s' q q' g hg hg'
      · exact absurd hg (hfresh s q)
    · rcases hg' with hg' | ⟨rfl, rfl, -⟩
      · exact absurd hg' (hfresh s' q')
      · exact ⟨rfl, rfl⟩
  · rcases hg with hg | ⟨rfl, rfl, rfl⟩
    · obtain ⟨hlt, hids⟩ := hs.below s q g hg
      exact ⟨Nat.lt_of_lt_of_le hlt hsize, fun id hid => Nat.lt_of_lt_of_le (hids id hid) hsize⟩
    · exact ⟨Heap.lt_of_contains hin, fun id hid => Heap.lt_of_contains (hobjects id hid)⟩

/-- Reaching a definition with a path gives out the closure that it returns. -/
theorem Sharing.reach (hs : Sharing given r h) {ε : Type} {made : Object → Prop}
    {labels' : Labels} {site : SiteId} {path : List Edge} {o : Object} {wrap : CacheError → ε}
    {result : Except ε ObjectId} (hext : Extends made r h labels r' h' labels')
    (hout : Outcome r site path o wrap h r' h' result) :
    (∀ f, result = .ok f → Sharing (given.add site path f) r' h') ∧
      (∀ e, result = .error e → Sharing given r' h') := by
  have hsize := hext.frame.size_le
  have hcontains := fun (x : ObjectId) hx => hext.frame.contains_eq (x := x) hx
  cases hout with
  | hit f hf hsame =>
    refine ⟨fun g hg => ?_, fun e he => (by cases he)⟩
    cases hg
    exact (hs.of_view_eq hsize hcontains hsame).again (by rw [hsame, hf])
  | miss f hnone hge hobject hadd =>
    refine ⟨fun g hg => ?_, fun e he => (by cases he)⟩
    cases hg
    refine hs.new hsize hcontains hnone hge (Heap.contains_of_object hobject)
      (fun id hid => ?_) hadd
    exact hext.proper.contains_of_view (by rw [hadd, if_pos ⟨rfl, rfl⟩]) hid
  | refused id hid hnot hsame =>
    exact ⟨fun g hg => (by cases hg), fun e he => hs.of_view_eq hsize hcontains hsame⟩

/-- A collection takes back nothing that can still be asked for. -/
theorem Sharing.collect (hs : Sharing given r h) (hP : r.Proper h labels) {keep : MarkSet}
    (hc : Heap.Collected h h' keep) : Sharing given r h' := by
  have hview := (hP.collect hc).2
  refine ⟨fun s q f hf hin => ?_, fun s q f hf => ?_, fun s q f hf => ?_, hs.unique, hs.injective,
    fun s q f hf => ?_⟩
  · rw [hview, if_pos (Trie.keptPath_of_collected hc hin)]
    exact hs.held s q f hf fun id hid => ((hc.contains_iff_reachable id).1 (hin id hid)).contains
  · rw [hview] at hf
    split at hf
    · exact hs.noted s q f hf
    · cases hf
  · have hin : h.contains f = true := by
      rw [hview] at hf
      split at hf
      · exact hs.live s q f hf
      · cases hf
    rw [view] at hf
    obtain ⟨c, hget, hfind⟩ := Option.bind_eq_some_iff.1 hf
    have hk := (hP.labelled s c hget).kept_of_find hc hfind hin
    exact (hc.contains_iff_reachable f).2 ((hc.keep_iff f).1 hk)
  · rw [hc.size]
    exact hs.below s q f hf

end Registry

end ClosureCache
