/-
How a proper trie comes about, and what other hands may do to the heap around it.

`Heap.Spares` is what a change has to respect: it leaves the objects of the trie as
they are, takes no root from them, loses no object and brings none back.  Every
operation of the heap does so unless it writes or unpins an object of the trie itself.
-/
import ClosureCache.Proofs.Cache.Growth
import ClosureCache.Proofs.Heap.Operations

namespace ClosureCache

namespace Heap

def IsPart (h : Heap) (x : ObjectId) : Prop := ∃ o, h.object x = .ok o ∧ o.isPart = true

/-- A change of the heap that leaves some objects alone. -/
structure Spares (owned : ObjectId → Prop) (h h' : Heap) : Prop where
  size_le : h.entries.size ≤ h'.entries.size
  contains : ∀ x : ObjectId, x.index < h.entries.size → h'.contains x = h.contains x
  /-- Roots may be added to a spared object but not taken away. -/
  entry : ∀ x e, owned x → h.entry? x = some e →
    ∃ r, h'.entry? x = some ⟨e.object, r⟩ ∧ e.roots ≤ r

namespace Spares

variable {owned : ObjectId → Prop} {h h₁ h₂ : Heap} {x : ObjectId}

theorem refl (owned : ObjectId → Prop) (h : Heap) : Spares owned h h :=
  ⟨Nat.le_refl _, fun _ _ => rfl, fun _ e _ he => ⟨e.roots, he, Nat.le_refl _⟩⟩

theorem trans (a : Spares owned h h₁) (b : Spares owned h₁ h₂) : Spares owned h h₂ where
  size_le := Nat.le_trans a.size_le b.size_le
  contains x hx := (b.contains x (Nat.lt_of_lt_of_le hx a.size_le)).trans (a.contains x hx)
  entry x e hx he := by
    obtain ⟨r₁, he₁, hr₁⟩ := a.entry x e hx he
    obtain ⟨r₂, he₂, hr₂⟩ := b.entry x _ hx he₁
    exact ⟨r₂, he₂, Nat.le_trans hr₁ hr₂⟩

theorem weaken {owned' : ObjectId → Prop} (a : Spares owned h h₁) (hsub : ∀ x, owned' x → owned x) :
    Spares owned' h h₁ :=
  ⟨a.size_le, a.contains, fun x e hx he => a.entry x e (hsub x hx) he⟩

theorem mono (a : Spares owned h h₁) (x : ObjectId) (hx : h.contains x = true) :
    h₁.contains x = true := by
  rw [a.contains x (lt_of_contains hx), hx]

theorem object_eq (a : Spares owned h h₁) (hx : owned x) (hin : h.contains x = true) :
    h₁.object x = h.object x := by
  obtain ⟨e, he⟩ := contains_iff.1 hin
  obtain ⟨r, he₁, -⟩ := a.entry x e hx he
  rw [object_of_some he, object_of_some he₁]

theorem rooted (a : Spares owned h h₁) (hx : owned x)
    (hr : ∃ e, h.entry? x = some e ∧ 0 < e.roots) : ∃ e, h₁.entry? x = some e ∧ 0 < e.roots := by
  obtain ⟨e, he, hpos⟩ := hr
  obtain ⟨r, he₁, hle⟩ := a.entry x e hx he
  exact ⟨_, he₁, Nat.lt_of_lt_of_le hpos hle⟩

end Spares

theorem spares_allocate (owned : ObjectId → Prop) (h : Heap) (o : Object) :
    Spares owned h (h.allocate o).2 where
  size_le := by simp
  contains _ hx := (frame_allocate (fun _ => True) (Nat.le_refl _) o).contains_eq hx
  entry x e _ he := ⟨e.roots, by rw [entry?_allocate_of_lt (lt_of_some he), he], Nat.le_refl _⟩

/-- A change of one entry that keeps its object alive spares every other object, and
the object itself if it only adds roots. -/
theorem spares_modifyEntry {owned : ObjectId → Prop} (h : Heap) {x : ObjectId}
    {f : HeapEntry → HeapEntry}
    (hx : owned x → ∀ e, (f e).object = e.object ∧ e.roots ≤ (f e).roots) :
    Spares owned h (h.modifyEntry x f) where
  size_le := by simp
  contains y _ := contains_modifyEntry ..
  entry y e hy he := by
    rw [entry?_modifyEntry]
    by_cases hyx : y = x
    · subst hyx
      obtain ⟨hobject, hroots⟩ := hx hy e
      refine ⟨(f e).roots, ?_, hroots⟩
      rw [if_pos rfl, he, ← hobject]
      rfl
    · rw [if_neg hyx]
      exact ⟨e.roots, he, Nat.le_refl _⟩

theorem spares_setObject {owned : ObjectId → Prop} (h : Heap) {x : ObjectId} (hx : ¬ owned x)
    (o : Object) : Spares owned h (h.setObject x o) :=
  spares_modifyEntry h fun hx' => absurd hx' hx

end Heap

/-! ## The operations of the heap -/

namespace HeapOp

/-- An operation that neither writes nor unpins an object spares it. -/
theorem spares (op : HeapOp) {owned : ObjectId → Prop} (h : Heap)
    (htarget : ∀ x, op.target? = some x → ¬ owned x) : h.Spares owned (op.perform h) := by
  by_cases hop : op.inPlace = true
  · rcases perform_inPlace hop h with heq | ⟨x, f, heq, hx | hf⟩
    · rw [heq]
      exact .refl ..
    · rw [heq]
      exact Heap.spares_modifyEntry h fun hown => absurd hown (htarget x hx)
    · rw [heq]
      exact Heap.spares_modifyEntry h fun _ => hf
  · cases op with
    | allocate o => exact Heap.spares_allocate owned h o
    | registerWeak x token =>
      rw [perform, Heap.registerWeak]
      split
      · exact ⟨Nat.le_refl _, fun _ _ => rfl, fun _ e _ he => ⟨e.roots, he, Nat.le_refl _⟩⟩
      · exact .refl ..
    | drain => exact ⟨Nat.le_refl _, fun _ _ => rfl, fun _ e _ he => ⟨e.roots, he, Nat.le_refl _⟩⟩
    | _ => exact absurd rfl hop

end HeapOp

namespace Trie

/-! ## A new trie -/

section Create

variable {h : Heap} {labels : Labels}

/-- A blank node that is pinned is a proper trie without closures. -/
theorem labelled_of_blank {t : Trie} {r : Nat}
    (hroot : h.entry? t.root = some ⟨.node fun _ => none, r⟩)
    (hpos : 0 < r) (hfree : ∀ x p, labels x = some p → x ≠ t.root ∧ p.root ≠ t.root) :
    t.Labelled h (Function.update labels t.root (some (t.nodePlace []))) where
  root := Function.update_self ..
  pinned := ⟨_, hroot, hpos⟩
  node x path hx := by
    rcases of_update hx with ⟨rfl, hp⟩ | hold
    · obtain rfl : path = [] := by simpa [nodePlace] using hp
      have hobject : h.object t.root = .ok (.node fun _ => none) := Heap.object_of_some hroot
      have hlink := Heap.linkAt_of_node hobject
      refine ⟨hlink ▸ hobject, Nat.zero_le _, fun s m _ hm => ?_, fun f hf => ?_⟩
      · simp [hlink] at hm
      · simp [hlink] at hf
    · exact absurd rfl (hfree x _ hold).2
  map m path s hm := by
    rcases of_update hm with ⟨-, hp⟩ | hold
    · simp [nodePlace, mapPlace] at hp
    · exact absurd rfl (hfree m _ hold).2

/-- A new trie is proper, is pinned at a new object, and leads to no closure. -/
theorem create_spec (hB : Below labels h.entries.size) (site : SiteId) (arity : Nat) :
    ∃ h' t, Trie.create site arity h = (.ok t, h') ∧ t = ⟨site, arity, ⟨h.entries.size⟩⟩ ∧
      t.Labelled h' (Function.update labels t.root (some (t.nodePlace []))) ∧
      Below (Function.update labels t.root (some (t.nodePlace []))) h'.entries.size ∧
      Heap.Frame (fun _ => False) h.entries.size h h' ∧ (∀ q, h'.find t.root q = none) ∧
      ∀ x o, h'.object x = .ok o → o.isPart = false → h.object x = .ok o := by
  generalize hh₁ : (h.allocate (.node fun _ => none)).2 = h₁
  have hentry : h₁.entry? ⟨h.entries.size⟩ = some ⟨.node fun _ => none, 0⟩ := by
    rw [← hh₁, Heap.entry?_allocate, if_pos rfl]
  have hin := Heap.contains_of_some hentry
  generalize hh' : h₁.modifyEntry ⟨h.entries.size⟩
    (fun entry => { entry with roots := entry.roots + 1 }) = h'
  have hpinned : h'.entry? ⟨h.entries.size⟩ = some ⟨.node fun _ => none, 1⟩ := by
    rw [← hh', Heap.entry?_modifyEntry, if_pos rfl, hentry]
    rfl
  have hroot : Heap.root ⟨h.entries.size⟩ h₁ = (.ok (), h') := by
    rw [Heap.root, if_pos hin, hh']
  have hsize : h'.entries.size = h.entries.size + 1 := by
    rw [← hh', Heap.size_modifyEntry, ← hh₁, Heap.size_allocate]
  have hframe : Heap.Frame (fun _ => False) h.entries.size h h' := by
    have hsame : ∀ x : ObjectId, x.index < h.entries.size → h'.entry? x = h.entry? x := by
      intro x hx
      have hne : x ≠ ⟨h.entries.size⟩ := fun e => Nat.ne_of_lt hx (Heap.ext_index.1 e)
      rw [← hh', Heap.entry?_modifyEntry, if_neg hne, ← hh₁, Heap.entry?_allocate_of_lt hx]
    refine ⟨by omega, fun x hx _ => hsame x hx, fun x hx => by rw [hsame x hx], fun x hx => ?_⟩
    rw [Heap.contains, hsame x (Heap.lt_of_contains hx)]
    exact hx
  refine ⟨h', ⟨site, arity, ⟨h.entries.size⟩⟩, ?_, rfl, ?_, fun x p hx => ?_, hframe, fun q => ?_,
    fun x o hx ho => ?_⟩
  · have hchange : HeapM.change (Heap.newTuple 3) h =
        ((.ok ⟨h.entries.size⟩, h₁) : Except CacheError ObjectId × Heap) := by
      rw [← hh₁]
      rfl
    rw [create, HeapM.bind_of_ok hchange, HeapM.bind_of_ok (HeapM.mapError_of_ok hroot)]
    rfl
  · refine labelled_of_blank hpinned Nat.one_pos fun x p hx => ⟨?_, ?_⟩ <;> intro e
    · exact Nat.ne_of_lt (hB x p hx).1 (Heap.ext_index.1 e)
    · exact Nat.ne_of_lt (hB x p hx).2 (Heap.ext_index.1 e)
  · rw [hsize]
    rcases of_update hx with ⟨rfl, rfl⟩ | hold
    · exact ⟨Nat.lt_succ_self _, Nat.lt_succ_self _⟩
    · exact ⟨Nat.lt_succ_of_lt (hB x p hold).1, Nat.lt_succ_of_lt (hB x p hold).2⟩
  · exact find_of_blank (Heap.linkAt_of_node (Heap.object_of_some hpinned)) q
  · by_cases hxr : x = ⟨h.entries.size⟩
    · rw [hxr, Heap.object_of_some hpinned] at hx
      simp [← Except.ok.inj hx, Object.isPart_node] at ho
    · rw [Heap.object, ← hh', Heap.entry?_modifyEntry, if_neg hxr, ← hh₁, Heap.entry?_allocate,
        if_neg hxr] at hx
      exact hx

end Create

/-! ## Tries that are left alone -/

theorem Labelled.spare {t : Trie} {h h' : Heap} {labels : Labels} (hL : t.Labelled h labels)
    (hs : h.Spares (t.Member labels) h') :
    t.Labelled h' labels ∧ ∀ x path, labels x = some (t.nodePlace path) → ∀ q,
      h'.find x q = h.find x q := by
  have hobject : ∀ x p, labels x = some p → p.root = t.root → h'.object x = h.object x :=
    fun x p hx hp => hs.object_eq ⟨p, hx, hp⟩ (hL.contains hx hp)
  refine ⟨hL.transfer (fun _ _ _ => Iff.rfl) hobject
    (hs.rooted ⟨_, hL.root, rfl⟩ hL.pinned) hs.mono,
    fun x path hx q => hL.find_transfer hobject hx q⟩

end Trie

end ClosureCache
