/-
Sound machines between evaluations.

Loading makes a sound machine.  Rooting changes no object, and a collection keeps every
object that is reachable as it is, with everything that can be seen through it, so that
the machine stays sound as long as its globals stay pinned.
-/
import ClosureCache.Proofs.Evaluation.Soundness

namespace ClosureCache

open Heap

/-! ## Roots -/

section Roots

variable {image : Image} {m m' : Machine}

theorem Heap.root_of_contains {h : Heap} {x : ObjectId} (hx : h.contains x = true) :
    ∃ h', Heap.root x h = (.ok (), h') ∧ (∀ y, h'.object y = h.object y) ∧
      (∃ e, h'.entry? x = some e ∧ 0 < e.roots) ∧
      ∀ y, y ≠ x → h'.entry? y = h.entry? y := by
  obtain ⟨e, he⟩ := contains_iff.1 hx
  refine ⟨(Heap.root x h).2, ?_, object_root h x, ?_, fun y hyx => ?_⟩
  · rw [root, if_pos hx]
  · rw [root, if_pos hx]
    dsimp only
    rw [entry?_modifyEntry, if_pos rfl, he]
    exact ⟨_, rfl, Nat.succ_pos _⟩
  · rw [root, if_pos hx]
    dsimp only
    rw [entry?_modifyEntry, if_neg hyx]

theorem Heap.entry?_unroot_of_ne {h : Heap} {x y : ObjectId} (hyx : y ≠ x) :
    Heap.entry? (Heap.unroot x h).2 y = h.entry? y := by
  rw [unroot]
  split
  · rfl
  · split
    · rfl
    · rw [entry?_modifyEntry, if_neg hyx]

theorem Heap.rooted_root {h : Heap} {x y : ObjectId} {e : HeapEntry} (he : h.entry? y = some e)
    (hpos : 0 < e.roots) : ∃ e', Heap.entry? (Heap.root x h).2 y = some e' ∧ 0 < e'.roots := by
  rw [root]
  split
  · rw [entry?_modifyEntry]
    split
    · next hyx =>
      subst hyx
      rw [he]
      exact ⟨_, rfl, Nat.succ_pos _⟩
    · exact ⟨e, he, hpos⟩
  · exact ⟨e, he, hpos⟩

/-- A machine stays sound where no object changes. -/
theorem Machine.Sound.of_object_eq (hm : m.Sound image)
    (horderly : ∃ held past labels, Orderly image held past m' labels)
    (heq : ∀ x, m'.heap.object x = m.heap.object x)
    (hpinned : ∀ x, x = image.globalEnvironment ∨ x = image.globalObject →
      ∃ e, m'.heap.entry? x = some e ∧ 0 < e.roots) : m'.Sound image := by
  have hp : Persists (fun _ => True) m.heap m'.heap := .of_object_eq fun x _ => heq x
  refine ⟨hm.typed.step hp fun x o hx _ => .inl (heq x ▸ hx), horderly, ?_, hpinned⟩
  obtain ⟨e, he, hscope⟩ := hm.environment
  obtain ⟨e', he', hscope', -⟩ := hp.environment _ e trivial he
  exact ⟨e', he', hscope'.trans hscope⟩

theorem Machine.Sound.congr (hm : m.Sound image) (hheap : m'.heap = m.heap)
    (hregistry : m'.registry = m.registry) : m'.Sound image := by
  refine (hm.step hregistry ?_ ?_ ?_).sound
  · rw [hheap]
    exact .refl _ _
  · rw [hheap]
    exact hm.typed
  · rw [hheap]
    exact .refl _

end Roots

/-! ## Collections -/

section Collection

variable {image : Image} {m m' : Machine} {h h' : Heap} {keep : MarkSet}

/-- An object that is no part of a trie is as it was when it is kept. -/
theorem Heap.Collected.object_eq (hc : Collected h h' keep) {x : ObjectId} {o : Object}
    (hx : h.Reachable x) (ho : h.object x = .ok o) (hpart : o.isPart = false) :
    h'.object x = .ok o := by
  rw [Trie.object_of_kept hc ((hc.keep_iff x).2 hx) ho]
  cases o with
  | weakMap => cases hpart
  | _ => rfl

theorem Heap.Collected.persists (hc : Collected h h' keep) : Persists h.Reachable h h' where
  contains hx _ := (hc.contains_iff_reachable _).2 hx
  environment _ e hx he :=
    ⟨e, environment_eq_ok.2 (hc.object_eq hx (environment_eq_ok.1 he) rfl), rfl, rfl, rfl⟩
  function _ _ hx hf := function_eq_ok.2 (hc.object_eq hx (function_eq_ok.1 hf) rfl)
  cell _ c hx he := ⟨c, cellContents_eq_ok.2 (hc.object_eq hx (cellContents_eq_ok.1 he) rfl)⟩

/-- In a typed heap nothing reachable refers to what is not. -/
theorem Heap.Typed.closed_reachable (ht : h.Typed image) : Closed h.Reachable h := by
  intro x o hx ho hpart y hy
  obtain ⟨e, he, rfl⟩ := entry?_of_object ho
  refine .strong hx ?_ ((ht x _ ho hpart).live y hy)
  rwa [strongRefs_of_some he]

/-- An object that is left and no part of a trie is as it was. -/
theorem Heap.Collected.object_of_left (hc : Collected h h' keep) {x : ObjectId} {o : Object}
    (hx : h'.object x = .ok o) (hpart : o.isPart = false) : h.object x = .ok o := by
  have hreach := (hc.contains_iff_reachable x).1 (contains_of_object hx)
  obtain ⟨e, he⟩ := contains_iff.1 hreach.contains
  have hold := object_of_some he
  have hsame : e.object = o := by
    rw [Trie.object_of_kept hc ((hc.keep_iff x).2 hreach) hold] at hx
    obtain rfl := Except.ok.inj hx
    revert hpart
    cases e.object with
    | weakMap => exact fun hpart => by cases hpart
    | _ => exact fun _ => rfl
  rw [hold, hsame]

theorem Heap.Typed.collect (ht : h.Typed image) (hc : Collected h h' keep) : h'.Typed image := by
  intro x o hx hpart
  have hreach := (hc.contains_iff_reachable x).1 (contains_of_object hx)
  have hold := hc.object_of_left hx hpart
  have hclosed := ht.closed_reachable
  exact (ht x o hold hpart).persists hc.persists hclosed fun y hy =>
    hclosed x o hreach hold hpart y hy

/-- A collection keeps a machine sound, with compaction after it or without. -/
theorem Machine.Sound.collectGarbage (hm : m.Sound image) :
    (EvalM.collectGarbage image m).2.Sound image := by
  obtain ⟨held, past, labels, ho⟩ := hm.orderly
  obtain ⟨labels', ho'⟩ := ho.collectGarbage
  rcases EvalM.collectGarbage_spec image m rfl with ⟨hheap, hregistry, -⟩ | ⟨keep, h, hc, hend⟩
  · exact hm.congr hheap hregistry
  · have hpinned : ∀ x, x = image.globalEnvironment ∨ x = image.globalObject →
        ∃ e, h.entry? x = some e ∧ 0 < e.roots := fun x hx => by
      obtain ⟨e, he, hpos⟩ := hm.pinned x hx
      exact ⟨_, hc.entry?_eq_some he (.root he hpos), hpos⟩
    obtain ⟨e, he, hscope⟩ := hm.environment
    obtain ⟨e₀, he₀, hpos⟩ := hm.pinned _ (.inl rfl)
    obtain ⟨e₁, he₁, hscope₁, -⟩ := hc.persists.environment _ e (.root he₀ hpos) he
    have ht := hm.typed.collect hc
    -- what compaction does afterwards makes nothing new
    obtain ⟨hp, ht'⟩ : Continues h (EvalM.collectGarbage image m).2.heap ∧
        (EvalM.collectGarbage image m).2.heap.Typed image := by
      rcases hend with ⟨hheap, -⟩ | hcompact
      · rw [hheap]
        exact ⟨.refl h, ht⟩
      · obtain ⟨hP, -⟩ := ho.proper.collect hc
        obtain ⟨n, r', h', hrun, -, hext, -⟩ := hP.compactAll_spec (fun _ => False) ho.fits
        rw [hrun] at hcompact
        obtain ⟨-, hheap⟩ := Prod.mk.inj hcompact
        rw [← hheap]
        have hp := hext.continues hP
        refine ⟨hp, ht.step hp.persists fun x o hx hpart => .inl ?_⟩
        rcases hext.plain x o hx hpart with hold | ⟨-, hmade⟩
        · exact hold
        · exact hmade.elim
    obtain ⟨e₂, he₂, hscope₂, -⟩ := hp.persists.environment _ e₁ trivial he₁
    refine ⟨ht', ⟨held, past, labels', ho'⟩, ⟨e₂, he₂, hscope₂.trans (hscope₁.trans hscope)⟩,
      fun x hx => ?_⟩
    obtain ⟨e, he, hpos⟩ := hpinned x hx
    obtain ⟨e', he', hroots⟩ := hp.roots x e he
    exact ⟨e', he', hroots ▸ hpos⟩

end Collection

/-! ## Loading -/

section Loading

variable {image : Image}

theorem Heap.typed_empty (image : Image) : Heap.Typed image .empty := fun x o hx => by
  have hnone : Heap.entry? .empty x = none := entry?_none_of_size_le (Nat.zero_le _)
  rw [object, hnone] at hx
  cases hx

/-- The global scope lies outermost. -/
theorem Image.Sound.kind_global (hi : image.Sound) {sc : Scope}
    (hsc : image.tree.scope? ScopeTree.global = some sc) : sc.kind = .global := by
  refine hi.proper.outermost _ sc hsc ?_
  cases hp : sc.parent with
  | none => rfl
  | some p => exact absurd (hi.proper.parent_lt _ sc p hsc hp) (Nat.not_lt_zero _)

/-- What setting up the globals makes fits the program, and the globals are pinned. -/
theorem setUpGlobals_spec (hi : image.Sound) {object environment : ObjectId} {h : Heap}
    (hrun : setUpGlobals image.tree .empty = (.ok (object, environment), h)) :
    h.Typed image ∧ (∃ e, h.environment environment = .ok e ∧ e.scope = ScopeTree.global) ∧
      ∀ x, x = environment ∨ x = object → ∃ e, h.entry? x = some e ∧ 0 < e.roots := by
  rw [setUpGlobals] at hrun
  obtain ⟨sc, hsc⟩ := hi.opened
  -- the global object
  have hp₁ := continues_allocate .empty (.ordinary ∅)
  have ht₁ : Heap.Typed image (Heap.empty.allocate (.ordinary ∅)).2 :=
    (typed_empty image).allocate fun _ => Object.fits_of_live (fun y hy => by cases hy)
      (fun e he => by cases he) fun f hf => by cases hf
  have hobject := object_allocate_self .empty (.ordinary ∅)
  obtain ⟨h₂, hroot₂, heq₂, hpinned₂, -⟩ := root_of_contains (contains_of_object hobject)
  have ht₂ : h₂.Typed image := by
    have hp₂ : Persists (fun _ => True) _ h₂ := .of_object_eq fun x _ => heq₂ x
    exact ht₁.step hp₂ fun x o hx _ => .inl (heq₂ x ▸ hx)
  rw [HeapM.bind_of_ok (HeapM.change_apply _ _), allocate_fst,
    HeapM.bind_of_ok (HeapM.mapError_of_ok hroot₂)] at hrun
  -- the global environment
  have houter : ∀ y ∈ Enclosure.outermost.refs, h₂.contains y = true := fun y hy => by cases hy
  have hthis : ∀ y ∈ objectOf (some .undefined), h₂.contains y = true := fun y hy => by cases hy
  obtain ⟨env, e, h₃, hnew, ht₃, hp₃, he, hscope, -⟩ :=
    newEnvironment_spec ht₂ hi hsc houter hthis (fun _ => rfl) fun hblock => by
      rw [hi.kind_global hsc] at hblock
      cases hblock
  obtain ⟨h₄, hroot₄, heq₄, hpinned₄, hkeep₄⟩ := root_of_contains (contains_of_environment he)
  rw [HeapM.bind_of_ok hnew, HeapM.bind_of_ok (HeapM.mapError_of_ok hroot₄),
    HeapM.pure_apply] at hrun
  obtain ⟨hresult, rfl⟩ := Prod.mk.inj hrun
  obtain ⟨rfl, rfl⟩ := Prod.mk.inj (Except.ok.inj hresult)
  have hp₄ : Persists (fun _ => True) h₃ h₄ := .of_object_eq fun x _ => heq₄ x
  refine ⟨ht₃.step hp₄ fun x o hx _ => .inl (heq₄ x ▸ hx), ?_, fun x hx => ?_⟩
  · obtain ⟨e', he', hscope', -⟩ := hp₄.environment _ e trivial he
    exact ⟨e', he', hscope'.trans hscope⟩
  · by_cases hxe : x = env
    · exact hxe ▸ hpinned₄
    · obtain rfl := hx.resolve_left hxe
      obtain ⟨e₂, he₂, hpos⟩ := hpinned₂
      obtain ⟨e₃, he₃, hroots⟩ := hp₃.roots _ e₂ he₂
      exact ⟨e₃, by rw [hkeep₄ _ hxe, he₃], hroots ▸ hpos⟩

/-- Loading a plain program makes a sound machine. -/
theorem Session.Loaded.machine_sound {p : Program} {config : Config} {s : Session}
    (hload : Session.load p config = .ok s) (hplain : p.Plain) :
    s.image.Sound ∧ s.machine.Sound s.image := by
  obtain ⟨resolved, h⟩ := Session.loaded hload
  have hi := h.sound hplain
  have hglobals := h.globals
  rw [← h.tree] at hglobals
  obtain ⟨ht, henvironment, hpinned⟩ := setUpGlobals_spec hi hglobals
  exact ⟨hi, ht, ⟨_, _, _, orderly_of_load hload⟩, henvironment, hpinned⟩

end Loading

end ClosureCache
