/-
Reaching a shared definition in a typed heap.

Everything that the spec of a definition captures is in sight where the definition is
reached, so the key can be built and so can the table of captures, and a function with
this table fits the program.
-/
import ClosureCache.Proofs.Evaluation.Storing
import ClosureCache.Proofs.Key

namespace ClosureCache

open Heap

variable {image : Image} {h : Heap} {env : ObjectId} {s own : ScopeId}

/-- What lies outside of a definition is seen where the definition stands. -/
theorem Heap.SeesAll.outside {node : FunctionNode} (hi : image.Sound)
    (hplaced : node.Placed image.tree s own) (hbody : BoundStatements image.tree own node.body)
    (hs : h.SeesAll image env s node.references) {r : Reference} (hr : r ∈ node.references)
    {a : ScopeId} (ha : r.home? image.tree = some a) (hout : own ∉ image.tree.outward a) :
    h.Sees image env r := by
  obtain ⟨sc, hown, -, hparent, -⟩ := hplaced.opened
  have hwithin : r.Within image.tree own := by
    rw [FunctionNode.references_eq] at hr
    exact within_statements hi.proper hown node.body hbody r hr
  refine hs r hr a ha ?_
  have hin := hwithin.mem_outward hi.proper ha hout
  rcases (hi.proper.mem_outward hown).1 hin with rfl | ⟨p, hp, hin⟩
  · exact absurd (image.tree.self_mem_outward a) hout
  · rw [hparent] at hp
    exact Option.some.inj hp ▸ hin

/-! ## Keys -/

theorem Except.exists_mapM_eq_ok {ε α β : Type} {f : α → Except ε β} {P : β → Prop} {l : List α}
    (hl : ∀ a ∈ l, ∃ b, f a = .ok b ∧ P b) : ∃ bs, l.mapM f = .ok bs ∧ ∀ b ∈ bs, P b := by
  induction l with
  | nil => exact ⟨[], rfl, fun b hb => absurd hb List.not_mem_nil⟩
  | cons a l ih =>
    obtain ⟨b, hb, hP⟩ := hl a List.mem_cons_self
    obtain ⟨bs, hbs, hall⟩ := ih fun a' ha' => hl a' (List.mem_cons_of_mem _ ha')
    refine ⟨b :: bs, ?_, fun c hc => ?_⟩
    · rw [List.mapM_cons, hb, hbs]
      rfl
    · rcases List.mem_cons.1 hc with rfl | hc
      · exact hP
      · exact hall c hc

theorem KeyComponent.object?_ofValue (v : Value) : (ofValue v).object? = v.object? := by
  cases v <;> rfl

/-- What is captured in sight: a binding declared so, or a `this`. -/
inductive Capture.InSight (image : Image) (h : Heap) (env : ObjectId) (c : Capture) : Prop
  | binding {b : BindingId} {d : Binding} : image.tree.binding? b = some d → c.Takes b d →
    h.Sees image env (.binding b) → InSight image h env c
  | this : c.binding = none → c.mode = .thisValue → h.Sees image env (.this c.source) →
    InSight image h env c

theorem Capture.Takes.binding_eq {c : Capture} {b : BindingId} {d : Binding} (hc : c.Takes b d) :
    c.binding = some b := by
  cases hc with
  | cell hb => exact hb
  | value hb => exact hb

theorem Capture.Takes.mutable_eq {c : Capture} {b : BindingId} {d : Binding} (hc : c.Takes b d)
    (hslot : d.storage = .slot) : d.mutable = false := by
  cases hc with
  | cell _ hcell =>
    rw [hslot] at hcell
    cases hcell
  | value _ _ _ hmutable => exact hmutable

/-- The component of a capture in sight names nothing that is not in the heap. -/
theorem Capture.InSight.component (ht : h.Typed image) (hi : image.Sound) {c : Capture}
    (hc : c.InSight image h env) : ∃ k, c.component (h.liveScope image.tree env) = .ok k ∧
      ∀ id, k.object? = some id → h.contains id = true := by
  rw [Capture.component]
  cases hc with
  | @binding b d hb htakes hs =>
    obtain ⟨location, hlocate, hl⟩ := ht.locate hi hb hs
    obtain ⟨raw, hraw, hlive, hadmits⟩ := hl.contents ht hi hb
    have hslot : (h.liveScope image.tree env).slot b = .ok raw := by
      rw [liveScope]
      dsimp only
      rw [hlocate]
      dsimp only
      rw [hraw]
      rfl
    cases htakes with
    | cell hbinding hstorage hmode =>
      obtain ⟨x, contents, rfl, hx⟩ := hadmits hstorage
      have hcell : (h.liveScope image.tree env).isCell x = true := by
        rw [liveScope]
        dsimp only
        rw [cellContents_eq_ok.1 hx]
      refine ⟨.cellRef x, ?_, fun id hid => ?_⟩
      · rw [hmode, hbinding]
        dsimp only
        rw [hslot]
        dsimp only [Except.bind]
        rw [componentOfCell, if_pos hcell]
      · obtain rfl := Option.some.inj hid
        exact contains_of_object (cellContents_eq_ok.1 hx)
    | value hbinding hstorage hmode =>
      refine ⟨componentOfSlot raw, ?_, fun id hid => ?_⟩
      · rw [hmode, hbinding]
        dsimp only
        rw [hslot]
        rfl
      · cases raw with
        | none => cases hid
        | some v =>
          rw [componentOfSlot, KeyComponent.object?_ofValue] at hid
          exact hlive id (Value.objectOf_some.2 hid)
  | this hbinding hmode hs =>
    obtain ⟨v, -, hv, -, -, hlive⟩ := ht.locateThis hs
    refine ⟨.ofValue v, ?_, fun id hid => ?_⟩
    · have hthis : (h.liveScope image.tree env).thisValue c.source = .ok v := by
        rw [liveScope]
        dsimp only
        rw [hv]
      rw [hmode]
      dsimp only
      rw [hthis]
      rfl
    · rw [KeyComponent.object?_ofValue] at hid
      exact hlive id hid

/-- The key of a definition whose captures are in sight names nothing that is not in the
heap. -/
theorem CaptureSpec.buildKey_spec (ht : h.Typed image) (hi : image.Sound) {spec : CaptureSpec}
    (hspec : ∀ c ∈ spec.captures, c.InSight image h env) :
    ∃ key, spec.buildKey (h.liveScope image.tree env) = .ok key ∧
      ∀ id, .object id ∈ key.path → h.contains id = true := by
  obtain ⟨ks, hks, hall⟩ := Except.exists_mapM_eq_ok fun c hc => (hspec c hc).component ht hi
  refine ⟨⟨ks⟩, by rw [CaptureSpec.buildKey, hks]; rfl, fun id hid => ?_⟩
  obtain ⟨k, hk, hid⟩ := List.mem_filterMap.1 (Key.object_mem_path.1 hid)
  exact hall k hk id hid

/-! ## Tables of captures -/

/-- A capture of a binding in sight fits the binding, and so it refers to nothing that is
not in the heap. -/
theorem Heap.Typed.captureBinding (ht : h.Typed image) (hi : image.Sound) {b : BindingId}
    {d : Binding} (hb : image.tree.binding? b = some d) (hs : h.Sees image env (.binding b)) :
    ∃ slot, h.captureBinding image.tree env b = .ok slot ∧ slot.Fits h d ∧
      ∀ y ∈ slot.refs, h.contains y = true := by
  obtain ⟨location, hlocate, hl⟩ := ht.locate hi hb hs
  have hrun : h.captureBinding image.tree env b = h.captureSlot d location := by
    rw [Heap.captureBinding, ScopeTree.binding_eq_ok.2 hb, hlocate]
    rfl
  rw [hrun]
  cases hl with
  | @slot x e he hscope =>
    obtain ⟨raw, hraw, -, hlive, hadmits⟩ := ht.slotAt hi hb he hscope
    rw [captureSlot, hraw]
    dsimp only
    split
    · exact ⟨.value raw, rfl, hadmits, hlive⟩
    · refine ⟨.binding x d.slot, rfl, ⟨e, he, hscope, rfl⟩, fun y hy => ?_⟩
      obtain rfl := List.mem_singleton.1 hy
      exact contains_of_environment he
  | @captured g f i bindings this b' slot hg hclosure hget hslot _ =>
    refine ⟨slot, ?_, hslot, fun y hy => ?_⟩
    · rw [captureSlot, capturedSlot, hg]
      dsimp only
      rw [hclosure]
      dsimp only
      rw [hget]
      rfl
    · refine (ht.function hg).live y ?_
      rw [Object.strongRefs, hclosure]
      exact List.mem_append_left _ (List.mem_flatMap.2 ⟨_, List.mem_of_getElem? hget, hy⟩)

/-- What a table of captures is when all captures are in sight. -/
structure Tabulates (image : Image) (h : Heap) (captures : List Capture) (this₀ : Option Value)
    (bindings : List (BindingId × CapturedSlot)) (this : Option Value) : Prop where
  entries : ∀ b slot, (b, slot) ∈ bindings → ∃ d, image.tree.binding? b = some d ∧
    slot.Fits h d ∧ (d.storage = .slot → d.mutable = false)
  held : ∀ c ∈ captures, ∀ b, c.binding = some b → ∃ slot, (b, slot) ∈ bindings
  supplied : this₀.isSome = true ∨ (∃ c ∈ captures, c.binding = none) → ∃ v, this = some v
  live : ∀ y ∈ (Closure.captured bindings this).refs, h.contains y = true

theorem Heap.Typed.captureTable (ht : h.Typed image) (hi : image.Sound) {captures : List Capture}
    (hcaptures : ∀ c ∈ captures, c.InSight image h env) (this₀ : Option Value)
    (hthis₀ : ∀ y ∈ objectOf this₀, h.contains y = true) :
    ∃ bindings this, h.captureTable image.tree env captures this₀ = .ok (bindings, this) ∧
      Tabulates image h captures this₀ bindings this := by
  induction captures generalizing this₀ with
  | nil =>
    refine ⟨[], this₀, rfl, fun b slot hmem => absurd hmem List.not_mem_nil,
      fun c hc => absurd hc List.not_mem_nil, fun hsome => ?_, hthis₀⟩
    rcases hsome with hsome | ⟨c, hc, -⟩
    · exact Option.isSome_iff_exists.1 hsome
    · exact absurd hc List.not_mem_nil
  | cons c rest ih =>
    have hrest : ∀ c ∈ rest, c.InSight image h env := fun c hc =>
      hcaptures c (List.mem_cons_of_mem _ hc)
    rw [Heap.captureTable]
    cases hcaptures c List.mem_cons_self with
    | @binding b d hb htakes hs =>
      obtain ⟨slot, hslot, hfits, hlive⟩ := ht.captureBinding hi hb hs
      obtain ⟨bindings, this, hrun, htable⟩ := ih hrest this₀ hthis₀
      rw [htakes.binding_eq]
      refine ⟨(b, slot) :: bindings, this, ?_, fun b' slot' hmem => ?_, fun c' hc' b' hb' => ?_,
        fun hsome => htable.supplied ?_, fun y hy => ?_⟩
      · dsimp only
        rw [hslot]
        dsimp only [bind, Except.bind]
        rw [hrun]
        rfl
      · rcases List.mem_cons.1 hmem with heq | hmem
        · obtain ⟨rfl, rfl⟩ := Prod.mk.inj heq
          exact ⟨d, hb, hfits, htakes.mutable_eq⟩
        · exact htable.entries b' slot' hmem
      · rcases List.mem_cons.1 hc' with rfl | hc'
        · rw [htakes.binding_eq] at hb'
          obtain rfl := Option.some.inj hb'
          exact ⟨slot, List.mem_cons_self⟩
        · obtain ⟨slot', hmem⟩ := htable.held c' hc' b' hb'
          exact ⟨slot', List.mem_cons_of_mem _ hmem⟩
      · refine hsome.imp_right fun ⟨c', hc', hnone⟩ => ⟨c', ?_, hnone⟩
        refine (List.mem_cons.1 hc').resolve_left ?_
        rintro rfl
        rw [htakes.binding_eq] at hnone
        cases hnone
      · rcases List.mem_append.1 hy with hy | hy
        · obtain ⟨entry, hentry, hy⟩ := List.mem_flatMap.1 hy
          rcases List.mem_cons.1 hentry with rfl | hentry
          · exact hlive y hy
          · exact htable.live y (List.mem_append_left _ (List.mem_flatMap.2 ⟨entry, hentry, hy⟩))
        · exact htable.live y (List.mem_append_right _ hy)
    | this hbinding hmode hs =>
      obtain ⟨v, -, hv, -, -, hlive⟩ := ht.locateThis hs
      obtain ⟨bindings, this, hrun, htable⟩ := ih hrest (some v) (Value.live_iff.1 hlive)
      rw [hbinding]
      refine ⟨bindings, this, by dsimp only; rw [hv]; exact hrun, htable.entries,
        fun c' hc' b' hb' => ?_, fun _ => htable.supplied (.inl rfl), htable.live⟩
      rcases List.mem_cons.1 hc' with rfl | hc'
      · rw [hbinding] at hb'
        cases hb'
      · exact htable.held c' hc' b' hb'

/-! ## Shared functions -/

/-- The captures of a definition are in sight where it is reached. -/
theorem CaptureSpec.Covers.inSight {node : FunctionNode} {spec : CaptureSpec} (hi : image.Sound)
    (hcovers : spec.Covers image.tree own node.references) (hplaced : node.Placed image.tree s own)
    (hbody : BoundStatements image.tree own node.body)
    (hs : h.SeesAll image env s node.references) :
    ∀ c ∈ spec.captures, c.InSight image h env := by
  intro c hc
  rcases hcovers.sound c hc with ⟨b, d, hr, hb, hout, htakes⟩ | ⟨hbinding, hmode, hr, hout⟩
  · exact .binding hb htakes (hs.outside hi hplaced hbody hr
      (by rw [Reference.home?, hb]; rfl) hout)
  · exact .this hbinding hmode (hs.outside hi hplaced hbody hr rfl hout)

/-- Making the closure of a shared definition succeeds where everything outside of it is
in sight, and the function fits. -/
theorem Heap.Typed.captureClosure (ht : h.Typed image) (hi : image.Sound) {node : FunctionNode}
    {site : SiteId} {spec : CaptureSpec} (hspec : image.analysis.get? site = some (.memoized spec))
    (hfound : image.functions.get? site = some node) (hplaced : node.Placed image.tree s own)
    (hbody : BoundStatements image.tree own node.body)
    (hs : h.SeesAll image env s node.references) :
    ∃ closure, h.captureClosure image.tree env spec = .ok closure ∧
      (∀ y ∈ closure.refs, h.contains y = true) ∧
      FunctionObject.Fits image h ⟨site, closure⟩ := by
  have hcovers := hi.covers hfound hplaced hbody hspec
  obtain ⟨bindings, this, hrun, htable⟩ := ht.captureTable hi
    (hcovers.inSight hi hplaced hbody hs) none fun y hy => absurd hy List.not_mem_nil
  refine ⟨.captured bindings this, by rw [Heap.captureClosure, hrun]; rfl, htable.live, ?_⟩
  refine .captured ⟨hfound, hplaced, hbody⟩ rfl htable.entries fun r hr a ha hout => ?_
  cases r with
  | binding b =>
    obtain ⟨d, hb, rfl⟩ := Option.map_eq_some_iff.1 ha
    obtain ⟨c, hc, hcb⟩ := hcovers.bindings b d hr hb hout
    obtain ⟨slot, hmem⟩ := htable.held c hc b hcb
    exact .binding rfl hmem
  | this p =>
    obtain rfl := Option.some.inj ha
    obtain ⟨⟨c, hc, hnone⟩, hsource⟩ := hcovers.this p hr hout
    obtain ⟨v, rfl⟩ := htable.supplied (.inr ⟨c, hc, hnone⟩)
    rw [← hsource c hc hnone]
    exact .this rfl hspec hc hnone
  | dynamic => cases ha

end ClosureCache
