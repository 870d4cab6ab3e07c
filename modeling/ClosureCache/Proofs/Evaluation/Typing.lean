/-
Heaps that fit a program.

`Typed` is what evaluation keeps up.  Nothing in the heap refers to what is no longer
there.  An environment has the slots of its scope, with a cell where a binding has one,
and lies around as the scope does.  A function sees through its environment whatever its
body refers to outside of it, or holds it among its captures.
-/
import ClosureCache.Proofs.Evaluation.Lookup

namespace ClosureCache

/-! ## Values and slots -/

/-- A value refers to nothing that is not in the heap. -/
def Value.Live (h : Heap) (v : Value) : Prop := ∀ id, v.object? = some id → h.contains id = true

/-- What is stored for a binding with a cell is a cell. -/
def Binding.Admits (d : Binding) (h : Heap) (raw : Option Value) : Prop :=
  d.storage = .cell → ∃ c contents, raw = some (.object c) ∧ h.cellContents c = .ok contents

/-- A capture is of a value of the binding, or of the slot that the binding has in an
environment. -/
def CapturedSlot.Fits (h : Heap) (d : Binding) : CapturedSlot → Prop
  | .value raw => d.Admits h raw
  | .binding env index => ∃ e, h.environment env = .ok e ∧ e.scope = d.scope ∧ index = d.slot

/-! ## Objects -/

structure Environment.Fits (image : Image) (h : Heap) (x : ObjectId) (e : Environment) :
    Prop where
  scope : ∃ sc, image.tree.scope? e.scope = some sc ∧ e.slots.size = sc.bindings.size ∧
    (sc.providesThis = true → e.this.isSome = true) ∧
    (sc.kind = .block → ∃ y e', e.outer = .environment y ∧ h.environment y = .ok e' ∧
      sc.parent = some e'.scope)
  descends : ∀ y, e.outer = .environment y → y.index < x.index
  admits : ∀ b d raw, image.tree.binding? b = some d → d.scope = e.scope →
    e.slots[d.slot]? = some raw → d.Admits h raw

/-- Everything in a list that lies outwards of a scope is seen from an environment. -/
def Heap.SeesAll (image : Image) (h : Heap) (env : ObjectId) (s : ScopeId)
    (references : List Reference) : Prop :=
  ∀ r ∈ references, ∀ a, r.home? image.tree = some a → a ∈ image.tree.outward s →
    h.Sees image env r

/-- The definition of a function, which stands in the scope `s` and has the scope `own`. -/
structure FunctionObject.DefinedBy (image : Image) (f : FunctionObject) (node : FunctionNode)
    (s own : ScopeId) : Prop where
  found : image.functions.get? f.site = some node
  placed : node.Placed image.tree s own
  body : BoundStatements image.tree own node.body

/-- A function sees or holds what its body refers to outside of it, and what it holds
without a cell is never assigned. -/
inductive FunctionObject.Fits (image : Image) (h : Heap) (f : FunctionObject) : Prop
  | chain {node : FunctionNode} {own : ScopeId} {env : ObjectId} {e : Environment} :
    f.DefinedBy image node e.scope own → f.closure = .chain env → h.environment env = .ok e →
    h.SeesAll image env e.scope node.references → Fits image h f
  | captured {node : FunctionNode} {s own : ScopeId} {bindings : List (BindingId × CapturedSlot)}
    {this : Option Value} : f.DefinedBy image node s own → f.closure = .captured bindings this →
    (∀ b slot, (b, slot) ∈ bindings → ∃ d, image.tree.binding? b = some d ∧ slot.Fits h d ∧
      (d.storage = .slot → d.mutable = false)) →
    (∀ r ∈ node.references, ∀ a, r.home? image.tree = some a → own ∉ image.tree.outward a →
      f.Holds image r) → Fits image h f

structure Object.Fits (image : Image) (h : Heap) (x : ObjectId) (o : Object) : Prop where
  live : ∀ y ∈ o.strongRefs, h.contains y = true
  environment : ∀ e, o = .environment e → e.Fits image h x
  function : ∀ f, o = .function f → f.Fits image h

/-- All objects of a heap but the parts of tries fit the program. -/
def Heap.Typed (image : Image) (h : Heap) : Prop :=
  ∀ x o, h.object x = .ok o → o.isPart = false → o.Fits image h x

/-! ## What persists -/

section Persists

variable {image : Image} {keep : ObjectId → Prop} {h h' : Heap}

open Heap

theorem Value.Live.persists {v : Value} (hp : Persists (fun _ => True) h h') (hv : v.Live h) :
    v.Live h' := fun id hid => hp.contains trivial (hv id hid)

theorem Binding.Admits.persists {d : Binding} {raw : Option Value} (hp : Persists keep h h')
    (hd : d.Admits h raw) (hrefs : ∀ y ∈ objectOf raw, keep y) : d.Admits h' raw := by
  intro hcell
  obtain ⟨c, contents, rfl, hc⟩ := hd hcell
  obtain ⟨contents', hc'⟩ := hp.cell c contents (hrefs c (List.mem_singleton.2 rfl)) hc
  exact ⟨c, contents', rfl, hc'⟩

theorem CapturedSlot.Fits.persists {d : Binding} {slot : CapturedSlot} (hp : Persists keep h h')
    (hs : slot.Fits h d) (hrefs : ∀ y ∈ slot.refs, keep y) : slot.Fits h' d := by
  cases slot with
  | value raw => exact Binding.Admits.persists hp hs hrefs
  | binding env index =>
    obtain ⟨e, he, hscope, hindex⟩ := hs
    obtain ⟨e', he', hscope', -⟩ := hp.environment env e (hrefs env (List.mem_singleton.2 rfl)) he
    exact ⟨e', he', hscope'.trans hscope, hindex⟩

theorem mem_refs_of_slot {e : Environment} {i : Nat} {raw : Option Value}
    (hi : e.slots[i]? = some raw) {y : ObjectId} (hy : y ∈ objectOf raw) :
    y ∈ (Object.environment e).strongRefs := by
  refine List.mem_append_left _ (List.mem_append_right _ (List.mem_flatMap.2 ⟨raw, ?_, hy⟩))
  exact Array.mem_toList_iff.2 (Array.mem_of_getElem? hi)

theorem Environment.Fits.persists {x : ObjectId} {e : Environment} (hp : Persists keep h h')
    (he : e.Fits image h x) (hrefs : ∀ y ∈ (Object.environment e).strongRefs, keep y) :
    e.Fits image h' x := by
  obtain ⟨sc, hsc, hsize, hthis, hblock⟩ := he.scope
  refine ⟨⟨sc, hsc, hsize, hthis, fun hkind => ?_⟩, he.descends, fun b d raw hb hscope hraw => ?_⟩
  · obtain ⟨y, e', houter, hy, hparent⟩ := hblock hkind
    have hkeep := hrefs y (mem_refs_of_outer (by rw [houter]; exact List.mem_singleton.2 rfl))
    obtain ⟨e'', he'', hscope, -⟩ := hp.environment y e' hkeep hy
    exact ⟨y, e'', houter, he'', by rw [hparent, hscope]⟩
  · exact (he.admits b d raw hb hscope hraw).persists hp
      fun y hy => hrefs y (mem_refs_of_slot hraw hy)

theorem Heap.SeesAll.persists (hp : Persists keep h h') (hc : Closed keep h) {env : ObjectId}
    {s : ScopeId} {references : List Reference} (hs : h.SeesAll image env s references)
    (henv : keep env) : h'.SeesAll image env s references :=
  fun r hr a ha hin => (hs r hr a ha hin).persists hp hc henv

theorem FunctionObject.Fits.persists {f : FunctionObject} (hp : Persists keep h h')
    (hc : Closed keep h) (hf : f.Fits image h)
    (hrefs : ∀ y ∈ (Object.function f).strongRefs, keep y) : f.Fits image h' := by
  cases hf with
  | @chain node own env e hdef hclosure he hs =>
    have henv : keep env := hrefs env (by
      rw [Object.strongRefs, hclosure]
      exact List.mem_singleton.2 rfl)
    obtain ⟨e', he', hscope, -⟩ := hp.environment env e henv he
    rw [← hscope] at hdef hs
    exact .chain hdef hclosure he' (hs.persists hp hc henv)
  | @captured node s own bindings this hdef hclosure hslots hholds =>
    refine .captured hdef hclosure (fun b slot hmem => ?_) hholds
    obtain ⟨d, hd, hfits, hmutable⟩ := hslots b slot hmem
    refine ⟨d, hd, hfits.persists hp fun y hy => hrefs y ?_, hmutable⟩
    rw [Object.strongRefs, hclosure]
    exact List.mem_append_left _ (List.mem_flatMap.2 ⟨_, hmem, hy⟩)

theorem Object.Fits.persists {x : ObjectId} {o : Object} (hp : Persists keep h h')
    (hc : Closed keep h) (ho : o.Fits image h x) (hrefs : ∀ y ∈ o.strongRefs, keep y) :
    o.Fits image h' x where
  live y hy := hp.contains (hrefs y hy) (ho.live y hy)
  environment e he := by
    subst he
    exact (ho.environment e rfl).persists hp hrefs
  function f hf := by
    subst hf
    exact (ho.function f rfl).persists hp hc hrefs

/-- A heap stays typed if nothing is lost and every object that is not an old one fits. -/
theorem Heap.Typed.step (ht : h.Typed image) (hp : Persists (fun _ => True) h h')
    (hnew : ∀ x o, h'.object x = .ok o → o.isPart = false →
      h.object x = .ok o ∨ o.Fits image h' x) : h'.Typed image := by
  intro x o hx ho
  rcases hnew x o hx ho with hold | hfits
  · exact (ht x o hold ho).persists hp (closed_true h) fun _ _ => trivial
  · exact hfits

end Persists

/-! ## Finding and reading -/

/-- A location at which a binding may be stored. -/
inductive Location.Fits (image : Image) (h : Heap) (d : Binding) : Location → Prop
  | slot {x : ObjectId} {e : Environment} : h.environment x = .ok e → e.scope = d.scope →
    Fits image h d (.slot x d.slot)
  | captured {g : ObjectId} {f : FunctionObject} {i : Nat}
    {bindings : List (BindingId × CapturedSlot)} {this : Option Value} {b : BindingId}
    {slot : CapturedSlot} : h.function g = .ok f → f.closure = .captured bindings this →
    bindings[i]? = some (b, slot) → slot.Fits h d → (d.storage = .slot → d.mutable = false) →
    Fits image h d (.captured g i)

section Typed

variable {image : Image} {h : Heap}

open Heap

theorem Heap.Typed.environment (ht : h.Typed image) {x : ObjectId} {e : Environment}
    (he : h.environment x = .ok e) : (Object.environment e).Fits image h x :=
  ht x _ (environment_eq_ok.1 he) rfl

theorem Heap.Typed.function (ht : h.Typed image) {x : ObjectId} {f : FunctionObject}
    (hf : h.function x = .ok f) : (Object.function f).Fits image h x :=
  ht x _ (function_eq_ok.1 hf) rfl

theorem Heap.Typed.descends (ht : h.Typed image) : h.Descends := fun _ e y he houter =>
  ((ht.environment he).environment e rfl).descends y houter

/-- What is stored in the slot of a binding. -/
theorem Heap.Typed.slotAt (ht : h.Typed image) (hi : image.Sound) {b : BindingId} {d : Binding}
    (hb : image.tree.binding? b = some d) {x : ObjectId} {e : Environment}
    (he : h.environment x = .ok e) (hscope : e.scope = d.scope) :
    ∃ raw, h.slotAt x d.slot = .ok raw ∧ e.slots[d.slot]? = some raw ∧
      (∀ y ∈ objectOf raw, h.contains y = true) ∧ d.Admits h raw := by
  have hfits := ht.environment he
  obtain ⟨sc, hsc, hsize, -⟩ := (hfits.environment e rfl).scope
  obtain ⟨-, sc', hsc', hslot⟩ := hi.proper.placed b d hb
  rw [hscope, hsc'] at hsc
  obtain rfl := Option.some.inj hsc
  have hlt : d.slot < e.slots.size := by
    rw [hsize]
    exact Nat.lt_of_not_le fun hge => by
      rw [Array.getElem?_eq_none hge] at hslot
      cases hslot
  have hraw : e.slots[d.slot]? = some e.slots[d.slot] := Array.getElem?_eq_getElem hlt
  refine ⟨e.slots[d.slot], ?_, hraw, fun y hy => hfits.live y (mem_refs_of_slot hraw hy), ?_⟩
  · rw [Heap.slotAt, he]
    dsimp only
    rw [hraw]
  · exact (hfits.environment e rfl).admits b d _ hb hscope.symm hraw

/-- What a capture of a binding gives. -/
theorem Heap.Typed.capturedContents (ht : h.Typed image) (hi : image.Sound) {b : BindingId}
    {d : Binding} (hb : image.tree.binding? b = some d) {slot : CapturedSlot}
    (hs : slot.Fits h d) (hrefs : ∀ y ∈ slot.refs, h.contains y = true) :
    ∃ raw, h.capturedContents slot = .ok raw ∧ (∀ y ∈ objectOf raw, h.contains y = true) ∧
      d.Admits h raw := by
  cases slot with
  | value raw => exact ⟨raw, rfl, hrefs, hs⟩
  | binding env index =>
    obtain ⟨e, he, hscope, rfl⟩ := hs
    obtain ⟨raw, hraw, -, hlive, hadmits⟩ := ht.slotAt hi hb he hscope
    exact ⟨raw, hraw, hlive, hadmits⟩

/-- Where a binding is found, it may be stored. -/
theorem Heap.Finds.fits (ht : h.Typed image) {env : ObjectId} {b : BindingId} {d : Binding}
    (hb : image.tree.binding? b = some d) {location : Location}
    (hf : h.Finds image env b location) : location.Fits image h d := by
  cases hf with
  | slot hb' hl =>
    rw [hb] at hb'
    obtain rfl := Option.some.inj hb'
    obtain ⟨e, he, hscope⟩ := hl.scope_eq
    exact .slot he hscope
  | captured hb' _ hg hclosure hget =>
    have hfits := (ht.function hg).function _ rfl
    cases hfits with
    | chain _ hchain =>
      rw [hclosure] at hchain
      cases hchain
    | captured _ hcaptured hslots =>
      rw [hclosure] at hcaptured
      obtain ⟨rfl, rfl⟩ := Closure.captured.inj hcaptured
      obtain ⟨d', hd', hslot, hmutable⟩ := hslots b _ (List.mem_of_getElem? hget)
      rw [hb] at hd'
      obtain rfl := Option.some.inj hd'
      exact .captured hg hclosure hget hslot hmutable

/-- A binding in sight is found at a location that fits it. -/
theorem Heap.Typed.locate (ht : h.Typed image) (hi : image.Sound) {env : ObjectId} {b : BindingId}
    {d : Binding} (hb : image.tree.binding? b = some d) (hs : h.Sees image env (.binding b)) :
    ∃ location, h.locate image.tree env b = .ok (some location) ∧ location.Fits image h d := by
  obtain ⟨location, hrun, hfinds⟩ := hs.locate ht.descends hi.proper hb
  exact ⟨location, hrun, hfinds.fits ht hb⟩

/-- What is stored at a location of a binding. -/
theorem Location.Fits.contents (ht : h.Typed image) (hi : image.Sound) {b : BindingId}
    {d : Binding} (hb : image.tree.binding? b = some d) {location : Location}
    (hl : location.Fits image h d) : ∃ raw, h.contentsAt location = .ok raw ∧
      (∀ y ∈ objectOf raw, h.contains y = true) ∧ d.Admits h raw := by
  cases hl with
  | slot he hscope =>
    obtain ⟨raw, hraw, -, hlive, hadmits⟩ := ht.slotAt hi hb he hscope
    exact ⟨raw, hraw, hlive, hadmits⟩
  | @captured g f i bindings this b' slot hg hclosure hget hslot _ =>
    have hrun : h.capturedSlot g i = .ok slot := by
      rw [capturedSlot, hg]
      dsimp only
      rw [hclosure]
      dsimp only
      rw [hget]
    have hrefs : ∀ y ∈ slot.refs, h.contains y = true := by
      intro y hy
      refine (ht.function hg).live y ?_
      rw [Object.strongRefs, hclosure]
      exact List.mem_append_left _ (List.mem_flatMap.2 ⟨_, List.mem_of_getElem? hget, hy⟩)
    rw [contentsAt, hrun]
    exact ht.capturedContents hi hb hslot hrefs

theorem Value.objectOf_some {v : Value} {y : ObjectId} :
    y ∈ objectOf (some v) ↔ v.object? = some y := by
  rw [objectOf, objectsOf, Option.toList_some, List.mem_filterMap]
  refine ⟨fun ⟨w, hw, hy⟩ => ?_, fun hy => ⟨v, List.mem_singleton.2 rfl, hy⟩⟩
  rwa [List.mem_singleton.1 hw] at hy

theorem Value.live_iff {v : Value} : v.Live h ↔ ∀ y ∈ objectOf (some v), h.contains y = true :=
  ⟨fun hv y hy => hv y (objectOf_some.1 hy), fun hv id hid => hv id (objectOf_some.2 hid)⟩

/-- A `this` in sight is found where it is supplied, and it is live. -/
theorem Heap.Typed.locateThis (ht : h.Typed image) {env : ObjectId} {p : ScopeId}
    (hs : h.Sees image env (.this p)) : ∃ v stop, h.locateThis env p = .ok (some v) ∧
      h.WalkEnds p env stop ∧ Supplies image h p v stop ∧ v.Live h := by
  obtain ⟨v, stop, hv, hl, hsupplies⟩ := hs.locateThis ht.descends
  refine ⟨v, stop, hv, hl, hsupplies, Value.live_iff.2 fun y hy => ?_⟩
  cases hsupplies with
  | environment he _ hthis =>
    exact (ht.environment he).live y (List.mem_append_right _ (hthis ▸ hy))
  | captures hg hclosure =>
    refine (ht.function hg).live y ?_
    rw [Object.strongRefs, hclosure]
    exact List.mem_append_right _ hy

/-- Reading a binding in sight gives a value, unless there is none yet. -/
theorem Heap.Typed.readBinding (ht : h.Typed image) (hi : image.Sound) {env : ObjectId}
    {b : BindingId} {d : Binding} (hb : image.tree.binding? b = some d)
    (hs : h.Sees image env (.binding b)) (name : String) :
    (∃ v, h.readBinding image.tree env b name = .ok v ∧ v.Live h) ∨
      h.readBinding image.tree env b name = .error (.uninitialized name) := by
  obtain ⟨location, hlocate, hl⟩ := ht.locate hi hb hs
  obtain ⟨raw, hraw, hlive, hadmits⟩ := hl.contents ht hi hb
  -- what is read is live, whether it stands in the slot or in the cell
  obtain ⟨contents, hcontents, hread⟩ : ∃ contents : Option Value,
      (∀ y ∈ objectOf contents, h.contains y = true) ∧
        h.readBinding image.tree env b name =
          contents.elim (.error (.uninitialized name)) .ok := by
    rw [Heap.readBinding, hlocate]
    dsimp only [bind, Except.bind]
    rw [hraw, ScopeTree.binding_eq_ok.2 hb]
    dsimp only [Except.mapError_ok]
    cases hstorage : d.storage with
    | slot => exact ⟨raw, hlive, by cases raw <;> rfl⟩
    | cell =>
      obtain ⟨c, contents, rfl, hc⟩ := hadmits hstorage
      refine ⟨contents, fun y hy => ?_, ?_⟩
      · exact (ht c _ (cellContents_eq_ok.1 hc) rfl).live y hy
      · dsimp only
        rw [hc]
        cases contents <;> rfl
  cases contents with
  | none => exact .inr hread
  | some v => exact .inl ⟨v, hread, Value.live_iff.2 hcontents⟩

end Typed

end ClosureCache
