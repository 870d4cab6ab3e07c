/-
Heaps that keep the machine's own objects out of sight.

A heap is sealed if every value that a program can get at, in a property, an element, a
slot, a cell or as a `this`, is a primitive or stands for an object that is a value of the
program, other than the global object.  What serves the machine is in its place: a slot
of a binding with a cell holds a cell, and environments and closures lead outwards to
environments and functions.  Values may name objects that a collection has swept, so all
of this is about what a number stood for.

Reading from a sealed heap gives only values that may be known, and every step that writes
only such values leaves the heap sealed.
-/
import ClosureCache.Proofs.Evaluation.Discretion
import ClosureCache.Proofs.Evaluation.Finality

namespace ClosureCache

/-- What a program may come to know in a heap. -/
def Heap.known (image : Image) (h : Heap) : Known where
  objects x := x ≠ image.globalObject ∧ h.HasRole x .value
  environments x := ∃ s, h.HasRole x (.environment s)

theorem Heap.KeepsRoles.known_le {h h' : Heap} (ha : h.KeepsRoles h') (image : Image) :
    (h.known image).Le (h'.known image) :=
  ⟨fun _ ⟨hne, hx⟩ => ⟨hne, hx.keepsRoles ha⟩, fun _ ⟨s, hx⟩ => ⟨s, hx.keepsRoles ha⟩⟩

/-! ## Sealed objects -/

/-- What may be stored for a binding: its cell, or a value that may be known. -/
def Binding.Seals (d : Binding) (image : Image) (h : Heap) (raw : Option Value) : Prop :=
  match d.storage with
  | .slot => Value.AllAmong (h.known image) raw.toList
  | .cell => ∃ c, raw = some (.object c) ∧ h.HasRole c .cell

/-- What is in a slot may be stored for the binding of the slot. -/
structure Environment.Sealed (image : Image) (h : Heap) (e : Environment) : Prop where
  outer : e.outer.Among (h.known image)
  slots : ∀ i raw, e.slots[i]? = some raw → ∃ b d, image.tree.binding? b = some d ∧
    d.scope = e.scope ∧ d.slot = i ∧ d.Seals image h raw
  this : Value.AllAmong (h.known image) e.this.toList

/-- A capture holds what may be stored for its binding, or reads the slot of the binding. -/
def CapturedSlot.Sealed (image : Image) (h : Heap) (b : BindingId) : CapturedSlot → Prop
  | value raw => ∃ d, image.tree.binding? b = some d ∧ d.Seals image h raw
  | binding env i => ∃ d, image.tree.binding? b = some d ∧ d.slot = i ∧
    h.HasRole env (.environment d.scope)

def Closure.Sealed (image : Image) (h : Heap) : Closure → Prop
  | chain env => (h.known image).environments env
  | captured bindings this => (∀ entry ∈ bindings, entry.2.Sealed image h entry.1) ∧
    Value.AllAmong (h.known image) this.toList

/-- The object holds only what may be known, apart from what serves the machine. -/
def Object.Sealed (image : Image) (h : Heap) : Object → Prop
  | cell contents => Value.AllAmong (h.known image) contents.toList
  | environment e => e.Sealed image h
  | function f => f.closure.Sealed image h
  | tuple _ => True
  | strongMap _ => True
  | weakMap _ => True
  | o => o.Among (h.known image)

structure Heap.Sealed (image : Image) (h : Heap) : Prop where
  globalObject : h.HasRole image.globalObject .value
  object : ∀ x o, h.object x = .ok o → o.Sealed image h

section Ageing

variable {image : Image} {h h' : Heap} (ha : h.KeepsRoles h')

include ha

theorem Value.AllAmong.keepsRoles {l : List Value} (hl : AllAmong (h.known image) l) :
    AllAmong (h'.known image) l := fun v hv => (hl v hv).mono (ha.known_le image)

theorem Enclosure.Among.keepsRoles {outer : Enclosure} (ho : outer.Among (h.known image)) :
    outer.Among (h'.known image) := by
  cases outer with
  | outermost => exact trivial
  | environment x => exact (ha.known_le image).environments x ho
  | captures f => exact (ha.known_le image).objects f ho

theorem Binding.Seals.keepsRoles {d : Binding} {raw : Option Value} (hraw : d.Seals image h raw) :
    d.Seals image h' raw := by
  rw [Seals] at hraw ⊢
  cases hstorage : d.storage with
  | slot =>
    rw [hstorage] at hraw
    exact Value.AllAmong.keepsRoles ha hraw
  | cell =>
    rw [hstorage] at hraw
    obtain ⟨c, rfl, hc⟩ := hraw
    exact ⟨c, rfl, hc.keepsRoles ha⟩

theorem Environment.Sealed.keepsRoles {e : Environment} (he : e.Sealed image h) :
    e.Sealed image h' where
  outer := he.outer.keepsRoles ha
  slots i raw hraw := by
    obtain ⟨b, d, hd, hscope, hslot, hseals⟩ := he.slots i raw hraw
    exact ⟨b, d, hd, hscope, hslot, hseals.keepsRoles ha⟩
  this := he.this.keepsRoles ha

theorem CapturedSlot.Sealed.keepsRoles {b : BindingId} {slot : CapturedSlot}
    (hs : slot.Sealed image h b) : slot.Sealed image h' b := by
  cases slot with
  | value raw =>
    obtain ⟨d, hd, hseals⟩ := hs
    exact ⟨d, hd, hseals.keepsRoles ha⟩
  | binding env i =>
    obtain ⟨d, hd, hslot, henv⟩ := hs
    exact ⟨d, hd, hslot, henv.keepsRoles ha⟩

theorem Closure.Sealed.keepsRoles {closure : Closure} (hc : closure.Sealed image h) :
    closure.Sealed image h' := by
  cases closure with
  | chain env => exact (ha.known_le image).environments env hc
  | captured bindings this =>
    exact ⟨fun entry he => (hc.1 entry he).keepsRoles ha, hc.2.keepsRoles ha⟩

theorem Object.Sealed.keepsRoles {o : Object} (ho : o.Sealed image h) : o.Sealed image h' := by
  cases o with
  | ordinary properties => exact Value.AllAmong.keepsRoles ha ho
  | array elements => exact Value.AllAmong.keepsRoles ha ho
  | cell contents => exact Value.AllAmong.keepsRoles ha ho
  | environment e => exact Environment.Sealed.keepsRoles ha ho
  | function f => exact Closure.Sealed.keepsRoles ha ho
  | suspended callee arguments =>
    exact ⟨(ha.known_le image).objects callee ho.1, Value.AllAmong.keepsRoles ha ho.2⟩
  | _ => exact trivial

end Ageing

theorem Closure.Sealed.among {image : Image} {h : Heap} {closure : Closure}
    (hc : closure.Sealed image h) : closure.Among (h.known image) := by
  cases closure with
  | chain env => exact hc
  | captured bindings this => exact trivial

theorem Object.Among.sealed {image : Image} {h : Heap} {o : Object}
    (ho : o.Among (h.known image)) : o.Sealed image h := by
  cases o with
  | ordinary properties => exact ho
  | array elements => exact ho
  | suspended callee arguments => exact ho
  | _ => exact ho.elim

theorem Object.Sealed.of_isPart {image : Image} {h : Heap} {o : Object} (ho : o.isPart = true) :
    o.Sealed image h := by
  cases o <;> first | exact trivial | cases ho

/-- An environment holds in the slot of a binding what may be stored for it. -/
theorem Environment.Sealed.slot {image : Image} {h : Heap} (ht : image.tree.Proper)
    {e : Environment} (he : e.Sealed image h) {b : BindingId} {d : Binding}
    (hd : image.tree.binding? b = some d) (hscope : d.scope = e.scope) {raw : Option Value}
    (hraw : e.slots[d.slot]? = some raw) : d.Seals image h raw := by
  obtain ⟨b', d', hd', hscope', hslot, hseals⟩ := he.slots _ raw hraw
  obtain rfl := ht.eq_of_slot hd hd' (hscope.trans hscope'.symm) hslot.symm
  obtain rfl := Option.some.inj (hd.symm.trans hd')
  exact hseals

namespace Heap

variable {image : Image} {h h' : Heap}

/-! ## Changes -/

namespace Sealed

variable (hs : h.Sealed image)

include hs

theorem environment {x : ObjectId} {e : Environment} (he : h.environment x = .ok e) :
    e.Sealed image h := hs.object x _ (environment_eq_ok.1 he)

theorem function {x : ObjectId} {f : FunctionObject} (hf : h.function x = .ok f) :
    f.closure.Sealed image h := hs.object x _ (function_eq_ok.1 hf)

/-- The heap is sealed later if everything in it was there or is sealed. -/
theorem keepsRoles (ha : h.KeepsRoles h')
    (hobject : ∀ x o, h'.object x = .ok o → h.object x = .ok o ∨ o.Sealed image h') :
    h'.Sealed image :=
  ⟨hs.globalObject.keepsRoles ha, fun x o ho => (hobject x o ho).elim
    (fun hold => (hs.object x o hold).keepsRoles ha) id⟩

theorem allocate {o : Object} (ho : o.Sealed image h) : Heap.Sealed image (h.allocate o).2 :=
  hs.keepsRoles (keepsRoles_allocate h o) fun _ _ hx =>
    (object_of_allocate hx).elim
      (fun heq => .inr (heq ▸ ho.keepsRoles (keepsRoles_allocate h o))) .inl

theorem setObject {x : ObjectId} {o o' : Object} (ho : h.object x = .ok o)
    (hrole : o'.role = o.role) (ho' : o'.Sealed image h) : (h.setObject x o').Sealed image :=
  hs.keepsRoles (keepsRoles_setObject ho hrole) fun _ _ hy =>
    (object_of_setObject hy).elim
      (fun heq => .inr (heq ▸ ho'.keepsRoles (keepsRoles_setObject ho hrole))) .inl

theorem of_object_eq (hsize : h'.entries.size = h.entries.size)
    (heq : ∀ x, h'.object x = h.object x) : h'.Sealed image :=
  hs.keepsRoles (.of_object_eq hsize heq) fun x _ ho => .inl (by rw [← heq x, ho])

/-- A new number is not the one of the global object. -/
theorem known_allocate {o : Object} (ho : o.role = .value) :
    (Heap.known image (h.allocate o).2).objects ⟨h.entries.size⟩ :=
  ⟨fun heq => Nat.lt_irrefl h.entries.size (by
    have hlt := hs.globalObject.lt
    rwa [← heq] at hlt), ho ▸ hasRole_allocate h o⟩

end Sealed

/-! ## Reading -/

/-- What is found as the `this` of a scope is that of an environment or of a closure. -/
theorem locateThisFrom_eq_ok {provider : ScopeId} {n : Nat} {env : ObjectId} {this : Option Value}
    (hthis : h.locateThisFrom provider n env = .ok this) :
    this = none ∨ (∃ x e, h.environment x = .ok e ∧ e.this = this) ∨
      ∃ g f bindings, h.function g = .ok f ∧ f.closure = .captured bindings this := by
  induction n generalizing env with
  | zero => exact .inl (Except.ok.inj hthis).symm
  | succ n ih =>
    rw [locateThisFrom] at hthis
    cases he : h.environment env with
    | error e =>
      rw [he] at hthis
      cases hthis
    | ok e =>
      rw [he] at hthis
      dsimp only at hthis
      split at hthis
      · exact .inr (.inl ⟨env, e, he, Except.ok.inj hthis⟩)
      · cases houter : e.outer with
        | outermost =>
          rw [houter] at hthis
          exact .inl (Except.ok.inj hthis).symm
        | environment parent =>
          rw [houter] at hthis
          exact ih hthis
        | captures g =>
          rw [houter] at hthis
          dsimp only at hthis
          cases hg : h.function g with
          | error e =>
            rw [hg] at hthis
            cases hthis
          | ok f =>
            rw [hg] at hthis
            dsimp only at hthis
            cases hclosure : f.closure with
            | chain x =>
              rw [hclosure] at hthis
              exact .inl (Except.ok.inj hthis).symm
            | captured bindings this' =>
              rw [hclosure] at hthis
              obtain rfl := Except.ok.inj hthis
              exact .inr (.inr ⟨g, f, bindings, hg, hclosure⟩)

/-- The `this` of a capture table is one that was found, or the one it started with. -/
theorem captureTable_this {tree : ScopeTree} {env : ObjectId} {captures : List Capture}
    {this₀ this : Option Value} {bindings : List (BindingId × CapturedSlot)}
    (hrun : h.captureTable tree env captures this₀ = .ok (bindings, this)) :
    this = this₀ ∨ ∃ c ∈ captures, h.locateThis env c.source = .ok this := by
  induction captures generalizing this₀ bindings with
  | nil => exact .inl (Prod.mk.inj (Except.ok.inj hrun)).2.symm
  | cons c rest ih =>
    rw [captureTable] at hrun
    have hlater : ∀ {this₁ : Option Value} {bindings : List (BindingId × CapturedSlot)},
        h.captureTable tree env rest this₁ = .ok (bindings, this) →
          this = this₁ ∨ ∃ c' ∈ c :: rest, h.locateThis env c'.source = .ok this := by
      intro this₁ bindings hrun
      refine (ih hrun).imp id ?_
      rintro ⟨c', hc', hfound⟩
      exact ⟨c', List.mem_cons_of_mem c hc', hfound⟩
    cases hb : c.binding with
    | none =>
      rw [hb] at hrun
      obtain ⟨this₁, hthis, hrun⟩ := Except.bind_eq_ok.1 hrun
      refine .inr ((hlater hrun).elim (fun heq => ⟨c, List.mem_cons_self, ?_⟩) id)
      rw [heq]
      exact Except.mapError_eq_ok.1 hthis
    | some b =>
      rw [hb] at hrun
      obtain ⟨slot, -, hrun⟩ := Except.bind_eq_ok.1 hrun
      obtain ⟨⟨bindings', this'⟩, hrest, hrun⟩ := Except.bind_eq_ok.1 hrun
      obtain rfl : this' = this := (Prod.mk.inj (Except.ok.inj hrun)).2
      exact hlater hrest

section Reading

variable (ht : image.tree.Proper) {b : BindingId} {d : Binding}
  (hd : image.tree.binding? b = some d) {env : ObjectId} {raw : Option Value}

include ht hd

namespace Sealed

variable (hs : h.Sealed image)

include hs

/-- A capture of a binding gives what may be stored for it. -/
theorem capturedContents {slot : CapturedSlot} (hslot : slot.Sealed image h b)
    (hraw : h.capturedContents slot = .ok raw) : d.Seals image h raw := by
  cases slot with
  | value contents =>
    obtain ⟨d', hd', hseals⟩ := hslot
    obtain rfl := Option.some.inj (hd.symm.trans hd')
    obtain rfl := Except.ok.inj hraw
    exact hseals
  | binding x i =>
    obtain ⟨d', hd', rfl, hx⟩ := hslot
    obtain rfl := Option.some.inj (hd.symm.trans hd')
    obtain ⟨e, he, hi⟩ := slotAt_eq_ok.1 hraw
    have hscope := hx.role _ (environment_eq_ok.1 he)
    exact (hs.environment he).slot ht hd (Role.environment.inj hscope).symm hi

/-- Where a binding is found, there is the slot of an environment of its scope, or the
capture of it that a closure has. -/
theorem found {location : Location} (hlocate : h.locate image.tree env b = .ok (some location)) :
    (∃ x e, location = .slot x d.slot ∧ h.environment x = .ok e ∧ e.scope = d.scope) ∨
      ∃ g i slot, location = .captured g i ∧ h.capturedSlot g i = .ok slot ∧
        slot.Sealed image h b := by
  obtain ⟨target, htarget, hlocate⟩ := locate_eq_some hlocate
  obtain rfl := Option.some.inj (hd.symm.trans htarget)
  refine (locateFrom_eq_some hlocate).imp id ?_
  rintro ⟨g, i, f, bindings, this, slot, rfl, hg, hclosure, hi⟩
  refine ⟨g, i, slot, rfl, capturedSlot_eq_ok.2 ⟨f, bindings, this, hg, hclosure, _, hi⟩, ?_⟩
  have hsealed := hs.function hg
  rw [hclosure] at hsealed
  have hentry := hsealed.1 _ (List.mem_of_getElem? hi)
  rwa [(ht.placed b d hd).1] at hentry

/-- Where a binding is found, what may be stored for it is. -/
theorem contentsAt {location : Location}
    (hlocate : h.locate image.tree env b = .ok (some location))
    (hraw : h.contentsAt location = .ok raw) : d.Seals image h raw := by
  rcases hs.found ht hd hlocate with ⟨x, e, rfl, he, hscope⟩ | ⟨g, i, slot, rfl, hslot, hsealed⟩
  · obtain ⟨e', he', hi⟩ := slotAt_eq_ok.1 hraw
    obtain rfl := Except.ok.inj (he.symm.trans he')
    exact (hs.environment he).slot ht hd hscope.symm hi
  · rw [Heap.contentsAt, hslot] at hraw
    exact hs.capturedContents ht hd hsealed hraw

/-- A new capture of a binding is sealed. -/
theorem captureBinding {slot : CapturedSlot}
    (hslot : h.captureBinding image.tree env b = .ok slot) : slot.Sealed image h b := by
  obtain ⟨d', location, hd', hlocate, hcapture⟩ := captureBinding_eq_ok hslot
  obtain rfl := Option.some.inj (hd.symm.trans hd')
  rcases captureSlot_cases hcapture with hrefers | ⟨raw, rfl, hraw, -⟩
  · rcases hs.found ht hd hlocate with ⟨x, e, rfl, he, hscope⟩ | ⟨g, i, slot', rfl, hslot', hsealed⟩
    · obtain rfl : slot = .binding x d.slot := hrefers
      exact ⟨d, hd, rfl, hscope ▸ .of_object (environment_eq_ok.1 he)⟩
    · obtain rfl := Except.ok.inj (hslot'.symm.trans hrefers)
      exact hsealed
  · exact ⟨d, hd, hs.contentsAt ht hd hlocate hraw⟩

end Sealed

end Reading

/-- What a binding without a cell starts out with is no object. -/
theorem allAmong_initial (lexical : Bool) : Value.AllAmong (h.known image)
    (if lexical then none else some Value.undefined).toList := fun v hv => by
  cases lexical with
  | true => exact absurd hv List.not_mem_nil
  | false => exact List.mem_singleton.1 hv ▸ Value.among_of_primitive rfl _

/-- A slot starts out with what may be stored for its binding. -/
theorem initialSlot_seals {b : BindingId} {raw : Option Value}
    (hrun : initialSlot image.tree b h = (.ok raw, h')) :
    ∃ d, image.tree.binding? b = some d ∧ d.Seals image h' raw := by
  obtain ⟨d, h₁, hask, hrun⟩ := HeapM.bind_eq_ok hrun
  obtain ⟨hd, rfl⟩ := Prod.mk.inj hask
  refine ⟨d, ScopeTree.binding_eq_ok.1 (Except.mapError_eq_ok.1 hd), ?_⟩
  dsimp only at hrun
  rw [Binding.Seals]
  cases hstorage : d.storage with
  | slot =>
    rw [hstorage] at hrun
    obtain rfl := Except.ok.inj (Prod.mk.inj hrun).1
    exact allAmong_initial _
  | cell =>
    rw [hstorage] at hrun
    obtain ⟨hraw, rfl⟩ := Prod.mk.inj hrun
    obtain rfl := Except.ok.inj hraw
    exact ⟨_, rfl, hasRole_allocate h _⟩

theorem initialSlots_seals {bs : List BindingId} {slots : List (Option Value)}
    (hrun : initialSlots image.tree bs h = (.ok slots, h')) {i : Nat} {raw : Option Value}
    (hi : slots[i]? = some raw) : ∃ b d, bs[i]? = some b ∧ image.tree.binding? b = some d ∧
      d.Seals image h' raw := by
  induction bs generalizing h i slots with
  | nil =>
    obtain rfl := Except.ok.inj (Prod.mk.inj hrun).1
    cases hi
  | cons b rest ih =>
    obtain ⟨raw₁, h₁, hslot, hrun⟩ := HeapM.bind_eq_ok hrun
    obtain ⟨slots', h₂, hrest, hrun⟩ := HeapM.bind_eq_ok hrun
    obtain ⟨hslots, rfl⟩ := Prod.mk.inj hrun
    obtain rfl := Except.ok.inj hslots
    cases i with
    | zero =>
      obtain rfl := Option.some.inj hi
      have hroles := HeapM.Keeps.initialSlots (T := .keepingRoles) image.tree rest h₁
      rw [hrest] at hroles
      obtain ⟨d, hd, hseals⟩ := initialSlot_seals hslot
      exact ⟨b, d, rfl, hd, hseals.keepsRoles hroles⟩
    | succ i => exact ih hrest hi

namespace Sealed

variable (hs : h.Sealed image)

include hs

/-- A binding in sight has a value that may be known. -/
theorem readBinding (ht : image.tree.Proper) {env : ObjectId} {b : BindingId} {name : String}
    {v : Value} (hread : h.readBinding image.tree env b name = .ok v) :
    v.Among (h.known image) := by
  rw [Heap.readBinding] at hread
  obtain ⟨found, hlocate, hread⟩ := Except.bind_eq_ok.1 hread
  cases found with
  | none => cases hread
  | some location =>
    obtain ⟨raw, hraw, hread⟩ := Except.bind_eq_ok.1 hread
    obtain ⟨d, hd, hread⟩ := Except.bind_eq_ok.1 hread
    have hd := ScopeTree.binding_eq_ok.1 (Except.mapError_eq_ok.1 hd)
    have hseals := hs.contentsAt ht hd hlocate (Except.mapError_eq_ok.1 hraw)
    dsimp only at hread
    rw [Binding.Seals] at hseals
    cases hstorage : d.storage with
    | slot =>
      rw [hstorage] at hseals hread
      cases raw with
      | none => cases hread
      | some w =>
        obtain rfl := Except.ok.inj hread
        exact hseals w (List.mem_singleton.2 rfl)
    | cell =>
      rw [hstorage] at hseals hread
      obtain ⟨c, rfl, -⟩ := hseals
      obtain ⟨contents, hcontents, hread⟩ := Except.bind_eq_ok.1 hread
      cases contents with
      | none => cases hread
      | some w =>
        obtain rfl := Except.ok.inj hread
        exact hs.object c _ (cellContents_eq_ok.1 (Except.mapError_eq_ok.1 hcontents)) w
          (List.mem_singleton.2 rfl)

theorem locateThis {env : ObjectId} {provider : ScopeId} {this : Option Value}
    (hthis : h.locateThis env provider = .ok this) :
    Value.AllAmong (h.known image) this.toList := by
  rcases locateThisFrom_eq_ok hthis with rfl | ⟨x, e, he, rfl⟩ | ⟨g, f, bindings, hg, hclosure⟩
  · exact fun v hv => absurd hv List.not_mem_nil
  · exact (hs.environment he).this
  · have hsealed := hs.function hg
    rw [hclosure] at hsealed
    exact hsealed.2

theorem captureClosure (ht : image.tree.Proper) {env : ObjectId} {spec : CaptureSpec}
    {closure : Closure} (hrun : h.captureClosure image.tree env spec = .ok closure) :
    closure.Sealed image h := by
  obtain ⟨⟨bindings, this⟩, htable, hclosure⟩ := Except.bind_eq_ok.1 hrun
  obtain rfl := Except.ok.inj hclosure
  refine ⟨fun entry hentry => ?_, ?_⟩
  · have hslot := ((captureTable_spec htable).2.1 entry hentry).1
    obtain ⟨d, location, hd, -⟩ := captureBinding_eq_ok hslot
    exact hs.captureBinding ht hd hslot
  · rcases captureTable_this htable with rfl | ⟨c, -, hfound⟩
    · exact fun v hv => absurd hv List.not_mem_nil
    · exact hs.locateThis hfound

/-- The properties of all objects are values that may be known. -/
theorem property {x : ObjectId} {o : Object} (ho : h.object x = .ok o) (name : String) :
    (o.property name).Among (h.known image) := by
  have hsealed := hs.object x o ho
  have hundefined : ∀ found : Option Value, (∀ v, found = some v → v.Among (h.known image)) →
      (found.getD .undefined).Among (h.known image) := fun found hfound => by
    cases found with
    | none => exact Value.among_of_primitive rfl _
    | some v => exact hfound v rfl
  cases o with
  | ordinary properties =>
    exact hundefined _ fun v hv => hsealed v (SortedMap.mem_values_iff.2 ⟨name, hv⟩)
  | array elements =>
    rw [Object.property]
    split
    · exact Value.among_of_primitive rfl _
    · refine hundefined _ fun v hv => ?_
      obtain ⟨index, -, hindex⟩ := Option.bind_eq_some_iff.1 hv
      exact hsealed v (Array.mem_toList_iff.2 (Array.mem_of_getElem? hindex))
  | _ => exact Value.among_of_primitive rfl _

theorem getProperty {target v : Value} {name : String}
    (hread : h.getProperty target name = .ok v) : v.Among (h.known image) := by
  cases target with
  | object id =>
    rw [Heap.getProperty] at hread
    cases ho : h.object id with
    | error e =>
      rw [ho] at hread
      cases hread
    | ok o =>
      rw [ho] at hread
      obtain rfl := Except.ok.inj hread
      exact hs.property ho name
  | str s =>
    obtain rfl := Except.ok.inj hread
    refine Value.among_of_primitive ?_ _
    split <;> rfl
  | undefined => cases hread
  | null => cases hread
  | bool b =>
    obtain rfl := Except.ok.inj hread
    exact Value.among_of_primitive rfl _
  | number n =>
    obtain rfl := Except.ok.inj hread
    exact Value.among_of_primitive rfl _

/-! ## Writing -/

theorem setCellContents {v : Value} (hv : v.Among (h.known image)) (x : ObjectId) :
    (Heap.setCellContents x v h).2.Sealed image := by
  rw [Heap.setCellContents]
  cases hc : h.cellContents x with
  | error e => exact hs
  | ok c =>
    have hcell : (Object.cell (some v)).Sealed image h := fun w hw =>
      List.mem_singleton.1 hw ▸ hv
    exact hs.setObject (cellContents_eq_ok.1 hc) rfl hcell

/-- A slot may be written if it is that of a binding without a cell. -/
theorem setEnvironmentSlot {x : ObjectId} {b : BindingId} {d : Binding}
    (hd : image.tree.binding? b = some d) (hstorage : d.storage = .slot)
    (hscope : ∀ e, h.environment x = .ok e → e.scope = d.scope) {v : Value}
    (hv : v.Among (h.known image)) :
    (Heap.setEnvironmentSlot x d.slot (some v) h).2.Sealed image := by
  rw [Heap.setEnvironmentSlot]
  cases he : h.environment x with
  | error e => exact hs
  | ok e =>
    dsimp only
    split
    · have hsealed := hs.environment he
      refine hs.setObject (environment_eq_ok.1 he) rfl ⟨hsealed.outer, fun i raw hi => ?_,
        hsealed.this⟩
      rw [Array.getElem?_setIfInBounds] at hi
      split at hi
      · next heq =>
        subst heq
        obtain rfl := Option.some.inj hi
        refine ⟨b, d, hd, (hscope e he).symm, rfl, ?_⟩
        rw [Binding.Seals, hstorage]
        exact fun w hw => List.mem_singleton.1 hw ▸ hv
      · exact hsealed.slots i raw hi
    · exact hs

theorem setProperty {v : Value} (hv : v.Among (h.known image)) (target : Value) (name : String) :
    (Heap.setProperty target name v h).2.Sealed image := by
  rw [Heap.setProperty]
  cases target.object? with
  | none => exact hs
  | some x =>
    dsimp only
    cases hx : h.object x with
    | error e => exact hs
    | ok o =>
      have hsealed := hs.object x o hx
      cases o with
      | ordinary properties =>
        refine hs.setObject hx rfl fun w hw => ?_
        rcases SortedMap.mem_values_insert hw with rfl | hold
        · exact hv
        · exact hsealed w hold
      | array elements =>
        dsimp only
        cases Text.readWord? name with
        | none => exact hs
        | some index =>
          dsimp only
          split
          · refine hs.setObject hx rfl fun w hw => ?_
            rcases mem_writeElement (Array.mem_toList_iff.1 hw) with hw | rfl | rfl
            · exact hsealed w (Array.mem_toList_iff.2 hw)
            · exact Value.among_of_primitive rfl _
            · exact hv
          · exact hs
      | _ => exact hs

theorem writeBinding (ht : image.tree.Proper) {v : Value} (hv : v.Among (h.known image))
    (env : ObjectId) (b : BindingId) (name : String) :
    (Heap.writeBinding image.tree env b name v h).2.Sealed image := by
  refine HeapM.ends_bind hs fun d h₁ hask => HeapM.ends_bind ?_ fun location h₂ hlook => ?_
  · exact (Prod.mk.inj hask).2 ▸ hs
  · obtain ⟨hd, rfl⟩ := Prod.mk.inj hask
    obtain ⟨hlocate, rfl⟩ := Prod.mk.inj hlook
    cases location with
    | none => exact hs
    | some location =>
      dsimp only
      cases hstorage : d.storage with
      | cell =>
        refine HeapM.ends_bind hs fun contents h₃ hread => ?_
        obtain ⟨-, rfl⟩ := Prod.mk.inj hread
        split
        · exact HeapM.ends_mapError (hs.setCellContents hv _) _
        · exact hs
      | slot =>
        have hd := ScopeTree.binding_eq_ok.1 (Except.mapError_eq_ok.1 hd)
        rcases hs.found ht hd hlocate with ⟨x, e, rfl, he, hscope⟩ | ⟨g, i, slot, rfl, -⟩
        · refine HeapM.ends_mapError (hs.setEnvironmentSlot hd hstorage (fun e' he' => ?_) hv) _
          rw [Except.ok.inj (he'.symm.trans he), hscope]
        · exact hs

/-! ## New environments -/

theorem initialSlot (b : BindingId) : (Heap.initialSlot image.tree b h).2.Sealed image := by
  refine HeapM.ends_bind hs fun d h₁ hask => ?_
  obtain ⟨-, rfl⟩ := Prod.mk.inj hask
  cases d.storage with
  | slot => exact hs
  | cell => exact hs.allocate (o := .cell _) (allAmong_initial d.kind.isLexical)

theorem initialSlots (bs : List BindingId) :
    (Heap.initialSlots image.tree bs h).2.Sealed image := by
  induction bs generalizing h with
  | nil => exact hs
  | cons b rest ih =>
    refine HeapM.ends_bind (hs.initialSlot b) fun raw h₁ hslot => ?_
    have hs₁ := hs.initialSlot b
    rw [hslot] at hs₁
    exact HeapM.ends_bind (ih hs₁) fun _ h₂ hrest => by
      have hs₂ := ih hs₁
      rwa [hrest] at hs₂

theorem newEnvironment (ht : image.tree.Proper) (scope : ScopeId) {outer : Enclosure}
    (houter : outer.Among (h.known image)) {this : Option Value}
    (hthis : Value.AllAmong (h.known image) this.toList) :
    (Heap.newEnvironment image.tree scope outer this h).2.Sealed image := by
  refine HeapM.ends_bind hs fun sc h₁ hask => ?_
  obtain ⟨hsc, rfl⟩ := Prod.mk.inj hask
  refine HeapM.ends_bind (hs.initialSlots _) fun slots h₁ hrun => ?_
  have hs₁ := hs.initialSlots sc.bindings.toList
  have hroles := HeapM.Keeps.initialSlots (T := .keepingRoles) image.tree sc.bindings.toList h
  rw [hrun] at hs₁ hroles
  refine hs₁.allocate ⟨houter.keepsRoles hroles, fun i raw hi => ?_, hthis.keepsRoles hroles⟩
  rw [List.getElem?_toArray] at hi
  obtain ⟨b, d, hb, hd, hseals⟩ := initialSlots_seals hrun hi
  rw [Array.getElem?_toList] at hb
  obtain ⟨d', hd', hdscope, hdslot⟩ := ht.listed scope sc i b
    (ScopeTree.scope_eq_ok.1 (Except.mapError_eq_ok.1 hsc)) hb
  obtain rfl := Option.some.inj (hd.symm.trans hd')
  exact ⟨b, d, hd, hdscope, hdslot, hseals⟩

end Sealed

end Heap

/-! ## Actions -/

/-- The action only asks something of the machine. -/
def Action.Asks : Action → Prop
  | readIdentifier .. => True
  | readThis .. => True
  | getProperty .. => True
  | callee _ => True
  | definition _ => True
  | _ => False

theorem Action.perform_of_asks {a : Action} (ha : a.Asks) (image : Image) (m : Machine) :
    (a.perform image m).2 = m := by
  cases a with
  | readIdentifier env i =>
    rw [perform, EvalM.readIdentifier]
    cases i.resolution with
    | unresolved => rfl
    | _ => exact congrArg Prod.snd (EvalM.ask_apply ..)
  | readThis env provider =>
    cases provider with
    | none => rfl
    | some provider =>
      rw [perform, EvalM.readThis, EvalM.bind_apply, EvalM.ask_apply]
      cases (m.heap.locateThis env provider).mapError EvalError.heap <;> rfl
  | getProperty target name => exact congrArg Prod.snd (EvalM.ask_apply ..)
  | callee v =>
    rw [perform, EvalM.callee]
    cases v.object? with
    | none => rfl
    | some id =>
      dsimp only
      rw [EvalM.bind_apply, EvalM.ask_apply]
      cases m.heap.object id with
      | error e => rfl
      | ok o => cases o <;> rfl
  | definition f =>
    rw [perform, EvalM.definition, EvalM.bind_of_ok EvalM.read_apply]
    cases image.functions.get? f.site <;> rfl
  | _ => exact ha.elim

section Actions

variable {image : Image} {m : Machine} (ht : image.tree.Proper) (hs : m.heap.Sealed image)

include ht hs

theorem EvalM.readIdentifier_known {env : ObjectId} {i : Identifier} {v : Value}
    (hread : (EvalM.readIdentifier env i image m).1 = .ok v) : v.Among (m.heap.known image) := by
  rw [readIdentifier] at hread
  cases hi : i.resolution with
  | binding b =>
    rw [hi] at hread
    dsimp only at hread
    rw [readBinding, ask_apply] at hread
    exact hs.readBinding ht (Except.mapError_eq_ok.1 hread)
  | «global» =>
    rw [hi] at hread
    dsimp only at hread
    rw [readGlobal, ask_apply] at hread
    have hread := Except.mapError_eq_ok.1 hread
    cases ho : m.heap.object image.globalObject with
    | error e =>
      rw [ho] at hread
      cases hread
    | ok o =>
      rw [ho] at hread
      cases o with
      | ordinary properties =>
        dsimp only at hread
        split at hread
        · next w hw =>
          obtain rfl := Except.ok.inj hread
          exact hs.object _ _ ho w (SortedMap.mem_values_iff.2 ⟨_, hw⟩)
        · cases hread
      | _ => cases hread
  | unresolved =>
    rw [hi] at hread
    cases hread

/-- An action that is given what may be known leaves the heap sealed; reaching a definition
is left out here. -/
theorem Action.sealed (a : Action) (hreach : ∀ node env, a ≠ .instantiate node env)
    (ha : a.InputsKnown (m.heap.known image)) : (a.perform image m).2.heap.Sealed image := by
  by_cases hasks : a.Asks
  · rwa [Action.perform_of_asks hasks]
  · cases a with
    | assign env i v =>
      rw [perform, EvalM.assign]
      cases i.resolution with
      | binding b =>
        dsimp only
        rw [EvalM.writeBinding_heap]
        exact hs.writeBinding ht ha.2 env b _
      | «global» =>
        dsimp only
        rw [EvalM.bind_of_ok EvalM.read_apply, EvalM.onHeap_apply]
        exact hs.setProperty ha.2 _ _
      | unresolved => exact hs
    | writeBinding env b name v =>
      rw [perform, EvalM.writeBinding_heap]
      exact hs.writeBinding ht ha.2 env b name
    | newEnvironment scope outer this =>
      rw [perform, EvalM.newEnvironment, EvalM.bind_of_ok EvalM.read_apply, EvalM.tryHeap_apply]
      exact hs.newEnvironment ht scope ha.1 ha.2
    | allocate o => exact hs.allocate ha.sealed
    | setProperty target name v => exact hs.setProperty ha.2 target name
    | instantiate node env => exact absurd rfl (hreach node env)
    | _ => exact absurd trivial hasks

/-- What it is answered with may be known. -/
theorem Action.answerKnown (a : Action) (hreach : ∀ node env, a ≠ .instantiate node env)
    (ha : a.InputsKnown (m.heap.known image)) {answer : a.Answer}
    (hanswer : (a.perform image m).1 = .ok answer) :
    a.AnswerKnown ((a.perform image m).2.heap.known image) answer := by
  by_cases hasks : a.Asks
  · rw [Action.perform_of_asks hasks]
    cases a with
    | readIdentifier env i => exact EvalM.readIdentifier_known ht hs hanswer
    | readThis env provider =>
      cases provider with
      | none =>
        obtain rfl := Except.ok.inj hanswer
        exact Value.among_of_primitive rfl _
      | some provider =>
        rw [perform, EvalM.readThis, EvalM.bind_apply, EvalM.ask_apply] at hanswer
        cases hthis : m.heap.locateThis env provider with
        | error e =>
          rw [hthis] at hanswer
          cases hanswer
        | ok this =>
          rw [hthis] at hanswer
          have hknown := hs.locateThis hthis
          cases this with
          | none =>
            obtain rfl := Except.ok.inj hanswer
            exact Value.among_of_primitive rfl _
          | some v =>
            obtain rfl := Except.ok.inj hanswer
            exact hknown _ (List.mem_singleton.2 rfl)
    | getProperty target name =>
      have hread : (EvalM.ask (fun _ h => h.getProperty target name) image m).1 =
          .ok (answer : Value) := hanswer
      rw [EvalM.ask_apply] at hread
      exact hs.getProperty (Except.mapError_eq_ok.1 hread)
    | callee v =>
      rw [perform, EvalM.callee] at hanswer
      cases hid : v.object? with
      | none =>
        rw [hid] at hanswer
        cases hanswer
      | some id =>
        rw [hid] at hanswer
        dsimp only at hanswer
        rw [EvalM.bind_apply, EvalM.ask_apply] at hanswer
        cases ho : m.heap.object id with
        | error e =>
          rw [ho] at hanswer
          cases hanswer
        | ok o =>
          rw [ho] at hanswer
          cases o with
          | function f =>
            obtain rfl := Except.ok.inj hanswer
            exact ⟨ha id hid, Closure.Sealed.among (hs.object id _ ho)⟩
          | _ => cases hanswer
    | definition f => exact trivial
    | _ => exact hasks.elim
  · cases a with
    | newEnvironment scope outer this =>
      rw [perform, EvalM.newEnvironment, EvalM.bind_of_ok EvalM.read_apply,
        EvalM.tryHeap_apply] at hanswer ⊢
      cases hrun : Heap.newEnvironment image.tree scope outer this m.heap with
      | mk r h' =>
        rw [hrun] at hanswer
        obtain rfl := Except.mapError_eq_ok.1 hanswer
        obtain ⟨-, e, he, -⟩ := Heap.newEnvironment_eq_ok hrun
        exact ⟨e.scope, .of_object (Heap.environment_eq_ok.1 he)⟩
    | allocate o =>
      obtain rfl := Except.ok.inj hanswer
      refine hs.known_allocate ?_
      cases o <;> first | rfl | exact ha.elim
    | instantiate node env => exact absurd rfl (hreach node env)
    | assign => exact trivial
    | writeBinding => exact trivial
    | setProperty => exact trivial
    | _ => exact absurd trivial hasks

end Actions

end ClosureCache
