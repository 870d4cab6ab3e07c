/-
What refers to cells and environments.

A sealed heap has few ways to what serves the machine.  A cell is referred to by the slot
of its environment, and by instances that captured its binding; an instance refers to an
environment only to read a capture there; and the parts of caches refer to neither.
-/
import ClosureCache.Proofs.Cache.Links
import ClosureCache.Proofs.Evaluation.Ownership

namespace ClosureCache

theorem mem_objectOf {raw : Option Value} {y : ObjectId} :
    y ∈ objectOf raw ↔ raw = some (.object y) := by
  cases raw with
  | none => exact ⟨fun hy => absurd hy List.not_mem_nil, fun hraw => by cases hraw⟩
  | some v => rw [Value.objectOf_some, Value.object?_eq_some, Option.some_inj]

theorem Value.AllAmong.of_objectsOf {K : Known} {l : List Value} {y : ObjectId}
    (hl : AllAmong K l) (hy : y ∈ objectsOf l) : K.objects y := by
  obtain ⟨v, hv, hobject⟩ := mem_objectsOf.1 hy
  exact hl v hv y hobject

section References

variable {image : Image} {h : Heap} {x y : ObjectId} {o : Object}

/-- Only for a binding with a cell something is stored that is no value of the program: the
cell. -/
theorem Binding.Seals.of_not_value {d : Binding} {raw : Option Value}
    (hraw : d.Seals image h raw) (hy : y ∈ objectOf raw) (ho : h.object y = .ok o)
    (hrole : o.role ≠ .value) : d.storage = .cell ∧ o.role = .cell := by
  rw [Seals] at hraw
  cases hstorage : d.storage with
  | slot =>
    rw [hstorage] at hraw
    exact absurd ((hraw.of_objectsOf hy).2.role o ho) hrole
  | cell =>
    rw [hstorage] at hraw
    obtain ⟨c, rfl, hc⟩ := hraw
    obtain rfl := Value.object.inj (Option.some.inj (mem_objectOf.1 hy))
    exact ⟨rfl, hc.role o ho⟩

namespace Heap

def IsInstance (h : Heap) (x : ObjectId) : Prop :=
  ∃ f bindings this, h.function x = .ok f ∧ f.closure = .captured bindings this

/-- The parts of caches refer to parts of caches and to values of the program. -/
theorem WellLinked.role_of_strong (hg : h.WellLinked) (hx : h.IsPart x) (hy : y ∈ h.strongRefs x)
    (ho : h.object y = .ok o) : o.role = .part ∨ o.role = .value := by
  obtain ⟨part, hpart, hkind⟩ := hx
  obtain ⟨e, he, rfl⟩ := entry?_of_object hpart
  rw [strongRefs_of_some he] at hy
  exact (hg x _ y hpart (Object.mem_linked_of_strongRefs hkind hy)).imp (·.role o ho) (·.role o ho)

theorem WellLinked.role_of_weak (hg : h.WellLinked) {key : ObjectId}
    (hy : (key, .object y) ∈ h.weakLinks x) (ho : h.object y = .ok o) :
    o.role = .part ∨ o.role = .value := by
  cases he : h.entry? x with
  | none =>
    rw [weakLinks, he] at hy
    exact absurd hy List.not_mem_nil
  | some e =>
    rw [weakLinks_of_some he] at hy
    have hlink := hg x _ y (object_of_some he) (Object.mem_linked_of_weakEntries hy)
    exact hlink.imp (·.role o ho) (·.role o ho)

namespace Sealed

variable (hs : h.Sealed image)

include hs

/-- A closure refers to what is no value of the program by a capture, unless it is the
environment that the closure was made in. -/
theorem refs_closure {f : FunctionObject} (hf : h.function x = .ok f) (hy : y ∈ f.closure.refs)
    (ho : h.object y = .ok o) (hrole : o.role ≠ .value) :
    f.closure = .chain y ∧ (∃ scope, o.role = .environment scope) ∨
      ∃ bindings this, f.closure = .captured bindings this ∧
        ∃ entry ∈ bindings, y ∈ entry.2.refs ∧ entry.2.Sealed image h entry.1 := by
  have hsealed := hs.function hf
  cases hclosure : f.closure with
  | chain env =>
    rw [hclosure] at hsealed hy
    obtain rfl := List.mem_singleton.1 hy
    obtain ⟨scope, hwas⟩ := hsealed
    exact .inl ⟨rfl, scope, hwas.role o ho⟩
  | captured bindings this =>
    rw [hclosure] at hsealed hy
    rcases List.mem_append.1 hy with hy | hy
    · obtain ⟨entry, hentry, hy⟩ := List.mem_flatMap.1 hy
      exact .inr ⟨bindings, this, rfl, entry, hentry, hy, hsealed.1 entry hentry⟩
    · exact absurd ((hsealed.2.of_objectsOf hy).2.role o ho) hrole

/-- An instance refers to an environment only to read a capture there. -/
theorem instance_refs_environment {f : FunctionObject}
    {bindings : List (BindingId × CapturedSlot)} {this : Option Value}
    (hf : h.function x = .ok f) (hclosure : f.closure = .captured bindings this)
    (hy : y ∈ f.closure.refs) {e : Environment} (he : h.environment y = .ok e) :
    ∃ b i, (b, .binding y i) ∈ bindings := by
  have ho := environment_eq_ok.1 he
  rcases hs.refs_closure hf hy ho (fun hrole => by cases hrole) with
    ⟨hchain, -⟩ | ⟨bindings', this', hclosure', ⟨b, slot⟩, hentry, hy, hslot⟩
  · rw [hclosure] at hchain
    cases hchain
  · obtain ⟨rfl, rfl⟩ := Closure.captured.inj (hclosure.symm.trans hclosure')
    cases slot with
    | value raw =>
      obtain ⟨d, -, hseals⟩ := hslot
      cases (hseals.of_not_value hy ho fun hrole => by cases hrole).2
    | binding z i =>
      obtain rfl := List.mem_singleton.1 hy
      exact ⟨b, i, hentry⟩

/-- Apart from the parts of caches, what refers to a cell is an environment, by a slot, or
an instance, by a capture of a binding with a cell. -/
theorem refs_cell {c : Object} (hx : h.object x = .ok c) (hpart : c.isPart = false)
    (hy : y ∈ c.strongRefs) (ho : h.object y = .ok o) (hrole : o.role = .cell) :
    (∃ (e : Environment) (i : Nat), h.environment x = .ok e ∧
        e.slots[i]? = some (some (.object y))) ∨
      ∃ f bindings this b d, h.function x = .ok f ∧ f.closure = .captured bindings this ∧
        (b, .value (some (.object y))) ∈ bindings ∧ image.tree.binding? b = some d ∧
        d.storage = .cell := by
  have hvalue : o.role ≠ .value := fun heq => by
    rw [hrole] at heq
    cases heq
  have hsealed := hs.object x c hx
  have hknown : ¬ (h.known image).objects y := fun hy => hvalue (hy.2.role o ho)
  cases c with
  | ordinary properties => exact absurd (hsealed.of_objectsOf hy) hknown
  | array elements => exact absurd (hsealed.of_objectsOf hy) hknown
  | cell contents => exact absurd (hsealed.of_objectsOf hy) hknown
  | suspended callee arguments =>
    rcases List.mem_cons.1 hy with rfl | hy
    · exact absurd hsealed.1 hknown
    · exact absurd (hsealed.2.of_objectsOf hy) hknown
  | environment e =>
    rcases List.mem_append.1 hy with hy | hy
    · rcases List.mem_append.1 hy with hy | hy
      · have houter := hsealed.outer
        cases hout : e.outer with
        | outermost =>
          rw [hout] at hy
          exact absurd hy List.not_mem_nil
        | environment z =>
          rw [hout] at hy houter
          obtain rfl := List.mem_singleton.1 hy
          obtain ⟨scope, hwas⟩ := houter
          rw [hwas.role o ho] at hrole
          cases hrole
        | captures f =>
          rw [hout] at hy houter
          obtain rfl := List.mem_singleton.1 hy
          exact absurd houter hknown
      · obtain ⟨raw, hraw, hy⟩ := List.mem_flatMap.1 hy
        obtain ⟨i, hi⟩ := List.getElem?_of_mem hraw
        rw [mem_objectOf.1 hy, Array.getElem?_toList] at hi
        exact .inl ⟨e, i, environment_eq_ok.2 hx, hi⟩
    · exact absurd (hsealed.this.of_objectsOf hy) hknown
  | function f =>
    have hf := function_eq_ok.2 hx
    rcases hs.refs_closure hf hy ho hvalue with
      ⟨-, scope, henv⟩ | ⟨bindings, this, hclosure, ⟨b, slot⟩, hentry, hy, hslot⟩
    · rw [hrole] at henv
      cases henv
    · cases slot with
      | value raw =>
        obtain ⟨d, hd, hseals⟩ := hslot
        obtain rfl := mem_objectOf.1 hy
        exact .inr ⟨f, bindings, this, b, d, hf, hclosure, hentry, hd,
          (hseals.of_not_value hy ho hvalue).1⟩
      | binding z i =>
        obtain rfl := List.mem_singleton.1 hy
        obtain ⟨d, -, -, hwas⟩ := hslot
        rw [hwas.role o ho] at hrole
        cases hrole
  | tuple => cases hpart
  | strongMap => cases hpart
  | weakMap => cases hpart

/-- A cell in a slot belongs to it. -/
theorem owner_of_slot {owners : Owners} (hown : h.Owned image.tree owners) {e : Environment}
    {i : Nat} (he : h.environment x = .ok e) (hi : e.slots[i]? = some (some (.object y)))
    (ho : h.object y = .ok o) (hrole : o.role ≠ .value) : owners y = some (x, i) := by
  obtain ⟨b, d, hd, hscope, rfl, hseals⟩ := (hs.environment he).slots i _ hi
  have hcell := (hseals.of_not_value (mem_objectOf.2 rfl) ho hrole).1
  obtain ⟨c, hc, howner⟩ := hown.environment x e he b d hd hscope hcell
  obtain rfl := Value.object.inj (Option.some.inj (Option.some.inj (hi.symm.trans hc)))
  exact howner

end Sealed

end Heap

end References

end ClosureCache
