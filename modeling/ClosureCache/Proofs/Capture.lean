/-
What capture analysis says of a definition whose names are bound.

`Covers` is the contract of a spec: it captures every binding and every `this` from
outside that the body refers to, and nothing else, and what it captures by value is
never assigned.  A program that is loaded has such a spec for every definition that is
shared, under the site of the definition.
-/
import ClosureCache.Capture.Analysis
import ClosureCache.Proofs.Program.Bound
import ClosureCache.Proofs.SortedMap

namespace ClosureCache

/-- Where what is referred to is declared or supplied. -/
def Reference.home? (t : ScopeTree) : Reference → Option ScopeId
  | .binding b => (t.binding? b).map Binding.scope
  | .this p => some p
  | .dynamic => none

/-- The capture of a binding that is declared so. -/
inductive Capture.Takes (c : Capture) (b : BindingId) (d : Binding) : Prop
  | cell : c.binding = some b → d.storage = .cell → c.mode = .cell → Takes c b d
  | value : c.binding = some b → d.storage = .slot → c.mode = .value → d.mutable = false →
    Takes c b d

/-- The captures of a definition with the scope `own` whose body makes some references. -/
structure CaptureSpec.Covers (t : ScopeTree) (own : ScopeId) (references : List Reference)
    (spec : CaptureSpec) : Prop where
  sound : ∀ c ∈ spec.captures,
    (∃ b d, .binding b ∈ references ∧ t.binding? b = some d ∧ own ∉ t.outward d.scope ∧
      c.Takes b d) ∨
    (c.binding = none ∧ c.mode = .thisValue ∧ .this c.source ∈ references ∧
      own ∉ t.outward c.source)
  bindings : ∀ b d, .binding b ∈ references → t.binding? b = some d → own ∉ t.outward d.scope →
    ∃ c ∈ spec.captures, c.binding = some b
  this : ∀ p, .this p ∈ references → own ∉ t.outward p →
    (∃ c ∈ spec.captures, c.binding = none) ∧
      ∀ c ∈ spec.captures, c.binding = none → c.source = p

/-! ## The captures of a definition -/

section Captures

variable {t : ScopeTree} {site : SiteId} {own : ScopeId}

theorem Except.bind_eq_ok {ε α β : Type} {x : Except ε α} {f : α → Except ε β} {b : β} :
    (x >>= f) = .ok b ↔ ∃ a, x = .ok a ∧ f a = .ok b := by
  cases x with
  | error e => exact ⟨fun h => (by cases h), fun ⟨_, h, _⟩ => (by cases h)⟩
  | ok a =>
    refine ⟨fun h => ⟨a, rfl, h⟩, fun ⟨a', h, hf⟩ => ?_⟩
    obtain rfl := Except.ok.inj h
    exact hf

theorem Except.eq_ok_get {ε α : Type} {x : Except ε α} (hx : x.toOption.isSome = true) :
    x = .ok (x.toOption.get hx) := by
  cases x with
  | error e => cases hx
  | ok a => rfl

/-- A binding is captured if it is declared outside. -/
theorem captureOf?_spec {b : BindingId} {c? : Option Capture}
    (h : captureOf? t site own b = .ok c?) : ∃ d, t.binding? b = some d ∧
      (own ∈ t.outward d.scope ∧ c? = none ∨
        own ∉ t.outward d.scope ∧ ∃ c, c? = some c ∧ c.Takes b d) := by
  rw [captureOf?] at h
  split at h
  · cases h
  · next d hd =>
    refine ⟨d, ScopeTree.binding_eq_ok.1 hd, ?_⟩
    split at h
    · next hin => exact .inl ⟨ScopeTree.isWithin_iff.1 hin, (Except.ok.inj h).symm⟩
    · next hout =>
      refine .inr ⟨fun hin => hout (ScopeTree.isWithin_iff.2 hin), ?_⟩
      split at h
      · next hstorage => exact ⟨_, (Except.ok.inj h).symm, .cell rfl hstorage rfl⟩
      · next hstorage =>
        split at h
        · cases h
        · next hmutable =>
          exact ⟨_, (Except.ok.inj h).symm, .value rfl hstorage rfl (by simpa using hmutable)⟩

theorem capturesOf_spec {bs : List BindingId} {cs : List Capture}
    (h : capturesOf t site own bs = .ok cs) :
    (∀ c ∈ cs, ∃ b d, b ∈ bs ∧ t.binding? b = some d ∧ own ∉ t.outward d.scope ∧ c.Takes b d) ∧
      ∀ b d, b ∈ bs → t.binding? b = some d → own ∉ t.outward d.scope →
        ∃ c ∈ cs, c.binding = some b := by
  induction bs generalizing cs with
  | nil =>
    obtain rfl := Except.ok.inj h
    exact ⟨fun c hc => absurd hc List.not_mem_nil, fun b d hb => absurd hb List.not_mem_nil⟩
  | cons b rest ih =>
    obtain ⟨c?, hc, h⟩ := Except.bind_eq_ok.1 h
    obtain ⟨others, hothers, h⟩ := Except.bind_eq_ok.1 h
    obtain rfl := Except.ok.inj h
    obtain ⟨hsound, hcomplete⟩ := ih hothers
    obtain ⟨d, hd, hcase⟩ := captureOf?_spec hc
    refine ⟨fun c hmem => ?_, fun b' d' hb' hd' hout => ?_⟩
    · rcases List.mem_append.1 hmem with hmem | hmem
      · rcases hcase with ⟨-, rfl⟩ | ⟨hout, c', rfl, htakes⟩
        · cases hmem
        · obtain rfl := List.mem_singleton.1 hmem
          exact ⟨b, d, List.mem_cons_self, hd, hout, htakes⟩
      · obtain ⟨b', d', hb', hrest⟩ := hsound c hmem
        exact ⟨b', d', List.mem_cons_of_mem _ hb', hrest⟩
    · rcases List.mem_cons.1 hb' with rfl | hb'
      · rw [hd] at hd'
        obtain rfl := Option.some.inj hd'
        rcases hcase with ⟨hin, -⟩ | ⟨-, c', rfl, htakes⟩
        · exact absurd hin hout
        · refine ⟨c', List.mem_append_left _ (List.mem_singleton.2 rfl), ?_⟩
          cases htakes with
          | cell hb => exact hb
          | value hb => exact hb
      · obtain ⟨c', hc', hb'⟩ := hcomplete b' d' hb' hd' hout
        exact ⟨c', List.mem_append_right _ hc', hb'⟩

theorem mem_bindings {references : List Reference} {b : BindingId} :
    b ∈ (references.filterMap Reference.binding?).eraseDups ↔ .binding b ∈ references := by
  rw [List.mem_eraseDups, List.mem_filterMap]
  refine ⟨fun ⟨r, hr, hb⟩ => ?_, fun h => ⟨_, h, rfl⟩⟩
  cases r with
  | binding b' =>
    obtain rfl := Option.some.inj hb
    exact hr
  | _ => cases hb

theorem mem_providers {references : List Reference} {p : ScopeId} :
    p ∈ references.filterMap Reference.provider? ↔ .this p ∈ references := by
  rw [List.mem_filterMap]
  refine ⟨fun ⟨r, hr, hp⟩ => ?_, fun h => ⟨_, h, rfl⟩⟩
  cases r with
  | this p' =>
    obtain rfl := Option.some.inj hp
    exact hr
  | _ => cases hp

/-- A `this` from outside has the supplier that is nearest to the definition. -/
theorem Reference.Within.nearest (ht : t.Proper) {p : ScopeId}
    (hr : (Reference.this p).Within t own) (hout : own ∉ t.outward p) :
    t.Nearest Scope.providesThis own p := by
  obtain ⟨a, sc, ha, hin, hn⟩ := hr
  exact hn.from_outer ht hin hout

/-- What is referred to outside of a definition lies further out than the definition. -/
theorem Reference.Within.mem_outward (ht : t.Proper) {r : Reference} (hr : r.Within t own)
    {a : ScopeId} (ha : r.home? t = some a) (hout : own ∉ t.outward a) : a ∈ t.outward own := by
  obtain ⟨b, sc, hb, hin, hv⟩ := hr
  have hab : a ∈ t.outward b := by
    cases r with
    | binding x =>
      obtain ⟨d, hd, hscope⟩ := hv
      rw [home?, hd] at ha
      exact Option.some.inj ha ▸ hscope
    | this p => exact Option.some.inj ha ▸ hv.mem_outward ht
    | dynamic => cases ha
  exact (ht.outward_total hb hab hin).resolve_right hout

/-- The spec of a definition covers what its body refers to. -/
theorem specOf_covers (ht : t.Proper) {node : FunctionNode} {s : ScopeId}
    {references : List Reference}
    (hplaced : node.Placed t s own) (hwithin : ∀ r ∈ references, r.Within t own)
    {spec : CaptureSpec}
    (h : specOf t site own node.isArrow references = .ok spec) :
    spec.Covers t own references := by
  obtain ⟨captures, hcaptures, h⟩ := Except.bind_eq_ok.1 h
  obtain rfl := Except.ok.inj h
  obtain ⟨hsound, hcomplete⟩ := capturesOf_spec hcaptures
  have hnone : ∀ c ∈ captures, c.binding ≠ none := by
    intro c hc hb
    obtain ⟨b, d, -, -, -, htakes⟩ := hsound c hc
    cases htakes with
    | cell hb' => rw [hb] at hb'; cases hb'
    | value hb' => rw [hb] at hb'; cases hb'
  generalize hinherited : (if node.isArrow then
    thisCapture t own (references.filterMap Reference.provider?) else none) = inherited
  have hthis : ∀ c ∈ inherited, c.binding = none ∧ c.mode = .thisValue ∧
      .this c.source ∈ references ∧ own ∉ t.outward c.source := by
    intro c hc
    rw [← hinherited] at hc
    split at hc
    · obtain ⟨p, hp, rfl⟩ := Option.map_eq_some_iff.1 hc
      refine ⟨rfl, rfl, mem_providers.1 (List.mem_of_find?_eq_some hp), fun hin => ?_⟩
      have := List.find?_some hp
      rw [ScopeTree.isWithin_iff.2 hin] at this
      cases this
    · cases hc
  refine ⟨fun c hc => ?_, fun b d hb hd hout => ?_, fun p hp hout => ?_⟩
  · rcases List.mem_append.1 hc with hc | hc
    · obtain ⟨b, d, hb, hrest⟩ := hsound c hc
      exact .inl ⟨b, d, mem_bindings.1 hb, hrest⟩
    · exact .inr (hthis c (Option.mem_toList.1 hc))
  · obtain ⟨c, hc, hcb⟩ := hcomplete b d (mem_bindings.2 hb) hd hout
    exact ⟨c, List.mem_append_left _ hc, hcb⟩
  · have hnearest := (hwithin _ hp).nearest ht hout
    refine ⟨?_, fun c hc hcb => ?_⟩
    · -- a function that is no arrow supplies `this` itself
      obtain ⟨sc, hown, hkind, -, harrow⟩ := hplaced.opened
      have harrow : node.isArrow = true := by
        cases ha : node.isArrow with
        | true => rfl
        | false =>
          have hprovides : sc.providesThis = true := by
            rw [Scope.providesThis, hkind, harrow, ha]
            rfl
          obtain rfl := hnearest.unique (.here hown hprovides)
          exact absurd (t.self_mem_outward p) hout
      have hsome : ((references.filterMap Reference.provider?).find?
          fun p => !t.isWithin p own).isSome = true := by
        rw [List.find?_isSome]
        refine ⟨p, mem_providers.2 hp, ?_⟩
        rw [Bool.not_eq_true', ← Bool.not_eq_true, ScopeTree.isWithin_iff]
        exact hout
      obtain ⟨q, hq⟩ := Option.isSome_iff_exists.1 hsome
      refine ⟨⟨none, "this", .thisValue, q⟩, List.mem_append_right _ ?_, rfl⟩
      rw [← hinherited, if_pos harrow, thisCapture, hq]
      exact List.mem_singleton.2 rfl
    · rcases List.mem_append.1 hc with hc | hc
      · exact absurd hcb (hnone c hc)
      · obtain ⟨-, -, hsource, hout'⟩ := hthis c (Option.mem_toList.1 hc)
        exact ((hwithin _ hsource).nearest ht hout').unique hnearest

end Captures

end ClosureCache
