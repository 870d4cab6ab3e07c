/-
Reading a binding from an environment and through the captures of a shared function.

A walk outwards that ends somewhere ends there in every later heap, so a binding stays
where it was found.  A capture that reads its binding by reference reads where the
environment of the reach does, from then on; any other one holds what the binding held
at the reach.
-/
import ClosureCache.Proofs.Evaluation.Lasting

namespace ClosureCache

def Location.holder : Location → ObjectId
  | .slot x _ => x
  | .captured g _ => g

namespace Heap

/-! ## What is stored -/

/-- What is stored where a binding was found, if it was found. -/
def storedAt? (h : Heap) : Except EvalError (Option Location) → Option (Option Value)
  | .ok (some location) => (h.contentsAt location).toOption
  | _ => none

/-- What a binding holds, seen from an environment: a value or a cell, or nothing yet. -/
def stored? (h : Heap) (tree : ScopeTree) (env : ObjectId) (b : BindingId) :
    Option (Option Value) :=
  h.storedAt? (h.locate tree env b)

/-- What a binding holds, read through the captures of a function. -/
def storedFor? (h : Heap) (function : ObjectId) (b : BindingId) : Option (Option Value) :=
  h.storedAt? (h.capturedLocation function b)

theorem stored?_eq_some {h : Heap} {tree : ScopeTree} {env : ObjectId} {b : BindingId}
    {raw : Option Value} : h.stored? tree env b = some raw ↔
      ∃ location, h.locate tree env b = .ok (some location) ∧ h.contentsAt location = .ok raw := by
  rw [stored?]
  have htoOption : ∀ x : Except HeapError (Option Value), x.toOption = some raw ↔ x = .ok raw := by
    intro x
    cases x <;> simp [Except.toOption]
  match h.locate tree env b with
  | .error e => simp [storedAt?]
  | .ok none => simp [storedAt?]
  | .ok (some location) => simp [storedAt?, htoOption]

/-! ## Captures by reference -/

/-- A capture reads whatever a location holds. -/
def RefersTo (h : Heap) (location : Location) (slot : CapturedSlot) : Prop :=
  match location with
  | .slot x i => slot = .binding x i
  | .captured g i => h.capturedSlot g i = .ok slot

section Reading

variable {R : Effects} {h h' : Heap} {tree : ScopeTree} {env f : ObjectId} {b : BindingId}
  {location : Location} {slot : CapturedSlot}

theorem RefersTo.contentsAt_eq (hr : h.RefersTo location slot) :
    h.contentsAt location = h.capturedContents slot := by
  cases location with
  | slot x i =>
    obtain rfl : slot = .binding x i := hr
    rfl
  | captured g i =>
    have hslot : h.capturedSlot g i = .ok slot := hr
    rw [contentsAt, hslot]

theorem capturedSlot_eq_ok {g : ObjectId} {i : Nat} : h.capturedSlot g i = .ok slot ↔
    ∃ f bindings this, h.function g = .ok f ∧ f.closure = .captured bindings this ∧
      ∃ b, bindings[i]? = some (b, slot) := by
  rw [capturedSlot]
  cases hg : h.function g with
  | error e => simp
  | ok f =>
    cases hclosure : f.closure with
    | chain x => simp [hclosure]
    | captured bindings this =>
      cases hi : bindings[i]? with
      | none => simp [hclosure, hi]
      | some entry => simp [hclosure, hi, Prod.ext_iff]

theorem slotAt_eq_ok {x : ObjectId} {i : Nat} {raw : Option Value} :
    h.slotAt x i = .ok raw ↔ ∃ e, h.environment x = .ok e ∧ e.slots[i]? = some raw := by
  rw [slotAt]
  cases h.environment x with
  | error e => simp
  | ok e =>
    dsimp only
    split
    · next hi => simp [hi]
    · next hi => simp [hi]

/-- What a capture by reference reads can still be read later on. -/
theorem Lasts.contents_of_refersTo (hl : Lasts R h h') (hr : h.RefersTo location slot)
    {raw : Option Value} (hraw : h.contentsAt location = .ok raw)
    (hin : h'.contains location.holder = true) :
    h'.RefersTo location slot ∧ ∃ raw', h'.capturedContents slot = .ok raw' := by
  have hslot : ∀ {x i}, h.slotAt x i = .ok raw → h'.contains x = true →
      ∃ raw', h'.slotAt x i = .ok raw' := by
    intro x i hraw hin
    obtain ⟨e, he, hi⟩ := slotAt_eq_ok.1 hraw
    obtain ⟨e', he', hsame, -⟩ := hl.environment x e hin he
    obtain ⟨hlt, -⟩ := Array.getElem?_eq_some_iff.1 hi
    exact ⟨_, slotAt_eq_ok.2 ⟨e', he', Array.getElem?_eq_getElem (hsame.size ▸ hlt)⟩⟩
  cases location with
  | slot x i =>
    obtain rfl : slot = .binding x i := hr
    exact ⟨rfl, hslot hraw hin⟩
  | captured g i =>
    obtain ⟨f, bindings, this, hf, hclosure, b, hi⟩ := capturedSlot_eq_ok.1 hr
    have hr' : h'.RefersTo (.captured g i) slot :=
      capturedSlot_eq_ok.2 ⟨f, bindings, this, hl.function g f hin hf, hclosure, b, hi⟩
    refine ⟨hr', ?_⟩
    rw [hr.contentsAt_eq] at hraw
    cases slot with
    | value contents => exact ⟨contents, rfl⟩
    | binding x j =>
      refine hslot hraw (hl.closure g f x hin hf ?_ ?_)
      · rw [hclosure]
        exact List.mem_append_left _ (List.mem_flatMap.2
          ⟨_, List.mem_of_getElem? hi, List.mem_singleton.2 rfl⟩)
      · obtain ⟨e, he, -⟩ := slotAt_eq_ok.1 hraw
        exact contains_of_environment he

/-! ## Walks that last -/

theorem contains_of_capturedLocation {g : ObjectId} {found : Option Location}
    (hlocate : h.capturedLocation g b = .ok found) : h.contains g = true := by
  rw [capturedLocation] at hlocate
  cases hg : h.function g with
  | error e =>
    rw [hg] at hlocate
    cases hlocate
  | ok f => exact contains_of_function hg

theorem environment_of_locateFrom {target : Binding} {n : Nat}
    (hlocate : h.locateFrom target n env = .ok (some location)) :
    ∃ e, h.environment env = .ok e := by
  cases n with
  | zero => cases hlocate
  | succ n =>
    rw [locateFrom] at hlocate
    cases he : h.environment env with
    | error e =>
      rw [he] at hlocate
      cases hlocate
    | ok e => exact ⟨e, rfl⟩

theorem contains_of_locateFrom {target : Binding} {n : Nat}
    (hlocate : h.locateFrom target n env = .ok (some location)) : h.contains env = true := by
  obtain ⟨e, he⟩ := environment_of_locateFrom hlocate
  exact contains_of_environment he

theorem Lasts.capturedLocation_eq (hl : Lasts R h h') {g : ObjectId}
    (hin : h'.contains g = true) (hlocate : h.capturedLocation g b = .ok (some location)) :
    h'.capturedLocation g b = .ok (some location) ∧ location.holder = g := by
  rw [capturedLocation] at hlocate ⊢
  cases hg : h.function g with
  | error e =>
    rw [hg] at hlocate
    cases hlocate
  | ok f =>
    rw [hg] at hlocate
    rw [hl.function g f hin hg]
    refine ⟨hlocate, ?_⟩
    dsimp only at hlocate
    split at hlocate
    · cases hlocate
    · obtain ⟨i, -, rfl⟩ := Option.map_eq_some_iff.1 (Except.ok.inj hlocate)
      rfl

/-- Where a binding was found from an environment it is found as long as the environment
is there, and what holds it is there as well. -/
theorem Lasts.locateFrom_eq (hl : Lasts R h h') {target : Binding} {n n' : Nat} (hn : n ≤ n')
    (hin : h'.contains env = true) (hlocate : h.locateFrom target n env = .ok (some location)) :
    h'.locateFrom target n' env = .ok (some location) ∧
      h'.contains location.holder = true := by
  induction n generalizing n' env with
  | zero => cases hlocate
  | succ n ih =>
    obtain ⟨n', rfl⟩ := Nat.exists_eq_add_of_le' (Nat.le_trans (Nat.succ_le_succ n.zero_le) hn)
    rw [locateFrom] at hlocate
    cases he : h.environment env with
    | error e =>
      rw [he] at hlocate
      cases hlocate
    | ok e =>
      rw [he] at hlocate
      dsimp only at hlocate
      obtain ⟨e', he', hsame, -⟩ := hl.environment env e hin he
      rw [locateFrom, he']
      dsimp only
      rw [hsame.scope, hsame.outer]
      split at hlocate
      · next hscope =>
        rw [if_pos hscope]
        obtain rfl := Option.some.inj (Except.ok.inj hlocate)
        exact ⟨rfl, hin⟩
      · next hscope =>
        rw [if_neg hscope]
        cases houter : e.outer with
        | outermost =>
          rw [houter] at hlocate
          cases hlocate
        | environment parent =>
          rw [houter] at hlocate
          refine ih (Nat.le_of_succ_le_succ hn) ?_ hlocate
          refine hl.outer env e parent hin he (houter ▸ List.mem_singleton.2 rfl) ?_
          exact contains_of_locateFrom hlocate
        | captures g =>
          rw [houter] at hlocate
          have hold : h.contains g = true := contains_of_capturedLocation hlocate
          have hin' := hl.outer env e g hin he (houter ▸ List.mem_singleton.2 rfl) hold
          obtain ⟨hlocate', rfl⟩ := hl.capturedLocation_eq hin' hlocate
          exact ⟨hlocate', hin'⟩

theorem Lasts.locate_eq (hl : Lasts R h h') (hin : h'.contains env = true)
    (hlocate : h.locate tree env b = .ok (some location)) :
    h'.locate tree env b = .ok (some location) ∧ h'.contains location.holder = true := by
  rw [locate] at hlocate ⊢
  split at hlocate
  · cases hlocate
  · next hb => exact hl.locateFrom_eq hl.size_le hin hlocate

theorem Adds.slotAt_eq {made : Object → Prop} (ha : Adds made h h') {x : ObjectId} {i : Nat}
    {raw : Option Value} (hraw : h.slotAt x i = .ok raw) : h'.slotAt x i = .ok raw := by
  obtain ⟨e, he, hi⟩ := slotAt_eq_ok.1 hraw
  exact slotAt_eq_ok.2 ⟨e, environment_eq_ok.2 (ha.object _ _ (environment_eq_ok.1 he) rfl), hi⟩

/-- What is found stays as it is while a heap is added to. -/
theorem Adds.stored?_eq {made : Object → Prop} (ha : Adds made h h') {raw : Option Value}
    (hraw : h.stored? tree env b = some raw) : h'.stored? tree env b = some raw := by
  obtain ⟨location, hlocate, hcontents⟩ := stored?_eq_some.1 hraw
  have hl : Lasts .any h h' := ha.lasts fun _ _ => ⟨fun _ _ => trivial, fun _ _ => trivial⟩
  have hin : h'.contains env = true := by
    have hold : h.contains env = true := by
      rw [locate] at hlocate
      split at hlocate
      · cases hlocate
      · exact contains_of_locateFrom hlocate
    rwa [ha.contains env (lt_of_contains hold)]
  refine stored?_eq_some.2 ⟨location, (hl.locate_eq hin hlocate).1, ?_⟩
  cases location with
  | slot x i => exact ha.slotAt_eq hcontents
  | captured g i =>
    rw [contentsAt] at hcontents ⊢
    cases hread : h.capturedSlot g i with
    | error e =>
      rw [hread] at hcontents
      cases hcontents
    | ok slot =>
      rw [hread] at hcontents
      obtain ⟨f, bindings, this, hf, hentry⟩ := capturedSlot_eq_ok.1 hread
      have hf' := function_eq_ok.2 (ha.object _ _ (function_eq_ok.1 hf) rfl)
      rw [capturedSlot_eq_ok.2 ⟨f, bindings, this, hf', hentry⟩]
      cases slot with
      | value contents => exact hcontents
      | binding x j => exact ha.slotAt_eq hcontents

/-! ## Capture tables -/

/-- What is final is captured as it is. -/
theorem captureSlot_of_final {declared : Binding} {x : ObjectId} {i : Nat} {raw : Option Value}
    (hraw : h.slotAt x i = .ok raw) (hfinal : declared.storage = .cell ∨
      raw ≠ none ∧ declared.kind.isProvisional = false) :
    h.captureSlot declared (.slot x i) = .ok (.value raw) := by
  rw [captureSlot, hraw]
  dsimp only
  rw [if_pos]
  rcases hfinal with hcell | ⟨hsome, hkind⟩
  · exact .inl hcell
  · right
    rw [hkind]
    cases raw with
    | none => exact absurd rfl hsome
    | some v => rfl

/-- A capture reads by reference, or it holds what the binding held, which is a cell or a
value for good. -/
theorem captureSlot_cases {declared : Binding} (hs : h.captureSlot declared location = .ok slot) :
    h.RefersTo location slot ∨ ∃ raw, slot = .value raw ∧ h.contentsAt location = .ok raw ∧
      (declared.storage = .cell ∨ raw.isSome = true ∧ declared.kind.isProvisional = false) := by
  cases location with
  | captured g i =>
    left
    rw [captureSlot] at hs
    cases hslot : h.capturedSlot g i with
    | error e =>
      rw [hslot] at hs
      cases hs
    | ok slot' =>
      rw [hslot] at hs
      obtain rfl := Except.ok.inj hs
      exact hslot
  | slot x i =>
    rw [captureSlot] at hs
    cases hraw : h.slotAt x i with
    | error e =>
      rw [hraw] at hs
      cases hs
    | ok raw =>
      rw [hraw] at hs
      dsimp only at hs
      split at hs
      · next hfinal =>
        obtain rfl := Except.ok.inj hs
        exact .inr ⟨raw, rfl, hraw, by simpa using hfinal⟩
      · obtain rfl := Except.ok.inj hs
        exact .inl rfl

theorem captureBinding_eq_ok (hslot : h.captureBinding tree env b = .ok slot) :
    ∃ declared location, tree.binding? b = some declared ∧
      h.locate tree env b = .ok (some location) ∧ h.captureSlot declared location = .ok slot := by
  rw [captureBinding] at hslot
  obtain ⟨declared, hd, hslot⟩ := Except.bind_eq_ok.1 hslot
  obtain ⟨found, hlocate, hslot⟩ := Except.bind_eq_ok.1 hslot
  cases found with
  | none => cases hslot
  | some location =>
    exact ⟨declared, location, ScopeTree.binding_eq_ok.1 (Except.mapError_eq_ok.1 hd), hlocate,
      hslot⟩

/-- The captures of a spec stand in its table, each as it was found from the environment,
and so does the only `this`. -/
theorem captureTable_spec {captures : List Capture} {this₀ this : Option Value}
    {bindings : List (BindingId × CapturedSlot)}
    (hrun : h.captureTable tree env captures this₀ = .ok (bindings, this)) :
    (∀ c ∈ captures, ∀ b, c.binding = some b → ∃ slot, (b, slot) ∈ bindings) ∧
      (∀ entry ∈ bindings, h.captureBinding tree env entry.1 = .ok entry.2 ∧
        ∃ c ∈ captures, c.binding = some entry.1) ∧
      ((∀ c ∈ captures, c.binding ≠ none) → this = this₀) ∧
      ∀ c ∈ captures, c.binding = none → (∀ c' ∈ captures, c'.binding = none → c' = c) →
        h.locateThis env c.source = .ok this := by
  induction captures generalizing this₀ bindings with
  | nil =>
    obtain ⟨rfl, rfl⟩ := Prod.mk.inj (Except.ok.inj hrun)
    exact ⟨fun c hc => absurd hc List.not_mem_nil, fun entry hentry =>
      absurd hentry List.not_mem_nil, fun _ => rfl, fun c hc => absurd hc List.not_mem_nil⟩
  | cons c rest ih =>
    rw [captureTable] at hrun
    cases hb : c.binding with
    | none =>
      rw [hb] at hrun
      obtain ⟨this₁, hthis, hrun⟩ := Except.bind_eq_ok.1 hrun
      obtain ⟨hfound, hentries, hkeep, hlast⟩ := ih hrun
      refine ⟨fun c' hc' b hb' => ?_, fun entry hentry => ?_, fun hnone => ?_,
        fun c' hc' hb' hsame => ?_⟩
      · rcases List.mem_cons.1 hc' with rfl | hc'
        · rw [hb] at hb'
          cases hb'
        · exact hfound c' hc' b hb'
      · obtain ⟨hentry, c', hc', hb'⟩ := hentries entry hentry
        exact ⟨hentry, c', List.mem_cons_of_mem _ hc', hb'⟩
      · exact absurd hb (hnone c List.mem_cons_self)
      · obtain rfl := hsame c List.mem_cons_self hb
        by_cases hin : ∃ c' ∈ rest, c'.binding = none
        · obtain ⟨d, hd, hbd⟩ := hin
          obtain rfl := hsame d (List.mem_cons_of_mem _ hd) hbd
          exact hlast d hd hbd fun d' hd' => hsame d' (List.mem_cons_of_mem _ hd')
        · rw [hkeep fun d hd hbd => hin ⟨d, hd, hbd⟩]
          exact Except.mapError_eq_ok.1 hthis
    | some b =>
      rw [hb] at hrun
      obtain ⟨slot, hslot, hrun⟩ := Except.bind_eq_ok.1 hrun
      obtain ⟨⟨bindings', this'⟩, hrest, hrun⟩ := Except.bind_eq_ok.1 hrun
      obtain ⟨rfl, rfl⟩ := Prod.mk.inj (Except.ok.inj hrun)
      obtain ⟨hfound, hentries, hkeep, hlast⟩ := ih hrest
      refine ⟨fun c' hc' b' hb' => ?_, fun entry hentry => ?_, fun hnone => ?_,
        fun c' hc' hb' hsame => ?_⟩
      · rcases List.mem_cons.1 hc' with rfl | hc'
        · obtain rfl := Option.some.inj (hb.symm.trans hb')
          exact ⟨slot, List.mem_cons_self⟩
        · obtain ⟨slot', hmem⟩ := hfound c' hc' b' hb'
          exact ⟨slot', List.mem_cons_of_mem _ hmem⟩
      · rcases List.mem_cons.1 hentry with rfl | hentry
        · exact ⟨hslot, c, List.mem_cons_self, hb⟩
        · obtain ⟨hentry, c', hc', hb'⟩ := hentries entry hentry
          exact ⟨hentry, c', List.mem_cons_of_mem _ hc', hb'⟩
      · exact hkeep fun c' hc' => hnone c' (List.mem_cons_of_mem _ hc')
      · rcases List.mem_cons.1 hc' with rfl | hc'
        · rw [hb] at hb'
          cases hb'
        · exact hlast c' hc' hb' fun d hd => hsame d (List.mem_cons_of_mem _ hd)

/-- A function reads a capture where its table says. -/
theorem storedFor?_eq {g : FunctionObject} {bindings : List (BindingId × CapturedSlot)}
    {this : Option Value} (hf : h.function f = .ok g)
    (hclosure : g.closure = .captured bindings this)
    (hmem : (b, slot) ∈ bindings) (hsame : ∀ entry ∈ bindings, entry.1 = b → entry.2 = slot) :
    h.storedFor? f b = (h.capturedContents slot).toOption := by
  have hfind : (bindings.findIdx? fun entry => entry.1 == b).isSome = true := by
    rw [List.findIdx?_isSome, List.any_eq_true]
    exact ⟨_, hmem, beq_self_eq_true b⟩
  obtain ⟨i, hi⟩ := Option.isSome_iff_exists.1 hfind
  obtain ⟨hlt, hkey, -⟩ := List.findIdx?_eq_some_iff_getElem.1 hi
  have hslot := hsame _ (List.getElem_mem hlt) (beq_iff_eq.1 hkey)
  have hread : h.capturedSlot f i = .ok slot := by
    refine capturedSlot_eq_ok.2 ⟨g, bindings, this, hf, hclosure, (bindings[i]).1, ?_⟩
    rw [List.getElem?_eq_getElem hlt, ← hslot]
  rw [storedFor?, capturedLocation, hf]
  dsimp only
  rw [hclosure]
  dsimp only
  rw [hi]
  show (h.contentsAt (.captured f i)).toOption = _
  rw [contentsAt, hread]

end Reading

end Heap

/-! ## What a key tells -/

section Key

variable {h h' : Heap} {tree : ScopeTree} {env env' : ObjectId} {b : BindingId} {d : Binding}
  {c : Capture} {k : KeyComponent}

theorem componentOfSlot_inj {raw raw' : Option Value}
    (heq : componentOfSlot raw = componentOfSlot raw') : raw = raw' := by
  cases raw with
  | none => cases raw' with
    | none => rfl
    | some v => cases v <;> cases heq
  | some v => cases raw' with
    | none => cases v <;> cases heq
    | some v' => rw [KeyComponent.ofValue_inj heq]

theorem Heap.liveScope_slot {raw : Option Value} :
    (h.liveScope tree env).slot b = .ok raw ↔ h.stored? tree env b = some raw := by
  rw [Heap.stored?_eq_some, liveScope]
  dsimp only
  cases h.locate tree env b with
  | error e => simp
  | ok location =>
    cases location with
    | none => simp
    | some location => simp [Except.mapError_eq_ok]

/-- What enters a key for a capture of a binding is what the binding holds. -/
theorem Capture.Takes.component_eq_ok (hc : c.Takes b d)
    (hk : c.component (h.liveScope tree env) = .ok k) : ∃ raw, h.stored? tree env b = some raw ∧
      (d.storage = .cell → ∃ x, raw = some (.object x) ∧ k = .cellRef x) ∧
      (d.storage = .slot → k = componentOfSlot raw) := by
  cases hc with
  | cell hb hstorage hmode =>
    obtain ⟨b', x, hb', hx, -, rfl⟩ := (component_cell hmode).1 hk
    obtain rfl := Option.some.inj (hb.symm.trans hb')
    refine ⟨_, Heap.liveScope_slot.1 hx, fun _ => ⟨x, rfl, rfl⟩, fun hslot => ?_⟩
    rw [hstorage] at hslot
    cases hslot
  | value hb hstorage hmode =>
    obtain ⟨b', raw, hb', hraw, rfl⟩ := (component_value hmode).1 hk
    obtain rfl := Option.some.inj (hb.symm.trans hb')
    refine ⟨raw, Heap.liveScope_slot.1 hraw, fun hcell => ?_, fun _ => rfl⟩
    rw [hstorage] at hcell
    cases hcell

/-- Where the same enters a key, a binding holds the same. -/
theorem Capture.Takes.stored_eq (hc : c.Takes b d)
    (hk : c.component (h.liveScope tree env) = .ok k)
    (hk' : c.component (h'.liveScope tree env') = .ok k) :
    ∃ raw, h.stored? tree env b = some raw ∧ h'.stored? tree env' b = some raw := by
  obtain ⟨raw, hraw, hcell, hslot⟩ := hc.component_eq_ok hk
  obtain ⟨raw', hraw', hcell', hslot'⟩ := hc.component_eq_ok hk'
  obtain rfl : raw = raw' := by
    cases hstorage : d.storage with
    | cell =>
      obtain ⟨x, rfl, rfl⟩ := hcell hstorage
      obtain ⟨x', rfl, heq⟩ := hcell' hstorage
      rw [KeyComponent.cellRef.inj heq]
    | slot => exact componentOfSlot_inj ((hslot hstorage).symm.trans (hslot' hstorage))
  exact ⟨raw, hraw, hraw'⟩

/-- What enters a key for a capture of `this` is the `this` of the provider. -/
theorem Capture.component_this (hmode : c.mode = .thisValue)
    (hk : c.component (h.liveScope tree env) = .ok k) :
    ∃ v, h.locateThis env c.source = .ok (some v) ∧ k = .ofValue v := by
  obtain ⟨v, hv, rfl⟩ := (component_thisValue hmode).1 hk
  refine ⟨v, ?_, rfl⟩
  dsimp only [Heap.liveScope] at hv
  split at hv
  · next this hthis => rw [hthis, Except.ok.inj hv]
  · cases hv

/-- Each capture of a spec enters equal keys with the same component. -/
theorem CaptureSpec.component_of_buildKey {spec : CaptureSpec} {live live' : LiveScope} {key : Key}
    (hk : spec.buildKey live = .ok key) (hk' : spec.buildKey live' = .ok key)
    (hc : c ∈ spec.captures) : ∃ k, c.component live = .ok k ∧ c.component live' = .ok k := by
  have h := components_of_buildKey hk
  have h' := components_of_buildKey hk'
  generalize key.components = l at h h'
  generalize spec.captures = cs at h h' hc
  induction cs generalizing l with
  | nil => cases hc
  | cons a cs ih =>
    obtain ⟨k, ks, hk, hks, rfl⟩ := Except.mapM_cons_eq_ok h
    obtain ⟨k', ks', hk', hks', heq⟩ := Except.mapM_cons_eq_ok h'
    obtain ⟨rfl, rfl⟩ := List.cons.inj heq
    rcases List.mem_cons.1 hc with rfl | hc
    · exact ⟨k, hk, hk'⟩
    · exact ih ks hks hks' hc

end Key

end ClosureCache
