/-
What a key discriminates.

A key is built from what a live scope holds for each capture: the contents of a slot, the
identity of a cell, or a `this`.  Two live scopes agree on a capture if they hold the same
for it, and a definition has equal keys in two live scopes just if they agree on all of its
captures.  Nothing else in the live scopes takes part in it.

So what is in objects and cells takes no part either: whatever is written to them, as long
as environments and functions stay as they are, everything live in an environment stays as
it is, and with it every key.
-/
import ClosureCache.Proofs.Evaluation.Reading

namespace ClosureCache

/-! ## Agreement -/

/-- Two live scopes hold the same for a capture: slots with the same contents, slots with
the same cell, or the same `this`. -/
inductive LiveScope.Agree (live live' : LiveScope) (c : Capture) : Prop
  | value {b : BindingId} {raw : Option Value} : c.mode = .value → c.binding = some b →
    live.slot b = .ok raw → live'.slot b = .ok raw → Agree live live' c
  | cell {b : BindingId} {x : ObjectId} : c.mode = .cell → c.binding = some b →
    live.slot b = .ok (some (.object x)) → live.isCell x = true →
    live'.slot b = .ok (some (.object x)) → live'.isCell x = true → Agree live live' c
  | thisValue {v : Value} : c.mode = .thisValue → live.thisValue c.source = .ok v →
    live'.thisValue c.source = .ok v → Agree live live' c

section Agree

variable {live live' : LiveScope} {c : Capture} {k : KeyComponent}

/-- Live scopes agree on a capture if it has one component in both. -/
theorem LiveScope.agree_iff (hk : c.component live = .ok k) :
    live.Agree live' c ↔ c.component live' = .ok k := by
  constructor
  · intro h
    cases h with
    | @value b raw hmode hb hraw hraw' =>
      obtain ⟨b', raw', hb', hslot, rfl⟩ := (Capture.component_value hmode).1 hk
      obtain rfl := Option.some.inj (hb.symm.trans hb')
      obtain rfl := Except.ok.inj (hraw.symm.trans hslot)
      exact (Capture.component_value hmode).2 ⟨b, raw, hb, hraw', rfl⟩
    | @cell b x hmode hb hx hcell hx' hcell' =>
      obtain ⟨b', x', hb', hslot, -, rfl⟩ := (Capture.component_cell hmode).1 hk
      obtain rfl := Option.some.inj (hb.symm.trans hb')
      obtain rfl := Value.object.inj (Option.some.inj (Except.ok.inj (hx.symm.trans hslot)))
      exact (Capture.component_cell hmode).2 ⟨b, x, hb, hx', hcell', rfl⟩
    | @thisValue v hmode hv hv' =>
      obtain ⟨w, hw, rfl⟩ := (Capture.component_thisValue hmode).1 hk
      obtain rfl := Except.ok.inj (hv.symm.trans hw)
      exact (Capture.component_thisValue hmode).2 ⟨v, hv', rfl⟩
  · intro hk'
    cases hmode : c.mode with
    | value =>
      obtain ⟨b, raw, hb, hraw, rfl⟩ := (Capture.component_value hmode).1 hk
      obtain ⟨b', raw', hb', hraw', heq⟩ := (Capture.component_value hmode).1 hk'
      obtain rfl := Option.some.inj (hb.symm.trans hb')
      obtain rfl := componentOfSlot_inj heq
      exact .value hmode hb hraw hraw'
    | cell =>
      obtain ⟨b, x, hb, hx, hcell, rfl⟩ := (Capture.component_cell hmode).1 hk
      obtain ⟨b', x', hb', hx', hcell', heq⟩ := (Capture.component_cell hmode).1 hk'
      obtain rfl := Option.some.inj (hb.symm.trans hb')
      obtain rfl := KeyComponent.cellRef.inj heq
      exact .cell hmode hb hx hcell hx' hcell'
    | thisValue =>
      obtain ⟨v, hv, rfl⟩ := (Capture.component_thisValue hmode).1 hk
      obtain ⟨v', hv', heq⟩ := (Capture.component_thisValue hmode).1 hk'
      obtain rfl := KeyComponent.ofValue_inj heq
      exact .thisValue hmode hv hv'

/-- So they agree on a list of captures if these have the same components in both. -/
theorem LiveScope.agree_all_iff {cs : List Capture} {l : List KeyComponent}
    (hl : cs.mapM (Capture.component live) = .ok l) :
    (∀ c ∈ cs, live.Agree live' c) ↔ cs.mapM (Capture.component live') = .ok l := by
  induction cs generalizing l with
  | nil =>
    obtain rfl := Except.ok.inj hl
    exact ⟨fun _ => rfl, fun _ c hc => absurd hc List.not_mem_nil⟩
  | cons c cs ih =>
    obtain ⟨k, ks, hk, hks, rfl⟩ := Except.mapM_cons_eq_ok hl
    rw [List.forall_mem_cons, agree_iff hk, ih hks]
    constructor
    · rintro ⟨hk', hks'⟩
      rw [List.mapM_cons, hk', hks']
      rfl
    · intro h
      obtain ⟨k', ks', hk', hks', heq⟩ := Except.mapM_cons_eq_ok h
      obtain ⟨rfl, rfl⟩ := List.cons.inj heq
      exact ⟨hk', hks'⟩

end Agree

/-- A key is that of another live scope just if the two agree on every capture. -/
theorem CaptureSpec.buildKey_eq_ok_iff {spec : CaptureSpec} {live live' : LiveScope} {k : Key}
    (hk : spec.buildKey live = .ok k) :
    spec.buildKey live' = .ok k ↔ ∀ c ∈ spec.captures, live.Agree live' c := by
  rw [LiveScope.agree_all_iff (components_of_buildKey hk)]
  refine ⟨components_of_buildKey, fun h => ?_⟩
  rw [buildKey, h]
  rfl

/-! ## Contents -/

/-- The heap with other contents in its objects and cells: environments and functions are
what they were, and every other object is of the kind that it was. -/
structure Heap.Refilled (h h' : Heap) : Prop where
  size : h'.entries.size = h.entries.size
  object : ∀ x, h'.object x = h.object x ∨ ∃ o o', h.object x = .ok o ∧ h'.object x = .ok o' ∧
    o.isReader = false ∧ o'.kindName = o.kindName

/-- The name of a kind tells the kind. -/
theorem Object.isReader_eq_of_kindName_eq {o o' : Object} (h : o'.kindName = o.kindName) :
    o'.isReader = o.isReader := by
  cases o <;> cases o' <;> simp [kindName] at h <;> rfl

theorem Object.isCell_iff_of_kindName_eq {o o' : Object} (h : o'.kindName = o.kindName) :
    (∃ c, o' = cell c) ↔ ∃ c, o = cell c := by
  cases o <;> cases o' <;> simp [kindName] at h <;> simp

namespace Heap

variable {h h' : Heap}

theorem environment_of_not_reader {x : ObjectId} {o : Object} (hx : h.object x = .ok o)
    (ho : o.isReader = false) :
    h.environment x = .error (.kindMismatch x "environment" o.kindName) := by
  rw [environment, hx]
  cases o <;> first | rfl | cases ho

theorem function_of_not_reader {x : ObjectId} {o : Object} (hx : h.object x = .ok o)
    (ho : o.isReader = false) :
    h.function x = .error (.kindMismatch x "function" o.kindName) := by
  rw [function, hx]
  cases o <;> first | rfl | cases ho

theorem isCell_liveScope {tree : ScopeTree} {env x : ObjectId} :
    (h.liveScope tree env).isCell x = true ↔ ∃ c, h.object x = .ok (.cell c) := by
  rw [liveScope]
  dsimp only
  split
  · next c hc => simp [hc]
  · next hx => simpa using hx

namespace Refilled

variable (hr : h.Refilled h')

include hr

theorem environment_eq (x : ObjectId) : h'.environment x = h.environment x := by
  rcases hr.object x with heq | ⟨o, o', ho, ho', hreader, hkind⟩
  · rw [environment, environment, heq]
  · have hreader' := (Object.isReader_eq_of_kindName_eq hkind).trans hreader
    rw [environment_of_not_reader ho hreader, environment_of_not_reader ho' hreader', hkind]

theorem function_eq (x : ObjectId) : h'.function x = h.function x := by
  rcases hr.object x with heq | ⟨o, o', ho, ho', hreader, hkind⟩
  · rw [function, function, heq]
  · have hreader' := (Object.isReader_eq_of_kindName_eq hkind).trans hreader
    rw [function_of_not_reader ho hreader, function_of_not_reader ho' hreader', hkind]

theorem isCell_iff (x : ObjectId) :
    (∃ c, h'.object x = .ok (.cell c)) ↔ ∃ c, h.object x = .ok (.cell c) := by
  rcases hr.object x with heq | ⟨o, o', ho, ho', -, hkind⟩
  · rw [heq]
  · simpa [ho, ho'] using Object.isCell_iff_of_kindName_eq hkind

theorem capturedLocation_eq (g : ObjectId) (b : BindingId) :
    h'.capturedLocation g b = h.capturedLocation g b := by
  rw [capturedLocation, capturedLocation, hr.function_eq]

theorem locateFrom_eq (target : Binding) (n : Nat) (env : ObjectId) :
    h'.locateFrom target n env = h.locateFrom target n env := by
  induction n generalizing env with
  | zero => rfl
  | succ n ih =>
    rw [locateFrom, locateFrom, hr.environment_eq]
    simp only [ih, hr.capturedLocation_eq]

theorem locateThisFrom_eq (provider : ScopeId) (n : Nat) (env : ObjectId) :
    h'.locateThisFrom provider n env = h.locateThisFrom provider n env := by
  induction n generalizing env with
  | zero => rfl
  | succ n ih =>
    rw [locateThisFrom, locateThisFrom, hr.environment_eq]
    simp only [ih, hr.function_eq]

theorem slotAt_eq (x : ObjectId) (i : Nat) : h'.slotAt x i = h.slotAt x i := by
  rw [slotAt, slotAt, hr.environment_eq]

theorem contentsAt_eq (location : Location) : h'.contentsAt location = h.contentsAt location := by
  cases location with
  | slot x i => exact hr.slotAt_eq x i
  | captured g i =>
    rw [contentsAt, contentsAt, capturedSlot, capturedSlot, hr.function_eq]
    congr 1
    funext slot
    cases slot with
    | value contents => rfl
    | binding x j => exact hr.slotAt_eq x j

/-- What is live in an environment does not depend on what objects and cells contain. -/
theorem liveScope_eq (tree : ScopeTree) (env : ObjectId) :
    h'.liveScope tree env = h.liveScope tree env := by
  have hcell : (h'.liveScope tree env).isCell = (h.liveScope tree env).isCell := by
    funext x
    rw [Bool.eq_iff_iff, isCell_liveScope, isCell_liveScope, hr.isCell_iff]
  have hlocate : h'.locate tree env = h.locate tree env := by
    funext b
    rw [locate, locate, hr.size]
    simp only [hr.locateFrom_eq]
  have hcontents : h'.contentsAt = h.contentsAt := funext hr.contentsAt_eq
  have hthis : h'.locateThis env = h.locateThis env := by
    funext provider
    rw [locateThis, locateThis, hr.size, hr.locateThisFrom_eq]
  rw [liveScope, liveScope] at hcell ⊢
  rw [hlocate, hcontents, hthis]
  exact congrArg (LiveScope.mk _ _) hcell

end Refilled

/-- Writing a cell fills it with something else. -/
theorem refilled_setCellContents (h : Heap) (x : ObjectId) (v : Value) :
    h.Refilled (setCellContents x v h).2 := by
  rw [setCellContents]
  cases hx : h.cellContents x with
  | error e => exact ⟨rfl, fun _ => .inl rfl⟩
  | ok contents =>
    have ho := cellContents_eq_ok.1 hx
    refine ⟨size_setObject .., fun y => ?_⟩
    by_cases hyx : y = x
    · subst hyx
      exact .inr ⟨_, _, ho, object_setObject_self _ (contains_of_object ho), rfl, rfl⟩
    · exact .inl (object_setObject_of_ne _ hyx)

end Heap

/-! ## Keys -/

/-- The keys of a definition in two live scopes have one component for each capture, and are
equal just if the live scopes agree on every capture.  A live scope that agrees with the
first has its key, whatever else is in it; and what objects and cells contain makes no
difference to what key is built or why none is. -/
theorem CaptureSpec.key_eq_iff_agree {spec : CaptureSpec} {live live' : LiveScope} {k k' : Key}
    (hk : spec.buildKey live = .ok k) (hk' : spec.buildKey live' = .ok k') :
    k.arity = spec.captures.length ∧ k'.arity = spec.captures.length ∧
      (k = k' ↔ ∀ c ∈ spec.captures, live.Agree live' c) ∧
      (∀ other, (∀ c ∈ spec.captures, live.Agree other c) → spec.buildKey other = .ok k) ∧
      ∀ h h' : Heap, h.Refilled h' → ∀ tree env,
        spec.buildKey (h'.liveScope tree env) = spec.buildKey (h.liveScope tree env) := by
  refine ⟨arity_of_buildKey hk, arity_of_buildKey hk', ?_,
    fun other => (buildKey_eq_ok_iff hk).2, fun h h' hr tree env => by rw [hr.liveScope_eq]⟩
  rw [← buildKey_eq_ok_iff hk, hk']
  exact ⟨fun heq => heq ▸ rfl, fun heq => (Except.ok.inj heq).symm⟩

/-! ## Captures of three modes

At top level `x` is a `let` binding and `y` one with a cell, and a definition there captures
both of them and `this`. -/

def topLevelTree : ScopeTree where
  scopes := #[⟨⟨0⟩, .global, none, 0, false, none, #[⟨0⟩, ⟨1⟩], #[]⟩]
  bindings := #[⟨⟨0⟩, "x", ⟨0⟩, .letBinding, .slot, 0, 0, false⟩,
    ⟨⟨1⟩, "y", ⟨0⟩, .letBinding, .cell, 1, 0, false⟩]

def topLevelSpec : CaptureSpec where
  site := ⟨0⟩
  captures := [⟨some ⟨0⟩, "x", .value, ⟨0⟩⟩, ⟨some ⟨1⟩, "y", .cell, ⟨0⟩⟩,
    ⟨none, "this", .thisValue, ⟨0⟩⟩]

/-- The objects are the cell of `y`, the environment and its `this`. -/
def topLevelHeap (x y : Option Value) : Heap :=
  { Heap.empty with
    entries := #[some ⟨.cell y, 0⟩,
      some ⟨.environment ⟨⟨0⟩, .outermost, #[x, some (.object ⟨0⟩)], some (.object ⟨2⟩)⟩, 1⟩,
      some ⟨.ordinary ∅, 0⟩] }

/-- A key tells a binding without a value from one that is undefined, and does not tell what
is in a cell. -/
theorem key_ne_of_uninitialized : ∃ k k',
    topLevelSpec.buildKey ((topLevelHeap none none).liveScope topLevelTree ⟨1⟩) = .ok k ∧
      topLevelSpec.buildKey ((topLevelHeap (some .undefined) none).liveScope topLevelTree ⟨1⟩) =
        .ok k' ∧ k.arity = 3 ∧ k'.arity = 3 ∧ k ≠ k' ∧
      topLevelSpec.buildKey ((Heap.setCellContents ⟨0⟩ (.number 2)
        (topLevelHeap none none)).2.liveScope topLevelTree ⟨1⟩) = .ok k := by
  have hk : topLevelSpec.buildKey ((topLevelHeap none none).liveScope topLevelTree ⟨1⟩) =
      .ok ⟨[.primitive .uninitialized, .cellRef ⟨0⟩, .objectRef ⟨2⟩]⟩ := by decide
  have hk' : topLevelSpec.buildKey
      ((topLevelHeap (some .undefined) none).liveScope topLevelTree ⟨1⟩) =
      .ok ⟨[.primitive .undefined, .cellRef ⟨0⟩, .objectRef ⟨2⟩]⟩ := by decide
  have hslot : ((topLevelHeap none none).liveScope topLevelTree ⟨1⟩).slot ⟨0⟩ ≠
      ((topLevelHeap (some .undefined) none).liveScope topLevelTree ⟨1⟩).slot ⟨0⟩ := by decide
  obtain ⟨harity, harity', heq, -, hcontents⟩ := CaptureSpec.key_eq_iff_agree hk hk'
  refine ⟨_, _, hk, hk', harity, harity', fun h => ?_, ?_⟩
  · cases heq.1 h _ List.mem_cons_self with
    | value _ hb hraw hraw' =>
      obtain rfl := Option.some.inj hb
      exact hslot (hraw.trans hraw'.symm)
    | cell hmode => cases hmode
    | thisValue hmode => cases hmode
  · rw [hcontents _ _ (Heap.refilled_setCellContents _ ⟨0⟩ (.number 2)), hk]

end ClosureCache
