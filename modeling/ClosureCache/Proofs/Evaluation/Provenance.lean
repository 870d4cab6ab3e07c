/-
Where the captures of instances come from.

An instance refers to an environment only because it was made, or an instance that it took
the capture from was made, when the binding was not yet settled; and it refers to the cell
of an environment only because an instance was made that captures the binding of the cell.
`Provenance` says so of a machine and the moments that led to it, and every request of a
client keeps it up.
-/
import ClosureCache.Proofs.Evaluation.Confinement
import ClosureCache.Proofs.Evaluation.Ownership

namespace ClosureCache

/-! ## Making instances -/

/-- A moment that makes an instance of a shared definition, from what is found in an
environment. -/
structure Moment.Builds (image : Image) (a : Moment) (env : ObjectId) (spec : CaptureSpec)
    (f : ObjectId) : Prop where
  action : ∃ node, a.action = .instantiate node env
  new : a.before.heap.entries.size ≤ f.index
  made : ∃ site closure, image.analysis.get? site = some (.memoized spec) ∧
    a.before.heap.captureClosure image.tree env spec = .ok closure ∧
    a.after.heap.function f = .ok ⟨site, closure⟩

/-- The instance that the moment makes captures a binding, which stands in a slot of an
environment. -/
def Moment.Captures (image : Image) (a : Moment) (b : BindingId) (x : ObjectId) (i : Nat) :
    Prop :=
  ∃ env spec f, a.Builds image env spec f ∧ (∃ c ∈ spec.captures, c.binding = some b) ∧
    a.before.heap.locate image.tree env b = .ok (some (.slot x i))

/-- A binding with a cell is settled, and one that has its value and is written by no
hoisted declaration. -/
def Heap.Settled (tree : ScopeTree) (h : Heap) (b : BindingId) (x : ObjectId) (i : Nat) : Prop :=
  ∃ d raw, tree.binding? b = some d ∧ h.slotAt x i = .ok raw ∧
    (d.storage = .cell ∨ raw ≠ none ∧ d.kind.isProvisional = false)

/-- A capture that refers to an environment was not settled when an instance was made, and
one that holds a cell is of the slot that the cell belongs to. -/
def CapturedSlot.Traced (image : Image) (past : List Moment) (owners : Owners) (b : BindingId) :
    CapturedSlot → Prop
  | value raw => ∀ c d, raw = some (.object c) → image.tree.binding? b = some d →
    d.storage = .cell → ∃ x i, owners c = some (x, i) ∧ ∃ a ∈ past, a.Captures image b x i
  | binding x i => ∃ a ∈ past, a.Captures image b x i ∧
    ¬ a.before.heap.Settled image.tree b x i

theorem CapturedSlot.Traced.mono {image : Image} {past past' : List Moment}
    {owners owners' : Owners} {b : BindingId} {slot : CapturedSlot}
    (hs : slot.Traced image past owners b) (hpast : ∀ a ∈ past, a ∈ past')
    (howners : owners.Le owners') : slot.Traced image past' owners' b := by
  cases slot with
  | value raw =>
    intro c d hraw hd hcell
    obtain ⟨x, i, howner, a, ha, hcaptures⟩ := hs c d hraw hd hcell
    exact ⟨x, i, howners c _ howner, a, hpast a ha, hcaptures⟩
  | binding x i =>
    obtain ⟨a, ha, hcaptures⟩ := hs
    exact ⟨a, hpast a ha, hcaptures⟩

namespace Heap

def Traced (image : Image) (past : List Moment) (owners : Owners) (h : Heap) : Prop :=
  ∀ f g bindings this, h.function f = .ok g → g.closure = .captured bindings this →
    ∀ entry ∈ bindings, entry.2.Traced image past owners entry.1

variable {image : Image} {past : List Moment} {owners : Owners} {h h' : Heap}

theorem traced_of_made (ht : h.Traced image past owners) {past' : List Moment} {owners' : Owners}
    (hpast : ∀ a ∈ past, a ∈ past') (howners : owners.Le owners')
    (hmade : ∀ f g, h'.function f = .ok g → h.function f = .ok g ∨
      ∀ bindings this, g.closure = .captured bindings this →
        ∀ entry ∈ bindings, entry.2.Traced image past' owners' entry.1) :
    h'.Traced image past' owners' := by
  intro f g bindings this hg hclosure entry hentry
  rcases hmade f g hg with hold | hnew
  · exact (ht f g bindings this hold hclosure entry hentry).mono hpast howners
  · exact hnew bindings this hclosure entry hentry

/-- A capture that an instance is made with has its origin in that moment, or is passed on
from another instance. -/
theorem captureBinding_traced (ht : image.tree.Proper) (ho : h.Owned image.tree owners)
    (htraced : h.Traced image past owners) {a : Moment} (ha : a.before.heap = h) {env : ObjectId}
    {b : BindingId} {slot : CapturedSlot}
    (hslot : h.captureBinding image.tree env b = .ok slot)
    (hcaptures : ∀ x i, h.locate image.tree env b = .ok (some (.slot x i)) →
      a.Captures image b x i) : slot.Traced image (past ++ [a]) owners b := by
  obtain ⟨d, location, hd, hlocate, hcapture⟩ := captureBinding_eq_ok hslot
  obtain ⟨target, htarget, hfound⟩ := locate_eq_some hlocate
  obtain rfl := Option.some.inj (hd.symm.trans htarget)
  have hlast : a ∈ past ++ [a] := List.mem_append_right _ (List.mem_singleton.2 rfl)
  rcases locateFrom_eq_some hfound with
    ⟨x, e, rfl, he, hscope⟩ | ⟨g, i, f, bindings, this, entry, rfl, hg, hclosure, hi⟩
  · rcases captureSlot_cases hcapture with hrefers | ⟨raw, rfl, hraw, -⟩
    · obtain rfl : slot = .binding x d.slot := hrefers
      refine ⟨a, hlast, hcaptures x _ hlocate, ?_⟩
      rintro ⟨d', raw, hd', hraw, hfinal⟩
      obtain rfl := Option.some.inj (hd.symm.trans hd')
      rw [captureSlot_of_final (ha ▸ hraw) hfinal] at hcapture
      cases hcapture
    · intro c d' hc hd' hcell
      obtain rfl := Option.some.inj (hd.symm.trans hd')
      obtain ⟨e', he', hslots⟩ := slotAt_eq_ok.1 hraw
      obtain rfl := Except.ok.inj (he.symm.trans he')
      obtain ⟨c', hc', howner⟩ := ho.environment x e he b d hd hscope.symm hcell
      rw [hslots, hc] at hc'
      obtain rfl := Value.object.inj (Option.some.inj (Option.some.inj hc'))
      exact ⟨x, d.slot, howner, a, hlast, hcaptures x _ hlocate⟩
  · rw [captureSlot] at hcapture
    have hread := Except.mapError_eq_ok.1 hcapture
    obtain ⟨f', bindings', this', hg', hclosure', b', hi'⟩ := capturedSlot_eq_ok.1 hread
    obtain rfl := Except.ok.inj (hg.symm.trans hg')
    obtain ⟨rfl, rfl⟩ := Closure.captured.inj (hclosure.symm.trans hclosure')
    obtain ⟨rfl, rfl⟩ := Prod.mk.inj (Option.some.inj (hi.symm.trans hi'))
    have hentry := htraced g f bindings this hg hclosure _ (List.mem_of_getElem? hi)
    rw [(ht.placed b d hd).1] at hentry
    exact hentry.mono (fun _ => List.mem_append_left _) fun _ _ hp => hp

end Heap

/-! ## States -/

/-- What instances refer to has its origin in the moments that led here. -/
structure Provenance (image : Image) (past : List Moment) (m : Machine) : Prop where
  confined : Confined image past m
  traced : ∃ owners, m.heap.Owned image.tree owners ∧ m.heap.Traced image past owners

namespace Provenance

variable {image : Image} {past : List Moment} {m m' : Machine}

/-- A later machine, after moments that made no instance. -/
theorem later (hp : Provenance image past m) {past' : List Moment}
    (hpast : ∀ a ∈ past, a ∈ past') (hc : Confined image past' m')
    (hl : m.heap.Lasts (.sparingCells image.tree fun _ => False) m'.heap) :
    Provenance image past' m' := by
  obtain ⟨owners, ho, ht⟩ := hp.traced
  exact ⟨hc, owners, ho.lasts hl,
    Heap.traced_of_made ht hpast (fun _ _ hp => hp) fun f g hg =>
      (hl.made f g hg).imp id fun hnew => hnew.2.elim⟩

end Provenance

/-- Any writes and new environments, but no new functions. -/
def Effects.withoutFunctions : Effects :=
  { Effects.any with
    makes := fun _ => False }

section Actions

variable {image : Image} {past : List Moment} {m : Machine}

/-- No action but opening an environment or reaching a definition concerns cells and
captures. -/
theorem Action.lasts_sparingCells (ht : image.tree.Proper) (a : Action)
    (hreach : ∀ node env, a ≠ .instantiate node env)
    (hopen : ∀ scope outer this, a ≠ .newEnvironment scope outer this) {K : Known}
    (ha : a.InputsKnown K) {makes : FunctionObject → Prop} :
    m.heap.Lasts (.sparingCells image.tree makes) (a.perform image m).2.heap := by
  by_cases hasks : a.Asks
  · rw [Action.perform_of_asks hasks]
    exact .refl ..
  · cases a with
    | assign env i v =>
      rw [perform, EvalM.assign]
      cases i.resolution with
      | binding b =>
        dsimp only
        rw [EvalM.writeBinding_heap]
        exact Heap.lasts_writeBinding_sparingCells ht env b _ v
      | «global» =>
        dsimp only
        rw [EvalM.bind_of_ok EvalM.read_apply, EvalM.onHeap_apply]
        exact Heap.lasts_setProperty _ _ v
      | unresolved => exact .refl ..
    | writeBinding env b name v =>
      rw [perform, EvalM.writeBinding_heap]
      exact Heap.lasts_writeBinding_sparingCells ht env b name v
    | newEnvironment scope outer this => exact absurd rfl (hopen scope outer this)
    | allocate o =>
      refine Heap.lasts_allocate_of_not_reader ?_
      cases o <;> first | rfl | exact ha.elim
    | setProperty target name v => exact Heap.lasts_setProperty _ _ v
    | instantiate node env => exact absurd rfl (hreach node env)
    | _ => exact absurd trivial hasks

namespace Provenance

variable (ht : image.tree.Proper) (hp : Provenance image past m)

include ht hp

/-- Reaching a definition makes at most one function, and the moment tells where its
captures come from. -/
theorem instantiate_traced (node : FunctionNode) (env : ObjectId) : ∃ owners,
    (EvalM.instantiate node env image m).2.heap.Owned image.tree owners ∧
      (EvalM.instantiate node env image m).2.heap.Traced image
        (past ++ [(Action.instantiate node env).moment image m]) owners := by
  obtain ⟨owners, ho, htraced⟩ := hp.traced
  have hadds := EvalM.instantiate_adds image m node env
  have hlasts : m.heap.Lasts (.sparingCells image.tree fun _ => True)
      (EvalM.instantiate node env image m).2.heap := by
    refine hadds.lasts ?_
    rintro o ⟨site, closure, rfl, -⟩
    exact ⟨fun e he => (by cases he), fun _ _ => trivial⟩
  refine ⟨owners, ho.lasts hlasts,
    Heap.traced_of_made htraced (fun _ => List.mem_append_left _) (fun _ _ hp => hp)
      fun f g hg => ?_⟩
  refine (hadds.plain f _ (Heap.function_eq_ok.1 hg) rfl).imp Heap.function_eq_ok.2 ?_
  rintro ⟨hnew, site, closure, heq, hmade⟩ bindings this hclosure entry hentry
  obtain rfl := Object.function.inj heq
  obtain rfl : closure = .captured bindings this := hclosure
  rcases hmade with hchain | ⟨spec, hspec, hcapture⟩
  · cases hchain
  · obtain ⟨⟨bindings', this'⟩, htable, hclosure⟩ := Except.bind_eq_ok.1 hcapture
    obtain ⟨rfl, rfl⟩ := Closure.captured.inj (Except.ok.inj hclosure)
    obtain ⟨hslot, c, hc, hb⟩ := (Heap.captureTable_spec htable).2.1 entry hentry
    refine Heap.captureBinding_traced ht ho htraced rfl hslot fun x i hlocate => ?_
    exact ⟨env, spec, f, ⟨⟨node, rfl⟩, hnew, site, _, hspec, hcapture, hg⟩, ⟨c, hc, hb⟩,
      hlocate⟩

theorem newEnvironment_traced (scope : ScopeId) (outer : Enclosure) (this : Option Value) :
    ∃ owners, (EvalM.newEnvironment scope outer this image m).2.heap.Owned image.tree owners ∧
      (EvalM.newEnvironment scope outer this image m).2.heap.Traced image past owners := by
  obtain ⟨owners, ho, htraced⟩ := hp.traced
  obtain ⟨owners', hle, ho'⟩ := ho.newEnvironment ht scope outer this
  rw [EvalM.newEnvironment, EvalM.bind_of_ok EvalM.read_apply, EvalM.tryHeap_apply]
  refine ⟨owners', ho', Heap.traced_of_made htraced (fun _ ha => ha) hle fun f g hg => .inl ?_⟩
  have hl : m.heap.Lasts .withoutFunctions
      (Heap.newEnvironment image.tree scope outer this m.heap).2 :=
    Heap.lasts_newEnvironment (fun _ _ => trivial) outer this
  exact (hl.made f g hg).resolve_right fun hnew => hnew.2

/-- Every action of a discreet evaluation keeps the account. -/
theorem action (a : Action) (ha : a.InputsKnown (m.heap.known image)) :
    Provenance image (past ++ [a.moment image m]) (a.perform image m).2 := by
  have hc := (hp.confined.action ht a ha).2.1
  by_cases hreach : ∃ node env, a = .instantiate node env
  · obtain ⟨node, env, rfl⟩ := hreach
    exact ⟨hc, hp.instantiate_traced ht node env⟩
  · by_cases hopen : ∃ scope outer this, a = .newEnvironment scope outer this
    · obtain ⟨scope, outer, this, rfl⟩ := hopen
      obtain ⟨owners, ho, htraced⟩ := hp.newEnvironment_traced ht scope outer this
      exact ⟨hc, owners, ho, Heap.traced_of_made htraced
        (fun _ => List.mem_append_left _) (fun _ _ hp => hp) fun f g hg => .inl hg⟩
    · exact hp.later (fun _ => List.mem_append_left _) hc
        (a.lasts_sparingCells ht (fun node env he => hreach ⟨node, env, he⟩)
          (fun scope outer this he => hopen ⟨scope, outer, this, he⟩) ha)

/-- So does a discreet course. -/
theorem course {α : Type} {out : Known → α → Prop} {c : Course α}
    (hdiscreet : c.Discreet out (m.heap.known image)) :
    Provenance image (past ++ c.moments image m) (c.run image m).2 := by
  have hinputs := (hp.confined.course ht hdiscreet).2.1.moments
  exact Course.history_along (J := Provenance image)
    (Q := fun a m => a.InputsKnown (m.heap.known image))
    (fun _ a _ hp ha => hp.action ht a ha) c past m
    (fun a ha => (hinputs a (List.mem_append_right _ ha)).inputsKnown) hp

omit ht in
theorem collectGarbage : Provenance image past (EvalM.collectGarbage image m).2 := by
  exact hp.later (fun _ ha => ha) hp.confined.collectGarbage.2 EvalM.collectGarbage_lasts

end Provenance

end Actions

/-! ## Runs -/

section Runs

variable {s₀ s : Session} {past : List Moment}

/-- A change of neither the objects nor the caches. -/
theorem Provenance.same {image : Image} {m m' : Machine} (hp : Provenance image past m)
    (hheap : m'.heap.entries = m.heap.entries) (hregistry : m'.registry = m.registry) :
    Provenance image past m' := by
  have hsize : m'.heap.entries.size = m.heap.entries.size := by rw [hheap]
  have hobject : ∀ x, m'.heap.object x = m.heap.object x := fun x => by
    rw [Heap.object, Heap.object, Heap.entry?, Heap.entry?, hheap]
  exact hp.later (fun _ ha => ha) (hp.confined.same hheap hregistry).2
    (.of_object_eq hsize hobject)

/-- An operation that neither starts an evaluation nor collects makes no environment and no
function. -/
theorem HostAction.lasts_sparingCells (ht : s.image.tree.Proper) {a : HostAction}
    (hcourse : a.course? s = none) {makes : FunctionObject → Prop} :
    s.machine.heap.Lasts (.sparingCells s.image.tree makes)
      (a.perform s.image s.machine).2.heap := by
  by_cases hset : ∃ name v, a = .setGlobal name v
  · obtain ⟨name, v, rfl⟩ := hset
    rw [perform, EvalM.map_apply, EvalM.setGlobal, EvalM.bind_of_ok EvalM.read_apply]
    cases s.image.tree.lookupLocal ScopeTree.global name with
    | none => exact Heap.lasts_setProperty (.object s.image.globalObject) name v
    | some b =>
      dsimp only
      rw [EvalM.writeBinding_heap]
      exact Heap.lasts_writeBinding_sparingCells ht _ b name v
  · exact a.lasts hcourse fun name v b ha => absurd ⟨name, v, ha⟩ hset

section Requests

variable (ht : s.image.tree.Proper) (hp : Provenance s.image past s.machine)

include ht hp

theorem HostAction.provenance (a : HostAction)
    (ha : Value.AllAmong (s.machine.heap.known s.image) (Request.act a).values) :
    Provenance s.image (past ++ a.moments s) (a.perform s.image s.machine).2 := by
  have hc := (a.confined ht hp.confined ha).2.1
  cases hcourse : a.course? s with
  | some start =>
    obtain ⟨c, m⟩ := start
    obtain ⟨hheap, hregistry⟩ := machine_of_course hcourse
    have hdiscreet := a.course_discreet ht hp.confined ha hcourse
    rw [perform_of_course hcourse, moments, hcourse]
    exact (hp.same (congrArg Heap.entries hheap) hregistry).course ht (hheap ▸ hdiscreet)
  | none =>
    by_cases hcollect : a = .collectGarbage
    · subst hcollect
      rw [perform, EvalM.map_apply, moments, hcourse]
      dsimp only
      rw [List.append_nil]
      exact hp.collectGarbage
    · exact hp.later (fun _ => List.mem_append_left _) hc (a.lasts_sparingCells ht hcourse)

/-- Every request of a client that passes what may be known keeps the account. -/
theorem Request.provenance (r : Request)
    (hr : Value.AllAmong (s.machine.heap.known s.image) r.values) :
    Provenance s.image (past ++ r.moments s) (r.perform s.image s.machine).2 := by
  rcases r.act_or_sameState s with ⟨a, heq, hmoments, ha⟩ | ⟨hstate, hmoments⟩
  · rw [heq, hmoments]
    exact a.provenance ht hp fun v hv => hr v (values_of_act ha v hv)
  · rw [hmoments, List.append_nil]
    exact hp.same hstate.entries hstate.registry

end Requests

/-- After loading there are no instances. -/
theorem provenance_of_load {p : Program} {config : Config}
    (hload : Session.load p config = .ok s) : Provenance s.image [] s.machine := by
  obtain ⟨ht, hc⟩ := confined_of_load hload
  obtain ⟨resolved, hloaded⟩ := Session.loaded hload
  have hglobals := hloaded.globals
  rw [← hloaded.tree] at hglobals
  obtain ⟨-, h₀, h₁, hpinned, hnew, hheap⟩ := setUpGlobals_eq_ok hglobals
  have hfirst : ∀ R : Effects, Heap.empty.Lasts R h₀ := fun R =>
    hpinned ▸ (Heap.lasts_allocate_of_not_reader rfl).trans (Heap.lasts_root _ _)
  have hlast : ∀ R : Effects, h₁.Lasts R s.machine.heap := fun R => hheap ▸ Heap.lasts_root _ _
  refine ⟨hc, ?_⟩
  obtain ⟨owners, -, ho⟩ :=
    ((Heap.owned_empty s.image.tree).lasts (hfirst (.sparingCells _ fun _ => True))).newEnvironment
      ht ScopeTree.global .outermost (some .undefined)
  rw [hnew] at ho
  refine ⟨owners, ho.lasts (hlast (.sparingCells _ fun _ => True)), fun f g bindings this hg => ?_⟩
  have hopens : h₀.Lasts .withoutFunctions (Heap.newEnvironment s.image.tree ScopeTree.global
      .outermost (some .undefined) h₀).2 := Heap.lasts_newEnvironment (fun _ _ => trivial) _ _
  rw [hnew] at hopens
  have hall := ((hfirst .withoutFunctions).trans hopens).trans (hlast .withoutFunctions)
  rcases hall.made f g hg with hold | ⟨-, hmakes⟩
  · exact absurd (Heap.lt_of_contains (Heap.contains_of_function hold)) (Nat.not_lt_zero _)
  · exact hmakes.elim

theorem DiscreetRun.provenance (hrun : DiscreetRun s₀ s past) (ht : s₀.image.tree.Proper)
    (hp : Provenance s₀.image [] s₀.machine) : Provenance s.image past s.machine := by
  induction hrun with
  | start => exact hp
  | step r hrun hr ih => exact r.provenance (hrun.image_eq ▸ ht) ih hr

end Runs

end ClosureCache
