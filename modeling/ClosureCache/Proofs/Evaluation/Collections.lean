/-
Collections always end.

A collection would go on for ever on a heap where a live entry of a weak map leads to an
object that is gone.  No evaluation, no operation of a cache and no collection leaves such
an entry, also where it fails: the heap is intact in every machine that a run passes
through.  So the collections that a host asks for end, and with proper caches compaction
after them does too.
-/
import ClosureCache.Proofs.Cache.IntactEntries
import ClosureCache.Proofs.Evaluation.Identity
import ClosureCache.Proofs.Evaluation.Plain

namespace ClosureCache

variable {image : Image} {m : Machine}

/-! ## Steps -/

/-- An action keeps entries intact if it adds no part of a trie by itself. -/
theorem Action.Plain.keepsIntact {a : Action} (ha : a.Plain) :
    m.heap.KeepsIntact (a.perform image m).2.heap :=
  ha.keeps .keepingIntact

/-- What a collection leaves is intact, compacted or not. -/
theorem EvalM.collectGarbage_intact (hi : m.heap.Intact) :
    (EvalM.collectGarbage image m).2.heap.Intact := by
  rcases EvalM.collectGarbage_spec image m rfl with ⟨hheap, -⟩ | ⟨keep, h, hc, hend⟩
  · rwa [hheap]
  · have hleft := hi.collected hc
    rcases hend with ⟨hheap, -⟩ | hcompact
    · rwa [hheap]
    · have hkeeps := m.registry.compactAll_keepsIntact h
      rw [hcompact] at hkeeps
      exact hleft.keepsIntact hkeeps

/-- A collection of an intact heap with proper caches succeeds. -/
theorem EvalM.collectGarbage_eq_ok {held : List Value} {past : List Moment} {labels : Labels}
    (ho : Orderly image held past m labels) (hi : m.heap.Intact) :
    ∃ stats, (EvalM.collectGarbage image m).1 = .ok stats := by
  obtain ⟨stats, h, hcollect⟩ := hi.exists_collect
  obtain ⟨keep, hc⟩ := Heap.collected_of_collect? hcollect
  obtain ⟨n, r', h', hcompact, -⟩ := (ho.proper.collect hc).1.compactAll_spec (fun _ => False)
    ho.fits
  refine ⟨stats, ?_⟩
  have hrun : collectHeap image m = (.ok stats, { m with
      heap := h }) := by
    rw [collectHeap, bind_of_ok heap_apply, hcollect]
    rfl
  rw [collectGarbage, bind_of_ok hrun, bind_of_ok (emit_apply _), bind_of_ok read_apply]
  dsimp only
  split
  · rw [bind_apply, compactCaches]
    dsimp only
    rw [hcompact]
    dsimp only [Except.mapError_ok]
    split
    · rw [bind_of_ok (emit_apply _)]
      rfl
    · rfl
  · rfl

/-- It takes away every object that is not reachable, and compaction brings none back. -/
theorem EvalM.collectGarbage_sweeps {held : List Value} {past : List Moment} {labels : Labels}
    (ho : Orderly image held past m labels) (hi : m.heap.Intact) {x : ObjectId}
    (hx : m.heap.contains x = true) (hgone : ¬ m.heap.Reachable x) :
    (EvalM.collectGarbage image m).2.heap.contains x = false := by
  rcases EvalM.collectGarbage_spec image m rfl with ⟨-, -, hnone⟩ | ⟨keep, h, hc, hend⟩
  · obtain ⟨stats, h, hcollect⟩ := hi.exists_collect
    rw [hcollect] at hnone
    cases hnone
  · have hswept : h.contains x = false := by
      rw [← Bool.not_eq_true, hc.contains_iff_reachable]
      exact hgone
    rcases hend with ⟨hheap, -⟩ | hcompact
    · rw [hheap, hswept]
    · obtain ⟨hP, -⟩ := ho.proper.collect hc
      obtain ⟨n, r', h', hrun, -, hext, -⟩ := hP.compactAll_spec (fun _ => False) ho.fits
      rw [hrun] at hcompact
      obtain ⟨-, hheap⟩ := Prod.mk.inj hcompact
      have hlt : x.index < h.entries.size := hc.size ▸ Heap.lt_of_contains hx
      rw [← hheap, hext.frame.contains_eq hlt, hswept]

/-! ## Runs -/

/-- A machine whose heap is intact, and stays so whatever is done next. -/
structure Machine.Collectable (image : Image) (m : Machine) : Prop where
  intact : m.heap.Intact
  /-- After an action of an evaluation, however it ends. -/
  step : ∀ a : Action, a.Plain → (a.perform image m).2.heap.Intact
  /-- After an insertion into any cache, however it ends. -/
  insert : ∀ (c : Cache) (key : Key) (f : ObjectId), (c.insert key f m.heap).2.2.Intact
  compact : (m.registry.compactAll m.heap).2.2.Intact
  collect : ∃ stats h, m.heap.collect? = some (stats, h) ∧ h.Intact

theorem Machine.collectable (hi : m.heap.Intact) : m.Collectable image where
  intact := hi
  step _ ha := hi.keepsIntact ha.keepsIntact
  insert c key f := hi.keepsIntact (c.insert_keepsIntact key f m.heap)
  compact := hi.keepsIntact (m.registry.compactAll_keepsIntact m.heap)
  collect := by
    obtain ⟨stats, h, hcollect⟩ := hi.exists_collect
    obtain ⟨keep, hc⟩ := Heap.collected_of_collect? hcollect
    exact ⟨stats, h, hcollect, hi.collected hc⟩

/-- The heap after loading is intact. -/
theorem Session.intact_of_load {p : Program} {config : Config} {s : Session}
    (hload : Session.load p config = .ok s) : s.machine.heap.Intact := by
  obtain ⟨resolved, h⟩ := Session.loaded hload
  have hkeeps := HeapM.Keeps.setUpGlobals Heap.EvalRelation.roots_keepingIntact resolved.tree .empty
  rw [h.globals] at hkeeps
  exact Heap.intact_empty.keepsIntact hkeeps

/-- The heap is intact before and after the moment, which is one of a plain action. -/
structure Moment.Intact (a : Moment) : Prop where
  plain : a.action.Plain
  before : a.before.heap.Intact
  after : a.after.heap.Intact

section Runs

variable {s₀ s : Session} {held : List Value} {past : List Moment}

theorem Course.Plain.intact {α : Type} {c : Course α} (hc : c.Plain) (hi : m.heap.Intact) :
    (c.run image m).2.heap.Intact ∧ ∀ a ∈ c.moments image m, a.Intact := by
  have hstep : ∀ past (a : Action) m, (m.heap.Intact ∧ ∀ x ∈ past, x.Intact) → a.Plain →
      (a.perform image m).2.heap.Intact ∧ ∀ x ∈ past ++ [a.moment image m], x.Intact := by
    rintro past a m ⟨hi, hpast⟩ ha
    have hafter : (a.perform image m).2.heap.Intact := hi.keepsIntact ha.keepsIntact
    refine ⟨hafter, fun x hx => ?_⟩
    rcases List.mem_append.1 hx with hx | hx
    · exact hpast x hx
    · obtain rfl := List.mem_singleton.1 hx
      exact ⟨ha, hi, hafter⟩
  exact Course.history_along (J := fun past m => m.heap.Intact ∧ ∀ x ∈ past, x.Intact)
    (Q := fun a _ => a.Plain) hstep c [] m (fun a ha => hc.moments a ha)
    ⟨hi, fun a ha => absurd ha List.not_mem_nil⟩

/-- Every operation of a host leaves the heap intact. -/
theorem HostAction.intact (hi : s.machine.heap.Intact) (a : HostAction) :
    (s.perform a.perform).2.machine.heap.Intact ∧ ∀ x ∈ a.moments s, x.Intact := by
  show (a.perform s.image s.machine).2.heap.Intact ∧ _
  cases hcourse : a.course? s with
  | some start =>
    obtain ⟨c, m⟩ := start
    rw [perform_of_course hcourse, moments, hcourse]
    exact (course_plain hcourse).intact ((machine_of_course hcourse).1 ▸ hi)
  | none =>
    rw [moments, hcourse]
    refine ⟨?_, fun x hx => absurd hx List.not_mem_nil⟩
    by_cases hcollect : a = .collectGarbage
    · subst hcollect
      rw [perform, EvalM.map_apply]
      exact EvalM.collectGarbage_intact hi
    · refine hi.keepsIntact
        (a.keeps .keepingIntact (fun h => h.keepsIntact_unroot) (fun v _ => ?_) hcollect)
      exact (EvalM.Keeps.retain Heap.EvalRelation.roots_keepingIntact v _ _).2

theorem HostRun.intact (hrun : HostRun s₀ s held past) (hi : s₀.machine.heap.Intact) :
    s.machine.heap.Intact ∧ ∀ a ∈ past, a.Intact := by
  induction hrun with
  | start => exact ⟨hi, fun a ha => absurd ha List.not_mem_nil⟩
  | step a _ _ ih =>
    obtain ⟨hend, hmoments⟩ := a.intact ih.1
    refine ⟨hend, fun x hx => ?_⟩
    rcases List.mem_append.1 hx with hx | hx
    · exact ih.2 x hx
    · exact hmoments x hx

/-- In every state that a run of a loaded program reaches, and before and after every action
of its evaluations, all entries of weak maps lead to objects of the heap; whatever is done
next leaves it so, and a collection that the host asks for succeeds. -/
theorem HostRun.collections_end {p : Program} {config : Config}
    (hload : Session.load p config = .ok s₀) (hrun : HostRun s₀ s held past) :
    s.machine.Collectable s.image ∧
      (∀ a ∈ past, a.action.Plain ∧ a.before.Collectable s.image ∧ a.after.Collectable s.image) ∧
      ∃ stats, (s.perform EvalM.collectGarbage).1 = .ok stats := by
  obtain ⟨hi, hpast⟩ := hrun.intact (Session.intact_of_load hload)
  obtain ⟨labels, ho⟩ := hrun.orderly (orderly_of_load hload)
  refine ⟨Machine.collectable hi, fun a ha => ?_, EvalM.collectGarbage_eq_ok ho hi⟩
  have hmoment := hpast a ha
  exact ⟨hmoment.plain, Machine.collectable hmoment.before, Machine.collectable hmoment.after⟩

end Runs

/-! ## A run with an entry for an object

The arrow of `arrowsOverArguments` is shared, so a call of `f` with an object leaves an
entry for the object in a weak map. -/

def passedObject : Value := .object ⟨13⟩

theorem passable_passedObject {s : Session} (hs : s.image.globalObject = ⟨0⟩)
    (hobject : (s.machine.heap.object ⟨13⟩).toOption = some (.ordinary ∅)) :
    s.Passable passedObject := by
  intro id hid
  obtain rfl : (⟨13⟩ : ObjectId) = id := Option.some.inj hid
  refine ⟨by rw [hs]; decide, .ordinary ∅, ?_, rfl⟩
  cases ho : s.machine.heap.object ⟨13⟩ with
  | error e =>
    rw [ho] at hobject
    cases hobject
  | ok o =>
    rw [ho] at hobject
    exact congrArg Except.ok (Option.some.inj hobject)

/-- The host runs the program, makes an object, keeps it, calls `f` with it and collects: the
cache of the arrow leads from the object to a node, before and after. -/
theorem collections_end_arrows : ∃ s₀ s held past,
    Session.load arrowsOverArguments .deterministic = .ok s₀ ∧ HostRun s₀ s held past ∧
      (⟨13⟩, .object ⟨17⟩) ∈ s.machine.heap.weakLinks ⟨18⟩ ∧
      s.machine.Collectable s.image ∧
      ∃ stats, (s.perform EvalM.collectGarbage).1 = .ok stats := by
  have hload : Session.load arrowsOverArguments .deterministic = .ok arrowsSession :=
    Except.eq_ok_get isSome_load_arrows
  have hprimitive : ∀ {s held} (a : HostAction), a.values = [] → (∀ v, a ≠ .release v) →
      a.Allowed s held := fun a hv hrelease =>
    .of_primitives (fun v hmem => by rw [hv] at hmem; exact absurd hmem List.not_mem_nil) hrelease
  have hpassed : ∀ {s held} (a : HostAction), a.values = [passedObject] → (∀ v, a ≠ .release v) →
      s.image.globalObject = ⟨0⟩ → (s.machine.heap.object ⟨13⟩).toOption = some (.ordinary ∅) →
      a.Allowed s held := fun a hv hrelease hglobal hobject => by
    refine ⟨fun v hmem => ?_, fun v ha => absurd ha (hrelease v)⟩
    rw [hv] at hmem
    obtain rfl := List.mem_singleton.1 hmem
    exact passable_passedObject hglobal hobject
  have hran : HostRun arrowsSession _ _ _ := .step (.run 9) .start
    (hprimitive _ rfl fun v hv => by cases hv)
  have hmade := hran.step (.newObject []) (hprimitive _ rfl fun v hv => by cases hv)
  have hkept := hmade.step (.retain passedObject)
    (hpassed _ rfl (fun v hv => by cases hv) (by decide +kernel) (by decide +kernel))
  have hcalled := hkept.step (.callGlobal 9 "f" [passedObject])
    (hpassed _ rfl (fun v hv => by cases hv) (by decide +kernel) (by decide +kernel))
  have hcollected := hcalled.step .collectGarbage (hprimitive _ rfl fun v hv => by cases hv)
  obtain ⟨hcollectable, -, hend⟩ := hcollected.collections_end hload
  exact ⟨_, _, _, _, hload, hcollected, by decide +kernel, hcollectable, hend⟩

end ClosureCache
