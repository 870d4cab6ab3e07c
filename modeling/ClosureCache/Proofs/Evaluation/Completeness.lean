/-
The capture analysis is complete for the evaluator.

Every operation of a host keeps the machine sound, so that over a whole run every
evaluation is safe: what the program looks for is found around the environment or among
the captures of a shared function, and no evaluation fails for a reason that lies in the
machine.
-/
import ClosureCache.Proofs.Evaluation.Evaluator
import ClosureCache.Proofs.Evaluation.SoundSessions

namespace ClosureCache

open Heap

/-! ## Names at top level -/

section Globals

variable {image : Image} {m : Machine}

/-- A name that the program declares at top level has its slot in the global environment. -/
theorem Machine.Sound.walkEnds_global (hi : image.Sound) (hm : m.Sound image) {name : String}
    {b : BindingId} (hb : image.tree.lookupLocal ScopeTree.global name = some b) :
    ∃ d, image.tree.binding? b = some d ∧
      m.heap.WalkEnds d.scope image.globalEnvironment (.environment image.globalEnvironment) := by
  obtain ⟨d, hd, hscope⟩ := hi.proper.lookupLocal_spec hb
  obtain ⟨e, he, hglobal⟩ := hm.environment
  exact ⟨d, hd, .here he (hglobal.trans hscope.symm)⟩

/-- The value of a name at top level is live. -/
theorem Machine.Sound.live_global (hi : image.Sound) (hm : m.Sound image) {name : String}
    {v : Value} (hv : Session.global? ⟨image, m⟩ name = some v) : v.Live m.heap := by
  rw [Session.global?] at hv
  dsimp only at hv
  cases hlookup : image.tree.lookupLocal ScopeTree.global name with
  | some b =>
    rw [hlookup] at hv
    dsimp only at hv
    obtain ⟨d, hd, hl⟩ := hm.walkEnds_global hi hlookup
    have hsees : m.heap.Sees image image.globalEnvironment (.binding b) := by
      intro a ha
      rw [Reference.home?, hd] at ha
      obtain rfl := Option.some.inj ha
      exact ⟨_, hl, .binding⟩
    rcases hm.typed.readBinding hi hd hsees name with ⟨w, hw, hlive⟩ | hw
    · rw [hw] at hv
      exact Option.some.inj hv ▸ hlive
    · rw [hw] at hv
      cases hv
  | none =>
    rw [hlookup] at hv
    dsimp only at hv
    obtain ⟨entry, he, -⟩ := hm.pinned _ (.inr rfl)
    have ho := object_of_some he
    rw [ho] at hv
    cases hobject : entry.object with
    | ordinary properties =>
      rw [hobject] at hv ho
      intro id hid
      refine (hm.typed _ _ ho rfl).live id (mem_objectsOf.2 ⟨v, ?_, hid⟩)
      exact List.mem_map.2 ⟨_, SortedMap.mem_toList_iff.2 hv, rfl⟩
    | _ =>
      rw [hobject] at hv
      cases hv

theorem EvalM.setGlobal_gives (hi : image.Sound) (hm : m.Sound image) (name : String) {v : Value}
    (hv : v.Live m.heap) : Gives image m (setGlobal name v) fun _ _ => True := by
  cases hlookup : image.tree.lookupLocal ScopeTree.global name with
  | some b =>
    have hrun : setGlobal name v image m =
        EvalM.writeBinding image.globalEnvironment b name v image m := by
      rw [setGlobal, bind_of_ok read_apply, hlookup]
    obtain ⟨d, hd, hl⟩ := hm.walkEnds_global hi hlookup
    have hlocate : m.heap.locate image.tree image.globalEnvironment b =
        .ok (some (.slot image.globalEnvironment d.slot)) := hl.locate_eq hm.typed.descends hd
    have hfinds : m.heap.Finds image image.globalEnvironment b
        (.slot image.globalEnvironment d.slot) := .slot hd hl
    refine .congr hrun (writeBinding_gives hi hm hd hlocate (hfinds.fits hm.typed hd) ?_ name hv)
    exact fun _ g i he => by cases he
  | none =>
    have hrun : setGlobal name v image m =
        onHeap (Heap.setProperty (.object image.globalObject) name v) image m := by
      rw [setGlobal, bind_of_ok read_apply, hlookup]
    refine .congr hrun (setProperty_gives hm (fun id hid => ?_) hv name)
    obtain rfl := Option.some.inj hid
    obtain ⟨entry, he, -⟩ := hm.pinned _ (.inr rfl)
    exact contains_of_some he

end Globals

/-! ## Operations of the host -/

/-- What a host holds on to is no global. -/
def Session.Lawful (s : Session) (held : List Value) : Prop :=
  s.image.Sound ∧ s.machine.Sound s.image ∧ ∀ v ∈ held, ∀ id, v.object? = some id →
    id ≠ s.image.globalEnvironment ∧ id ≠ s.image.globalObject

namespace HostAction

variable {s : Session} {held : List Value} {a : HostAction}

theorem Allowed.live (ha : a.Allowed s held) {v : Value} (hv : v ∈ a.values) :
    v.Live s.machine.heap := fun id hid => by
  obtain ⟨-, o, ho, -⟩ := ha.1 v hv id hid
  exact contains_of_object ho

/-- An evaluation that the host starts is safe. -/
theorem course_safe (hs : s.Lawful held) (ha : a.Allowed s held) {c : Course Value} {m : Machine}
    (hc : a.course? s = some (c, m)) :
    m.Sound s.image ∧ c.Safe s.image (fun v m' => v.Live m'.heap) m := by
  obtain ⟨hi, hm, -⟩ := hs
  obtain ⟨hheap, hregistry⟩ := machine_of_course hc
  have hm' : m.Sound s.image := hm.congr hheap hregistry
  refine ⟨hm', ?_⟩
  cases a with
  | run steps =>
    rw [course?] at hc
    split at hc
    · cases hc
    · obtain ⟨rfl, rfl⟩ := Prod.mk.inj (Option.some.inj hc)
      exact Course.program_safe hi hm' steps
  | call steps function this arguments =>
    obtain ⟨rfl, rfl⟩ := Prod.mk.inj (Option.some.inj hc)
    refine (Course.evaluatesSafely hi steps).call hm' (ha.live List.mem_cons_self)
      (ha.live (List.mem_cons_of_mem _ List.mem_cons_self)) fun v hv => ?_
    exact ha.live (List.mem_cons_of_mem _ (List.mem_cons_of_mem _ hv))
  | callGlobal steps name arguments =>
    rw [course?] at hc
    obtain ⟨function, hfunction, hcm⟩ := Option.map_eq_some_iff.1 hc
    obtain ⟨rfl, rfl⟩ := Prod.mk.inj hcm
    exact (Course.evaluatesSafely hi steps).call hm' (hm.live_global hi hfunction)
      (Course.live_of_isNone rfl) fun v hv => ha.live hv
  | _ => cases hc

/-- Whether the operation runs the program or writes what it reads. -/
def isEvaluation : HostAction → Bool
  | run _ => true
  | call .. => true
  | callGlobal .. => true
  | setGlobal .. => true
  | _ => false

/-- An operation that runs the program does not fail with an internal error. -/
theorem external_of_error (hs : s.Lawful held) (ha : a.Allowed s held)
    (heval : a.isEvaluation = true) {e : EvalError}
    (he : (s.perform a.perform).1 = .error (.error e)) : e.isInternal = false := by
  have hrun : (a.perform s.image s.machine).1 = .error (.error e) := he
  cases hc : a.course? s with
  | some start =>
    obtain ⟨c, m⟩ := start
    obtain ⟨hm, hsafe⟩ := course_safe hs ha hc
    rw [perform_of_course hc] at hrun
    have hgives := hsafe.gives hm
    cases hresult : (c.run s.image m).1 with
    | ok v =>
      rw [hresult] at hrun
      cases hrun
    | error reason =>
      rw [hresult] at hrun
      obtain rfl := Except.error.inj hrun
      exact hgives.error _ hresult
  | none =>
    cases a with
    | run steps =>
      rw [perform_run_of_ran (ran_of_course?_none hc)] at hrun
      obtain rfl := Stop.error.inj (Except.error.inj hrun)
      rfl
    | call => cases hc
    | callGlobal steps name arguments =>
      rw [perform_callGlobal_of_none (Option.map_eq_none_iff.1 hc)] at hrun
      obtain rfl := Stop.error.inj (Except.error.inj hrun)
      rfl
    | setGlobal name v =>
      have hgives := EvalM.setGlobal_gives hs.1 hs.2.1 name (ha.live List.mem_cons_self)
      rw [perform, EvalM.map_apply] at hrun
      cases hresult : (EvalM.setGlobal name v s.image s.machine).1 with
      | ok u =>
        rw [hresult] at hrun
        cases hrun
      | error reason =>
        rw [hresult] at hrun
        obtain rfl := Except.error.inj hrun
        exact hgives.error _ hresult
    | _ => cases heval

/-- What the host may pass is no global. -/
theorem Allowed.ne_global (hs : s.Lawful held) (ha : a.Allowed s held) {v : Value}
    (hv : v ∈ a.values) {id : ObjectId} (hid : v.object? = some id) :
    id ≠ s.image.globalEnvironment ∧ id ≠ s.image.globalObject := by
  obtain ⟨hne, o, ho, hinternal⟩ := ha.1 v hv id hid
  refine ⟨?_, hne⟩
  rintro rfl
  obtain ⟨e, he, -⟩ := hs.2.1.environment
  rw [environment_eq_ok.1 he] at ho
  obtain rfl := Except.ok.inj ho
  cases hinternal

theorem retain_heap (image : Image) (m : Machine) (v : Value) :
    (EvalM.retain v image m).2.heap = match v.object? with
      | none => m.heap
      | some id => (Heap.root id m.heap).2 := by
  rw [EvalM.retain]
  cases v.object? with
  | none => rfl
  | some id =>
    dsimp only
    rw [EvalM.tryHeap_apply, HeapM.mapError]
    cases Heap.root id m.heap with
    | mk result h => cases result <;> rfl

theorem release_heap (image : Image) (m : Machine) (v : Value) :
    (EvalM.release v image m).2.heap = match v.object? with
      | none => m.heap
      | some id => (Heap.unroot id m.heap).2 := by
  rw [EvalM.release]
  cases v.object? with
  | none => rfl
  | some id =>
    dsimp only
    rw [EvalM.tryHeap_apply, HeapM.mapError]
    cases Heap.unroot id m.heap with
    | mk result h => cases result <;> rfl

theorem release_registry (image : Image) (m : Machine) (v : Value) :
    (EvalM.release v image m).2.registry = m.registry := by
  rw [EvalM.release]
  cases v.object? <;> rfl

theorem sound_of_retain {image : Image} {m m' : Machine} (hm : m.Sound image)
    (horderly : ∃ held past labels, Orderly image held past m' labels) {v : Value}
    (hm' : m'.heap = (EvalM.retain v image m).2.heap) : m'.Sound image := by
  rw [retain_heap] at hm'
  cases hid : v.object? with
  | none =>
    rw [hid] at hm'
    refine hm.of_object_eq horderly (fun x => by rw [hm']) fun x hx => ?_
    rw [hm']
    exact hm.pinned x hx
  | some id =>
    rw [hid] at hm'
    refine hm.of_object_eq horderly (fun x => by rw [hm', object_root]) fun x hx => ?_
    obtain ⟨e, he, hpos⟩ := hm.pinned x hx
    rw [hm']
    exact rooted_root he hpos

theorem sound_of_release {image : Image} {m m' : Machine} (hm : m.Sound image)
    (horderly : ∃ held past labels, Orderly image held past m' labels) {v : Value}
    (hv : ∀ id, v.object? = some id → id ≠ image.globalEnvironment ∧ id ≠ image.globalObject)
    (hm' : m'.heap = (EvalM.release v image m).2.heap) : m'.Sound image := by
  rw [release_heap] at hm'
  cases hid : v.object? with
  | none =>
    rw [hid] at hm'
    refine hm.of_object_eq horderly (fun x => by rw [hm']) fun x hx => ?_
    rw [hm']
    exact hm.pinned x hx
  | some id =>
    rw [hid] at hm'
    obtain ⟨hne, hne'⟩ := hv id hid
    refine hm.of_object_eq horderly (fun x => by rw [hm', object_unroot]) fun x hx => ?_
    rw [hm', entry?_unroot_of_ne]
    · exact hm.pinned x hx
    · rintro rfl
      rcases hx with hx | hx
      · exact hne hx
      · exact hne' hx

/-- Every operation of a host keeps the machine sound. -/
theorem sound (hs : s.Lawful held) (ha : a.Allowed s held)
    (horderly : ∃ held past labels,
      Orderly s.image held past (s.perform a.perform).2.machine labels) :
    (s.perform a.perform).2.machine.Sound s.image := by
  have hi := hs.1
  have hm := hs.2.1
  have hmap : ∀ {α : Type} (f : α → Option Value) (x : EvalM α),
      ((f <$> x) s.image s.machine).2 = (x s.image s.machine).2 := fun f x => by
    rw [EvalM.map_apply]
  show (a.perform s.image s.machine).2.Sound s.image
  cases hc : a.course? s with
  | some start =>
    obtain ⟨c, m⟩ := start
    obtain ⟨hm', hsafe⟩ := course_safe hs ha hc
    rw [perform_of_course hc]
    exact (hsafe.gives hm').later.sound
  | none =>
    cases a with
    | run steps =>
      rw [perform_run_of_ran (ran_of_course?_none hc)]
      exact hm
    | call => cases hc
    | callGlobal steps name arguments =>
      rw [perform_callGlobal_of_none (Option.map_eq_none_iff.1 hc)]
      exact hm
    | setGlobal name v =>
      rw [perform, hmap]
      exact (EvalM.setGlobal_gives hi hm name (ha.live List.mem_cons_self)).later.sound
    | newObject properties =>
      rw [perform, hmap]
      have hgives := EvalM.allocate_gives hm (o := .ordinary (.ofList properties)) (fun y hy => ?_)
        (fun e he => (by cases he)) (fun f hf => (by cases hf))
      · exact hgives.later.sound
      · obtain ⟨v, hv, hy⟩ := mem_objectsOf.1 hy
        obtain ⟨p, hp, rfl⟩ := List.mem_map.1 hv
        have hmem := SortedMap.mem_of_get?_ofList (SortedMap.mem_toList_iff.1 hp)
        exact ha.live (List.mem_map_of_mem hmem) y hy
    | newArray elements =>
      rw [perform, hmap]
      have hgives := EvalM.allocate_gives hm (o := .array elements.toArray) (fun y hy => ?_)
        (fun e he => (by cases he)) (fun f hf => (by cases hf))
      · exact hgives.later.sound
      · obtain ⟨v, hv, hy⟩ := mem_objectsOf.1 hy
        exact ha.live hv y hy
    | retain v =>
      refine sound_of_retain hm horderly (v := v) ?_
      rw [perform, hmap]
    | release v =>
      refine sound_of_release hm horderly (hs.2.2 v (ha.2 v rfl)) ?_
      rw [perform, hmap]
    | collectGarbage =>
      rw [perform, hmap]
      exact hm.collectGarbage

theorem lawful (hs : s.Lawful held) (ha : a.Allowed s held)
    (horderly : ∃ held past labels,
      Orderly s.image held past (s.perform a.perform).2.machine labels) :
    (s.perform a.perform).2.Lawful (a.holds held) := by
  refine ⟨hs.1, sound hs ha horderly, fun v hv => ?_⟩
  have hheld := hs.2.2
  cases a with
  | retain w =>
    rcases List.mem_cons.1 hv with rfl | hv
    · exact fun id hid => ha.ne_global hs List.mem_cons_self hid
    · exact hheld v hv
  | release w => exact hheld v (List.mem_of_mem_erase hv)
  | _ => exact hheld v hv

end HostAction

/-! ## Runs -/

section Runs

variable {p : Program} {config : Config} {s₀ s : Session} {held : List Value}
  {past : List Moment}

/-- Over a whole run whatever the program looks for is found. -/
theorem HostRun.lawful (hload : Session.load p config = .ok s₀) (hplain : p.Plain)
    (hrun : HostRun s₀ s held past) :
    s.Lawful held ∧ ∀ moment ∈ past, moment.Complete s₀.image := by
  have horder := orderly_of_load hload
  induction hrun with
  | start =>
    obtain ⟨hi, hm⟩ := Session.Loaded.machine_sound hload hplain
    exact ⟨⟨hi, hm, fun v hv => absurd hv List.not_mem_nil⟩,
      fun moment hmoment => absurd hmoment List.not_mem_nil⟩
  | @step s held past a hrun ha ih =>
    obtain ⟨hs, hpast⟩ := ih
    obtain ⟨labels, ho⟩ := hrun.orderly horder
    obtain ⟨labels', ho'⟩ := a.orderly ho ha
    refine ⟨HostAction.lawful hs ha ⟨_, _, labels', ho'⟩, fun moment hmoment => ?_⟩
    rcases List.mem_append.1 hmoment with hmoment | hmoment
    · exact hpast moment hmoment
    · rw [HostAction.moments] at hmoment
      cases hc : a.course? s with
      | none =>
        rw [hc] at hmoment
        exact absurd hmoment List.not_mem_nil
      | some start =>
        obtain ⟨c, m⟩ := start
        rw [hc] at hmoment
        rw [← hrun.image_eq]
        exact (HostAction.course_safe hs ha hc).2.complete moment hmoment

/-- The capture analysis is complete for the evaluator.  Over every run, a binding that the
program refers to is found around the environment or among the captures of a shared
function, and so is every `this`; and no operation fails with an internal error. -/
theorem HostRun.captures_complete (hload : Session.load p config = .ok s₀) (hplain : p.Plain)
    (hrun : HostRun s₀ s held past) :
    (∀ moment ∈ past, moment.Complete s₀.image) ∧
      ∀ a : HostAction, a.Allowed s held → a.isEvaluation = true → ∀ e,
        (s.perform a.perform).1 = .error (.error e) → e.isInternal = false := by
  obtain ⟨hs, hpast⟩ := hrun.lawful hload hplain
  exact ⟨hpast, fun a ha heval e he => HostAction.external_of_error hs ha heval he⟩

end Runs

/-- A function `f` that gives a shared arrow over its argument and its `this`, and a call of
the arrow. -/
def arrowCalled : Program where
  body :=
    let name (s : String) : Identifier := ⟨s, .unresolved⟩
    let span : SourceSpan := ⟨0, 0, 0, 0, 0, 0⟩
    let arrow : FunctionNode := ⟨none, .arrow, .plain, true, [], none,
      [.expression (.this none), .returning (some (.identifier (name "x")))],
      span, none, none, none⟩
    let callOfF : Expression := .call (.identifier (name "f")) [.literal (.number 1)]
    [.function ⟨some (name "f"), .declaration, .plain, false, [name "x"], none,
      [.returning (some (.function arrow))], span, none, none, none⟩,
      .expression (.call callOfF [])]

theorem arrowCalled_plain : arrowCalled.Plain := by
  simp [Program.Plain, arrowCalled, PlainStatements, Statement.Plain, FunctionNode.Plain,
    Expression.Plain, PlainExpressions]

theorem isSome_load_arrowCalled :
    (Session.load arrowCalled .deterministic).toOption.isSome = true := by
  decide +kernel

def arrowCalledSession : Session :=
  (Session.load arrowCalled .deterministic).toOption.get isSome_load_arrowCalled

/-- Whether an action reads the argument of `f`. -/
def Action.readsArgument : Action → Bool
  | readIdentifier _ i => i == ⟨"x", .binding ⟨1⟩⟩
  | _ => false

/-- A run in which the body of a shared arrow reads what the arrow captured. -/
theorem located_of_arrowCalled : ∃ s₀ s held past,
    Session.load arrowCalled .deterministic = .ok s₀ ∧ arrowCalled.Plain ∧
      HostRun s₀ s held past ∧ (∃ env before result after,
        ⟨.readIdentifier env ⟨"x", .binding ⟨1⟩⟩, before, result, after⟩ ∈ past ∧
          before.heap.Locates s₀.image env ⟨1⟩) ∧
      ∀ e, (s.perform (HostAction.perform (.run 30))).1 = .error (.error e) →
        e.isInternal = false := by
  have hload : Session.load arrowCalled .deterministic = .ok arrowCalledSession :=
    Except.eq_ok_get isSome_load_arrowCalled
  -- whatever the run is, the session that it ends in need not be computed
  have hread : ∀ {s held past}, HostRun arrowCalledSession s held past →
      past.any (fun moment => moment.action.readsArgument) = true →
      (∃ env before result after,
        ⟨.readIdentifier env ⟨"x", .binding ⟨1⟩⟩, before, result, after⟩ ∈ past ∧
          before.heap.Locates arrowCalledSession.image env ⟨1⟩) ∧
      ∀ e, (s.perform (HostAction.perform (.run 30))).1 = .error (.error e) →
        e.isInternal = false := by
    intro s held past hrun hany
    obtain ⟨hpast, hexternal⟩ := hrun.captures_complete hload arrowCalled_plain
    refine ⟨?_, hexternal (.run 30) ?_ rfl⟩
    · obtain ⟨⟨action, before, result, after⟩, hmem, hreads⟩ := List.any_eq_true.1 hany
      cases action with
      | readIdentifier env i =>
        obtain rfl : i = ⟨"x", .binding ⟨1⟩⟩ := beq_iff_eq.1 hreads
        exact ⟨env, before, result, after, hmem, (hpast _ hmem ⟨1⟩ rfl).1⟩
      | _ => cases hreads
    · exact ⟨fun v hv => absurd hv List.not_mem_nil, fun v hv => by cases hv⟩
  have hrun : HostRun arrowCalledSession _ _
      ([] ++ (HostAction.run 30).moments arrowCalledSession) :=
    .step (.run 30) .start ⟨fun v hv => absurd hv List.not_mem_nil, fun v hv => by cases hv⟩
  have hany : ([] ++ (HostAction.run 30).moments arrowCalledSession).any
      (fun moment => moment.action.readsArgument) = true := by
    decide +kernel
  exact ⟨_, _, _, _, hload, arrowCalled_plain, hrun, hread hrun hany⟩

end ClosureCache
