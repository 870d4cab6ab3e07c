/-
Runs of a host that leaves the names of the program alone.

A host may give a value to any name at top level, also to one that the program declares,
and could so write a binding that is final for the program.  `SparingRun` is a run in
which it does not, whatever else it asks for and whatever values it passes.  All machines of
such a run are steady, and every action respects final bindings.
-/
import ClosureCache.Proofs.Evaluation.SingleAssignment

namespace ClosureCache

open Heap

/-! ## Whether the program has been run -/

/-- A step that does not run the program. -/
def EvalM.KeepsRan {α : Type} (x : EvalM α) : Prop := ∀ image m, (x image m).2.ran = m.ran

namespace EvalM.KeepsRan

variable {α β : Type}

theorem of_eq {x : EvalM α} (hx : ∀ image m, (x image m).2 = m) : KeepsRan x := fun image m => by
  rw [hx]

theorem pure (a : α) : KeepsRan (pure a : EvalM α) := of_eq fun _ _ => rfl

theorem fail (e : EvalError) : KeepsRan (EvalM.fail e : EvalM α) := of_eq fun _ _ => rfl

theorem ask (f : Image → Heap → Except EvalError α) : KeepsRan (EvalM.ask f) :=
  of_eq fun image m => by rw [ask_apply]

theorem emit (n : Notice) : KeepsRan (EvalM.emit n) := fun _ _ => rfl

theorem onHeap (x : HeapM (Stop EvalError) α) : KeepsRan (EvalM.onHeap x) := fun _ _ => rfl

theorem bind {x : EvalM α} {f : α → EvalM β} (hx : KeepsRan x) (hf : ∀ a, KeepsRan (f a)) :
    KeepsRan (x >>= f) := fun image m => by
  have h := hx image m
  rw [bind_apply]
  cases hrun : x image m with
  | mk r m' =>
    rw [hrun] at h
    cases r with
    | ok a => exact (hf a image m').trans h
    | error e => exact h

theorem read_bind {f : Image → EvalM β} (hf : ∀ image, KeepsRan (f image)) :
    KeepsRan (read >>= f) := (of_eq fun _ _ => rfl : KeepsRan (read : EvalM Image)).bind hf

theorem map {x : EvalM α} (hx : KeepsRan x) (f : α → β) : KeepsRan (f <$> x) := fun image m => by
  rw [map_apply]
  exact hx image m

theorem freshClosure (site : SiteId) (env : ObjectId) (reason : UnmemoizedReason) :
    KeepsRan (EvalM.freshClosure site env reason) := by
  refine read_bind fun image => ?_
  split
  · exact (emit _).bind fun _ => (onHeap _).bind fun _ => pure _
  · exact (onHeap _).bind fun _ => pure _

theorem reachRegistry (site : SiteId) (arity : Nat) (key : Key) (closure : Closure) :
    KeepsRan (EvalM.reachRegistry site arity key closure) := by
  intro image m
  rw [reachRegistry_apply]

theorem sharedClosure (site : SiteId) (env : ObjectId) (spec : CaptureSpec) :
    KeepsRan (EvalM.sharedClosure site env spec) := by
  refine read_bind fun image => (of_eq fun _ _ => rfl : KeepsRan EvalM.heap).bind fun h => ?_
  split
  · exact (emit _).bind fun _ => fail _
  · refine (ask _).bind fun closure => (reachRegistry site _ _ closure).bind fun reached => ?_
    dsimp only
    split
    · refine (emit _).bind fun _ => ?_
      split
      · exact (emit _).bind fun _ => pure _
      · exact pure _
    · split
      · exact (emit _).bind fun _ => pure _
      · exact pure _

theorem instantiate (node : FunctionNode) (env : ObjectId) :
    KeepsRan (EvalM.instantiate node env) := by
  rw [EvalM.instantiate]
  cases node.site with
  | none => exact fail _
  | some site =>
    refine read_bind fun image => ?_
    cases image.analysis.get? site with
    | none => exact fail _
    | some a =>
      cases a with
      | unmemoized reason => exact freshClosure site env reason
      | memoized spec => exact sharedClosure site env spec

theorem writeBinding (env : ObjectId) (b : BindingId) (name : String) (v : Value) :
    KeepsRan (EvalM.writeBinding env b name v) := read_bind fun _ => onHeap _

theorem action (a : Action) : KeepsRan a.perform := by
  cases a with
  | readIdentifier env i =>
    rw [Action.perform, EvalM.readIdentifier]
    cases i.resolution with
    | binding b => exact ask _
    | «global» => exact ask _
    | unresolved => exact fail _
  | readThis env provider =>
    cases provider with
    | none => exact pure _
    | some provider => exact (ask _).bind fun _ => pure _
  | assign env i v =>
    rw [Action.perform, EvalM.assign]
    cases i.resolution with
    | binding b => exact writeBinding _ _ _ _
    | «global» => exact read_bind fun _ => onHeap _
    | unresolved => exact fail _
  | writeBinding env b name v => exact writeBinding _ _ _ _
  | newEnvironment scope outer this => exact read_bind fun _ => onHeap _
  | allocate o => exact onHeap _
  | getProperty target name => exact ask _
  | setProperty target name v => exact onHeap _
  | instantiate node env => exact instantiate node env
  | callee v =>
    rw [Action.perform, EvalM.callee]
    cases v.object? with
    | none => exact fail _
    | some id =>
      refine (ask _).bind fun o => ?_
      split
      · exact pure _
      · exact fail _
  | definition f =>
    refine read_bind fun image => ?_
    split
    · exact pure _
    · exact fail _

theorem course (c : Course α) : KeepsRan c.run := by
  induction c with
  | done a => exact pure a
  | stop reason => exact of_eq fun _ _ => rfl
  | act a next ih => exact (action a).bind ih

theorem collectGarbage : KeepsRan EvalM.collectGarbage := by
  have hcollect : KeepsRan EvalM.collectHeap := fun image m => by
    rw [collectHeap, bind_of_ok heap_apply]
    cases m.heap.collect? <;> rfl
  refine hcollect.bind fun stats => (emit _).bind fun _ => read_bind fun image => ?_
  split
  · refine KeepsRan.bind (fun _ _ => rfl) fun n => ?_
    split
    · exact (emit _).bind fun _ => pure _
    · exact pure _
  · exact pure _

end EvalM.KeepsRan

/-- No operation takes it back that the program was run. -/
theorem HostAction.ran_of_ran (a : HostAction) {s : Session} (hran : s.machine.ran = true) :
    (s.perform a.perform).2.machine.ran = true := by
  have hkeeps : EvalM.KeepsRan a.perform → (s.perform a.perform).2.machine.ran = true := fun h =>
    (h s.image s.machine).trans hran
  cases a with
  | run steps =>
    show ((run steps).perform s.image s.machine).2.ran = true
    rw [perform_run_of_ran hran]
    exact hran
  | call steps function this arguments => exact hkeeps ((EvalM.KeepsRan.course _).map _)
  | callGlobal steps name arguments =>
    refine hkeeps (.map (.bind (.of_eq fun _ _ => rfl) fun function? => ?_) _)
    cases function? with
    | none => exact .fail _
    | some function => exact .course _
  | setGlobal name v =>
    refine hkeeps (.map (.read_bind fun image => ?_) _)
    cases image.tree.lookupLocal ScopeTree.global name with
    | none => exact .onHeap _
    | some b => exact .writeBinding _ _ _ _
  | newObject properties => exact hkeeps (.map (.bind (.onHeap _) fun _ => .pure _) _)
  | newArray elements => exact hkeeps (.map (.bind (.onHeap _) fun _ => .pure _) _)
  | retain v =>
    refine hkeeps (.map ?_ _)
    rw [EvalM.retain]
    cases v.object? with
    | none => exact .pure _
    | some id => exact .onHeap _
  | release v =>
    refine hkeeps (.map ?_ _)
    rw [EvalM.release]
    cases v.object? with
    | none => exact .pure _
    | some id => exact .onHeap _
  | collectGarbage => exact hkeeps (.map .collectGarbage _)

/-! ## Loading -/

/-- What setting up the globals makes: no function, one environment as it starts out. -/
theorem setUpGlobals_lasts {R : Effects} {tree : ScopeTree} {object environment : ObjectId}
    {h : Heap} (hopens : ∀ e : Environment, e.Initial tree ScopeTree.global → R.opens e)
    (hrun : setUpGlobals tree .empty = (.ok (object, environment), h)) :
    Heap.empty.Lasts R h ∧ ∃ e, h.environment environment = .ok e ∧
      e.Initial tree ScopeTree.global := by
  rw [setUpGlobals] at hrun
  obtain ⟨x, h₁, hallocate, hrun⟩ := HeapM.bind_eq_ok hrun
  obtain ⟨_, h₂, hroot, hrun⟩ := HeapM.bind_eq_ok hrun
  obtain ⟨y, h₃, hnew, hrun⟩ := HeapM.bind_eq_ok hrun
  obtain ⟨_, h₄, hroot', hrun⟩ := HeapM.bind_eq_ok hrun
  rw [HeapM.pure_apply] at hrun
  obtain ⟨heq, rfl⟩ := Prod.mk.inj hrun
  obtain ⟨rfl, rfl⟩ := Prod.mk.inj (Except.ok.inj heq)
  have hend : ∀ {α : Type} {x : HeapM EvalError α} {a : α} {h h' : Heap}, x h = (.ok a, h') →
      h.Lasts R (x h).2 → h.Lasts R h' := fun hrun hl => by rwa [hrun] at hl
  have hl₁ : Heap.empty.Lasts R h₁ := hend hallocate (lasts_allocate_of_not_reader rfl)
  have hl₂ : h₁.Lasts R h₂ := hend hroot (.mapError (lasts_root ..) _)
  have hl₃ : h₂.Lasts R h₃ := hend hnew (lasts_newEnvironment hopens _ _)
  have hl₄ : h₃.Lasts R h₄ := hend hroot' (.mapError (lasts_root ..) _)
  obtain ⟨-, e, he, hinitial⟩ := newEnvironment_eq_ok hnew
  refine ⟨((hl₁.trans hl₂).trans hl₃).trans hl₄, e, ?_, hinitial⟩
  have hkeep := object_root h₃ y y
  rw [HeapM.mapError_eq_ok hroot', environment_eq_ok.1 he] at hkeep
  exact environment_eq_ok.2 hkeep

theorem Session.Loaded.settled {p : Program} {s : Session} {resolved : ResolvedProgram}
    (h : s.Loaded p resolved) (hp : ∀ f ∈ p.functions, f.arguments = none) : s.image.Settled := by
  have hsettled := Program.settled_of_resolve (P := fun _ => False) h.resolve
    fun f hf b hb => by
      rw [hp f hf] at hb
      cases hb
  refine ⟨h.tree ▸ hsettled.proper, fun site spec hspec => h.regular hspec,
    fun site node hnode => ?_, h.program ▸ hsettled.distinct, ?_, h.tree ▸ hsettled.mutable⟩
  · rw [h.functions, ResolvedProgram.functionTable] at hnode
    obtain ⟨f, hf, heq⟩ := List.mem_filterMap.1 (SortedMap.mem_of_get?_ofList hnode)
    obtain ⟨site', -, heq⟩ := Option.map_eq_some_iff.1 heq
    obtain ⟨-, rfl⟩ := Prod.mk.inj heq
    rw [h.tree]
    exact hsettled.functions f hf
  · rw [h.tree, h.program]
    exact hsettled.body

/-! ## Runs -/

/-- What a session keeps up under a host that leaves declared names alone. -/
structure Session.Steady (s : Session) (past : List Moment) : Prop where
  machine : s.machine.Steady s.image
  before : ∀ a ∈ past, a.before.Steady s.image
  chronicle : Chronicle (.fixing s.image.tree (fun _ _ => True) fun _ => True) s.image past
    s.machine
  vacant : s.machine.ran = false →
    s.machine.heap.Vacant s.image.tree s.image.globalEnvironment ScopeTree.global

/-- An operation that writes no name that the program declares. -/
def HostAction.Sparing (s : Session) (a : HostAction) : Prop :=
  ∀ name v, a = setGlobal name v → s.image.tree.lookupLocal ScopeTree.global name = none

/-- A request that writes no such name. -/
def Request.Sparing (s : Session) (r : Request) : Prop :=
  ∀ name v, r = act (.setGlobal name v) → s.image.tree.lookupLocal ScopeTree.global name = none

theorem Request.Sparing.act {s : Session} {r : Request} {a : HostAction} (hr : r.Sparing s)
    (ha : r = .act a ∨ a = .collectGarbage) : a.Sparing s := by
  rcases ha with rfl | rfl
  · exact fun name v ha => hr name v (congrArg Request.act ha)
  · exact fun name v ha => by cases ha

/-- A succession of such requests.  Nothing is asked of the values that are passed, and
whatever there is may be released. -/
inductive SparingRun (s₀ : Session) : Session → List Moment → Prop
  | start : SparingRun s₀ s₀ []
  | step {s : Session} {past : List Moment} (r : Request) :
    SparingRun s₀ s past → r.Sparing s → SparingRun s₀ (s.perform r.perform).2 (past ++ r.moments s)

theorem SparingRun.freeRun {s₀ s : Session} {past : List Moment} (hrun : SparingRun s₀ s past) :
    FreeRun s₀ s past := by
  induction hrun with
  | start => exact .start
  | step r _ _ ih => exact .step r ih

theorem SparingRun.image_eq {s₀ s : Session} {past : List Moment} (hrun : SparingRun s₀ s past) :
    s.image = s₀.image := hrun.freeRun.image_eq

section Steady

variable {s : Session} {past : List Moment}

theorem Session.steady_of_load {p : Program} {config : Config}
    (hload : Session.load p config = .ok s) (hi : s.image.Settled) : s.Steady [] := by
  obtain ⟨resolved, h⟩ := Session.loaded hload
  have hglobals := h.globals
  rw [← h.tree] at hglobals
  have hempty : ∀ x o, Heap.empty.object x ≠ .ok o := fun x o hx => by
    have hnone : Heap.entry? .empty x = none := entry?_none_of_size_le (Nat.zero_le _)
    rw [object, hnone] at hx
    cases hx
  obtain ⟨hl, e, he, hinitial⟩ := setUpGlobals_lasts
    (R := .fixing s.image.tree (fun _ _ => False) fun _ => False)
    (fun e he => he.prefilled hi.proper) hglobals
  refine ⟨⟨?_, ?_⟩, fun a ha => absurd ha List.not_mem_nil,
    chronicle_of_load hload, fun _ => vacant_of_initial hi.proper he hinitial⟩
  · refine Prefilled.lasts (fun x e hx => absurd (environment_eq_ok.1 hx) (hempty x _)) hl
  · refine Aligned.lasts (fun x f hx => absurd (function_eq_ok.1 hx) (hempty x _)) hl
      fun f hf => hf.elim

theorem HostAction.steady_start (hs : s.machine.Steady s.image) {a : HostAction} {c : Course Value}
    {m : Machine} (hcourse : a.course? s = some (c, m)) : m.Steady s.image := by
  have hheap := (machine_of_course hcourse).1
  exact ⟨hheap ▸ hs.prefilled, hheap ▸ hs.aligned⟩

/-- What an evaluation fills that a host starts: the global environment if the program is
run, and nothing otherwise. -/
theorem HostAction.course_fills (hi : s.image.Settled) (hs : s.Steady past) {a : HostAction}
    {c : Course Value} {m : Machine} (hcourse : a.course? s = some (c, m)) :
    ∃ S, c.Fills s.image S (fun _ _ => True) m ∧
      (m.ran = false → ∀ b, ¬ S s.image.globalEnvironment b) := by
  have hm := steady_start hs.machine hcourse
  rcases course_cases hcourse with
    ⟨steps, hran, rfl, rfl⟩ | ⟨steps, function, this, arguments, rfl, rfl⟩
  · exact ⟨_, Course.program_fills hi hm (hs.vacant hran) steps, fun hnot => by cases hnot⟩
  · exact ⟨_, (Course.evaluatesQuietly hi steps).call function this arguments hm, fun _ _ => id⟩

theorem HostAction.Sparing.writable {R : Effects} {a : HostAction} (ha : a.Sparing s)
    (name : String) (v : Value) (b : BindingId) (heq : a = .setGlobal name v)
    (hb : s.image.tree.lookupLocal ScopeTree.global name = some b) :
    s.machine.heap.Writable R s.image.tree s.image.globalEnvironment b := by
  rw [ha name v heq] at hb
  cases hb

theorem HostAction.ran_eq_false (a : HostAction)
    (hnot : (s.perform a.perform).2.machine.ran = false) : s.machine.ran = false :=
  Bool.eq_false_iff.2 fun hran => by
    rw [a.ran_of_ran hran] at hnot
    cases hnot

/-- An evaluation that a host starts keeps a session steady. -/
theorem HostAction.steady_of_course (hi : s.image.Settled) (hs : s.Steady past) (a : HostAction)
    (hsparing : a.Sparing s) {c : Course Value} {m : Machine}
    (hcourse : a.course? s = some (c, m)) :
    (s.perform a.perform).2.Steady (past ++ a.moments s) := by
  obtain ⟨S, hfills, hglobal⟩ := course_fills hi hs hcourse
  have hm : m.FillsOnly s.image S m := .refl (steady_start hs.machine hcourse)
  have hend : (s.perform a.perform).2.machine = (c.run s.image m).2 := by
    show (a.perform s.image s.machine).2 = _
    rw [perform_of_course hcourse]
  have hmoments : ∀ x ∈ a.moments s, x.before.Steady s.image ∧
      x.action.RespectsFinal s.image.tree x.before.heap := by
    intro x hx
    rw [moments, hcourse] at hx
    obtain ⟨hfills, hrespects⟩ := Course.RespectsFinal.moments hfills hm x hx
    exact ⟨hfills.steady, hrespects⟩
  have hfills := Course.RespectsFinal.run hfills hm
  refine ⟨?_, fun x hx => ?_, ?_, fun hnot => ?_⟩
  · rw [hend]
    exact hfills.steady
  · rcases List.mem_append.1 hx with hx | hx
    · exact hs.before x hx
    · exact (hmoments x hx).1
  · refine a.chronicle hs.chronicle (fun x hx => ?_) hsparing.writable
    obtain ⟨hsteady, hrespects⟩ := hmoments x hx
    exact (hrespects.within hi hsteady).widen (fun _ _ _ => trivial) fun _ _ => trivial
  · -- an evaluation that does not run the program fills no global
    have hvacant := hs.vacant (a.ran_eq_false hnot)
    rw [← (machine_of_course hcourse).1] at hvacant
    rw [hend] at hnot ⊢
    refine hvacant.lasts hfills.lasts (hglobal ?_)
    rw [← hnot, EvalM.KeepsRan.course c s.image m]

/-- What a host does otherwise keeps a session steady. -/
theorem HostAction.steady_of_none (hs : s.Steady past) (a : HostAction) (hsparing : a.Sparing s)
    (hcourse : a.course? s = none) : (s.perform a.perform).2.Steady (past ++ a.moments s) := by
  have hlasts : ∀ R, s.machine.heap.Lasts R (s.perform a.perform).2.machine.heap := fun R =>
    a.lasts hcourse hsparing.writable
  have hl := hlasts (.fixing s.image.tree (fun _ _ => False) fun _ => False)
  rw [moments, hcourse]
  dsimp only
  rw [List.append_nil]
  exact ⟨⟨hs.machine.prefilled.lasts hl, hs.machine.aligned.lasts hl fun f hf => hf.elim⟩,
    hs.before,
    hs.chronicle.later (hlasts _) (hs.chronicle.accounted.host a hcourse),
    fun hnot => (hs.vacant (a.ran_eq_false hnot)).lasts hl fun _ => id⟩

/-- An operation that leaves declared names alone keeps a session steady. -/
theorem HostAction.steady (hi : s.image.Settled) (hs : s.Steady past) (a : HostAction)
    (hsparing : a.Sparing s) : (s.perform a.perform).2.Steady (past ++ a.moments s) := by
  cases hcourse : a.course? s with
  | some start => exact a.steady_of_course hi hs hsparing hcourse
  | none => exact a.steady_of_none hs hsparing hcourse

/-- A request that leaves the objects and the caches as they are. -/
theorem Session.Steady.sameState (hs : s.Steady past) {m : Machine}
    (hstate : s.machine.SameState m) :
    Session.Steady { s with
      machine := m } past := by
  have hl : s.machine.heap.Lasts (.fixing s.image.tree (fun _ _ => False) fun _ => False) m.heap :=
    .of_object_eq (congrArg Array.size hstate.entries) hstate.object_eq
  exact ⟨⟨hs.machine.prefilled.lasts hl, hs.machine.aligned.lasts hl fun f hf => hf.elim⟩,
    hs.before, hs.chronicle.sameState hstate,
    fun hnot => (hs.vacant (hstate.ran ▸ hnot)).lasts hl fun _ => id⟩

/-- A request that leaves declared names alone keeps a session steady. -/
theorem Request.steady (hi : s.image.Settled) (hs : s.Steady past) (r : Request)
    (hsparing : r.Sparing s) : (s.perform r.perform).2.Steady (past ++ r.moments s) := by
  rcases r.act_or_sameState s with ⟨a, heq, hmoments, ha⟩ | ⟨hstate, hmoments⟩
  · have hend : (s.perform r.perform).2 = (s.perform a.perform).2 :=
      congrArg (fun m => ({ s with
        machine := m } : Session)) heq
    rw [hend, hmoments]
    exact a.steady hi hs (hsparing.act ha)
  · rw [hmoments, List.append_nil]
    exact hs.sameState hstate

theorem SparingRun.steady {p : Program} {config : Config} {s₀ : Session}
    (hload : Session.load p config = .ok s₀) (hi : s₀.image.Settled)
    (hrun : SparingRun s₀ s past) : s.Steady past := by
  induction hrun with
  | start => exact Session.steady_of_load hload hi
  | step r hrun hsparing ih => exact r.steady (hrun.image_eq ▸ hi) ih hsparing

end Steady

end ClosureCache
