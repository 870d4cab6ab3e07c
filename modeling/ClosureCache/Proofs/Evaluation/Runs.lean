/-
What happens in the course of an evaluation, and what a host may do with a session.

A moment is one action with the machine before and after it.  `Course.history` is the
one induction over courses that facts about every evaluation need: what each action
preserves, with all moments so far in view, a whole course preserves.

A `HostRun` is any succession of host operations by a host that passes only what it may
hold: primitives, and objects that are in the heap and are none of the machine's own.  In a
`FreeRun` a host may do and pass what it likes.
-/
import ClosureCache.Evaluation.Session
import ClosureCache.Proofs.Evaluation.Machine
import ClosureCache.Proofs.Heap.Reachability

namespace ClosureCache

/-! ## Moments -/

structure Moment where
  action : Action
  before : Machine
  result : Except (Stop EvalError) action.Answer
  after : Machine

def Action.moment (image : Image) (a : Action) (m : Machine) : Moment :=
  ⟨a, m, (a.perform image m).1, (a.perform image m).2⟩

namespace Course

variable {α β : Type} {image : Image}

/-- The actions of a course on a machine, up to the first one that fails. -/
def moments (image : Image) : Course α → Machine → List Moment
  | done _, _ => []
  | stop _, _ => []
  | act action next, m =>
    action.moment image m ::
      match action.perform image m with
      | (.ok answer, m') => (next answer).moments image m'
      | (.error _, _) => []

/-- A moment of a course is that of its first action, or comes after that has succeeded. -/
theorem mem_moments_act {action : Action} {next : action.Answer → Course α} {m : Machine}
    {x : Moment} (hx : x ∈ (act action next).moments image m) :
    x = action.moment image m ∨ ∃ answer m', action.perform image m = (.ok answer, m') ∧
      x ∈ (next answer).moments image m' := by
  rw [moments] at hx
  refine (List.mem_cons.1 hx).imp id fun hx => ?_
  cases hrun : action.perform image m with
  | mk result m' =>
    rw [hrun] at hx
    cases result with
    | error e => exact absurd hx List.not_mem_nil
    | ok answer => exact ⟨answer, m', rfl, hx⟩

theorem run_act (action : Action) (next : action.Answer → Course α) (m : Machine) :
    (act action next).run image m =
      match action.perform image m with
      | (.ok answer, m') => (next answer).run image m'
      | (.error e, m') => (.error e, m') := by
  rw [run, EvalM.bind_apply]
  cases action.perform image m with
  | mk result m' => cases result <;> rfl

/-- What every action that is as `Q` says preserves, with the moments so far in view, a
course of such actions preserves. -/
theorem history_along {J : List Moment → Machine → Prop} {Q : Action → Machine → Prop}
    (hstep : ∀ past (a : Action) m, J past m → Q a m →
      J (past ++ [a.moment image m]) (a.perform image m).2)
    (c : Course α) : ∀ past m, (∀ x ∈ c.moments image m, Q x.action x.before) → J past m →
      J (past ++ c.moments image m) (c.run image m).2 := by
  induction c with
  | done value =>
    intro past m _ hJ
    rw [moments, List.append_nil]
    exact hJ
  | stop reason =>
    intro past m _ hJ
    rw [moments, List.append_nil]
    exact hJ
  | act action next ih =>
    intro past m hQ hJ
    rw [moments] at hQ
    have hnext := hstep past action m hJ (hQ (action.moment image m) List.mem_cons_self)
    rw [moments, run_act]
    generalize action.moment image m = moment at hnext hQ
    revert hnext hQ
    cases action.perform image m with
    | mk result m' =>
      intro hnext hQ
      cases result with
      | error e => exact hnext
      | ok answer =>
        have hrest := ih answer _ m' (fun x hx => hQ x (List.mem_cons_of_mem _ hx)) hnext
        rwa [List.append_assoc] at hrest

/-- What every action preserves a course preserves. -/
theorem history {J : List Moment → Machine → Prop}
    (hstep : ∀ past (a : Action) m, J past m → J (past ++ [a.moment image m]) (a.perform image m).2)
    (c : Course α) (past : List Moment) (m : Machine) (hJ : J past m) :
    J (past ++ c.moments image m) (c.run image m).2 :=
  history_along (Q := fun _ _ => True) (fun past a m hJ _ => hstep past a m hJ) c past m
    (fun _ _ => trivial) hJ

/-! ## Declarations -/

/-- What is left of a declaration when its value is known. -/
def declare (env : ObjectId) (kind : DeclarationKind) (name : Identifier)
    (value : Option Value) : Course Completion :=
  match name.binding? with
  | none => fail (.unannotated ("declaration of '" ++ name.name ++ "'"))
  | some b =>
    if kind = .var && value.isNone then
      return .normal
    else do
      writeBinding env b name.name (value.getD .undefined)
      return .normal

theorem execute_declaration_none (n : Nat) (env : ObjectId) (kind : DeclarationKind)
    (name : Identifier) (storage : Storage) :
    execute (n + 1) env (.declaration kind name none storage) = declare env kind name none := by
  rw [execute.eq_def]
  rfl

theorem execute_declaration_some (n : Nat) (env : ObjectId) (kind : DeclarationKind)
    (name : Identifier) (e : Expression) (storage : Storage) :
    execute (n + 1) env (.declaration kind name (some e) storage) =
      (some <$> evaluate n env e) >>= declare env kind name := by
  rw [execute.eq_def]
  rfl

end Course

/-! ## Loading -/

/-- What loading a program has made when it succeeds. -/
structure Session.Loaded (p : Program) (s : Session) (resolved : ResolvedProgram) : Prop where
  resolve : p.resolve = .ok resolved
  analyze : resolved.analyze = .ok s.image.analysis
  program : s.image.program = resolved.program
  tree : s.image.tree = resolved.tree
  functions : s.image.functions = resolved.functionTable
  globals : setUpGlobals resolved.tree .empty =
    (.ok (s.image.globalObject, s.image.globalEnvironment), s.machine.heap)
  registry : s.machine.registry = .empty
  ran : s.machine.ran = false

theorem Session.loaded {p : Program} {config : Config} {s : Session}
    (hload : Session.load p config = .ok s) : ∃ resolved, s.Loaded p resolved := by
  rw [load] at hload
  cases hconfig : config.validate with
  | error e => simp [hconfig, bind, Except.bind] at hload
  | ok u =>
    cases hresolve : p.resolve with
    | error e => simp [hconfig, hresolve, bind, Except.bind] at hload
    | ok resolved =>
      cases hanalyze : resolved.analyze with
      | error e => simp [hconfig, hresolve, hanalyze, bind, Except.bind] at hload
      | ok analysis =>
        simp only [hconfig, hresolve, hanalyze, Except.mapError_ok, bind, Except.bind] at hload
        cases hglobals : setUpGlobals resolved.tree .empty with
        | mk result heap =>
          rw [hglobals] at hload
          cases result with
          | error e => cases hload
          | ok globals =>
            obtain rfl := Except.ok.inj hload
            exact ⟨resolved, hresolve, hanalyze, rfl, rfl, rfl, hglobals, rfl, rfl⟩

/-! ## The host -/

/-- Whether the object serves the machine only. -/
def Object.isInternal : Object → Bool
  | environment _ => true
  | cell _ => true
  | o => o.isPart

theorem Object.isPart_of_not_internal {o : Object} (ho : o.isInternal = false) :
    o.isPart = false := by
  cases o with
  | environment => rfl
  | cell => rfl
  | _ => exact ho

/-- The values that a host may pass: primitives, and objects in the heap that are none
of the machine's own. -/
def Session.Passable (s : Session) (v : Value) : Prop :=
  ∀ id, v.object? = some id → id ≠ s.image.globalObject ∧
    ∃ o, s.machine.heap.object id = .ok o ∧ o.isInternal = false

inductive HostAction where
  | run (steps : Nat)
  | call (steps : Nat) (function this : Value) (arguments : List Value)
  | callGlobal (steps : Nat) (name : String) (arguments : List Value)
  | setGlobal (name : String) (value : Value)
  | newObject (properties : List (String × Value))
  | newArray (elements : List Value)
  | retain (value : Value)
  | release (value : Value)
  | collectGarbage

namespace HostAction

def perform : HostAction → EvalM (Option Value)
  | run steps => some <$> EvalM.run steps
  | call steps function this arguments => some <$> ClosureCache.call steps function this arguments
  | callGlobal steps name arguments => some <$> EvalM.callGlobal steps name arguments
  | setGlobal name value => (fun _ => none) <$> EvalM.setGlobal name value
  | newObject properties => some <$> EvalM.newObject properties
  | newArray elements => some <$> EvalM.newArray elements
  | retain value => (fun _ => none) <$> EvalM.retain value
  | release value => (fun _ => none) <$> EvalM.release value
  | collectGarbage => (fun _ => none) <$> EvalM.collectGarbage

/-- The evaluation that the operation starts, and the machine it starts on. -/
def course? (s : Session) : HostAction → Option (Course Value × Machine)
  | run steps =>
    if s.machine.ran then none
    else some (Course.program steps s.image.globalEnvironment s.image.program.body,
      { s.machine with
        ran := true })
  | call steps function this arguments =>
    some (Course.call steps function this arguments, s.machine)
  | callGlobal steps name arguments =>
    (s.global? name).map fun function =>
      (Course.call steps function .undefined arguments, s.machine)
  | _ => none

def moments (s : Session) (a : HostAction) : List Moment :=
  match a.course? s with
  | some (c, m) => c.moments s.image m
  | none => []

/-- The evaluations that a host starts: the statements at top level, once, and calls. -/
theorem course_cases {s : Session} {a : HostAction} {c : Course Value} {m : Machine}
    (ha : a.course? s = some (c, m)) :
    (∃ steps, s.machine.ran = false ∧
      c = Course.program steps s.image.globalEnvironment s.image.program.body ∧
      m = { s.machine with
        ran := true }) ∨
      ∃ steps function this arguments, c = Course.call steps function this arguments ∧
        m = s.machine := by
  cases a with
  | run steps =>
    rw [course?] at ha
    split at ha
    · cases ha
    · next hran =>
      obtain ⟨rfl, rfl⟩ := Prod.mk.inj (Option.some.inj ha)
      exact .inl ⟨steps, Bool.eq_false_iff.2 hran, rfl, rfl⟩
  | call steps function this arguments =>
    obtain ⟨rfl, rfl⟩ := Prod.mk.inj (Option.some.inj ha)
    exact .inr ⟨steps, function, this, arguments, rfl, rfl⟩
  | callGlobal steps name arguments =>
    obtain ⟨function, -, hcm⟩ := Option.map_eq_some_iff.1 ha
    obtain ⟨rfl, rfl⟩ := Prod.mk.inj hcm
    exact .inr ⟨steps, function, .undefined, arguments, rfl, rfl⟩
  | _ => cases ha

/-- The machine that an evaluation starts on differs from the session's at most in that
the statements at top level have been started. -/
theorem machine_of_course {s : Session} {a : HostAction} {c : Course Value} {m : Machine}
    (ha : a.course? s = some (c, m)) :
    m.heap = s.machine.heap ∧ m.registry = s.machine.registry := by
  rcases course_cases ha with ⟨_, -, -, rfl⟩ | ⟨_, _, _, _, -, rfl⟩ <;> exact ⟨rfl, rfl⟩

/-- What an operation does that starts an evaluation. -/
theorem perform_of_course {s : Session} {a : HostAction} {c : Course Value} {m : Machine}
    (ha : a.course? s = some (c, m)) :
    a.perform s.image s.machine = ((c.run s.image m).1.map some, (c.run s.image m).2) := by
  cases a with
  | run steps =>
    rw [course?] at ha
    rw [perform, EvalM.map_apply, EvalM.run, EvalM.bind_of_ok EvalM.get_apply]
    split at ha
    · cases ha
    · next hran =>
      rw [if_neg hran]
      obtain ⟨rfl, rfl⟩ := Prod.mk.inj (Option.some.inj ha)
      rfl
  | call steps function this arguments =>
    obtain ⟨rfl, rfl⟩ := Prod.mk.inj (Option.some.inj ha)
    rw [perform, EvalM.map_apply, ClosureCache.call]
  | callGlobal steps name arguments =>
    rw [course?] at ha
    obtain ⟨function, hfunction, hcm⟩ := Option.map_eq_some_iff.1 ha
    obtain ⟨rfl, rfl⟩ := Prod.mk.inj hcm
    have hglobal : EvalM.global? name s.image s.machine = (.ok (some function), s.machine) := by
      rw [← hfunction]
      rfl
    rw [perform, EvalM.map_apply, EvalM.callGlobal, EvalM.bind_of_ok hglobal]
    rfl
  | _ => cases ha

/-- Without an evaluation to start, the statements at top level have been started before. -/
theorem ran_of_course?_none {s : Session} {steps : Nat} (hcourse : (run steps).course? s = none) :
    s.machine.ran = true := by
  by_contra hran
  rw [course?, if_neg hran] at hcourse
  cases hcourse

/-- Calling a name without a value and running again fail at once. -/
theorem perform_run_of_ran {s : Session} (hran : s.machine.ran = true) (steps : Nat) :
    (run steps).perform s.image s.machine = (.error (.error .alreadyRan), s.machine) := by
  rw [perform, EvalM.map_apply, EvalM.run, EvalM.bind_of_ok EvalM.get_apply, if_pos hran]
  rfl

theorem perform_callGlobal_of_none {s : Session} {name : String} (hnone : s.global? name = none)
    (steps : Nat) (arguments : List Value) :
    (callGlobal steps name arguments).perform s.image s.machine =
      (.error (.error (.reference name)), s.machine) := by
  have hglobal : EvalM.global? name s.image s.machine = (.ok none, s.machine) := by
    rw [← hnone]
    rfl
  rw [perform, EvalM.map_apply, EvalM.callGlobal, EvalM.bind_of_ok hglobal]
  rfl

/-- The values that the host passes.  What it releases it has retained. -/
def values : HostAction → List Value
  | run _ => []
  | call _ function this arguments => function :: this :: arguments
  | callGlobal _ _ arguments => arguments
  | setGlobal _ value => [value]
  | newObject properties => properties.map Prod.snd
  | newArray elements => elements
  | retain value => [value]
  | release _ => []
  | collectGarbage => []

/-- Whether a host that holds some values may do this. -/
def Allowed (s : Session) (held : List Value) (a : HostAction) : Prop :=
  (∀ v ∈ a.values, s.Passable v) ∧ ∀ v, a = release v → v ∈ held

theorem Allowed.of_primitives {s : Session} {held : List Value} {a : HostAction}
    (hv : ∀ v ∈ a.values, v.object? = none) (hrelease : ∀ v, a ≠ release v) :
    a.Allowed s held := by
  refine ⟨fun v hmem id hid => ?_, fun v ha => absurd ha (hrelease v)⟩
  rw [hv v hmem] at hid
  cases hid

def holds (held : List Value) : HostAction → List Value
  | retain value => value :: held
  | release value => held.erase value
  | _ => held

end HostAction

/-- What loading does to the heap. -/
theorem HeapM.Keeps.setUpGlobals {T : Heap.EvalRelation} (hT : T.Roots) (tree : ScopeTree) :
    (setUpGlobals tree).Keeps T := by
  refine HeapM.Keeps.bind (.allocate (T.plain _ rfl)) fun object => ?_
  refine HeapM.Keeps.bind (.mapError (.root hT _) _) fun _ => ?_
  refine HeapM.Keeps.bind (.newEnvironment _ _ _ _) fun environment => ?_
  exact HeapM.Keeps.bind (.mapError (.root hT _) _) fun _ => .pure _

namespace EvalM.Keeps

variable {T : Heap.EvalRelation}

theorem setGlobal (name : String) (v : Value) : Keeps T (EvalM.setGlobal name v) := by
  refine read.bind fun image => ?_
  split
  · exact writeBinding _ _ _ _
  · exact setProperty _ _ _

theorem newObject (properties : List (String × Value)) : Keeps T (EvalM.newObject properties) :=
  (allocate (T.plain _ rfl)).bind fun _ => pure _

theorem newArray (elements : List Value) : Keeps T (EvalM.newArray elements) :=
  (allocate (T.plain _ rfl)).bind fun _ => pure _

theorem retain (hT : T.Roots) (v : Value) : Keeps T (EvalM.retain v) := by
  rw [EvalM.retain]
  split
  · exact .tryHeap ((HeapM.Keeps.root hT _).mapError _)
  · exact pure _

end EvalM.Keeps

/-- What a collection makes of the heap and the caches: nothing if it does not end, and
otherwise what is left of them, compacted or not. -/
theorem EvalM.collectGarbage_spec (image : Image) (m : Machine) {m' : Machine}
    (hm' : (EvalM.collectGarbage image m).2 = m') :
    (m'.heap = m.heap ∧ m'.registry = m.registry ∧ m.heap.collect? = none) ∨
      ∃ keep h, Heap.Collected m.heap h keep ∧
        ((m'.heap = h ∧ m'.registry = m.registry) ∨
          (m.registry.compactAll h).2 = (m'.registry, m'.heap)) := by
  subst hm'
  rw [collectGarbage]
  cases hcollect : m.heap.collect? with
  | none =>
    have hrun : collectHeap image m = (.error .endless, m) := by
      rw [collectHeap, bind_of_ok heap_apply, hcollect]
      rfl
    rw [bind_of_error hrun]
    exact .inl ⟨rfl, rfl, rfl⟩
  | some r =>
    obtain ⟨stats, h⟩ := r
    obtain ⟨keep, hkeep⟩ := Heap.collected_of_collect? hcollect
    have hrun : collectHeap image m = (.ok stats, { m with
        heap := h }) := by
      rw [collectHeap, bind_of_ok heap_apply, hcollect]
      rfl
    refine .inr ⟨keep, h, hkeep, ?_⟩
    rw [bind_of_ok hrun, bind_of_ok (emit_apply _), bind_of_ok read_apply]
    dsimp only
    split
    · right
      rw [bind_apply, compactCaches]
      dsimp only
      generalize m.registry.compactAll h = compacted
      obtain ⟨result, registry, heap⟩ := compacted
      cases result with
      | error e => rfl
      | ok n =>
        dsimp only [Except.mapError_ok]
        split
        · rw [bind_of_ok (emit_apply _)]
          rfl
        · rfl
    · exact .inl ⟨rfl, rfl⟩

/-! ## Requests -/

/-- What a client asks of a session. -/
inductive Request where
  | act (a : HostAction)
  | global (name : String)
  | property (target : Value) (name : String)
  | registerWeak (target : Value) (token : Nat)
  | drainFinalizations
  | collectIfNeeded

namespace Request

def perform : Request → EvalM (Option Value)
  | act a => a.perform
  | «global» name => EvalM.global? name
  | property target name => some <$> EvalM.ask fun _ h => h.getProperty target name
  | registerWeak target token => (fun _ => none) <$> EvalM.registerWeak target token
  | drainFinalizations => (fun _ => none) <$> EvalM.drainFinalizations
  | collectIfNeeded => (fun _ => none) <$> EvalM.collectIfNeeded

def values : Request → List Value
  | act (.release v) => [v]
  | act a => a.values
  | property target _ => [target]
  | registerWeak target _ => [target]
  | _ => []

def moments (s : Session) : Request → List Moment
  | act a => a.moments s
  | «global» _ | property .. | registerWeak .. | drainFinalizations | collectIfNeeded => []

def answer (s : Session) (r : Request) : Option Value :=
  match (s.perform r.perform).1 with
  | .ok v => v
  | .error _ => none

end Request

section Requests

variable {s : Session}

/-- Adding a weak reference adds no object and no root. -/
theorem EvalM.registerWeak_entries (target : Value) (token : Nat) :
    (EvalM.registerWeak target token s.image s.machine).2.heap.entries =
      s.machine.heap.entries := by
  rw [registerWeak]
  cases target.object? with
  | none => rfl
  | some id =>
    refine HeapM.ends_mapError (P := fun h => h.entries = s.machine.heap.entries) ?_ _
    refine HeapM.ends_mapError (P := fun h => h.entries = s.machine.heap.entries) ?_ _
    rw [Heap.registerWeak]
    split <;> rfl

theorem EvalM.registerWeak_registry (target : Value) (token : Nat) :
    (EvalM.registerWeak target token s.image s.machine).2.registry = s.machine.registry := by
  rw [registerWeak]
  cases target.object? <;> rfl

theorem EvalM.registerWeak_ran (target : Value) (token : Nat) :
    (EvalM.registerWeak target token s.image s.machine).2.ran = s.machine.ran := by
  rw [registerWeak]
  cases target.object? <;> rfl

/-- A collection that may be needed is made or not. -/
theorem EvalM.collectIfNeeded_machine :
    (EvalM.collectIfNeeded s.image s.machine).2 = s.machine ∨
      (EvalM.collectIfNeeded s.image s.machine).2 =
        (EvalM.collectGarbage s.image s.machine).2 := by
  rw [collectIfNeeded, bind_of_ok read_apply, bind_of_ok heap_apply]
  split
  · right
    rw [bind_apply]
    cases collectGarbage s.image s.machine with
    | mk result m' => cases result <;> rfl
  · exact .inl rfl

/-- A machine with the same objects and the same caches. -/
structure Machine.SameState (m m' : Machine) : Prop where
  entries : m'.heap.entries = m.heap.entries
  registry : m'.registry = m.registry
  ran : m'.ran = m.ran

theorem Machine.SameState.refl (m : Machine) : m.SameState m := ⟨rfl, rfl, rfl⟩

theorem Machine.SameState.object_eq {m m' : Machine} (hi : m.SameState m') (x : ObjectId) :
    m'.heap.object x = m.heap.object x := by
  rw [Heap.object, Heap.entry?, hi.entries, ← Heap.entry?, ← Heap.object]

/-- A request does to a session what an operation of a host does, or leaves its objects and
its caches as they are. -/
theorem Request.act_or_sameState (r : Request) (s : Session) :
    (∃ a : HostAction, (r.perform s.image s.machine).2 = (a.perform s.image s.machine).2 ∧
      r.moments s = a.moments s ∧ (r = .act a ∨ a = .collectGarbage)) ∨
    s.machine.SameState (r.perform s.image s.machine).2 ∧ r.moments s = [] := by
  cases r with
  | act a => exact .inl ⟨a, rfl, rfl, .inl rfl⟩
  | «global» name => exact .inr ⟨.refl _, rfl⟩
  | property target name =>
    rw [perform, EvalM.map_apply, EvalM.ask_apply]
    exact .inr ⟨.refl _, rfl⟩
  | registerWeak target token =>
    rw [perform, EvalM.map_apply]
    exact .inr ⟨⟨EvalM.registerWeak_entries target token,
      EvalM.registerWeak_registry target token, EvalM.registerWeak_ran target token⟩, rfl⟩
  | drainFinalizations =>
    rw [perform, EvalM.map_apply]
    exact .inr ⟨⟨rfl, rfl, rfl⟩, rfl⟩
  | collectIfNeeded =>
    rw [perform, EvalM.map_apply]
    dsimp only
    rcases EvalM.collectIfNeeded_machine (s := s) with heq | heq
    · rw [heq]
      exact .inr ⟨.refl _, rfl⟩
    · rw [heq]
      refine .inl ⟨.collectGarbage, ?_, rfl, .inr rfl⟩
      rw [HostAction.perform, EvalM.map_apply]

end Requests

/-! ## Runs -/

/-- Successions of host operations that lead from one session to another, with the
values that the host has retained and the moments so far. -/
inductive HostRun (s₀ : Session) : Session → List Value → List Moment → Prop
  | start : HostRun s₀ s₀ [] []
  | step {s : Session} {held : List Value} {past : List Moment} (a : HostAction) :
    HostRun s₀ s held past → a.Allowed s held →
    HostRun s₀ (s.perform a.perform).2 (a.holds held) (past ++ a.moments s)

/-- A run does not change what loading made. -/
theorem HostRun.image_eq {s₀ s : Session} {held : List Value} {past : List Moment}
    (hrun : HostRun s₀ s held past) : s.image = s₀.image := by
  induction hrun with
  | start => rfl
  | step a _ _ ih => exact ih

/-- A run in which the host passes anything it likes, such as the number that an object will
have. -/
inductive FreeRun (s₀ : Session) : Session → List Moment → Prop where
  | start : FreeRun s₀ s₀ []
  | step {s : Session} {past : List Moment} (r : Request) : FreeRun s₀ s past →
    FreeRun s₀ (s.perform r.perform).2 (past ++ r.moments s)

theorem FreeRun.image_eq {s₀ s : Session} {past : List Moment} (hrun : FreeRun s₀ s past) :
    s.image = s₀.image := by
  induction hrun with
  | start => rfl
  | step r _ ih => exact ih

end ClosureCache
