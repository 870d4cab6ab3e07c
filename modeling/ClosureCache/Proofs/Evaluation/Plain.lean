/-
The evaluator makes nothing that caches are built from.

Tuples and maps are added to the heap only by the caches themselves.  `Plain` says of a
course that whatever it adds is no part of a trie, whatever its actions are answered; it
depends on no machine.  `EvaluatesPlainly` holds for every number of steps, by induction
on them.

So evaluation keeps to every relation that caches keep to.
-/
import ClosureCache.Evaluation.Evaluator
import ClosureCache.Proofs.Cache.CacheRelations
import ClosureCache.Proofs.Evaluation.Instantiation
import ClosureCache.Proofs.Evaluation.Runs

namespace ClosureCache

/-- What the action adds to the heap is no part of a trie. -/
def Action.Plain : Action → Prop
  | allocate o => o.isPart = false
  | _ => True

/-- A plain action keeps to what caches keep to. -/
theorem Action.Plain.keeps (T : Heap.EvalCacheRelation) {image : Image} {m : Machine} {a : Action}
    (ha : a.Plain) : T.Holds m.heap (a.perform image m).2.heap := by
  by_cases hreach : ∃ node env, a = .instantiate node env
  · obtain ⟨node, env, rfl⟩ := hreach
    have hend := EvalM.instantiate_spec image node env m
    rw [perform]
    generalize EvalM.instantiate node env image m = r at hend
    obtain ⟨result, m'⟩ := r
    dsimp only at hend ⊢
    cases hend with
    | refused e _ hheap _ => exact hheap ▸ T.refl _
    | fresh site reason _ _ hheap _ =>
      rw [hheap]
      exact T.allocate _ _ (T.plain _ rfl)
    | reached site spec key closure result _ _ _ _ hreach =>
      have hreached := m.registry.reach_keeps T.toCacheRelation site spec.arity key EvalError.cache
        (HeapM.Keeps.allocate (o := .function ⟨site, closure⟩) (T.plain _ rfl))
        (fun h f h' hrun => ?_) m.heap
      · rw [hreach] at hreached
        exact hreached
      · obtain ⟨hf, rfl⟩ := Prod.mk.inj hrun
        obtain rfl := Except.ok.inj hf
        exact T.slots_function h ⟨site, closure⟩
  · refine (a.keeps T.toEvalRelation (fun node env he => hreach ⟨node, env, he⟩) (fun o ho => ?_)
      image m).2
    subst ho
    exact T.plain o ha

namespace Course

variable {α β : Type}

def Plain : Course α → Prop
  | done _ => True
  | stop _ => True
  | act action next => action.Plain ∧ ∀ answer, (next answer).Plain

theorem Plain.bind {c : Course α} {f : α → Course β} (hc : c.Plain) (hf : ∀ a, (f a).Plain) :
    (c >>= f).Plain := by
  show (c.bind f).Plain
  induction c with
  | done a => exact hf a
  | stop reason => exact trivial
  | act action next ih => exact ⟨hc.1, fun answer => ih answer (hc.2 answer)⟩

theorem Plain.moments {image : Image} {c : Course α} (hc : c.Plain) {m : Machine} :
    ∀ x ∈ c.moments image m, x.action.Plain := by
  induction c generalizing m with
  | done a => exact fun x hx => absurd hx List.not_mem_nil
  | stop reason => exact fun x hx => absurd hx List.not_mem_nil
  | act action next ih =>
    intro x hx
    rcases mem_moments_act hx with rfl | ⟨answer, m', -, hx⟩
    · exact hc.1
    · exact ih answer (hc.2 answer) x hx

theorem Plain.keeps (T : Heap.EvalCacheRelation) {image : Image} {c : Course α} (hc : c.Plain)
    (m : Machine) : T.Holds m.heap (c.run image m).2.heap := by
  induction c generalizing m with
  | done a => exact T.refl _
  | stop reason => exact T.refl _
  | act action next ih =>
    have haction : T.Holds m.heap (action.perform image m).2.heap := hc.1.keeps T
    rw [Course.run, EvalM.bind_apply]
    cases hrun : action.perform image m with
    | mk result m' =>
      rw [hrun] at haction
      cases result with
      | error e => exact haction
      | ok answer => exact T.trans haction (ih answer (hc.2 answer) m')

theorem plain_done (a : α) : (done a).Plain := trivial

theorem plain_act {action : Action} (ha : action.Plain) : (act action done).Plain :=
  ⟨ha, fun _ => trivial⟩

/-! ## Hoisting and activations -/

theorem plain_writeBound (env : ObjectId) (i : Identifier) (v : Value) :
    (writeBound env i v).Plain := by
  rw [writeBound]
  split
  · exact plain_act trivial
  · exact plain_done _

theorem plain_hoistFunctions (env : ObjectId) (l : List Statement) :
    (hoistFunctions env l).Plain := by
  induction l with
  | nil => exact plain_done _
  | cons s rest ih =>
    cases s with
    | function node =>
      rw [hoistFunctions]
      refine Plain.bind (plain_act trivial) fun v => ?_
      cases node.name with
      | none => exact ih
      | some name => exact Plain.bind (plain_writeBound env name v) fun _ => ih
    | _ => exact ih

theorem plain_newArray (elements : List Value) : (newArray elements).Plain :=
  Plain.bind (plain_act rfl) fun _ => plain_done _

theorem plain_bindParams (env : ObjectId) (params : List Identifier) (arguments : List Value) :
    (bindParams env params arguments).Plain := by
  induction params generalizing arguments with
  | nil => exact plain_done _
  | cons p rest ih => exact Plain.bind (plain_writeBound _ _ _) fun _ => ih _

theorem plain_bindRest (env : ObjectId) (node : FunctionNode) (arguments : List Value) :
    (bindRest env node arguments).Plain := by
  rw [bindRest]
  split
  · exact plain_done _
  · split
    · exact plain_done _
    · exact Plain.bind (plain_newArray _) fun _ => plain_act trivial

theorem plain_bindArguments (env : ObjectId) (node : FunctionNode) (arguments : List Value) :
    (bindArguments env node arguments).Plain := by
  rw [bindArguments]
  split
  · exact plain_done _
  · exact Plain.bind (plain_newArray _) fun _ => plain_act trivial

theorem plain_bindOwnName (env : ObjectId) (node : FunctionNode) (function : ObjectId) :
    (bindOwnName env node function).Plain := by
  rw [bindOwnName]
  split
  · exact plain_writeBound _ _ _
  · exact plain_done _

theorem plain_enter (function : ObjectId) (closure : Closure) (node : FunctionNode) (this : Value)
    (arguments : List Value) : (enter function closure node this arguments).Plain := by
  rw [enter.eq_def]
  split
  · exact trivial
  · refine Plain.bind (plain_act trivial) fun env => ?_
    refine Plain.bind (plain_bindParams env _ _) fun _ => ?_
    refine Plain.bind (plain_bindRest env node _) fun _ => ?_
    refine Plain.bind (plain_bindArguments env node _) fun _ => ?_
    exact Plain.bind (plain_bindOwnName env node function) fun _ => plain_done _

/-! ## Evaluation -/

theorem plain_declare (env : ObjectId) (kind : DeclarationKind) (name : Identifier)
    (value : Option Value) : (declare env kind name value).Plain := by
  rw [declare]
  split
  · exact trivial
  · split
    · exact plain_done _
    · exact Plain.bind (plain_act trivial) fun _ => plain_done _

/-- Evaluation with `n` steps makes nothing that caches are built from. -/
structure EvaluatesPlainly (n : Nat) : Prop where
  evaluate (env : ObjectId) (e : Expression) : (evaluate n env e).Plain
  evaluateAll (env : ObjectId) (l : List Expression) : (evaluateAll n env l).Plain
  evaluateProperties (env : ObjectId) (l : List (String × Expression)) :
    (evaluateProperties n env l).Plain
  evaluateCallee (env : ObjectId) (e : Expression) : (evaluateCallee n env e).Plain
  call (function this : Value) (arguments : List Value) : (call n function this arguments).Plain
  executeAll (env : ObjectId) (l : List Statement) : (executeAll n env l).Plain
  execute (env : ObjectId) (s : Statement) : (execute n env s).Plain
  executeBlock (env : ObjectId) (b : Block) : (executeBlock n env b).Plain
  executeLoop (env : ObjectId) (test : Expression) (body : Block) :
    (executeLoop n env test body).Plain

theorem evaluatesPlainly_zero : EvaluatesPlainly 0 where
  evaluate _ _ := trivial
  evaluateAll _ _ := trivial
  evaluateProperties _ _ := trivial
  evaluateCallee _ _ := trivial
  call _ _ _ := trivial
  executeAll _ _ := trivial
  execute _ _ := trivial
  executeBlock _ _ := trivial
  executeLoop _ _ _ := trivial

namespace EvaluatesPlainly

variable {n : Nat} (ih : EvaluatesPlainly n)

include ih

theorem evaluate_succ (env : ObjectId) (e : Expression) :
    (Course.evaluate (n + 1) env e).Plain := by
  cases e with
  | literal l =>
    rw [Course.evaluate]
    exact plain_done _
  | identifier i => exact plain_act trivial
  | this provider => exact plain_act trivial
  | object properties =>
    exact Plain.bind (ih.evaluateProperties env properties) fun _ =>
      Plain.bind (plain_act rfl) fun _ => plain_done _
  | array elements =>
    exact Plain.bind (ih.evaluateAll env elements) fun _ => plain_newArray _
  | member object property =>
    exact Plain.bind (ih.evaluate env object) fun _ => plain_act trivial
  | setMember object property value =>
    exact Plain.bind (ih.evaluate env object) fun _ => Plain.bind (ih.evaluate env value) fun _ =>
      Plain.bind (plain_act trivial) fun _ => plain_done _
  | call callee arguments =>
    exact Plain.bind (ih.evaluateCallee env callee) fun r =>
      Plain.bind (ih.evaluateAll env arguments) fun _ => ih.call r.1 r.2 _
  | assign target value =>
    exact Plain.bind (ih.evaluate env value) fun _ =>
      Plain.bind (plain_act trivial) fun _ => plain_done _
  | binary op left right =>
    refine Plain.bind (ih.evaluate env left) fun a => Plain.bind (ih.evaluate env right) fun b => ?_
    cases op.apply a b <;> exact trivial
  | function node => exact plain_act trivial
  | dynamicEval source => exact trivial

theorem evaluateAll_succ (env : ObjectId) (l : List Expression) :
    (Course.evaluateAll (n + 1) env l).Plain := by
  cases l with
  | nil => exact plain_done _
  | cons e rest =>
    exact Plain.bind (ih.evaluate env e) fun _ =>
      Plain.bind (ih.evaluateAll env rest) fun _ => plain_done _

theorem evaluateProperties_succ (env : ObjectId) (l : List (String × Expression)) :
    (Course.evaluateProperties (n + 1) env l).Plain := by
  cases l with
  | nil => exact plain_done _
  | cons p rest =>
    exact Plain.bind (ih.evaluate env p.2) fun _ =>
      Plain.bind (ih.evaluateProperties env rest) fun _ => plain_done _

theorem evaluateCallee_succ (env : ObjectId) (e : Expression) :
    (Course.evaluateCallee (n + 1) env e).Plain := by
  by_cases hmember : ∃ object property, e = .member object property
  · obtain ⟨object, property, rfl⟩ := hmember
    exact Plain.bind (ih.evaluate env object) fun _ =>
      Plain.bind (plain_act trivial) fun _ => plain_done _
  · rw [Course.evaluateCallee]
    · exact Plain.bind (ih.evaluate env e) fun _ => plain_done _
    · exact fun object property he => hmember ⟨object, property, he⟩

theorem call_succ (function this : Value) (arguments : List Value) :
    (Course.call (n + 1) function this arguments).Plain := by
  rw [Course.call]
  refine Plain.bind (plain_act trivial) fun r => Plain.bind (plain_act trivial) fun node => ?_
  split
  · exact Plain.bind (plain_act rfl) fun _ => plain_done _
  · refine Plain.bind (plain_enter _ _ node this arguments) fun env => ?_
    refine Plain.bind (plain_hoistFunctions env node.body) fun _ => ?_
    exact Plain.bind (ih.executeAll env node.body) fun _ => plain_done _

theorem executeAll_succ (env : ObjectId) (l : List Statement) :
    (Course.executeAll (n + 1) env l).Plain := by
  cases l with
  | nil => exact plain_done _
  | cons s rest =>
    refine Plain.bind (ih.execute env s) fun c => ?_
    cases c with
    | returned v => exact plain_done _
    | normal => exact ih.executeAll env rest

theorem execute_succ (env : ObjectId) (s : Statement) : (Course.execute (n + 1) env s).Plain := by
  cases s with
  | declaration kind name init storage =>
    cases init with
    | none =>
      rw [execute_declaration_none]
      exact plain_declare env kind name none
    | some e =>
      rw [execute_declaration_some]
      have heval : (some <$> Course.evaluate n env e : Course (Option Value)).Plain :=
        Plain.bind (ih.evaluate env e) fun _ => plain_done _
      exact Plain.bind heval fun value => plain_declare env kind name value
  | function node => exact plain_done _
  | expression e => exact Plain.bind (ih.evaluate env e) fun _ => plain_done _
  | returning value =>
    cases value with
    | none => exact plain_done _
    | some e => exact Plain.bind (ih.evaluate env e) fun _ => plain_done _
  | block b => exact ih.executeBlock env b
  | ifElse test consequent alternate =>
    rw [Course.execute.eq_def]
    refine Plain.bind (ih.evaluate env test) fun v => ?_
    split
    · exact ih.executeBlock env consequent
    · split
      · exact plain_done _
      · exact ih.executeBlock env _
  | whileLoop test body => exact ih.executeLoop env test body

theorem executeBlock_succ (env : ObjectId) (b : Block) :
    (Course.executeBlock (n + 1) env b).Plain := by
  rw [Course.executeBlock]
  split
  · exact trivial
  · exact Plain.bind (plain_act trivial) fun inner =>
      Plain.bind (plain_hoistFunctions inner b.body) fun _ => ih.executeAll inner b.body

theorem executeLoop_succ (env : ObjectId) (test : Expression) (body : Block) :
    (Course.executeLoop (n + 1) env test body).Plain := by
  rw [Course.executeLoop]
  refine Plain.bind (ih.evaluate env test) fun v => ?_
  split
  · refine Plain.bind (ih.executeBlock env body) fun c => ?_
    cases c with
    | returned w => exact plain_done _
    | normal => exact ih.executeLoop env test body
  · exact plain_done _

end EvaluatesPlainly

theorem evaluatesPlainly (n : Nat) : EvaluatesPlainly n := by
  induction n with
  | zero => exact evaluatesPlainly_zero
  | succ n ih =>
    exact {
      evaluate := ih.evaluate_succ
      evaluateAll := ih.evaluateAll_succ
      evaluateProperties := ih.evaluateProperties_succ
      evaluateCallee := ih.evaluateCallee_succ
      call := ih.call_succ
      executeAll := ih.executeAll_succ
      execute := ih.execute_succ
      executeBlock := ih.executeBlock_succ
      executeLoop := ih.executeLoop_succ }

theorem plain_program (steps : Nat) (env : ObjectId) (body : List Statement) :
    (program steps env body).Plain :=
  Plain.bind (plain_hoistFunctions env body) fun _ =>
    Plain.bind ((evaluatesPlainly steps).executeAll env body) fun _ => plain_done _

end Course

/-- Every evaluation that a host starts is plain. -/
theorem HostAction.course_plain {s : Session} {a : HostAction} {c : Course Value} {m : Machine}
    (hcourse : a.course? s = some (c, m)) : c.Plain := by
  rcases course_cases hcourse with ⟨steps, -, rfl, -⟩ | ⟨steps, function, this, arguments, rfl, -⟩
  · exact Course.plain_program _ _ _
  · exact (Course.evaluatesPlainly steps).call function this arguments

/-- Every operation of a host but a collection keeps to what caches keep to, if taking roots
away does and the roots do that it adds. -/
theorem HostAction.keeps (T : Heap.EvalCacheRelation) {s : Session}
    (hunroot : ∀ h x, T.Holds h (Heap.unroot x h).2) (a : HostAction)
    (hretain : ∀ v, a = .retain v →
      T.Holds s.machine.heap (EvalM.retain v s.image s.machine).2.heap)
    (hcollect : a ≠ .collectGarbage) :
    T.Holds s.machine.heap (a.perform s.image s.machine).2.heap := by
  have hkeeps : ∀ {x : EvalM (Option Value)}, x.Keeps T.toEvalRelation →
      T.Holds s.machine.heap (x s.image s.machine).2.heap := fun hx => (hx s.image s.machine).2
  cases hcourse : a.course? s with
  | some start =>
    obtain ⟨c, m⟩ := start
    rw [perform_of_course hcourse, ← (machine_of_course hcourse).1]
    exact (course_plain hcourse).keeps T m
  | none =>
    cases a with
    | run steps =>
      rw [perform_run_of_ran (ran_of_course?_none hcourse)]
      exact T.refl _
    | call => cases hcourse
    | callGlobal steps name arguments =>
      rw [perform_callGlobal_of_none (Option.map_eq_none_iff.1 hcourse)]
      exact T.refl _
    | setGlobal name v => exact hkeeps (.map (.setGlobal name v) _)
    | newObject properties => exact hkeeps (.map (.newObject properties) _)
    | newArray elements => exact hkeeps (.map (.newArray elements) _)
    | retain v =>
      rw [perform, EvalM.map_apply]
      exact hretain v rfl
    | release v =>
      refine hkeeps (.map ?_ _)
      rw [EvalM.release]
      split
      · exact .tryHeap (.mapError (fun h => hunroot h _) _)
      · exact .pure _
    | collectGarbage => exact absurd rfl hcollect

end ClosureCache
