/-
The evaluator gives every final binding its value once.

`Fills` says of a course that all its actions respect final bindings and that of the older
environments it fills only given slots.  Running statements fills what their own scope
declares, in the environment that they run in; everything else makes environments of its own
and fills nothing else.  `EvaluatesQuietly` holds for every number of steps, by induction on
them.
-/
import ClosureCache.Proofs.Evaluation.Finality

namespace ClosureCache

open Heap

namespace Course

variable {α β : Type} {image : Image} {m : Machine}

/-- Every action of a course respects final bindings and leaves a machine as `G` says, and
what the course gives is as `P` says. -/
def RespectsFinal (image : Image) (G : Machine → Prop) (P : α → Machine → Prop) :
    Course α → Machine → Prop
  | done a, m => P a m
  | stop _, _ => True
  | act action next, m => action.RespectsFinal image.tree m.heap ∧ G (action.perform image m).2 ∧
    ∀ answer m', action.perform image m = (.ok answer, m') →
      (next answer).RespectsFinal image G P m'

theorem RespectsFinal.imp {G G' : Machine → Prop} {P P' : α → Machine → Prop} {c : Course α}
    (hc : c.RespectsFinal image G P m) (hG : ∀ m', G m' → G' m') (hP : ∀ a m', P a m' → P' a m') :
    c.RespectsFinal image G' P' m := by
  induction c generalizing m with
  | done a => exact hP a m hc
  | stop reason => exact trivial
  | act action next ih =>
    obtain ⟨hrespects, hg, hnext⟩ := hc
    exact ⟨hrespects, hG _ hg, fun answer m' hrun => ih answer (hnext answer m' hrun)⟩

theorem RespectsFinal.bind {G : Machine → Prop} {P : α → Machine → Prop} {Q : β → Machine → Prop}
    {c : Course α} {f : α → Course β} (hc : c.RespectsFinal image G P m)
    (hf : ∀ a m', P a m' → (f a).RespectsFinal image G Q m') :
    (c >>= f).RespectsFinal image G Q m := by
  show (c.bind f).RespectsFinal image G Q m
  induction c generalizing m with
  | done a => exact hf a m hc
  | stop reason => exact trivial
  | act action next ih =>
    obtain ⟨hrespects, hg, hnext⟩ := hc
    exact ⟨hrespects, hg, fun answer m' hrun => ih answer (hnext answer m' hrun)⟩

/-- Wherever a course ends, the machine is as its actions leave it. -/
theorem RespectsFinal.run {G : Machine → Prop} {P : α → Machine → Prop} {c : Course α}
    (hc : c.RespectsFinal image G P m) (hm : G m) : G (c.run image m).2 := by
  induction c generalizing m with
  | done a => exact hm
  | stop reason => exact hm
  | act action next ih =>
    obtain ⟨-, hg, hnext⟩ := hc
    rw [run_act]
    cases hrun : action.perform image m with
    | mk result m' =>
      rw [hrun] at hg
      cases result with
      | error e => exact hg
      | ok answer => exact ih answer (hnext answer m' hrun) hg

theorem RespectsFinal.moments {G : Machine → Prop} {P : α → Machine → Prop} {c : Course α}
    (hc : c.RespectsFinal image G P m) (hm : G m) : ∀ x ∈ c.moments image m,
      G x.before ∧ x.action.RespectsFinal image.tree x.before.heap := by
  induction c generalizing m with
  | done a => exact fun x hx => absurd hx List.not_mem_nil
  | stop reason => exact fun x hx => absurd hx List.not_mem_nil
  | act action next ih =>
    obtain ⟨hrespects, hg, hnext⟩ := hc
    intro x hx
    rcases mem_moments_act hx with rfl | ⟨answer, m', hrun, hx⟩
    · exact ⟨hm, hrespects⟩
    · rw [hrun] at hg
      exact ih answer (hnext answer m' hrun) hg x hx

/-- A course that respects final bindings and fills of the older environments only the slots
in `S`. -/
def Fills (image : Image) (S : ObjectId → BindingId → Prop) (P : α → Machine → Prop)
    (c : Course α) (m : Machine) : Prop :=
  c.RespectsFinal image (m.FillsOnly image S) (fun a m' => m.FillsOnly image S m' ∧ P a m') m

/-- A course that fills nothing in the older environments. -/
def Quiet (image : Image) (c : Course α) (m : Machine) : Prop :=
  c.Fills image (fun _ _ => False) (fun _ _ => True) m

section Rules

variable {S S' : ObjectId → BindingId → Prop} {P : α → Machine → Prop} {Q : β → Machine → Prop}
  {c : Course α} {f : α → Course β}

theorem Fills.done {a : α} (hm : m.Steady image) (ha : P a m) :
    (done a : Course α).Fills image S P m := ⟨.refl hm, ha⟩

/-- One course after another, which may rely on what the first leaves alone. -/
theorem Fills.seq (hc : c.Fills image S' P m)
    (hS : ∀ (x : ObjectId) b, x.index < m.heap.entries.size → S' x b → S x b)
    (hf : ∀ a m', m.FillsOnly image S' m' → P a m' → (f a).Fills image S Q m') :
    (c >>= f).Fills image S Q m := by
  refine RespectsFinal.bind (RespectsFinal.imp hc (fun _ h => h.widen hS) fun _ _ h => h)
    fun a m' ⟨h, ha⟩ => ?_
  have hwide : m.FillsOnly image S m' := h.widen hS
  exact RespectsFinal.imp (hf a m' h ha) (fun _ => hwide.trans)
    fun _ _ ⟨h', hb⟩ => ⟨hwide.trans h', hb⟩

theorem Fills.bind (hc : c.Fills image S P m)
    (hf : ∀ a m', m.FillsOnly image S m' → P a m' → (f a).Fills image S Q m') :
    (c >>= f).Fills image S Q m := hc.seq (fun _ _ _ h => h) hf

theorem Fills.imp {P' : α → Machine → Prop} (hc : c.Fills image S P m)
    (hS : ∀ (x : ObjectId) b, x.index < m.heap.entries.size → S x b → S' x b)
    (hP : ∀ a m', P a m' → P' a m') : c.Fills image S' P' m :=
  RespectsFinal.imp hc (fun _ h => h.widen hS) fun a m' ⟨h, ha⟩ => ⟨h.widen hS, hP a m' ha⟩

theorem Fills.widen (hc : c.Fills image S P m)
    (hS : ∀ (x : ObjectId) b, x.index < m.heap.entries.size → S x b → S' x b) :
    c.Fills image S' P m := hc.imp hS fun _ _ ha => ha

theorem Quiet.fills (hc : c.Quiet image m) : c.Fills image S (fun _ _ => True) m :=
  Fills.widen hc fun _ _ _ h => h.elim

/-- What happens in new environments counts for nothing. -/
theorem Fills.quiet (hc : c.Fills image (fun x _ => m.heap.entries.size ≤ x.index) P m) :
    c.Quiet image m :=
  hc.imp (fun _ _ hlt hle => absurd hlt (Nat.not_lt_of_le hle)) fun _ _ _ => trivial

theorem Quiet.bind (hc : c.Quiet image m)
    (hf : ∀ a m', m.FillsOnly image (fun _ _ => False) m' → (f a).Fills image S Q m') :
    (c >>= f).Fills image S Q m :=
  Fills.seq hc (fun _ _ _ h => h.elim) fun a m' h _ => hf a m' h

theorem Fills.single {action : Action} {P : action.Answer → Machine → Prop} (hi : image.Settled)
    (hm : m.Steady image) (hrespects : action.RespectsFinal image.tree m.heap)
    (hS : ∀ x b, action.Fills image.tree x b → S x b)
    (hP : ∀ answer m', action.perform image m = (.ok answer, m') → P answer m') :
    (act action Course.done).Fills image S P m := by
  have h := (hm.action hi hrespects).widen fun x b _ => hS x b
  refine ⟨hrespects, h, fun answer m' hrun => ?_⟩
  rw [hrun] at h
  exact ⟨h, hP answer m' hrun⟩

/-- A single action that writes no final binding. -/
theorem Quiet.single {action : Action} (hi : image.Settled) (hm : m.Steady image)
    (hrespects : action.RespectsFinal image.tree m.heap)
    (hnone : ∀ x b, ¬ action.Fills image.tree x b) :
    (act action Course.done).Quiet image m :=
  Fills.single hi hm hrespects (fun x b h => hnone x b h) fun _ _ _ => trivial

end Rules

/-! ## Hoisting and activations -/

section Entering

variable {env : ObjectId}

theorem writeBinding_fills (hi : image.Settled) (hm : m.Steady image) {b : BindingId}
    (hb : image.tree.Final b → m.heap.Blank image.tree env b) (name : String) (v : Value) :
    (writeBinding env b name v).Fills image (fun x c => x = env ∧ c = b) (fun _ _ => True) m :=
  Fills.single hi hm hb (fun _ _ ⟨hx, hc, _⟩ => ⟨hx, hc⟩) fun _ _ _ => trivial

/-- What is written by hoisting and on entering a function holds a value from the start. -/
theorem writeBinding_quiet (hi : image.Settled) (hm : m.Steady image) {b : BindingId}
    (hb : image.tree.Eager b) (name : String) (v : Value) :
    (writeBinding env b name v).Quiet image m :=
  Quiet.single hi hm (fun hfinal => absurd hfinal hb.not_final)
    fun _ _ ⟨_, _, hfinal⟩ => hb.not_final hfinal

theorem writeBound_quiet (hi : image.Settled) (hm : m.Steady image) {i : Identifier}
    (hb : i.Eager image.tree) (v : Value) : (writeBound env i v).Quiet image m := by
  rw [writeBound, Identifier.binding?]
  cases hr : i.resolution with
  | binding b => exact writeBinding_quiet hi hm (hb b hr) i.name v
  | _ => exact .done hm trivial

theorem newArray_quiet (hi : image.Settled) (hm : m.Steady image) (elements : List Value) :
    (newArray elements).Quiet image m :=
  Quiet.bind (Quiet.single hi hm rfl fun _ _ h => h) fun _ _ h => .done h.steady trivial

theorem hoistFunctions_quiet (hi : image.Settled) (hm : m.Steady image) {s : ScopeId}
    {l : List Statement} (hl : TidyStatements image.tree s l) :
    (hoistFunctions env l).Quiet image m := by
  induction l generalizing m with
  | nil => exact .done hm trivial
  | cons stmt rest ih =>
    obtain ⟨hstmt, hrest⟩ := hl
    cases stmt with
    | function node =>
      rw [hoistFunctions]
      refine Quiet.bind (Quiet.single hi hm trivial fun _ _ h => h) fun v m₁ h₁ => ?_
      cases hn : node.name with
      | none => exact ih h₁.steady hrest
      | some name =>
        exact Quiet.bind (writeBound_quiet hi h₁.steady (hstmt name hn).1 v) fun _ m₂ h₂ =>
          ih h₂.steady hrest
    | _ => exact ih hm hrest

theorem bindParams_quiet (hi : image.Settled) (hm : m.Steady image) {params : List Identifier}
    (hp : ∀ p ∈ params, p.Eager image.tree) (arguments : List Value) :
    (bindParams env params arguments).Quiet image m := by
  induction params generalizing m arguments with
  | nil => exact .done hm trivial
  | cons p rest ih =>
    rw [bindParams]
    exact Quiet.bind (writeBound_quiet hi hm (hp p List.mem_cons_self) _) fun _ m₁ h₁ =>
      ih h₁.steady (fun q hq => hp q (List.mem_cons_of_mem _ hq)) _

theorem bindRest_quiet (hi : image.Settled) (hm : m.Steady image) {node : FunctionNode}
    (hr : ∀ r, node.rest = some r → r.Eager image.tree) (arguments : List Value) :
    (bindRest env node arguments).Quiet image m := by
  rw [bindRest]
  cases hrest : node.rest with
  | none => exact .done hm trivial
  | some rest =>
    dsimp only
    rw [Identifier.binding?]
    cases hb : rest.resolution with
    | binding b =>
      exact Quiet.bind (newArray_quiet hi hm _) fun v m₁ h₁ =>
        writeBinding_quiet hi h₁.steady (hr rest hrest b hb) _ v
    | _ => exact .done hm trivial

theorem bindArguments_quiet (hi : image.Settled) (hm : m.Steady image) {node : FunctionNode}
    (ha : ∀ b, node.arguments = some b → image.tree.Eager b) (arguments : List Value) :
    (bindArguments env node arguments).Quiet image m := by
  rw [bindArguments]
  cases hb : node.arguments with
  | none => exact .done hm trivial
  | some b =>
    exact Quiet.bind (newArray_quiet hi hm _) fun v m₁ h₁ =>
      writeBinding_quiet hi h₁.steady (ha b hb) _ v

theorem bindOwnName_quiet (hi : image.Settled) (hm : m.Steady image) {node : FunctionNode}
    (hn : node.kind = .expression → ∀ name, node.name = some name → name.Eager image.tree)
    (g : ObjectId) : (bindOwnName env node g).Quiet image m := by
  rw [bindOwnName]
  cases hk : node.kind with
  | expression =>
    cases hname : node.name with
    | none => exact .done hm trivial
    | some name => exact writeBound_quiet hi hm (hn hk name hname) _
  | _ => exact .done hm trivial

/-- A new environment has no values yet for the final bindings of its scope. -/
theorem newEnvironment_quiet (hi : image.Settled) (hm : m.Steady image) (scope : ScopeId)
    (outer : Enclosure) (this : Option Value) :
    (newEnvironment scope outer this).Fills image (fun _ _ => False)
      (fun x m' => m.heap.entries.size ≤ x.index ∧ m'.heap.Vacant image.tree x scope) m := by
  refine Fills.single hi hm trivial (fun _ _ h => h) fun x m' hrun => ?_
  obtain ⟨hsize, e, he, hinitial⟩ := newEnvironment_eq_ok (Action.newEnvironment_eq_ok hrun)
  exact ⟨hsize, vacant_of_initial hi.proper he hinitial⟩

theorem definition_quiet (hi : image.Settled) (hm : m.Steady image) (f : FunctionObject) :
    (definition f).Fills image (fun _ _ => False)
      (fun node _ => ∃ own, node.Settled (fun _ => False) image.tree own) m := by
  refine Fills.single hi hm trivial (fun _ _ h => h) fun node m' hrun => ?_
  rw [Action.perform, EvalM.definition, EvalM.bind_of_ok EvalM.read_apply] at hrun
  cases hget : image.functions.get? f.site with
  | none =>
    rw [hget] at hrun
    cases (Prod.mk.inj hrun).1
  | some node' =>
    rw [hget] at hrun
    obtain rfl := Except.ok.inj (Prod.mk.inj hrun).1
    exact hi.definitions f.site node' hget

/-- An activation is new, and the `let` and `const` of the body have no values in it. -/
theorem enter_quiet (hi : image.Settled) (hm : m.Steady image) {node : FunctionNode} {own : ScopeId}
    (hnode : node.Settled (fun _ => False) image.tree own) (g : ObjectId) (closure : Closure)
    (this : Value) (arguments : List Value) :
    (enter g closure node this arguments).Fills image (fun _ _ => False)
      (fun x m' => m.heap.entries.size ≤ x.index ∧ m'.heap.Vacant image.tree x own) m := by
  rw [enter.eq_def, hnode.scope]
  dsimp only
  refine Fills.bind (newEnvironment_quiet hi hm own _ _) fun x m₁ h₁ hopened => ?_
  obtain ⟨hsize, hvacant⟩ := hopened
  refine Quiet.bind (bindParams_quiet hi h₁.steady (fun p hp => (hnode.params p hp).1) _)
    fun _ m₂ h₂ => ?_
  refine Quiet.bind (bindRest_quiet hi h₂.steady (fun r hr => (hnode.rest r hr).1) _)
    fun _ m₃ h₃ => ?_
  refine Quiet.bind (bindArguments_quiet hi h₃.steady (fun b hb =>
    ((hnode.arguments b hb).resolve_right id).1) _) fun _ m₄ h₄ => ?_
  refine Quiet.bind (bindOwnName_quiet hi h₄.steady (fun he name hname =>
    (hnode.name he name hname).1) _) fun _ m₅ h₅ => ?_
  exact .done h₅.steady ⟨hsize, hvacant.lasts (((h₂.trans h₃).trans h₄).trans h₅).lasts fun _ => id⟩

end Entering

/-! ## Evaluation -/

/-- The bindings that a scope declares under some names, in an environment. -/
def Declared (image : Image) (s : ScopeId) (env : ObjectId) (names : List String) (x : ObjectId)
    (b : BindingId) : Prop :=
  x = env ∧ ∃ name ∈ names, image.tree.lookupLocal s name = some b

structure EvaluatesQuietly (image : Image) (n : Nat) : Prop where
  evaluate {m : Machine} (env : ObjectId) {e : Expression} : m.Steady image →
    e.Tidy image.tree → (evaluate n env e).Quiet image m
  evaluateAll {m : Machine} (env : ObjectId) {l : List Expression} : m.Steady image →
    TidyExpressions image.tree l → (evaluateAll n env l).Quiet image m
  evaluateProperties {m : Machine} (env : ObjectId) {l : List (String × Expression)} :
    m.Steady image → TidyProperties image.tree l → (evaluateProperties n env l).Quiet image m
  evaluateCallee {m : Machine} (env : ObjectId) {e : Expression} : m.Steady image →
    e.Tidy image.tree → (evaluateCallee n env e).Quiet image m
  call {m : Machine} (function this : Value) (arguments : List Value) : m.Steady image →
    (call n function this arguments).Quiet image m
  executeAll {m : Machine} {env : ObjectId} {s : ScopeId} {l : List Statement} : m.Steady image →
    TidyStatements image.tree s l → (lexicalNames l).Nodup →
    (∀ b, Declared image s env (lexicalNames l) env b → m.heap.Blank image.tree env b) →
    (executeAll n env l).Fills image (Declared image s env (lexicalNames l)) (fun _ _ => True) m
  execute {m : Machine} {env : ObjectId} {s : ScopeId} {stmt : Statement} : m.Steady image →
    stmt.Tidy image.tree s →
    (∀ b, Declared image s env stmt.lexicalName?.toList env b → m.heap.Blank image.tree env b) →
    (execute n env stmt).Fills image (Declared image s env stmt.lexicalName?.toList)
      (fun _ _ => True) m
  executeBlock {m : Machine} (env : ObjectId) {b : Block} : m.Steady image → b.Tidy image.tree →
    (executeBlock n env b).Quiet image m
  executeLoop {m : Machine} (env : ObjectId) {test : Expression} {body : Block} :
    m.Steady image → test.Tidy image.tree → body.Tidy image.tree →
    (executeLoop n env test body).Quiet image m

theorem evaluatesQuietly_zero : EvaluatesQuietly image 0 where
  evaluate _ _ _ _ := trivial
  evaluateAll _ _ _ _ := trivial
  evaluateProperties _ _ _ _ := trivial
  evaluateCallee _ _ _ _ := trivial
  call _ _ _ _ := trivial
  executeAll _ _ _ _ := trivial
  execute _ _ _ := trivial
  executeBlock _ _ _ _ := trivial
  executeLoop _ _ _ _ _ _ := trivial

section Step

variable {n : Nat} {env : ObjectId}

/-! ### Expressions -/

theorem evaluate_quiet (hi : image.Settled) (ih : EvaluatesQuietly image n) (hm : m.Steady image)
    {e : Expression} (he : e.Tidy image.tree) : (evaluate (n + 1) env e).Quiet image m := by
  cases e with
  | literal l =>
    rw [evaluate]
    exact .done hm trivial
  | identifier i =>
    rw [evaluate]
    exact Quiet.single hi hm trivial fun _ _ h => h
  | this provider =>
    rw [evaluate]
    exact Quiet.single hi hm trivial fun _ _ h => h
  | object properties =>
    rw [evaluate]
    refine Quiet.bind (ih.evaluateProperties env hm he) fun values m₁ h₁ => ?_
    exact Quiet.bind (Quiet.single hi h₁.steady rfl fun _ _ h => h) fun _ _ h =>
      .done h.steady trivial
  | array elements =>
    rw [evaluate]
    exact Quiet.bind (ih.evaluateAll env hm he) fun vs m₁ h₁ => newArray_quiet hi h₁.steady vs
  | member object property =>
    rw [evaluate]
    exact Quiet.bind (ih.evaluate env hm he) fun v m₁ h₁ =>
      Quiet.single hi h₁.steady trivial fun _ _ h => h
  | setMember object property value =>
    rw [evaluate]
    refine Quiet.bind (ih.evaluate env hm he.1) fun target m₁ h₁ => ?_
    refine Quiet.bind (ih.evaluate env h₁.steady he.2) fun v m₂ h₂ => ?_
    exact Quiet.bind (Quiet.single hi h₂.steady trivial fun _ _ h => h) fun _ _ h =>
      .done h.steady trivial
  | call callee arguments =>
    rw [evaluate]
    refine Quiet.bind (ih.evaluateCallee env hm he.1) fun r m₁ h₁ => ?_
    exact Quiet.bind (ih.evaluateAll env h₁.steady he.2) fun vs m₂ h₂ =>
      ih.call r.1 r.2 vs h₂.steady
  | assign target value =>
    rw [evaluate]
    refine Quiet.bind (ih.evaluate env hm he.1) fun v m₁ h₁ => ?_
    -- what is assigned anywhere is not final
    have hassigned : ∀ b, target.resolution = .binding b → ¬ image.tree.Final b := by
      rintro b hb ⟨d, hd, hfinal⟩
      have htarget := he.2
      rw [hb] at htarget
      obtain ⟨d', hd', himmutable, hpos⟩ := htarget
      obtain rfl := Option.some.inj (hd.symm.trans hd')
      have hmutable := hi.mutable b d hd
      rw [hfinal.unassigned, himmutable, decide_eq_true hpos] at hmutable
      cases hmutable
    exact Quiet.bind (Quiet.single hi h₁.steady hassigned fun _ _ h => h) fun _ _ h =>
      .done h.steady trivial
  | binary op left right =>
    rw [evaluate]
    refine Quiet.bind (ih.evaluate env hm he.1) fun a m₁ h₁ => ?_
    refine Quiet.bind (ih.evaluate env h₁.steady he.2) fun b m₂ h₂ => ?_
    cases op.apply a b with
    | ok v => exact .done h₂.steady trivial
    | error e => exact trivial
  | function node =>
    rw [evaluate]
    exact Quiet.single hi hm trivial fun _ _ h => h
  | dynamicEval source =>
    rw [evaluate]
    exact trivial

theorem evaluateAll_quiet (ih : EvaluatesQuietly image n) (hm : m.Steady image)
    {l : List Expression} (hl : TidyExpressions image.tree l) :
    (evaluateAll (n + 1) env l).Quiet image m := by
  cases l with
  | nil =>
    rw [evaluateAll]
    exact .done hm trivial
  | cons e rest =>
    rw [evaluateAll]
    refine Quiet.bind (ih.evaluate env hm hl.1) fun v m₁ h₁ => ?_
    exact Quiet.bind (ih.evaluateAll env h₁.steady hl.2) fun vs m₂ h₂ => .done h₂.steady trivial

theorem evaluateProperties_quiet (ih : EvaluatesQuietly image n) (hm : m.Steady image)
    {l : List (String × Expression)} (hl : TidyProperties image.tree l) :
    (evaluateProperties (n + 1) env l).Quiet image m := by
  cases l with
  | nil =>
    rw [evaluateProperties]
    exact .done hm trivial
  | cons p rest =>
    obtain ⟨key, e⟩ := p
    rw [evaluateProperties]
    refine Quiet.bind (ih.evaluate env hm hl.1) fun v m₁ h₁ => ?_
    exact Quiet.bind (ih.evaluateProperties env h₁.steady hl.2) fun vs m₂ h₂ =>
      .done h₂.steady trivial

theorem evaluateCallee_quiet (hi : image.Settled) (ih : EvaluatesQuietly image n)
    (hm : m.Steady image) {e : Expression} (he : e.Tidy image.tree) :
    (evaluateCallee (n + 1) env e).Quiet image m := by
  by_cases hmember : ∃ object property, e = .member object property
  · obtain ⟨object, property, rfl⟩ := hmember
    rw [evaluateCallee]
    refine Quiet.bind (ih.evaluate env hm he) fun target m₁ h₁ => ?_
    exact Quiet.bind (Quiet.single hi h₁.steady trivial fun _ _ h => h) fun _ _ h =>
      .done h.steady trivial
  · rw [evaluateCallee]
    · exact Quiet.bind (ih.evaluate env hm he) fun v m₁ h₁ => .done h₁.steady trivial
    · exact fun object property he => hmember ⟨object, property, he⟩

/-! ### Calls -/

/-- Statements fill no more than the environment that they run in. -/
theorem body_fills (hi : image.Settled) (ih : EvaluatesQuietly image n) (hm : m.Steady image)
    {s : ScopeId} {body : List Statement} (hbody : TidyStatements image.tree s body)
    (hdistinct : (lexicalNames body).Nodup) (hvacant : m.heap.Vacant image.tree env s) :
    (executeAll n env body).Fills image (fun x _ => x = env) (fun _ _ => True) m := by
  refine Fills.widen (ih.executeAll (s := s) hm hbody hdistinct fun b hb => ?_)
    fun x b _ hb => hb.1
  obtain ⟨-, name, -, hlookup⟩ := hb
  obtain ⟨d, hd, hs⟩ := hi.proper.lookupLocal_spec hlookup
  exact hvacant b d hd hs

theorem call_quiet (hi : image.Settled) (ih : EvaluatesQuietly image n) (hm : m.Steady image)
    (function this : Value) (arguments : List Value) :
    (call (n + 1) function this arguments).Quiet image m := by
  rw [call]
  refine Quiet.bind (Quiet.single hi hm trivial fun _ _ h => h) fun r m₁ h₁ => ?_
  obtain ⟨g, f⟩ := r
  dsimp only
  refine Fills.bind (definition_quiet hi h₁.steady f) fun node m₂ h₂ hdefined => ?_
  obtain ⟨own, hnode⟩ := hdefined
  split
  · exact Quiet.bind (Quiet.single hi h₂.steady rfl fun _ _ h => h) fun _ _ h =>
      .done h.steady trivial
  · refine Fills.quiet (P := fun _ _ => True) (Fills.bind ((enter_quiet hi h₂.steady hnode g
      f.closure this arguments).widen fun _ _ _ h => h.elim) fun x m₃ h₃ hentered => ?_)
    obtain ⟨hsize, hvacant⟩ := hentered
    refine Quiet.bind (hoistFunctions_quiet hi h₃.steady hnode.body) fun _ m₄ h₄ => ?_
    refine Fills.bind ((body_fills hi ih h₄.steady hnode.body hnode.distinct
      (hvacant.lasts h₄.lasts fun _ => id)).widen fun y _ _ hy => hy ▸ hsize) fun _ m₅ h₅ _ => ?_
    exact .done h₅.steady trivial

/-! ### Statements -/

/-- A statement and the rest declare different bindings. -/
theorem not_declared_of_nodup {s : ScopeId} {stmt : Statement} {rest : List Statement}
    (hdistinct : (lexicalNames (stmt :: rest)).Nodup) {b : BindingId} (hi : image.Settled)
    (hb : Declared image s env (lexicalNames rest) env b) :
    ¬ Declared image s env stmt.lexicalName?.toList env b := by
  rintro ⟨-, name, hname, hlookup⟩
  obtain ⟨-, name', hname', hlookup'⟩ := hb
  obtain ⟨d, hd, -⟩ := hi.proper.lookupLocal_spec hlookup
  obtain rfl : name = name' := (ScopeTree.name_of_lookupLocal hlookup hd).symm.trans
    (ScopeTree.name_of_lookupLocal hlookup' hd)
  rw [lexicalNames, List.filterMap_cons] at hdistinct
  rw [Option.mem_toList.1 hname] at hdistinct
  exact (List.nodup_cons.1 hdistinct).1 hname'

theorem executeAll_fills (hi : image.Settled) (ih : EvaluatesQuietly image n) (hm : m.Steady image)
    {s : ScopeId} {l : List Statement} (hl : TidyStatements image.tree s l)
    (hdistinct : (lexicalNames l).Nodup)
    (hblank : ∀ b, Declared image s env (lexicalNames l) env b → m.heap.Blank image.tree env b) :
    (executeAll (n + 1) env l).Fills image (Declared image s env (lexicalNames l))
      (fun _ _ => True) m := by
  cases l with
  | nil =>
    rw [executeAll]
    exact .done hm trivial
  | cons stmt rest =>
    have hnames : lexicalNames (stmt :: rest) = stmt.lexicalName?.toList ++ lexicalNames rest := by
      rw [lexicalNames, List.filterMap_cons]
      cases stmt.lexicalName? <;> rfl
    have hhead : ∀ x b, Declared image s env stmt.lexicalName?.toList x b →
        Declared image s env (lexicalNames (stmt :: rest)) x b := by
      rintro x b ⟨hx, name, hname, hb⟩
      exact ⟨hx, name, hnames ▸ List.mem_append_left _ hname, hb⟩
    have htail : ∀ x b, Declared image s env (lexicalNames rest) x b →
        Declared image s env (lexicalNames (stmt :: rest)) x b := by
      rintro x b ⟨hx, name, hname, hb⟩
      exact ⟨hx, name, hnames ▸ List.mem_append_right _ hname, hb⟩
    rw [executeAll]
    refine Fills.seq (ih.execute hm hl.1 fun b hb => hblank b (hhead env b hb))
      (fun x b _ => hhead x b) fun c m₁ h₁ _ => ?_
    cases c with
    | returned v => exact .done h₁.steady trivial
    | normal =>
      refine (ih.executeAll h₁.steady hl.2 ?_ fun b hb => ?_).widen fun x b _ => htail x b
      · rw [hnames] at hdistinct
        exact (List.nodup_append.1 hdistinct).2.1
      · -- what is declared later is still without a value
        exact (hblank b (htail env b hb)).lasts h₁.lasts (not_declared_of_nodup hdistinct hi hb)

/-- A declaration writes what it declares, or what holds a value from the start. -/
theorem declare_fills (hi : image.Settled) (hm : m.Steady image) {s : ScopeId}
    {kind : DeclarationKind} {name : Identifier} (hname : name.WrittenAs image.tree s kind)
    {init : Option Expression} {storage : Storage}
    (hblank : ∀ b, Declared image s env
      (Statement.declaration kind name init storage).lexicalName?.toList env b →
        m.heap.Blank image.tree env b) (value : Option Value) :
    (declare env kind name value).Fills image
      (Declared image s env (Statement.declaration kind name init storage).lexicalName?.toList)
      (fun _ _ => True) m := by
  rw [declare, Identifier.binding?]
  cases hr : name.resolution with
  | binding b =>
    dsimp only
    split
    · exact .done hm trivial
    · by_cases hvar : kind = .var
      · subst hvar
        exact Quiet.bind (writeBinding_quiet hi hm (hname b hr) _ _) fun _ _ h =>
          .done h.steady trivial
      · have hdeclared : Declared image s env
            (Statement.declaration kind name init storage).lexicalName?.toList env b := by
          cases kind with
          | var => exact absurd rfl hvar
          | _ =>
            obtain ⟨b', hb', hlookup, -⟩ := hname
            rw [hr] at hb'
            obtain rfl := Resolution.binding.inj hb'
            exact ⟨rfl, name.name, List.mem_singleton.2 rfl, hlookup⟩
        refine Fills.bind ((writeBinding_fills hi hm (fun _ => hblank b hdeclared) _ _).widen ?_)
          fun _ _ h _ => .done h.steady trivial
        rintro x c - ⟨rfl, rfl⟩
        exact hdeclared
  | _ => exact trivial

theorem execute_fills (hi : image.Settled) (ih : EvaluatesQuietly image n) (hm : m.Steady image)
    {s : ScopeId} {stmt : Statement} (hs : stmt.Tidy image.tree s)
    (hblank : ∀ b, Declared image s env stmt.lexicalName?.toList env b →
      m.heap.Blank image.tree env b) :
    (execute (n + 1) env stmt).Fills image (Declared image s env stmt.lexicalName?.toList)
      (fun _ _ => True) m := by
  cases stmt with
  | declaration kind name init storage =>
    cases init with
    | none =>
      rw [execute_declaration_none]
      exact declare_fills hi hm hs hblank none
    | some init =>
      rw [execute_declaration_some]
      have heval : (some <$> evaluate n env init : Course (Option Value)).Quiet image m :=
        Quiet.bind (ih.evaluate env hm hs.2) fun v m₁ h₁ => .done h₁.steady trivial
      exact Quiet.bind heval fun value m₁ h₁ => declare_fills hi h₁.steady hs.1
        (fun b hb => (hblank b hb).lasts h₁.lasts id) value
  | function node =>
    rw [execute]
    exact .done hm trivial
  | expression e =>
    rw [execute]
    exact Quiet.bind (ih.evaluate env hm hs) fun v m₁ h₁ => .done h₁.steady trivial
  | returning value =>
    cases value with
    | none =>
      rw [execute]
      exact .done hm trivial
    | some e =>
      rw [execute]
      exact Quiet.bind (ih.evaluate env hm hs) fun v m₁ h₁ => .done h₁.steady trivial
  | block b =>
    rw [execute]
    exact (ih.executeBlock env hm hs).fills
  | ifElse test consequent alternate =>
    rw [execute.eq_def]
    cases alternate with
    | none =>
      refine Quiet.bind (ih.evaluate env hm hs.1) fun v m₁ h₁ => ?_
      split
      · exact (ih.executeBlock env h₁.steady hs.2).fills
      · exact .done h₁.steady trivial
    | some alternate =>
      refine Quiet.bind (ih.evaluate env hm hs.1) fun v m₁ h₁ => ?_
      split
      · exact (ih.executeBlock env h₁.steady hs.2.1).fills
      · exact (ih.executeBlock env h₁.steady hs.2.2).fills
  | whileLoop test body =>
    rw [execute]
    exact (ih.executeLoop env hm hs.1 hs.2).fills

theorem executeBlock_quiet (hi : image.Settled) (ih : EvaluatesQuietly image n)
    (hm : m.Steady image) {b : Block} (hb : b.Tidy image.tree) :
    (executeBlock (n + 1) env b).Quiet image m := by
  obtain ⟨body, scope⟩ := b
  obtain ⟨inner, rfl, hdistinct, hbody⟩ := hb
  rw [executeBlock]
  refine Fills.quiet (P := fun _ _ => True) (Fills.bind ((newEnvironment_quiet hi hm inner _
    none).widen fun _ _ _ h => h.elim) fun x m₁ h₁ hopened => ?_)
  obtain ⟨hsize, hvacant⟩ := hopened
  refine Quiet.bind (hoistFunctions_quiet hi h₁.steady hbody) fun _ m₂ h₂ => ?_
  exact (body_fills hi ih h₂.steady hbody hdistinct
    (hvacant.lasts h₂.lasts fun _ => id)).widen fun y _ _ hy => hy ▸ hsize

theorem executeLoop_quiet (ih : EvaluatesQuietly image n) (hm : m.Steady image)
    {test : Expression} {body : Block} (htest : test.Tidy image.tree)
    (hbody : body.Tidy image.tree) :
    (executeLoop (n + 1) env test body).Quiet image m := by
  rw [executeLoop]
  refine Quiet.bind (ih.evaluate env hm htest) fun v m₁ h₁ => ?_
  split
  · refine Quiet.bind (ih.executeBlock env h₁.steady hbody) fun c m₂ h₂ => ?_
    cases c with
    | returned w => exact .done h₂.steady trivial
    | normal => exact ih.executeLoop env h₂.steady htest hbody
  · exact .done h₁.steady trivial

end Step

/-- Evaluation with any number of steps fills what it may. -/
theorem evaluatesQuietly (hi : image.Settled) (n : Nat) : EvaluatesQuietly image n := by
  induction n with
  | zero => exact evaluatesQuietly_zero
  | succ n ih =>
    exact {
      evaluate := fun _ _ hm he => evaluate_quiet hi ih hm he
      evaluateAll := fun _ _ hm hl => evaluateAll_quiet ih hm hl
      evaluateProperties := fun _ _ hm hl => evaluateProperties_quiet ih hm hl
      evaluateCallee := fun _ _ hm he => evaluateCallee_quiet hi ih hm he
      call := fun function this arguments hm => call_quiet hi ih hm function this arguments
      executeAll := fun hm => executeAll_fills hi ih hm
      execute := fun hm => execute_fills hi ih hm
      executeBlock := fun _ _ hm hb => executeBlock_quiet hi ih hm hb
      executeLoop := fun _ _ _ hm ht hb => executeLoop_quiet ih hm ht hb }

/-- Running the statements at top level fills the global environment, in which nothing was
filled before. -/
theorem program_fills (hi : image.Settled) (hm : m.Steady image)
    (hvacant : m.heap.Vacant image.tree image.globalEnvironment ScopeTree.global) (steps : Nat) :
    (program steps image.globalEnvironment image.program.body).Fills image
      (fun x _ => x = image.globalEnvironment) (fun _ _ => True) m := by
  refine Quiet.bind (hoistFunctions_quiet hi hm hi.body) fun _ m₁ h₁ => ?_
  exact Fills.bind (body_fills hi (evaluatesQuietly hi steps) h₁.steady hi.body hi.distinct
    (hvacant.lasts h₁.lasts fun _ => id)) fun c m₂ h₂ _ => .done h₂.steady trivial

end Course

end ClosureCache
