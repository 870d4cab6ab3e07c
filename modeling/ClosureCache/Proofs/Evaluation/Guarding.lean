/-
When evaluation writes a binding that is written on entry.

Parameters, the rest parameter, the arguments collection and the own name of a function
expression get their values when an environment is made for the function, before any
definition is reached from it.  If nothing assigns such a binding, then only a `var`
initializer of the same name writes it again.  `Guards` says of a course that it writes a
binding only to environments that are fresh: opened in the course for the scope of the
binding, with no definition reached since.  It depends on no machine.
`EvaluatesGuardedly` holds for every number of steps, by induction on them.
-/
import ClosureCache.Proofs.Evaluation.Sparing

namespace ClosureCache

/-! ## What is written again -/

mutual

/-- The bindings that a statement writes although their scope has been entered: those of
`var` declarations with an initializer, and the own name of a function expression that
stands as a statement. -/
def Statement.rewritten : Statement → List BindingId
  | .declaration .var name (some _) _ => name.binding?.toList
  | .declaration _ _ _ _ => []
  | .function node =>
    match node.kind, node.name with
    | .expression, some name => name.binding?.toList
    | _, _ => []
  | .expression _ => []
  | .returning _ => []
  | .block b => b.rewritten
  | .ifElse _ consequent none => consequent.rewritten
  | .ifElse _ consequent (some alternate) => consequent.rewritten ++ alternate.rewritten
  | .whileLoop _ body => body.rewritten

def rewrittenIn : List Statement → List BindingId
  | [] => []
  | s :: rest => s.rewritten ++ rewrittenIn rest

def Block.rewritten : Block → List BindingId
  | ⟨body, _⟩ => rewrittenIn body

end

def Program.rewritten (p : Program) : List BindingId :=
  rewrittenIn p.body ++ p.functions.flatMap fun f => rewrittenIn f.body

/-- The program writes the binding only on entering the function that declares it. -/
structure Image.WritesOnEntry (image : Image) (b : BindingId) (d : Binding) : Prop where
  declared : image.tree.binding? b = some d
  unassigned : d.mutable = false
  eager : d.kind.isLexical = false
  settled : d.kind.isProvisional = false
  body : b ∉ rewrittenIn image.program.body
  definitions : ∀ site node, image.functions.get? site = some node → b ∉ rewrittenIn node.body

theorem Session.Loaded.writesOnEntry {p : Program} {s : Session} {resolved : ResolvedProgram}
    (h : s.Loaded p resolved) {b : BindingId} {d : Binding} (hd : s.image.tree.binding? b = some d)
    (hmutable : d.mutable = false) (heager : d.kind.isLexical = false)
    (hsettled : d.kind.isProvisional = false) (hb : b ∉ s.image.program.rewritten) :
    s.image.WritesOnEntry b d := by
  rw [Program.rewritten, List.mem_append, not_or] at hb
  refine ⟨hd, hmutable, heager, hsettled, hb.1, fun site node hnode hin => hb.2 ?_⟩
  rw [h.functions, ResolvedProgram.functionTable] at hnode
  obtain ⟨f, hf, heq⟩ := List.mem_filterMap.1 (SortedMap.mem_of_get?_ofList hnode)
  obtain ⟨site', -, heq⟩ := Option.map_eq_some_iff.1 heq
  obtain ⟨-, rfl⟩ := Prod.mk.inj heq
  exact List.mem_flatMap.2 ⟨f, h.program ▸ hf, hin⟩

/-! ## Guarded actions -/

/-- What an action may be answered with, as far as the image tells. -/
def Action.Gives (image : Image) : (a : Action) → a.Answer → Prop
  | definition f, node => image.functions.get? f.site = some node
  | _, _ => True

/-- The fresh environments of a scope after an action: one that it opens is fresh, and
reaching a definition leaves none. -/
def Action.refresh (s : ScopeId) (fresh : List ObjectId) : (a : Action) → a.Answer → List ObjectId
  | newEnvironment scope _ _, env => if scope = s then env :: fresh else fresh
  | instantiate _ _, _ => []
  | _, _ => fresh

/-- An action does not write a binding, except to a fresh environment. -/
def Action.Guards (b : BindingId) (fresh : List ObjectId) : Action → Prop
  | assign _ i _ => i.resolution ≠ .binding b
  | writeBinding env b' _ _ => b' = b → env ∈ fresh
  | _ => True

theorem Action.perform_gives {image : Image} {a : Action} {m m' : Machine} {answer : a.Answer}
    (hrun : a.perform image m = (.ok answer, m')) : a.Gives image answer := by
  cases a with
  | definition f =>
    rw [perform, EvalM.definition, EvalM.bind_of_ok EvalM.read_apply] at hrun
    cases hget : image.functions.get? f.site with
    | none =>
      rw [hget] at hrun
      cases (Prod.mk.inj hrun).1
    | some node =>
      rw [hget] at hrun
      obtain rfl := Except.ok.inj (Prod.mk.inj hrun).1
      exact hget
  | _ => trivial

namespace Course

variable {α β : Type} {image : Image} {b : BindingId} {d : Binding} {s : ScopeId}
  {fresh : List ObjectId}

/-- Every action of a course is guarded, whatever its actions are answered, and what the
course gives is as `P` says, with the environments that are fresh then. -/
def Guards (image : Image) (b : BindingId) (s : ScopeId) (P : α → List ObjectId → Prop) :
    Course α → List ObjectId → Prop
  | done a, fresh => P a fresh
  | stop _, _ => True
  | act action next, fresh => action.Guards b fresh ∧ ∀ answer, action.Gives image answer →
    (next answer).Guards image b s P (action.refresh s fresh answer)

def Guarded (image : Image) (b : BindingId) (s : ScopeId) (c : Course α)
    (fresh : List ObjectId) : Prop :=
  c.Guards image b s (fun _ _ => True) fresh

section Rules

variable {P : α → List ObjectId → Prop} {Q : β → List ObjectId → Prop} {c : Course α}
  {f : α → Course β}

theorem Guards.bind (hc : c.Guards image b s P fresh)
    (hf : ∀ a fresh', P a fresh' → (f a).Guards image b s Q fresh') :
    (c >>= f).Guards image b s Q fresh := by
  show (c.bind f).Guards image b s Q fresh
  induction c generalizing fresh with
  | done a => exact hf a fresh hc
  | stop reason => exact trivial
  | act action next ih => exact ⟨hc.1, fun answer hgives => ih answer (hc.2 answer hgives)⟩

theorem Guarded.bind (hc : c.Guarded image b s fresh)
    (hf : ∀ a fresh', (f a).Guards image b s Q fresh') : (c >>= f).Guards image b s Q fresh :=
  Guards.bind hc fun a fresh' _ => hf a fresh'

theorem guarded_done (a : α) : (done a : Course α).Guarded image b s fresh := trivial

theorem guarded_act {action : Action} (ha : action.Guards b fresh) :
    (act action done).Guarded image b s fresh := ⟨ha, fun _ _ => trivial⟩

end Rules

/-! ## Hoisting and activations -/

/-- What was fresh is fresh, and nothing else. -/
abbrev Leaves (fresh : List ObjectId) : α → List ObjectId → Prop := fun _ fresh' => fresh' = fresh

section Entering

variable {env : ObjectId}

theorem guards_writeBound {i : Identifier} (hi : i.resolution = .binding b → env ∈ fresh)
    (v : Value) : (writeBound env i v).Guards image b s (Leaves fresh) fresh := by
  rw [writeBound, Identifier.binding?]
  cases hr : i.resolution with
  | binding b' => exact ⟨fun heq => hi (heq ▸ hr), fun _ _ => rfl⟩
  | _ => exact rfl

theorem guards_newArray (elements : List Value) :
    (newArray elements).Guards image b s (Leaves fresh) fresh := ⟨trivial, fun _ _ => rfl⟩

theorem guards_bindParams {params : List Identifier}
    (hp : ∀ p ∈ params, p.resolution = .binding b → env ∈ fresh) (arguments : List Value) :
    (bindParams env params arguments).Guards image b s (Leaves fresh) fresh := by
  induction params generalizing arguments with
  | nil => exact rfl
  | cons p rest ih =>
    refine Guards.bind (guards_writeBound (hp p List.mem_cons_self) _) fun _ fresh' hfresh => ?_
    exact hfresh ▸ ih (fun q hq => hp q (List.mem_cons_of_mem _ hq)) _

theorem guards_bindRest {node : FunctionNode}
    (hr : ∀ r, node.rest = some r → r.resolution = .binding b → env ∈ fresh)
    (arguments : List Value) :
    (bindRest env node arguments).Guards image b s (Leaves fresh) fresh := by
  rw [bindRest]
  cases hrest : node.rest with
  | none => exact rfl
  | some r =>
    dsimp only
    rw [Identifier.binding?]
    cases hb : r.resolution with
    | binding b' =>
      refine Guards.bind (guards_newArray _) fun v fresh' hfresh => ?_
      exact ⟨fun heq => hfresh ▸ hr r hrest (heq ▸ hb), fun _ _ => hfresh⟩
    | _ => exact rfl

theorem guards_bindArguments {node : FunctionNode} (ha : node.arguments = some b → env ∈ fresh)
    (arguments : List Value) :
    (bindArguments env node arguments).Guards image b s (Leaves fresh) fresh := by
  rw [bindArguments]
  cases hb : node.arguments with
  | none => exact rfl
  | some b' =>
    refine Guards.bind (guards_newArray _) fun v fresh' hfresh => ?_
    exact ⟨fun heq => hfresh ▸ ha (heq ▸ hb), fun _ _ => hfresh⟩

theorem guards_bindOwnName {node : FunctionNode}
    (hn : node.kind = .expression → ∀ name, node.name = some name →
      name.resolution = .binding b → env ∈ fresh) (g : ObjectId) :
    (bindOwnName env node g).Guards image b s (Leaves fresh) fresh := by
  rw [bindOwnName]
  cases hk : node.kind with
  | expression =>
    cases hname : node.name with
    | none => exact rfl
    | some name => exact guards_writeBound (hn hk name hname) _
  | _ => exact rfl

/-- An environment that is made for the scope is fresh. -/
theorem guards_newEnvironment (scope : ScopeId) (outer : Enclosure) (this : Option Value) :
    (newEnvironment scope outer this).Guards image b s
      (fun env fresh' => scope = s → env ∈ fresh') fresh := by
  refine ⟨trivial, fun env _ hscope => ?_⟩
  rw [Action.refresh, if_pos hscope]
  exact List.mem_cons_self

/-- What a definition binds on entry it binds in the environment that is made for it, which
is fresh until the body is run. -/
theorem guarded_enter (hb : image.WritesOnEntry b d) {node : FunctionNode} {own : ScopeId}
    (hnode : node.Settled (fun _ => False) image.tree own) (g : ObjectId) (closure : Closure)
    (this : Value) (arguments : List Value) :
    (enter g closure node this arguments).Guarded image b d.scope fresh := by
  rw [enter.eq_def, hnode.scope]
  refine Guards.bind (guards_newEnvironment own _ _) fun env opened hopened => ?_
  have hmem : image.tree.Declares own b → env ∈ opened := by
    rintro ⟨d', hd', hscope⟩
    obtain rfl := Option.some.inj (hb.declared.symm.trans hd')
    exact hopened hscope.symm
  refine Guards.bind (guards_bindParams (fun p hp hr => hmem ((hnode.params p hp).2 b hr)) _)
    fun _ fresh₁ h₁ => ?_
  obtain rfl := h₁
  refine Guards.bind (guards_bindRest (fun r hr hrb => hmem ((hnode.rest r hr).2 b hrb)) _)
    fun _ fresh₂ h₂ => ?_
  obtain rfl := h₂
  refine Guards.bind (guards_bindArguments (fun ha =>
    hmem ((hnode.arguments b ha).resolve_right id).2) _) fun _ fresh₃ h₃ => ?_
  obtain rfl := h₃
  exact Guards.bind (guards_bindOwnName (fun hk name hn hr =>
    hmem ((hnode.name hk name hn).2 b hr)) _) fun _ _ _ => trivial

/-- Hoisting writes function declarations. -/
theorem guarded_hoistFunctions (hb : image.WritesOnEntry b d) {own : ScopeId} {l : List Statement}
    (hl : TidyStatements image.tree own l) (hnot : b ∉ rewrittenIn l) :
    (hoistFunctions env l).Guarded image b s fresh := by
  induction l generalizing fresh with
  | nil => exact guarded_done _
  | cons stmt rest ih =>
    rw [rewrittenIn, List.mem_append, not_or] at hnot
    cases stmt with
    | function node =>
      rw [hoistFunctions]
      refine Guarded.bind (guarded_act trivial) fun v fresh₁ => ?_
      cases hn : node.name with
      | none => exact ih hl.2 hnot.2
      | some name =>
        refine Guards.bind (guards_writeBound (fun hr => ?_) _) fun _ fresh₂ _ => ih hl.2 hnot.2
        obtain ⟨-, hhoisted⟩ := hl.1 name hn
        by_cases hkind : node.kind = .expression
        · refine absurd ?_ hnot.1
          rw [Statement.rewritten, hkind, hn]
          dsimp only
          rw [Identifier.binding?, hr]
          exact List.mem_singleton.2 rfl
        · -- a function declaration is not written on entry
          obtain ⟨d', hd', hdeclared⟩ := hhoisted hkind b hr
          obtain rfl := Option.some.inj (hb.declared.symm.trans hd')
          have hsettled := hb.settled
          rw [hdeclared] at hsettled
          cases hsettled
    | _ => exact ih hl.2 hnot.2

end Entering

/-! ## Evaluation -/

theorem guarded_declare (hb : image.WritesOnEntry b d) {own : ScopeId} {kind : DeclarationKind}
    {name : Identifier} (hname : name.WrittenAs image.tree own kind) {value : Option Value}
    (hnot : kind = .var → value ≠ none → name.binding? ≠ some b) :
    (declare env kind name value).Guarded image b s fresh := by
  rw [declare]
  cases hr : name.binding? with
  | none => exact trivial
  | some b' =>
    dsimp only
    split
    · exact guarded_done _
    · next hwrites =>
      refine Guarded.bind (guarded_act fun heq => ?_) fun _ _ => guarded_done _
      subst heq
      cases kind with
      | var => exact absurd hr (hnot rfl fun hvalue => hwrites (by rw [hvalue]; rfl))
      | _ =>
        -- a `let` or `const` writes no binding that has a value from the start
        obtain ⟨b'', hb', -, hlate⟩ := hname
        rw [Identifier.binding?, hb'] at hr
        obtain rfl := Option.some.inj hr
        exact absurd ⟨d, hb.declared, hb.eager⟩ hlate

structure EvaluatesGuardedly (image : Image) (b : BindingId) (s : ScopeId) (n : Nat) : Prop where
  evaluate {fresh : List ObjectId} (env : ObjectId) {e : Expression} :
    e.Tidy image.tree → (evaluate n env e).Guarded image b s fresh
  evaluateAll {fresh : List ObjectId} (env : ObjectId) {l : List Expression} :
    TidyExpressions image.tree l → (evaluateAll n env l).Guarded image b s fresh
  evaluateProperties {fresh : List ObjectId} (env : ObjectId) {l : List (String × Expression)} :
    TidyProperties image.tree l → (evaluateProperties n env l).Guarded image b s fresh
  evaluateCallee {fresh : List ObjectId} (env : ObjectId) {e : Expression} :
    e.Tidy image.tree → (evaluateCallee n env e).Guarded image b s fresh
  call {fresh : List ObjectId} (function this : Value) (arguments : List Value) :
    (call n function this arguments).Guarded image b s fresh
  executeAll {fresh : List ObjectId} (env : ObjectId) {own : ScopeId} {l : List Statement} :
    TidyStatements image.tree own l → b ∉ rewrittenIn l →
      (executeAll n env l).Guarded image b s fresh
  execute {fresh : List ObjectId} (env : ObjectId) {own : ScopeId} {stmt : Statement} :
    stmt.Tidy image.tree own → b ∉ stmt.rewritten → (execute n env stmt).Guarded image b s fresh
  executeBlock {fresh : List ObjectId} (env : ObjectId) {block : Block} :
    block.Tidy image.tree → b ∉ block.rewritten →
      (executeBlock n env block).Guarded image b s fresh
  executeLoop {fresh : List ObjectId} (env : ObjectId) {test : Expression} {body : Block} :
    test.Tidy image.tree → body.Tidy image.tree → b ∉ body.rewritten →
      (executeLoop n env test body).Guarded image b s fresh

theorem evaluatesGuardedly_zero : EvaluatesGuardedly image b s 0 where
  evaluate _ _ _ := trivial
  evaluateAll _ _ _ := trivial
  evaluateProperties _ _ _ := trivial
  evaluateCallee _ _ _ := trivial
  call _ _ _ := trivial
  executeAll _ _ _ _ _ := trivial
  execute _ _ _ _ _ := trivial
  executeBlock _ _ _ _ := trivial
  executeLoop _ _ _ _ _ _ := trivial

namespace EvaluatesGuardedly

variable {n : Nat} {env : ObjectId} (ih : EvaluatesGuardedly image b d.scope n)

include ih

theorem evaluate_succ (hi : image.Settled) (hb : image.WritesOnEntry b d) {e : Expression}
    (he : e.Tidy image.tree) : (Course.evaluate (n + 1) env e).Guarded image b d.scope fresh := by
  cases e with
  | literal l => exact guarded_done _
  | identifier i => exact guarded_act trivial
  | this provider => exact guarded_act trivial
  | object properties =>
    exact Guarded.bind (ih.evaluateProperties env he) fun _ _ =>
      Guarded.bind (guarded_act trivial) fun _ _ => guarded_done _
  | array elements =>
    exact Guarded.bind (ih.evaluateAll env he) fun _ _ => ⟨trivial, fun _ _ => trivial⟩
  | member object property =>
    exact Guarded.bind (ih.evaluate env he) fun _ _ => guarded_act trivial
  | setMember object property value =>
    exact Guarded.bind (ih.evaluate env he.1) fun _ _ =>
      Guarded.bind (ih.evaluate env he.2) fun _ _ =>
        Guarded.bind (guarded_act trivial) fun _ _ => guarded_done _
  | call callee arguments =>
    exact Guarded.bind (ih.evaluateCallee env he.1) fun r _ =>
      Guarded.bind (ih.evaluateAll env he.2) fun _ _ => ih.call r.1 r.2 _
  | assign target value =>
    refine Guarded.bind (ih.evaluate env he.1) fun v fresh₁ =>
      Guarded.bind (guarded_act ?_) fun _ _ => guarded_done _
    -- what is assigned anywhere is mutable
    intro hr
    have htarget := he.2
    rw [hr] at htarget
    obtain ⟨d', hd', himmutable, hpos⟩ := htarget
    obtain rfl := Option.some.inj (hb.declared.symm.trans hd')
    have hmutable := hi.mutable b d hb.declared
    rw [hb.unassigned, himmutable, decide_eq_true hpos] at hmutable
    cases hmutable
  | binary op left right =>
    refine Guarded.bind (ih.evaluate env he.1) fun x _ =>
      Guarded.bind (ih.evaluate env he.2) fun y _ => ?_
    cases op.apply x y <;> exact trivial
  | function node => exact guarded_act trivial
  | dynamicEval source => exact trivial

theorem evaluateAll_succ {l : List Expression} (hl : TidyExpressions image.tree l) :
    (Course.evaluateAll (n + 1) env l).Guarded image b d.scope fresh := by
  cases l with
  | nil => exact guarded_done _
  | cons e rest =>
    exact Guarded.bind (ih.evaluate env hl.1) fun _ _ =>
      Guarded.bind (ih.evaluateAll env hl.2) fun _ _ => guarded_done _

theorem evaluateProperties_succ {l : List (String × Expression)}
    (hl : TidyProperties image.tree l) :
    (Course.evaluateProperties (n + 1) env l).Guarded image b d.scope fresh := by
  cases l with
  | nil => exact guarded_done _
  | cons p rest =>
    exact Guarded.bind (ih.evaluate env hl.1) fun _ _ =>
      Guarded.bind (ih.evaluateProperties env hl.2) fun _ _ => guarded_done _

theorem evaluateCallee_succ {e : Expression} (he : e.Tidy image.tree) :
    (Course.evaluateCallee (n + 1) env e).Guarded image b d.scope fresh := by
  by_cases hmember : ∃ object property, e = .member object property
  · obtain ⟨object, property, rfl⟩ := hmember
    exact Guarded.bind (ih.evaluate env he) fun _ _ =>
      Guarded.bind (guarded_act trivial) fun _ _ => guarded_done _
  · rw [Course.evaluateCallee]
    · exact Guarded.bind (ih.evaluate env he) fun _ _ => guarded_done _
    · exact fun object property he => hmember ⟨object, property, he⟩

theorem call_succ (hi : image.Settled) (hb : image.WritesOnEntry b d) (function this : Value)
    (arguments : List Value) :
    (Course.call (n + 1) function this arguments).Guarded image b d.scope fresh := by
  rw [Course.call]
  refine Guarded.bind (guarded_act trivial) fun r fresh₁ => ⟨trivial, fun node hnode => ?_⟩
  obtain ⟨own, hsettled⟩ := hi.definitions _ node hnode
  show Guards image b d.scope _ (if _ then _ else _) _
  split
  · exact ⟨trivial, fun _ _ => trivial⟩
  · refine Guarded.bind (guarded_enter hb hsettled _ _ this arguments) fun env _ => ?_
    have hnot := hb.definitions _ node hnode
    refine Guarded.bind (guarded_hoistFunctions hb hsettled.body hnot) fun _ _ => ?_
    exact Guarded.bind (ih.executeAll env hsettled.body hnot) fun _ _ => guarded_done _

theorem executeAll_succ {own : ScopeId} {l : List Statement} (hl : TidyStatements image.tree own l)
    (hnot : b ∉ rewrittenIn l) :
    (Course.executeAll (n + 1) env l).Guarded image b d.scope fresh := by
  cases l with
  | nil => exact guarded_done _
  | cons stmt rest =>
    rw [rewrittenIn, List.mem_append, not_or] at hnot
    refine Guarded.bind (ih.execute env hl.1 hnot.1) fun c _ => ?_
    cases c with
    | returned v => exact guarded_done _
    | normal => exact ih.executeAll env hl.2 hnot.2

theorem execute_succ (hb : image.WritesOnEntry b d) {own : ScopeId} {stmt : Statement}
    (hs : stmt.Tidy image.tree own) (hnot : b ∉ stmt.rewritten) :
    (Course.execute (n + 1) env stmt).Guarded image b d.scope fresh := by
  cases stmt with
  | declaration kind name init storage =>
    cases init with
    | none =>
      rw [execute_declaration_none]
      exact guarded_declare hb hs fun _ h => absurd rfl h
    | some e =>
      rw [execute_declaration_some]
      have heval : (some <$> Course.evaluate n env e : Course (Option Value)).Guarded image b
          d.scope fresh := Guarded.bind (ih.evaluate env hs.2) fun _ _ => guarded_done _
      refine Guarded.bind heval fun value _ => guarded_declare hb hs.1 fun hkind _ hname => ?_
      subst hkind
      rw [Statement.rewritten, hname] at hnot
      exact hnot (List.mem_singleton.2 rfl)
  | function node => exact guarded_done _
  | expression e => exact Guarded.bind (ih.evaluate env hs) fun _ _ => guarded_done _
  | returning value =>
    cases value with
    | none => exact guarded_done _
    | some e => exact Guarded.bind (ih.evaluate env hs) fun _ _ => guarded_done _
  | block block => exact ih.executeBlock env hs hnot
  | ifElse test consequent alternate =>
    rw [Course.execute.eq_def]
    cases alternate with
    | none =>
      refine Guarded.bind (ih.evaluate env hs.1) fun v _ => ?_
      split
      · exact ih.executeBlock env hs.2 hnot
      · exact guarded_done _
    | some alternate =>
      rw [Statement.rewritten, List.mem_append, not_or] at hnot
      refine Guarded.bind (ih.evaluate env hs.1) fun v _ => ?_
      split
      · exact ih.executeBlock env hs.2.1 hnot.1
      · exact ih.executeBlock env hs.2.2 hnot.2
  | whileLoop test body => exact ih.executeLoop env hs.1 hs.2 hnot

theorem executeBlock_succ (hb : image.WritesOnEntry b d) {block : Block}
    (hblock : block.Tidy image.tree) (hnot : b ∉ block.rewritten) :
    (Course.executeBlock (n + 1) env block).Guarded image b d.scope fresh := by
  obtain ⟨body, scope⟩ := block
  obtain ⟨inner, rfl, -, hbody⟩ := hblock
  rw [Course.executeBlock]
  refine Guards.bind (guards_newEnvironment inner _ none) fun x _ _ => ?_
  exact Guarded.bind (guarded_hoistFunctions hb hbody hnot) fun _ _ => ih.executeAll x hbody hnot

theorem executeLoop_succ {test : Expression} {body : Block} (htest : test.Tidy image.tree)
    (hbody : body.Tidy image.tree) (hnot : b ∉ body.rewritten) :
    (Course.executeLoop (n + 1) env test body).Guarded image b d.scope fresh := by
  rw [Course.executeLoop]
  refine Guarded.bind (ih.evaluate env htest) fun v _ => ?_
  split
  · refine Guarded.bind (ih.executeBlock env hbody hnot) fun c _ => ?_
    cases c with
    | returned w => exact guarded_done _
    | normal => exact ih.executeLoop env htest hbody hnot
  · exact guarded_done _

end EvaluatesGuardedly

theorem evaluatesGuardedly (hi : image.Settled) (hb : image.WritesOnEntry b d) (n : Nat) :
    EvaluatesGuardedly image b d.scope n := by
  induction n with
  | zero => exact evaluatesGuardedly_zero
  | succ n ih =>
    exact {
      evaluate := fun _ _ he => ih.evaluate_succ hi hb he
      evaluateAll := fun _ _ hl => ih.evaluateAll_succ hl
      evaluateProperties := fun _ _ hl => ih.evaluateProperties_succ hl
      evaluateCallee := fun _ _ he => ih.evaluateCallee_succ he
      call := ih.call_succ hi hb
      executeAll := fun _ _ _ hl hnot => ih.executeAll_succ hl hnot
      execute := fun _ _ _ hs hnot => ih.execute_succ hb hs hnot
      executeBlock := fun _ _ hblock hnot => ih.executeBlock_succ hb hblock hnot
      executeLoop := fun _ _ _ ht hbody hnot => ih.executeLoop_succ ht hbody hnot }

theorem guarded_program (hi : image.Settled) (hb : image.WritesOnEntry b d) (steps : Nat)
    (env : ObjectId) : (program steps env image.program.body).Guarded image b d.scope fresh :=
  Guarded.bind (guarded_hoistFunctions hb hi.body hb.body) fun _ _ =>
    Guarded.bind ((evaluatesGuardedly hi hb steps).executeAll env hi.body hb.body) fun _ _ =>
      guarded_done _

end Course

/-- Every evaluation that a host starts is guarded. -/
theorem HostAction.course_guarded {s : Session} (hi : s.image.Settled) {b : BindingId}
    {d : Binding} (hb : s.image.WritesOnEntry b d) {a : HostAction} {c : Course Value}
    {m : Machine} (hcourse : a.course? s = some (c, m)) (fresh : List ObjectId) :
    c.Guarded s.image b d.scope fresh := by
  rcases course_cases hcourse with ⟨steps, -, rfl, -⟩ | ⟨steps, function, this, arguments, rfl, -⟩
  · exact Course.guarded_program hi hb _ _
  · exact (Course.evaluatesGuardedly hi hb steps).call function this arguments

end ClosureCache
