/-
The evaluator hands on only what it was handed.

`Known` says which objects an evaluation has come to know as values, and which
environments it may find bindings from.  A course is discreet if every value and every
environment that it hands to the machine is known by then: it was known at the start, or
an earlier action was answered with it.  Values that are made along the way, by literals
and operators, are primitives.

Nothing here depends on a machine.  What is known grows along a course, so the answers of
an action are taken at any later state of knowledge that has them.
-/
import ClosureCache.Evaluation.Evaluator
import ClosureCache.Proofs.Evaluation.Runs
import ClosureCache.Proofs.SortedMap

namespace ClosureCache

/-- What an evaluation has come to know. -/
structure Known where
  objects : ObjectId → Prop
  environments : ObjectId → Prop

/-- Something is known later if it is known now. -/
structure Known.Le (K K' : Known) : Prop where
  objects : ∀ x, K.objects x → K'.objects x
  environments : ∀ x, K.environments x → K'.environments x

theorem Known.Le.refl (K : Known) : K.Le K := ⟨fun _ => id, fun _ => id⟩

theorem Known.Le.trans {K K₁ K' : Known} (a : K.Le K₁) (b : K₁.Le K') : K.Le K' :=
  ⟨fun x hx => b.objects x (a.objects x hx),
    fun x hx => b.environments x (a.environments x hx)⟩

/-! ## Knowing what is handed over -/

/-- The value is a primitive or a known object. -/
def Value.Among (K : Known) (v : Value) : Prop := ∀ id, v.object? = some id → K.objects id

theorem Value.Among.mono {K K' : Known} {v : Value} (hv : v.Among K) (hK : K.Le K') : v.Among K' :=
  fun id hid => hK.objects id (hv id hid)

theorem Value.among_of_primitive {v : Value} (hv : v.object? = none) (K : Known) : v.Among K :=
  fun id hid => by
    rw [hv] at hid
    cases hid

theorem Value.among_object {K : Known} {x : ObjectId} (hx : K.objects x) : (object x).Among K :=
  fun _ hid => Option.some.inj hid ▸ hx

def Value.AllAmong (K : Known) (l : List Value) : Prop := ∀ v ∈ l, v.Among K

def Enclosure.Among (K : Known) : Enclosure → Prop
  | outermost => True
  | environment x => K.environments x
  | captures f => K.objects f

/-- Where the closure finds its bindings is known; a table of captures is its own. -/
def Closure.Among (K : Known) : Closure → Prop
  | chain env => K.environments env
  | captured .. => True

/-- The object is of a kind that programs make, and what it holds is known. -/
def Object.Among (K : Known) : Object → Prop
  | ordinary properties => Value.AllAmong K properties.values
  | array elements => Value.AllAmong K elements.toList
  | suspended callee arguments => K.objects callee ∧ Value.AllAmong K arguments.toList
  | _ => False

namespace Action

def InputsKnown (K : Known) : Action → Prop
  | readIdentifier env _ => K.environments env
  | readThis env _ => K.environments env
  | assign env _ v => K.environments env ∧ v.Among K
  | writeBinding env _ _ v => K.environments env ∧ v.Among K
  | newEnvironment _ outer this => outer.Among K ∧ Value.AllAmong K this.toList
  | allocate o => o.Among K
  | getProperty target _ => target.Among K
  | setProperty target _ v => target.Among K ∧ v.Among K
  | instantiate _ env => K.environments env
  | callee v => v.Among K
  | definition _ => True

def AnswerKnown (K : Known) : (a : Action) → a.Answer → Prop
  | readIdentifier .., v => Value.Among K v
  | readThis .., v => Value.Among K v
  | newEnvironment .., env => K.environments env
  | allocate _, x => K.objects x
  | getProperty .., v => Value.Among K v
  | instantiate .., v => Value.Among K v
  | callee _, (x, f) => K.objects x ∧ f.closure.Among K
  | assign .., _ => True
  | writeBinding .., _ => True
  | setProperty .., _ => True
  | definition _, _ => True

end Action

/-- Operators give primitives. -/
theorem BinaryOp.object?_of_apply {op : BinaryOp} {a b v : Value} (h : op.apply a b = .ok v) :
    v.object? = none := by
  rw [apply.eq_def] at h
  repeat' split at h
  all_goals cases h
  all_goals rfl

theorem Literal.object?_value (l : Literal) : l.value.object? = none := by
  cases l <;> rfl

namespace Course

variable {α β : Type} {K : Known} {out : Known → α → Prop} {out' : Known → β → Prop}

/-- Every action of the course is given only what is known by then, and the result is as
`out` says of what is known in the end. -/
def Discreet (out : Known → α → Prop) : Known → Course α → Prop
  | K, done a => out K a
  | _, stop _ => True
  | K, act action next => action.InputsKnown K ∧
    ∀ answer K', K.Le K' → action.AnswerKnown K' answer → Discreet out K' (next answer)

theorem Discreet.bind {c : Course α} {f : α → Course β} (hc : c.Discreet out K)
    (hf : ∀ a K', K.Le K' → out K' a → (f a).Discreet out' K') :
    (c >>= f).Discreet out' K := by
  show (c.bind f).Discreet out' K
  induction c generalizing K with
  | done a => exact hf a K (.refl K) hc
  | stop reason => exact trivial
  | act action next ih =>
    refine ⟨hc.1, fun answer K₁ hK₁ htells => ih answer (hc.2 answer K₁ hK₁ htells) ?_⟩
    exact fun a K' hK' => hf a K' (hK₁.trans hK')

theorem discreet_done {a : α} (ha : out K a) : (done a).Discreet out K := ha

theorem discreet_act {action : Action} {out : Known → action.Answer → Prop}
    (ha : action.InputsKnown K) (hout : ∀ answer K', action.AnswerKnown K' answer → out K' answer) :
    (act action done).Discreet out K :=
  ⟨ha, fun answer K' _ htells => hout answer K' htells⟩

/-- A course of which only the actions matter. -/
abbrev Anything : Known → α → Prop := fun _ _ => True

abbrev GivesValue : Known → Value → Prop := fun K v => v.Among K

/-! ## Hoisting and activations -/

section Activations

variable {env : ObjectId} (henv : K.environments env)

include henv

theorem discreet_writeBound (i : Identifier) {v : Value} (hv : v.Among K) :
    (writeBound env i v).Discreet Anything K := by
  rw [writeBound]
  split
  · exact discreet_act ⟨henv, hv⟩ fun _ _ _ => trivial
  · exact trivial

theorem discreet_hoistFunctions (l : List Statement) :
    (hoistFunctions env l).Discreet Anything K := by
  induction l generalizing K with
  | nil => exact trivial
  | cons s rest ih =>
    cases s with
    | function node =>
      rw [hoistFunctions]
      have hmade : (instantiate node env).Discreet GivesValue K :=
        discreet_act henv fun _ _ htells => htells
      refine hmade.bind fun v K₁ hK₁ hv => ?_
      have henv₁ := hK₁.environments env henv
      cases node.name with
      | none => exact ih henv₁
      | some name =>
        exact (discreet_writeBound henv₁ name hv).bind fun _ K₂ hK₂ _ =>
          ih (hK₂.environments env henv₁)
    | _ => exact ih henv

theorem discreet_bindParams (params : List Identifier) {arguments : List Value}
    (hargs : Value.AllAmong K arguments) :
    (bindParams env params arguments).Discreet Anything K := by
  induction params generalizing arguments K with
  | nil => exact trivial
  | cons p rest ih =>
    have hhead : (arguments.headD .undefined).Among K := by
      cases arguments with
      | nil => exact Value.among_of_primitive rfl K
      | cons v _ => exact hargs v List.mem_cons_self
    refine (discreet_writeBound henv p hhead).bind fun _ K₁ hK₁ _ => ?_
    exact ih (hK₁.environments env henv) fun v hv =>
      (hargs v (List.mem_of_mem_tail hv)).mono hK₁

omit henv in
theorem discreet_newArray {elements : List Value} (helements : Value.AllAmong K elements) :
    (newArray elements).Discreet GivesValue K := by
  have hmade : (allocate (.array elements.toArray)).Discreet (fun K x => K.objects x) K :=
    discreet_act helements fun _ _ htells => htells
  exact hmade.bind fun _ _ _ hx => Value.among_object hx

theorem discreet_bindArray (b : BindingId) (name : String) {elements : List Value}
    (helements : Value.AllAmong K elements) :
    (newArray elements >>= writeBinding env b name).Discreet Anything K :=
  (discreet_newArray helements).bind fun _ _ hK hv =>
    discreet_act ⟨hK.environments env henv, hv⟩ fun _ _ _ => trivial

theorem discreet_bindRest (node : FunctionNode) {arguments : List Value}
    (hargs : Value.AllAmong K arguments) :
    (bindRest env node arguments).Discreet Anything K := by
  rw [bindRest]
  split
  · exact trivial
  · split
    · exact trivial
    · exact discreet_bindArray henv _ _ fun v hv => hargs v (List.mem_of_mem_drop hv)

theorem discreet_bindArguments (node : FunctionNode) {arguments : List Value}
    (hargs : Value.AllAmong K arguments) :
    (bindArguments env node arguments).Discreet Anything K := by
  rw [bindArguments]
  split
  · exact trivial
  · exact discreet_bindArray henv _ _ hargs

theorem discreet_bindOwnName (node : FunctionNode) {function : ObjectId}
    (hfunction : K.objects function) : (bindOwnName env node function).Discreet Anything K := by
  rw [bindOwnName]
  split
  · exact discreet_writeBound henv _ (Value.among_object hfunction)
  · exact trivial

end Activations

theorem discreet_enter {function : ObjectId} (hfunction : K.objects function) {closure : Closure}
    (hclosure : closure.Among K) (node : FunctionNode) {this : Value} (hthis : this.Among K)
    {arguments : List Value} (hargs : Value.AllAmong K arguments) :
    (enter function closure node this arguments).Discreet (fun K env => K.environments env) K := by
  rw [enter.eq_def]
  split
  · exact trivial
  · next scope _ =>
    have hmade : ∀ outer : Enclosure, outer.Among K →
        (newEnvironment scope outer (if node.isArrow then none else some this)).Discreet
          (fun K env => K.environments env) K := by
      refine fun outer houter => discreet_act ⟨houter, fun v hv => ?_⟩ fun _ _ htells => htells
      split at hv
      · exact absurd hv List.not_mem_nil
      · exact List.mem_singleton.1 hv ▸ hthis
    refine (hmade _ ?_).bind fun env K₁ hK₁ henv => ?_
    · cases closure with
      | chain env => exact hclosure
      | captured _ _ => exact hfunction
    have hargs₁ : Value.AllAmong K₁ arguments := fun v hv => (hargs v hv).mono hK₁
    refine (discreet_bindParams henv _ hargs₁).bind fun _ K₂ hK₂ _ => ?_
    have henv₂ := hK₂.environments env henv
    have hargs₂ : Value.AllAmong K₂ arguments := fun v hv => (hargs₁ v hv).mono hK₂
    refine (discreet_bindRest henv₂ node hargs₂).bind fun _ K₃ hK₃ _ => ?_
    have henv₃ := hK₃.environments env henv₂
    have hargs₃ : Value.AllAmong K₃ arguments := fun v hv => (hargs₂ v hv).mono hK₃
    refine (discreet_bindArguments henv₃ node hargs₃).bind fun _ K₄ hK₄ _ => ?_
    have henv₄ := hK₄.environments env henv₃
    have hfunction₄ : K₄.objects function :=
      hK₄.objects _ (hK₃.objects _ (hK₂.objects _ (hK₁.objects _ hfunction)))
    exact (discreet_bindOwnName henv₄ node hfunction₄).bind fun _ _ hK₅ _ =>
      hK₅.environments env henv₄

/-! ## Evaluation -/

abbrev Completes : Known → Completion → Prop := fun K c => c.value.Among K

theorem completes_normal (K : Known) : Completes K .normal := Value.among_of_primitive rfl K

theorem discreet_declare {env : ObjectId} (henv : K.environments env) (kind : DeclarationKind)
    (name : Identifier) {value : Option Value} (hvalue : Value.AllAmong K value.toList) :
    (declare env kind name value).Discreet Completes K := by
  rw [declare]
  split
  · exact trivial
  · next b _ =>
    split
    · exact completes_normal K
    · have hgiven : (value.getD .undefined).Among K := by
        cases value with
        | none => exact Value.among_of_primitive rfl K
        | some v => exact hvalue v (List.mem_singleton.2 rfl)
      have hwritten : (writeBinding env b name.name (value.getD .undefined)).Discreet Anything K :=
        discreet_act ⟨henv, hgiven⟩ fun _ _ _ => trivial
      exact hwritten.bind fun _ K' _ _ => completes_normal K'

structure EvaluatesDiscreetly (n : Nat) : Prop where
  evaluate {K : Known} {env : ObjectId} (henv : K.environments env) (e : Expression) :
    (evaluate n env e).Discreet GivesValue K
  evaluateAll {K : Known} {env : ObjectId} (henv : K.environments env) (l : List Expression) :
    (evaluateAll n env l).Discreet Value.AllAmong K
  evaluateProperties {K : Known} {env : ObjectId} (henv : K.environments env)
    (l : List (String × Expression)) :
    (evaluateProperties n env l).Discreet (fun K r => Value.AllAmong K (r.map Prod.snd)) K
  evaluateCallee {K : Known} {env : ObjectId} (henv : K.environments env) (e : Expression) :
    (evaluateCallee n env e).Discreet (fun K r => r.1.Among K ∧ r.2.Among K) K
  call {K : Known} {function this : Value} {arguments : List Value} (hfunction : function.Among K)
    (hthis : this.Among K) (hargs : Value.AllAmong K arguments) :
    (call n function this arguments).Discreet GivesValue K
  executeAll {K : Known} {env : ObjectId} (henv : K.environments env) (l : List Statement) :
    (executeAll n env l).Discreet Completes K
  execute {K : Known} {env : ObjectId} (henv : K.environments env) (s : Statement) :
    (execute n env s).Discreet Completes K
  executeBlock {K : Known} {env : ObjectId} (henv : K.environments env) (b : Block) :
    (executeBlock n env b).Discreet Completes K
  executeLoop {K : Known} {env : ObjectId} (henv : K.environments env) (test : Expression)
    (body : Block) :
    (executeLoop n env test body).Discreet Completes K

theorem evaluatesDiscreetly_zero : EvaluatesDiscreetly 0 where
  evaluate _ _ := trivial
  evaluateAll _ _ := trivial
  evaluateProperties _ _ := trivial
  evaluateCallee _ _ := trivial
  call _ _ _ := trivial
  executeAll _ _ := trivial
  execute _ _ := trivial
  executeBlock _ _ := trivial
  executeLoop _ _ _ := trivial

/-- The values of an ordinary object made from properties are among theirs. -/
theorem allAmong_values_ofList {l : List (String × Value)}
    (hl : Value.AllAmong K (l.map Prod.snd)) :
    Value.AllAmong K (SortedMap.ofList l).values := by
  intro v hv
  obtain ⟨key, hkey⟩ := SortedMap.mem_values_iff.1 hv
  exact hl v (List.mem_map_of_mem (SortedMap.mem_of_get?_ofList hkey))

namespace EvaluatesDiscreetly

variable {n : Nat} (ih : EvaluatesDiscreetly n) {env : ObjectId} (henv : K.environments env)

include ih henv

theorem evaluate_succ (e : Expression) : (Course.evaluate (n + 1) env e).Discreet GivesValue K := by
  cases e with
  | literal l => exact Value.among_of_primitive l.object?_value K
  | identifier i => exact discreet_act henv fun _ _ htells => htells
  | this provider => exact discreet_act henv fun _ _ htells => htells
  | object properties =>
    refine (ih.evaluateProperties henv properties).bind fun l K₁ _ hl => ?_
    have hmade : (allocate (.ordinary (.ofList l))).Discreet (fun K x => K.objects x) K₁ :=
      discreet_act (allAmong_values_ofList hl) fun _ _ htells => htells
    exact hmade.bind fun _ _ _ hx => Value.among_object hx
  | array elements =>
    exact (ih.evaluateAll henv elements).bind fun _ _ _ hl => discreet_newArray hl
  | member object property =>
    exact (ih.evaluate henv object).bind fun _ _ _ hv => discreet_act hv fun _ _ htells => htells
  | setMember object property value =>
    refine (ih.evaluate henv object).bind fun target K₁ hK₁ htarget => ?_
    refine (ih.evaluate (hK₁.environments env henv) value).bind fun v K₂ hK₂ hv => ?_
    have hset : (setProperty target property v).Discreet Anything K₂ :=
      discreet_act ⟨htarget.mono hK₂, hv⟩ fun _ _ _ => trivial
    exact hset.bind fun _ _ hK₃ _ => hv.mono hK₃
  | call callee arguments =>
    refine (ih.evaluateCallee henv callee).bind fun r K₁ hK₁ hr => ?_
    refine (ih.evaluateAll (hK₁.environments env henv) arguments).bind fun l K₂ hK₂ hl => ?_
    exact ih.call (hr.1.mono hK₂) (hr.2.mono hK₂) hl
  | assign target value =>
    refine (ih.evaluate henv value).bind fun v K₁ hK₁ hv => ?_
    have hset : (assign env target v).Discreet Anything K₁ :=
      discreet_act ⟨hK₁.environments env henv, hv⟩ fun _ _ _ => trivial
    exact hset.bind fun _ _ hK₂ _ => hv.mono hK₂
  | binary op left right =>
    refine (ih.evaluate henv left).bind fun a K₁ hK₁ _ => ?_
    refine (ih.evaluate (hK₁.environments env henv) right).bind fun b K₂ _ _ => ?_
    cases happly : op.apply a b with
    | ok v => exact Value.among_of_primitive (op.object?_of_apply happly) K₂
    | error e => exact trivial
  | function node => exact discreet_act henv fun _ _ htells => htells
  | dynamicEval source => exact trivial

theorem evaluateAll_succ (l : List Expression) :
    (Course.evaluateAll (n + 1) env l).Discreet Value.AllAmong K := by
  cases l with
  | nil => exact fun v hv => absurd hv List.not_mem_nil
  | cons e rest =>
    refine (ih.evaluate henv e).bind fun v K₁ hK₁ hv => ?_
    refine (ih.evaluateAll (hK₁.environments env henv) rest).bind fun l K₂ hK₂ hl => ?_
    exact List.forall_mem_cons.2 ⟨hv.mono hK₂, hl⟩

theorem evaluateProperties_succ (l : List (String × Expression)) :
    (Course.evaluateProperties (n + 1) env l).Discreet
      (fun K r => Value.AllAmong K (r.map Prod.snd)) K := by
  cases l with
  | nil => exact fun v hv => absurd hv List.not_mem_nil
  | cons p rest =>
    refine (ih.evaluate henv p.2).bind fun v K₁ hK₁ hv => ?_
    refine (ih.evaluateProperties (hK₁.environments env henv) rest).bind fun l K₂ hK₂ hl => ?_
    exact List.forall_mem_cons.2 ⟨hv.mono hK₂, hl⟩

theorem evaluateCallee_succ (e : Expression) :
    (Course.evaluateCallee (n + 1) env e).Discreet (fun K r => r.1.Among K ∧ r.2.Among K) K := by
  by_cases hmember : ∃ object property, e = .member object property
  · obtain ⟨object, property, rfl⟩ := hmember
    refine (ih.evaluate henv object).bind fun target K₁ _ htarget => ?_
    have hread : (getProperty target property).Discreet GivesValue K₁ :=
      discreet_act htarget fun _ _ htells => htells
    exact hread.bind fun _ _ hK₂ hv => ⟨hv, htarget.mono hK₂⟩
  · rw [Course.evaluateCallee]
    · exact (ih.evaluate henv e).bind fun _ K' _ hv => ⟨hv, Value.among_of_primitive rfl K'⟩
    · exact fun object property he => hmember ⟨object, property, he⟩

omit henv in
theorem call_succ {function this : Value} {arguments : List Value} (hfunction : function.Among K)
    (hthis : this.Among K) (hargs : Value.AllAmong K arguments) :
    (Course.call (n + 1) function this arguments).Discreet GivesValue K := by
  rw [Course.call]
  have hcallee : (callee function).Discreet
      (fun K r => K.objects r.1 ∧ r.2.closure.Among K) K :=
    discreet_act hfunction fun _ _ htells => htells
  refine hcallee.bind fun r K₁ hK₁ hr => ?_
  obtain ⟨id, f⟩ := r
  have hdefinition : (definition f).Discreet Anything K₁ :=
    discreet_act trivial fun _ _ _ => trivial
  refine hdefinition.bind fun node K₂ hK₂ _ => ?_
  have hK : K.Le K₂ := hK₁.trans hK₂
  have hargs₂ : Value.AllAmong K₂ arguments := fun v hv => (hargs v hv).mono hK
  have hid : K₂.objects id := hK₂.objects id hr.1
  split
  · have hmade : (allocate (.suspended id arguments.toArray)).Discreet
        (fun K x => K.objects x) K₂ :=
      discreet_act ⟨hid, hargs₂⟩ fun _ _ htells => htells
    exact hmade.bind fun _ _ _ hx => Value.among_object hx
  · have hclosure : f.closure.Among K₂ := by
      cases hf : f.closure with
      | chain env =>
        have hchain := hr.2
        rw [hf] at hchain
        exact hK₂.environments env hchain
      | captured _ _ => exact trivial
    refine (discreet_enter hid hclosure node (hthis.mono hK) hargs₂).bind fun env K₃ _ henv => ?_
    refine (discreet_hoistFunctions henv node.body).bind fun _ K₄ hK₄ _ => ?_
    exact (ih.executeAll (hK₄.environments env henv) node.body).bind fun _ _ _ hv => hv

theorem executeAll_succ (l : List Statement) :
    (Course.executeAll (n + 1) env l).Discreet Completes K := by
  cases l with
  | nil => exact completes_normal K
  | cons s rest =>
    refine (ih.execute henv s).bind fun c K₁ hK₁ hc => ?_
    cases c with
    | returned v => exact hc
    | normal => exact ih.executeAll (hK₁.environments env henv) rest

theorem execute_succ (s : Statement) : (Course.execute (n + 1) env s).Discreet Completes K := by
  cases s with
  | declaration kind name init storage =>
    cases init with
    | none =>
      rw [execute_declaration_none]
      exact discreet_declare henv kind name fun v hv => absurd hv List.not_mem_nil
    | some e =>
      rw [execute_declaration_some]
      have heval : (some <$> Course.evaluate n env e : Course (Option Value)).Discreet
          (fun K v => Value.AllAmong K v.toList) K :=
        (ih.evaluate henv e).bind fun v _ _ hv =>
          discreet_done fun w hw => List.mem_singleton.1 hw ▸ hv
      exact heval.bind fun _ _ hK₁ hv =>
        discreet_declare (hK₁.environments env henv) kind name hv
  | function node => exact completes_normal K
  | expression e => exact (ih.evaluate henv e).bind fun _ K' _ _ => completes_normal K'
  | returning value =>
    cases value with
    | none => exact completes_normal K
    | some e => exact (ih.evaluate henv e).bind fun _ _ _ hv => hv
  | block b => exact ih.executeBlock henv b
  | ifElse test consequent alternate =>
    rw [Course.execute.eq_def]
    refine (ih.evaluate henv test).bind fun v K₁ hK₁ _ => ?_
    have henv₁ := hK₁.environments env henv
    split
    · exact ih.executeBlock henv₁ consequent
    · split
      · exact completes_normal K₁
      · exact ih.executeBlock henv₁ _
  | whileLoop test body => exact ih.executeLoop henv test body

theorem executeBlock_succ (b : Block) :
    (Course.executeBlock (n + 1) env b).Discreet Completes K := by
  rw [Course.executeBlock]
  split
  · exact trivial
  · next scope _ =>
    have hmade : (newEnvironment scope (.environment env) none).Discreet
        (fun K env => K.environments env) K :=
      discreet_act ⟨henv, fun v hv => absurd hv List.not_mem_nil⟩ fun _ _ htells => htells
    refine hmade.bind fun inner K₁ _ hinner => ?_
    refine (discreet_hoistFunctions hinner b.body).bind fun _ K₂ hK₂ _ => ?_
    exact ih.executeAll (hK₂.environments inner hinner) b.body

theorem executeLoop_succ (test : Expression) (body : Block) :
    (Course.executeLoop (n + 1) env test body).Discreet Completes K := by
  rw [Course.executeLoop]
  refine (ih.evaluate henv test).bind fun v K₁ hK₁ _ => ?_
  have henv₁ := hK₁.environments env henv
  split
  · refine (ih.executeBlock henv₁ body).bind fun c K₂ hK₂ hc => ?_
    cases c with
    | returned w => exact hc
    | normal => exact ih.executeLoop (hK₂.environments env henv₁) test body
  · exact completes_normal K₁

end EvaluatesDiscreetly

theorem evaluatesDiscreetly (n : Nat) : EvaluatesDiscreetly n := by
  induction n with
  | zero => exact evaluatesDiscreetly_zero
  | succ n ih =>
    exact {
      evaluate := ih.evaluate_succ
      evaluateAll := ih.evaluateAll_succ
      evaluateProperties := ih.evaluateProperties_succ
      evaluateCallee := ih.evaluateCallee_succ
      call := ih.call_succ
      executeAll := ih.executeAll_succ
      execute := ih.execute_succ
      executeBlock := ih.executeBlock_succ
      executeLoop := ih.executeLoop_succ }

theorem discreet_program (steps : Nat) {env : ObjectId} (henv : K.environments env)
    (body : List Statement) : (program steps env body).Discreet GivesValue K :=
  (discreet_hoistFunctions henv body).bind fun _ _ hK₁ _ =>
    ((evaluatesDiscreetly steps).executeAll (hK₁.environments env henv) body).bind
      fun _ _ _ hv => hv

end Course

end ClosureCache
