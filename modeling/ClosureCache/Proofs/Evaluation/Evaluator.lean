/-
The evaluator is safe.

Each course that is put together from others gets one lemma, from hoisting and entering a
function to statements and expressions.  `EvaluatesSafely` is what evaluation with so many
steps keeps to in an environment that stands ready; it holds for every number of steps,
by induction on them.
-/
import ClosureCache.Proofs.Evaluation.ReadyEnvironments

namespace ClosureCache

open Heap

namespace Course

variable {image : Image} {m : Machine} {env : ObjectId}

/-! ## Hoisting -/

/-- A name that the scope of an environment binds is written there. -/
theorem writeBound_safe (hi : image.Sound) (hm : m.Sound image) {e : Environment}
    (he : m.heap.environment env = .ok e) {i : Identifier} (hbound : i.BoundIn image.tree e.scope)
    {v : Value} (hv : v.Live m.heap) :
    (writeBound env i v).Safe image (fun _ _ => True) m := by
  rw [writeBound, Identifier.binding?]
  cases hr : i.resolution with
  | binding b =>
    obtain ⟨d, hb, hscope⟩ := hbound b hr
    exact writeBinding_safe hi hm hb (.here he hscope.symm) i.name hv
  | _ => exact trivial

theorem hoistFunctions_safe (hi : image.Sound) (hm : m.Sound image) {l : List Statement}
    (hr : ReadyStatements image m.heap env l) :
    (hoistFunctions env l).Safe image (fun _ _ => True) m := by
  induction l generalizing m with
  | nil => exact trivial
  | cons s rest ih =>
    have hrest : ReadyStatements image m.heap env rest := hr.right
    cases s with
    | function node =>
      obtain ⟨e, he, ⟨⟨hname, hnode⟩, -⟩, hs⟩ := hr.environment
      have hknown : image.Knows node := hr.known node (List.mem_append_left _ (by
        cases node
        rw [Statement.functions, FunctionNode.functions]
        exact List.mem_cons_self))
      have hsees : m.heap.SeesAll image env e.scope node.references := fun r hmem =>
        hs r (List.mem_append_left _ (by rwa [Statement.references]))
      rw [hoistFunctions]
      refine (instantiate_safe hi hm hknown he hnode hsees).bind hm fun v m₁ h₁ hv => ?_
      obtain ⟨e₁, he₁, hscope, -⟩ := h₁.continues.persists.environment env e trivial he
      cases hn : node.name with
      | none => exact ih h₁.sound (hrest.continues h₁.continues)
      | some name =>
        refine (writeBound_safe hi h₁.sound he₁ ?_ hv).bind h₁.sound fun _ m₂ h₂ _ => ?_
        · rw [hscope]
          exact hname name hn
        · exact ih h₂.sound (hrest.continues (h₁.trans h₂).continues)
    | _ => exact ih hm hrest

/-! ## Entering a function -/

theorem bindParams_safe (hi : image.Sound) (hm : m.Sound image) {e : Environment}
    (he : m.heap.environment env = .ok e) {params : List Identifier}
    (hparams : ∀ p ∈ params, p.BoundIn image.tree e.scope) {arguments : List Value}
    (ha : ∀ v ∈ arguments, v.Live m.heap) :
    (bindParams env params arguments).Safe image (fun _ _ => True) m := by
  induction params generalizing m e arguments with
  | nil => exact trivial
  | cons p rest ih =>
    have hv : (arguments.headD .undefined).Live m.heap := by
      cases arguments with
      | nil => exact fun id hid => by cases hid
      | cons v _ => exact ha v List.mem_cons_self
    rw [bindParams]
    refine (writeBound_safe hi hm he (hparams p List.mem_cons_self) hv).bind hm fun _ m₁ h₁ _ => ?_
    obtain ⟨e₁, he₁, hscope, -⟩ := h₁.continues.persists.environment env e trivial he
    refine ih h₁.sound he₁ (fun q hq => ?_) fun v hv => ?_
    · rw [hscope]
      exact hparams q (List.mem_cons_of_mem _ hq)
    · exact (ha v (List.mem_of_mem_tail hv)).persists h₁.continues.persists

theorem bindRest_safe (hi : image.Sound) (hm : m.Sound image) {e : Environment}
    (he : m.heap.environment env = .ok e) {node : FunctionNode}
    (hrest : ∀ r, node.rest = some r → r.BoundIn image.tree e.scope) {arguments : List Value}
    (ha : ∀ v ∈ arguments, v.Live m.heap) :
    (bindRest env node arguments).Safe image (fun _ _ => True) m := by
  rw [bindRest]
  cases hr : node.rest with
  | none => exact trivial
  | some rest =>
    dsimp only
    rw [Identifier.binding?]
    cases hb : rest.resolution with
    | binding b =>
      obtain ⟨d, hd, hscope⟩ := hrest rest hr b hb
      have hdrop : ∀ v ∈ arguments.drop node.params.length, v.Live m.heap := fun v hv =>
        ha v (List.mem_of_mem_drop hv)
      refine (newArray_safe hm hdrop).bind hm fun v m₁ h₁ hv => ?_
      obtain ⟨e₁, he₁, hscope₁, -⟩ := h₁.continues.persists.environment env e trivial he
      exact writeBinding_safe hi h₁.sound hd (.here he₁ (hscope₁.trans hscope.symm)) _ hv
    | _ => exact trivial

theorem bindArguments_safe (hi : image.Sound) (hm : m.Sound image) {e : Environment}
    (he : m.heap.environment env = .ok e) {node : FunctionNode}
    (harguments : ∀ b, node.arguments = some b → image.tree.Declares e.scope b)
    {arguments : List Value} (ha : ∀ v ∈ arguments, v.Live m.heap) :
    (bindArguments env node arguments).Safe image (fun _ _ => True) m := by
  rw [bindArguments]
  cases hb : node.arguments with
  | none => exact trivial
  | some b =>
    obtain ⟨d, hd, hscope⟩ := harguments b hb
    refine (newArray_safe hm ha).bind hm fun v m₁ h₁ hv => ?_
    obtain ⟨e₁, he₁, hscope₁, -⟩ := h₁.continues.persists.environment env e trivial he
    exact writeBinding_safe hi h₁.sound hd (.here he₁ (hscope₁.trans hscope.symm)) _ hv

theorem bindOwnName_safe (hi : image.Sound) (hm : m.Sound image) {e : Environment}
    (he : m.heap.environment env = .ok e) {node : FunctionNode}
    (hname : node.kind = .expression → ∀ name, node.name = some name →
      name.BoundIn image.tree e.scope) {g : ObjectId} (hg : m.heap.contains g = true) :
    (bindOwnName env node g).Safe image (fun _ _ => True) m := by
  rw [bindOwnName]
  cases hk : node.kind with
  | expression =>
    cases hn : node.name with
    | none => exact trivial
    | some name =>
      refine writeBound_safe hi hm he (hname hk name hn) fun id hid => ?_
      obtain rfl := Option.some.inj hid
      exact hg
  | _ => exact trivial

/-- Entering a function that fits gives an environment that stands ready for its body. -/
theorem enter_safe (hi : image.Sound) (hm : m.Sound image) {g : ObjectId} {f : FunctionObject}
    (hg : m.heap.function g = .ok f) {node : FunctionNode}
    (hnode : image.functions.get? f.site = some node) {this : Value} (hthis : this.Live m.heap)
    {arguments : List Value} (ha : ∀ v ∈ arguments, v.Live m.heap) :
    (enter g f.closure node this arguments).Safe image
      (fun env m' => ReadyStatements image m'.heap env node.body) m := by
  have hfits := (hm.typed.function hg).function f rfl
  obtain ⟨s, own, hplaced⟩ : ∃ s own, node.Placed image.tree s own := by
    obtain ⟨-, ⟨s, hbound⟩, -⟩ := hi.bound _ node hnode
    obtain ⟨own, hplaced, -⟩ := FunctionNode.bound_iff.1 hbound
    exact ⟨s, own, hplaced⟩
  obtain ⟨sc, hsc, hkind, -, harrow⟩ := hplaced.opened
  have hlive : ∀ y ∈ f.closure.refs, m.heap.contains y = true := (hm.typed.function hg).live
  rw [enter.eq_def, hplaced.scope]
  dsimp only
  refine Safe.bind hm (newEnvironment_safe hi hm hsc (fun y hy => ?_) (fun y hy => ?_)
    (fun hprovides => ?_) fun hblock => ?_) ?_
  · cases hclosure : f.closure with
    | chain around =>
      rw [hclosure] at hy hlive
      exact hlive y hy
    | captured =>
      rw [hclosure] at hy
      obtain rfl := List.mem_singleton.1 hy
      exact contains_of_object (function_eq_ok.1 hg)
  · split at hy
    · cases hy
    · exact hthis y (Value.objectOf_some.1 hy)
  · rw [Scope.providesThis.eq_def, hkind] at hprovides
    dsimp only at hprovides
    rw [harrow, Bool.not_eq_true'] at hprovides
    rw [hprovides]
    rfl
  · rw [hkind] at hblock
    cases hblock
  · rintro env m₁ h₁ ⟨e, he, hscope, houter, -⟩
    -- every binding that follows leaves the environment where it is
    have hkeep : ∀ m', m₁.Later image m' → ∃ e', m'.heap.environment env = .ok e' ∧
        e'.scope = own ∧ e'.outer = e.outer := fun m' h' => by
      obtain ⟨e', he', hscope', houter', -⟩ := h'.continues.persists.environment env e trivial he
      exact ⟨e', he', hscope'.trans hscope, houter'⟩
    have hargs : ∀ m', m₁.Later image m' → ∀ v ∈ arguments, v.Live m'.heap := fun m' h' v hv =>
      (ha v hv).persists (h₁.trans h').continues.persists
    refine Safe.bind h₁.sound (bindParams_safe hi h₁.sound he (hscope ▸ hplaced.params)
      (hargs m₁ (.refl h₁.sound))) fun _ m₂ h₂ _ => ?_
    obtain ⟨e₂, he₂, hscope₂, -⟩ := hkeep m₂ h₂
    refine Safe.bind h₂.sound (bindRest_safe hi h₂.sound he₂ (hscope₂ ▸ hplaced.rest)
      (hargs m₂ h₂)) fun _ m₃ h₃ _ => ?_
    have h₃ := h₂.trans h₃
    obtain ⟨e₃, he₃, hscope₃, -⟩ := hkeep m₃ h₃
    refine Safe.bind h₃.sound (bindArguments_safe hi h₃.sound he₃ (hscope₃ ▸ hplaced.arguments)
      (hargs m₃ h₃)) fun _ m₄ h₄ _ => ?_
    have h₄ := h₃.trans h₄
    obtain ⟨e₄, he₄, hscope₄, -⟩ := hkeep m₄ h₄
    have hin : m₄.heap.contains g = true :=
      (h₁.trans h₄).continues.contains (contains_of_object (function_eq_ok.1 hg))
    refine Safe.bind h₄.sound (bindOwnName_safe hi h₄.sound he₄ (hscope₄ ▸ hplaced.name) hin)
      fun _ m₅ h₅ _ => ?_
    have h₅ := h₄.trans h₅
    obtain ⟨e₅, he₅, hscope₅, houter₅⟩ := hkeep m₅ h₅
    have hg₅ := (h₁.trans h₅).continues.persists.function g f trivial hg
    have hfits₅ := (h₅.sound.typed.function hg₅).function f rfl
    exact hfits₅.readyBody h₅.sound.typed hi hnode hg₅ hplaced.scope he₅ hscope₅
      (houter₅.trans houter)

/-! ## Evaluation -/

structure EvaluatesSafely (image : Image) (n : Nat) : Prop where
  evaluate {m : Machine} {env : ObjectId} {e : Expression} : m.Sound image →
    e.Ready image m.heap env → (evaluate n env e).Safe image (fun v m' => v.Live m'.heap) m
  evaluateAll {m : Machine} {env : ObjectId} {l : List Expression} : m.Sound image →
    m.heap.Ready image env (fun s => BoundExpressions image.tree s l) (functionsInExpressions l)
      (referencesInExpressions l) →
    (evaluateAll n env l).Safe image (fun vs m' => ∀ v ∈ vs, v.Live m'.heap) m
  evaluateProperties {m : Machine} {env : ObjectId} {l : List (String × Expression)} :
    m.Sound image → m.heap.Ready image env (fun s => BoundProperties image.tree s l)
      (functionsInProperties l) (referencesInProperties l) →
    (evaluateProperties n env l).Safe image (fun ps m' => ∀ p ∈ ps, p.2.Live m'.heap) m
  evaluateCallee {m : Machine} {env : ObjectId} {e : Expression} : m.Sound image →
    e.Ready image m.heap env →
    (evaluateCallee n env e).Safe image (fun r m' => r.1.Live m'.heap ∧ r.2.Live m'.heap) m
  call {m : Machine} {function this : Value} {arguments : List Value} : m.Sound image →
    function.Live m.heap → this.Live m.heap → (∀ v ∈ arguments, v.Live m.heap) →
    (call n function this arguments).Safe image (fun v m' => v.Live m'.heap) m
  executeAll {m : Machine} {env : ObjectId} {l : List Statement} : m.Sound image →
    ReadyStatements image m.heap env l →
    (executeAll n env l).Safe image (fun c m' => c.value.Live m'.heap) m
  execute {m : Machine} {env : ObjectId} {s : Statement} : m.Sound image →
    s.Ready image m.heap env → (execute n env s).Safe image (fun c m' => c.value.Live m'.heap) m
  executeBlock {m : Machine} {env : ObjectId} {b : Block} : m.Sound image →
    b.Ready image m.heap env →
    (executeBlock n env b).Safe image (fun c m' => c.value.Live m'.heap) m
  executeLoop {m : Machine} {env : ObjectId} {test : Expression} {body : Block} : m.Sound image →
    test.Ready image m.heap env → body.Ready image m.heap env →
    (executeLoop n env test body).Safe image (fun c m' => c.value.Live m'.heap) m

theorem evaluatesSafely_zero : EvaluatesSafely image 0 where
  evaluate _ _ := rfl
  evaluateAll _ _ := rfl
  evaluateProperties _ _ := rfl
  evaluateCallee _ _ := rfl
  call _ _ _ _ := rfl
  executeAll _ _ := rfl
  execute _ _ := rfl
  executeBlock _ _ := rfl
  executeLoop _ _ _ := rfl

theorem live_of_isNone {h : Heap} {v : Value} (hv : v.object? = none) : v.Live h := fun id hid => by
  rw [hv] at hid
  cases hid

section Step

variable {n : Nat}

/-! ### Expressions -/

theorem evaluate_identifier_safe (hi : image.Sound) (hm : m.Sound image) {i : Identifier}
    (hr : (Expression.identifier i).Ready image m.heap env) :
    (evaluate (n + 1) env (.identifier i)).Safe image (fun v m' => v.Live m'.heap) m := by
  obtain ⟨e, he, hvisible, hs⟩ := hr.environment
  rw [evaluate]
  refine readIdentifier_safe hi hm fun b hb => ?_
  rw [Expression.Bound, hb] at hvisible
  obtain ⟨d, hd, hin⟩ := hvisible
  refine ⟨d, hd, hs (.binding b) ?_ d.scope ?_ hin⟩
  · rw [Expression.references, hb]
    exact List.mem_singleton.2 rfl
  · rw [Reference.home?, hd]
    rfl

theorem evaluate_this_safe (hi : image.Sound) (hm : m.Sound image) {provider : Option ScopeId}
    (hr : (Expression.this provider).Ready image m.heap env) :
    (evaluate (n + 1) env (.this provider)).Safe image (fun v m' => v.Live m'.heap) m := by
  obtain ⟨e, he, ⟨p, rfl, hn⟩, hs⟩ := hr.environment
  rw [evaluate]
  refine readThis_safe hm (hs (.this p) ?_ p rfl (hn.mem_outward hi.proper))
  rw [Expression.references]
  exact List.mem_singleton.2 rfl

theorem evaluate_assign_safe (hi : image.Sound) (ih : EvaluatesSafely image n) (hm : m.Sound image)
    {target : Identifier} {value : Expression}
    (hr : (Expression.assign target value).Ready image m.heap env) :
    (evaluate (n + 1) env (.assign target value)).Safe image (fun v m' => v.Live m'.heap) m := by
  have hvalue : value.Ready image m.heap env := by
    refine hr.imp (fun _ hb => hb.1) (fun f hf => ?_) fun r hmem => ?_
    · rwa [Expression.functions]
    · rw [Expression.references]
      exact List.mem_append_left _ hmem
  rw [evaluate]
  refine (ih.evaluate hm hvalue).bind hm fun v m₁ h₁ hv => ?_
  obtain ⟨e, he, ⟨-, hvisible, hassigned⟩, hs⟩ := (hr.continues h₁.continues).environment
  refine (assign_safe hi h₁.sound (fun b hb => ?_) hv).bind h₁.sound fun _ m₂ h₂ _ =>
    hv.persists h₂.continues.persists
  rw [hb] at hvisible hassigned
  obtain ⟨d, hd, hin⟩ := hvisible
  obtain ⟨d', hd', himmutable, hpos⟩ := hassigned
  rw [hd] at hd'
  obtain rfl := Option.some.inj hd'
  refine ⟨d, hd, hs (.binding b) ?_ d.scope ?_ hin, ?_⟩
  · rw [Expression.references, hb]
    exact List.mem_append_right _ (List.mem_singleton.2 rfl)
  · rw [Reference.home?, hd]
    rfl
  · rw [hi.mutable b d hd, himmutable, decide_eq_true hpos]
    rfl

theorem evaluate_setMember_safe (ih : EvaluatesSafely image n) (hm : m.Sound image)
    {object value : Expression} {property : String}
    (hr : (Expression.setMember object property value).Ready image m.heap env) :
    (evaluate (n + 1) env (.setMember object property value)).Safe image
      (fun v m' => v.Live m'.heap) m := by
  have hobject : object.Ready image m.heap env := hr.left
  have hvalue : value.Ready image m.heap env := hr.right
  rw [evaluate]
  refine (ih.evaluate hm hobject).bind hm fun target m₁ h₁ ht => ?_
  refine (ih.evaluate h₁.sound (hvalue.continues h₁.continues)).bind h₁.sound fun v m₂ h₂ hv => ?_
  refine (setProperty_safe h₂.sound (ht.persists h₂.continues.persists) hv property).bind h₂.sound
    fun _ m₃ h₃ _ => hv.persists h₃.continues.persists

theorem evaluate_call_safe (ih : EvaluatesSafely image n) (hm : m.Sound image)
    {callee : Expression} {arguments : List Expression}
    (hr : (Expression.call callee arguments).Ready image m.heap env) :
    (evaluate (n + 1) env (.call callee arguments)).Safe image (fun v m' => v.Live m'.heap) m := by
  have hcallee : callee.Ready image m.heap env := hr.left
  rw [evaluate]
  refine (ih.evaluateCallee hm hcallee).bind hm fun r m₁ h₁ hr₁ => ?_
  have harguments := hr.right.continues h₁.continues
  refine (ih.evaluateAll h₁.sound harguments).bind h₁.sound fun vs m₂ h₂ hvs => ?_
  exact ih.call h₂.sound (hr₁.1.persists h₂.continues.persists)
    (hr₁.2.persists h₂.continues.persists) hvs

theorem evaluate_binary_safe (ih : EvaluatesSafely image n) (hm : m.Sound image) {op : BinaryOp}
    {left right : Expression} (hr : (Expression.binary op left right).Ready image m.heap env) :
    (evaluate (n + 1) env (.binary op left right)).Safe image (fun v m' => v.Live m'.heap) m := by
  have hleft : left.Ready image m.heap env := hr.left
  have hright : right.Ready image m.heap env := hr.right
  rw [evaluate]
  refine (ih.evaluate hm hleft).bind hm fun a m₁ h₁ _ => ?_
  refine (ih.evaluate h₁.sound (hright.continues h₁.continues)).bind h₁.sound fun b m₂ _ _ => ?_
  exact apply_safe op a b

theorem evaluate_object_safe (ih : EvaluatesSafely image n) (hm : m.Sound image)
    {properties : List (String × Expression)}
    (hr : (Expression.object properties).Ready image m.heap env) :
    (evaluate (n + 1) env (.object properties)).Safe image (fun v m' => v.Live m'.heap) m := by
  rw [evaluate]
  refine (ih.evaluateProperties hm hr).bind hm fun ps m₁ h₁ hps => ?_
  refine allocate_value_safe h₁.sound (fun y hy => ?_) (fun e he => (by cases he))
    (fun f hf => (by cases hf))
  obtain ⟨v, hv, hy⟩ := mem_objectsOf.1 hy
  obtain ⟨⟨key, v'⟩, hmem, rfl⟩ := List.mem_map.1 hv
  exact hps _ (SortedMap.mem_of_get?_ofList (SortedMap.mem_toList_iff.1 hmem)) y hy

theorem evaluate_safe (hi : image.Sound) (ih : EvaluatesSafely image n) (hm : m.Sound image)
    {e : Expression} (hr : e.Ready image m.heap env) :
    (evaluate (n + 1) env e).Safe image (fun v m' => v.Live m'.heap) m := by
  cases e with
  | literal l =>
    rw [evaluate]
    exact live_of_isNone (by cases l <;> rfl)
  | identifier i => exact evaluate_identifier_safe hi hm hr
  | this provider => exact evaluate_this_safe hi hm hr
  | object properties => exact evaluate_object_safe ih hm hr
  | array elements =>
    rw [evaluate]
    exact (ih.evaluateAll hm hr).bind hm fun vs m₁ h₁ hvs => newArray_safe h₁.sound hvs
  | member object property =>
    have hobject : object.Ready image m.heap env := hr
    rw [evaluate]
    exact (ih.evaluate hm hobject).bind hm fun v m₁ h₁ hv => getProperty_safe h₁.sound hv property
  | setMember object property value => exact evaluate_setMember_safe ih hm hr
  | call callee arguments => exact evaluate_call_safe ih hm hr
  | assign target value => exact evaluate_assign_safe hi ih hm hr
  | binary op left right => exact evaluate_binary_safe ih hm hr
  | function node =>
    obtain ⟨e, he, hbound, hs⟩ := hr.environment
    have hknown : image.Knows node := hr.known node (by
      cases node
      rw [Expression.functions, FunctionNode.functions]
      exact List.mem_cons_self)
    rw [evaluate]
    exact instantiate_safe hi hm hknown he hbound hs
  | dynamicEval source =>
    rw [evaluate]
    rfl

theorem evaluateAll_safe (ih : EvaluatesSafely image n) (hm : m.Sound image)
    {l : List Expression} (hr : m.heap.Ready image env (fun s => BoundExpressions image.tree s l)
      (functionsInExpressions l) (referencesInExpressions l)) :
    (evaluateAll (n + 1) env l).Safe image (fun vs m' => ∀ v ∈ vs, v.Live m'.heap) m := by
  cases l with
  | nil =>
    rw [evaluateAll]
    exact fun v hv => absurd hv List.not_mem_nil
  | cons e rest =>
    have he : e.Ready image m.heap env := hr.left
    rw [evaluateAll]
    refine (ih.evaluate hm he).bind hm fun v m₁ h₁ hv => ?_
    have hrest := hr.right.continues h₁.continues
    refine (ih.evaluateAll h₁.sound hrest).bind h₁.sound fun vs m₂ h₂ hvs w hw => ?_
    rcases List.mem_cons.1 hw with rfl | hw
    · exact hv.persists h₂.continues.persists
    · exact hvs w hw

theorem evaluateProperties_safe (ih : EvaluatesSafely image n) (hm : m.Sound image)
    {l : List (String × Expression)} (hr : m.heap.Ready image env
      (fun s => BoundProperties image.tree s l) (functionsInProperties l)
      (referencesInProperties l)) :
    (evaluateProperties (n + 1) env l).Safe image (fun ps m' => ∀ p ∈ ps, p.2.Live m'.heap) m := by
  cases l with
  | nil =>
    rw [evaluateProperties]
    exact fun p hp => absurd hp List.not_mem_nil
  | cons p rest =>
    obtain ⟨key, e⟩ := p
    have he : e.Ready image m.heap env := hr.left
    rw [evaluateProperties]
    refine (ih.evaluate hm he).bind hm fun v m₁ h₁ hv => ?_
    have hrest := hr.right.continues h₁.continues
    refine (ih.evaluateProperties h₁.sound hrest).bind h₁.sound fun ps m₂ h₂ hps p hp => ?_
    rcases List.mem_cons.1 hp with rfl | hp
    · exact hv.persists h₂.continues.persists
    · exact hps p hp

/-! ### Calls -/

theorem evaluateCallee_safe (ih : EvaluatesSafely image n) (hm : m.Sound image)
    {e : Expression} (hr : e.Ready image m.heap env) :
    (evaluateCallee (n + 1) env e).Safe image
      (fun r m' => r.1.Live m'.heap ∧ r.2.Live m'.heap) m := by
  by_cases hmember : ∃ object property, e = .member object property
  · obtain ⟨object, property, rfl⟩ := hmember
    have hobject : object.Ready image m.heap env := hr
    rw [evaluateCallee]
    refine (ih.evaluate hm hobject).bind hm fun target m₁ h₁ ht => ?_
    refine (getProperty_safe h₁.sound ht property).bind h₁.sound fun v m₂ h₂ hv => ?_
    exact ⟨hv, ht.persists h₂.continues.persists⟩
  · rw [evaluateCallee]
    · exact (ih.evaluate hm hr).bind hm fun v m₁ _ hv => ⟨hv, live_of_isNone rfl⟩
    · exact fun object property he => hmember ⟨object, property, he⟩

theorem call_safe (hi : image.Sound) (ih : EvaluatesSafely image n) (hm : m.Sound image)
    {function this : Value} {arguments : List Value} (hfunction : function.Live m.heap)
    (hthis : this.Live m.heap) (ha : ∀ v ∈ arguments, v.Live m.heap) :
    (call (n + 1) function this arguments).Safe image (fun v m' => v.Live m'.heap) m := by
  rw [call]
  refine (callee_safe hm hfunction).bind hm fun r m₁ h₁ hg => ?_
  obtain ⟨g, f⟩ := r
  have hfits := (h₁.sound.typed.function hg).function f rfl
  refine (definition_safe h₁.sound hfits).bind h₁.sound fun node m₂ h₂ hnode => ?_
  have hg := h₂.continues.persists.function g f trivial hg
  have h₂ := h₁.trans h₂
  have ha : ∀ v ∈ arguments, v.Live m₂.heap := fun v hv =>
    (ha v hv).persists h₂.continues.persists
  split
  · refine allocate_value_safe h₂.sound (fun y hy => ?_) (fun e he => (by cases he))
      (fun f hf => (by cases hf))
    rcases List.mem_cons.1 hy with rfl | hy
    · exact contains_of_object (function_eq_ok.1 hg)
    · obtain ⟨v, hv, hy⟩ := mem_objectsOf.1 hy
      exact ha v hv y hy
  · refine Safe.bind h₂.sound (enter_safe hi h₂.sound hg hnode (hthis.persists
      h₂.continues.persists) ha) fun env m₃ h₃ hready => ?_
    refine (hoistFunctions_safe hi h₃.sound hready).bind h₃.sound fun _ m₄ h₄ _ => ?_
    exact (ih.executeAll h₄.sound (hready.continues h₄.continues)).bind h₄.sound
      fun c m₅ _ hc => hc

/-! ### Statements -/

theorem executeAll_safe (ih : EvaluatesSafely image n) (hm : m.Sound image)
    {l : List Statement} (hr : ReadyStatements image m.heap env l) :
    (executeAll (n + 1) env l).Safe image (fun c m' => c.value.Live m'.heap) m := by
  cases l with
  | nil =>
    rw [executeAll]
    exact live_of_isNone rfl
  | cons s rest =>
    have hs : s.Ready image m.heap env := hr.left
    have hrest : ReadyStatements image m.heap env rest := hr.right
    rw [executeAll]
    refine (ih.execute hm hs).bind hm fun c m₁ h₁ hc => ?_
    cases c with
    | returned v => exact hc
    | normal => exact ih.executeAll h₁.sound (hrest.continues h₁.continues)

/-- The value of a declaration is written where the declared name belongs. -/
theorem declare_safe (hi : image.Sound) (hm : m.Sound image) {kind : DeclarationKind}
    {name : Identifier} {e : Environment} (he : m.heap.environment env = .ok e)
    (hname : name.DeclaredAt image.tree e.scope kind) {value : Option Value}
    (hv : ∀ v, value = some v → v.Live m.heap) :
    (declare env kind name value).Safe image (fun c m' => c.value.Live m'.heap) m := by
  obtain ⟨b, d, hb, hd, hhome⟩ := hname
  obtain ⟨x, hl⟩ := hm.typed.walkEnds_home he hhome
  have hlive : (value.getD .undefined).Live m.heap := by
    cases value with
    | none => exact live_of_isNone rfl
    | some v => exact hv v rfl
  rw [declare, Identifier.binding?, hb]
  dsimp only
  split
  · exact live_of_isNone rfl
  · exact (writeBinding_safe hi hm hd hl name.name hlive).bind hm
      fun _ m₁ _ _ => live_of_isNone rfl

theorem execute_safe (hi : image.Sound) (ih : EvaluatesSafely image n) (hm : m.Sound image)
    {s : Statement} (hr : s.Ready image m.heap env) :
    (execute (n + 1) env s).Safe image (fun c m' => c.value.Live m'.heap) m := by
  cases s with
  | declaration kind name init storage =>
    cases init with
    | none =>
      rw [execute_declaration_none]
      obtain ⟨e, he, hname, -⟩ := hr.environment
      exact declare_safe hi hm he hname fun v hv => by cases hv
    | some init =>
      rw [execute_declaration_some]
      have hinit : init.Ready image m.heap env :=
        hr.imp (fun _ hb => hb.2) (fun _ hf => hf) fun _ hmem => hmem
      refine Safe.bind hm (Safe.bind hm (ih.evaluate hm hinit) (Q := fun o m' =>
        ∀ v, o = some v → v.Live m'.heap) fun v m₁ _ hv w hw => ?_) fun o m₁ h₁ ho => ?_
      · exact Option.some.inj hw ▸ hv
      · obtain ⟨e, he, ⟨hname, -⟩, -⟩ := (hr.continues h₁.continues).environment
        exact declare_safe hi h₁.sound he hname ho
  | function node =>
    rw [execute]
    exact live_of_isNone rfl
  | expression e =>
    rw [execute]
    exact Safe.bind hm (ih.evaluate (e := e) hm hr) fun _ m₁ _ _ => live_of_isNone rfl
  | returning value =>
    cases value with
    | none =>
      rw [execute]
      exact live_of_isNone rfl
    | some e =>
      rw [execute]
      exact Safe.bind hm (ih.evaluate (e := e) hm hr) fun v m₁ _ hv => hv
  | block b =>
    rw [execute]
    exact ih.executeBlock hm hr
  | ifElse test consequent alternate =>
    rw [execute.eq_def]
    cases alternate with
    | none =>
      have htest : test.Ready image m.heap env := hr.left
      have hconsequent : consequent.Ready image m.heap env := hr.right
      refine (ih.evaluate hm htest).bind hm fun v m₁ h₁ _ => ?_
      split
      · exact ih.executeBlock h₁.sound (hconsequent.continues h₁.continues)
      · exact live_of_isNone rfl
    | some alternate =>
      have htest : test.Ready image m.heap env :=
        hr.imp (fun _ hb => hb.1) (fun _ hf => List.mem_append_left _ (List.mem_append_left _ hf))
          fun _ hmem => List.mem_append_left _ (List.mem_append_left _ hmem)
      have hconsequent : consequent.Ready image m.heap env :=
        hr.imp (fun _ hb => hb.2.1)
          (fun _ hf => List.mem_append_left _ (List.mem_append_right _ hf))
          fun _ hmem => List.mem_append_left _ (List.mem_append_right _ hmem)
      have halternate : alternate.Ready image m.heap env :=
        hr.imp (fun _ hb => hb.2.2) (fun _ hf => List.mem_append_right _ hf)
          fun _ hmem => List.mem_append_right _ hmem
      refine (ih.evaluate hm htest).bind hm fun v m₁ h₁ _ => ?_
      split
      · exact ih.executeBlock h₁.sound (hconsequent.continues h₁.continues)
      · exact ih.executeBlock h₁.sound (halternate.continues h₁.continues)
  | whileLoop test body =>
    rw [execute]
    exact ih.executeLoop hm hr.left hr.right

theorem executeBlock_safe (hi : image.Sound) (ih : EvaluatesSafely image n) (hm : m.Sound image)
    {b : Block} (hr : b.Ready image m.heap env) :
    (executeBlock (n + 1) env b).Safe image (fun c m' => c.value.Live m'.heap) m := by
  obtain ⟨body, scope⟩ := b
  obtain ⟨e, he, ⟨own, sc, rfl, hsc, hkind, hparent, hbody⟩, -⟩ := hr.environment
  rw [executeBlock]
  refine Safe.bind hm (newEnvironment_safe hi hm hsc (fun y hy => ?_) (fun y hy => absurd hy
    List.not_mem_nil) (fun hprovides => ?_) fun _ => ⟨env, e, rfl, he, hparent⟩)
    fun inner m₁ h₁ hnew => ?_
  · obtain rfl := List.mem_singleton.1 hy
    exact contains_of_environment he
  · rw [Scope.providesThis.eq_def, hkind] at hprovides
    cases hprovides
  · have hready := h₁.sound.typed.readyBlock hi (hr.continues h₁.continues) hnew
    refine (hoistFunctions_safe hi h₁.sound hready).bind h₁.sound fun _ m₂ h₂ _ => ?_
    exact ih.executeAll h₂.sound (hready.continues h₂.continues)

theorem executeLoop_safe (ih : EvaluatesSafely image n) (hm : m.Sound image)
    {test : Expression} {body : Block} (htest : test.Ready image m.heap env)
    (hbody : body.Ready image m.heap env) :
    (executeLoop (n + 1) env test body).Safe image (fun c m' => c.value.Live m'.heap) m := by
  rw [executeLoop]
  refine (ih.evaluate hm htest).bind hm fun v m₁ h₁ _ => ?_
  split
  · refine (ih.executeBlock h₁.sound (hbody.continues h₁.continues)).bind h₁.sound
      fun c m₂ h₂ hc => ?_
    have h₂ := h₁.trans h₂
    cases c with
    | returned w => exact hc
    | normal =>
      exact ih.executeLoop h₂.sound (htest.continues h₂.continues) (hbody.continues h₂.continues)
  · exact live_of_isNone rfl

end Step

/-- Evaluation with any number of steps is safe. -/
theorem evaluatesSafely (hi : image.Sound) (n : Nat) : EvaluatesSafely image n := by
  induction n with
  | zero => exact evaluatesSafely_zero
  | succ n ih =>
    exact {
      evaluate := fun hm => evaluate_safe hi ih hm
      evaluateAll := fun hm => evaluateAll_safe ih hm
      evaluateProperties := fun hm => evaluateProperties_safe ih hm
      evaluateCallee := fun hm => evaluateCallee_safe ih hm
      call := fun hm => call_safe hi ih hm
      executeAll := fun hm => executeAll_safe ih hm
      execute := fun hm => execute_safe hi ih hm
      executeBlock := fun hm => executeBlock_safe hi ih hm
      executeLoop := fun hm => executeLoop_safe ih hm }

/-- Running the statements at top level is safe. -/
theorem program_safe (hi : image.Sound) (hm : m.Sound image) (steps : Nat) :
    (program steps image.globalEnvironment image.program.body).Safe image
      (fun v m' => v.Live m'.heap) m := by
  obtain ⟨e, he, hscope⟩ := hm.environment
  have hready := hm.typed.readyProgram hi he hscope
  refine (hoistFunctions_safe hi hm hready).bind hm fun _ m₁ h₁ _ => ?_
  exact ((evaluatesSafely hi steps).executeAll h₁.sound (hready.continues h₁.continues)).bind
    h₁.sound fun c m₂ _ hc => hc

end Course

end ClosureCache
