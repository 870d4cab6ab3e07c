/-
What the actions of a course find.

`Located` says of an action that the binding or the `this` that it looks for is found
where the walk outwards ends.  A course is `Safe` when all its actions are located and
sound, whatever they are answered.  There is one rule for each action, and the rule for
one course after another puts them together.
-/
import ClosureCache.Proofs.Evaluation.Soundness

namespace ClosureCache

open Heap

/-! ## Located actions -/

def Heap.Locates (image : Image) (h : Heap) (env : ObjectId) (b : BindingId) : Prop :=
  ∃ location, h.locate image.tree env b = .ok (some location) ∧ h.Finds image env b location

def Heap.LocatesThis (image : Image) (h : Heap) (env : ObjectId) (p : ScopeId) : Prop :=
  ∃ v stop, h.locateThis env p = .ok (some v) ∧ h.WalkEnds p env stop ∧ Supplies image h p v stop

def Action.Located (image : Image) (h : Heap) : Action → Prop
  | readIdentifier env i => ∀ b, i.resolution = .binding b → h.Locates image env b
  | assign env i _ => ∀ b, i.resolution = .binding b → h.Locates image env b
  | writeBinding env b _ _ => h.Locates image env b
  | readThis env provider => ∃ p, provider = some p ∧ h.LocatesThis image env p
  | _ => True

/-- In a moment that looks for a binding or a `this`, it is found.  A name with a binding
gives no reference error, and a `this` is what the scope that supplies it has. -/
def Moment.Complete (image : Image) : Moment → Prop
  | ⟨.readIdentifier env i, before, result, _⟩ => ∀ b, i.resolution = .binding b →
    before.heap.Locates image env b ∧ ∀ name, result ≠ .error (.error (.reference name))
  | ⟨.assign env i _, before, result, _⟩ => ∀ b, i.resolution = .binding b →
    before.heap.Locates image env b ∧ ∀ name, result ≠ .error (.error (.reference name))
  | ⟨.writeBinding env b _ _, before, result, _⟩ =>
    before.heap.Locates image env b ∧ ∀ name, result ≠ .error (.error (.reference name))
  | ⟨.readThis env provider, before, result, _⟩ => ∃ p v stop, provider = some p ∧
    result = .ok v ∧ before.heap.WalkEnds p env stop ∧ Supplies image before.heap p v stop
  | _ => True

section Complete

variable {image : Image} {m : Machine} {h : Heap} {env : ObjectId} {b : BindingId}
  {tree : ScopeTree} {location : Location}

theorem Heap.readBinding_ne_reference (hl : h.locate tree env b = .ok (some location))
    (name other : String) : h.readBinding tree env b name ≠ .error (.reference other) := by
  rw [readBinding, hl]
  dsimp only [bind, Except.bind]
  cases h.contentsAt location with
  | error e => exact fun he => by cases he
  | ok raw =>
    cases tree.binding b with
    | error e => exact fun he => by cases he
    | ok d =>
      dsimp only [Except.mapError_ok]
      cases d.storage with
      | slot => cases raw <;> exact fun he => by cases he
      | cell =>
        cases raw with
        | none => exact fun he => by cases he
        | some v =>
          cases v with
          | object c =>
            dsimp only
            cases h.cellContents c with
            | error e => exact fun he => by cases he
            | ok contents => cases contents <;> exact fun he => by cases he
          | _ => exact fun he => by cases he

theorem HeapM.mapError_ne {ε ε' α : Type} {f : ε → ε'} {x : HeapM ε α} {e' : ε'}
    (hf : ∀ e, f e ≠ e') (h : Heap) : (HeapM.mapError f x h).1 ≠ .error e' := by
  rw [mapError]
  cases x h with
  | mk result h' =>
    cases result with
    | ok a => exact fun he => by cases he
    | error e => exact fun he => hf e (Except.error.inj he)

theorem Heap.writeBinding_ne_reference (hl : h.locate tree env b = .ok (some location))
    (name other : String) (v : Value) :
    (Heap.writeBinding tree env b name v h).1 ≠ .error (.reference other) := by
  have hheap : ∀ e, EvalError.heap e ≠ .reference other := fun e he => by cases he
  rw [writeBinding, HeapM.bind_apply, HeapM.ask_apply]
  cases tree.binding b with
  | error e => exact fun he => by cases he
  | ok d =>
    dsimp only [Except.mapError_ok]
    rw [HeapM.bind_apply, HeapM.ask_apply, hl]
    dsimp only
    cases d.storage with
    | cell =>
      dsimp only
      rw [HeapM.bind_apply, HeapM.ask_apply]
      cases h.contentsAt location with
      | error e => exact fun he => by cases he
      | ok raw =>
        dsimp only [Except.mapError_ok]
        split
        · exact HeapM.mapError_ne hheap h
        · exact fun he => by cases he
    | slot =>
      cases location with
      | slot x i => exact HeapM.mapError_ne hheap h
      | captured g i => exact fun he => by cases he

theorem EvalM.writeBinding_ne_reference (hl : m.heap.Locates image env b) (name : String)
    (v : Value) (other : String) :
    (EvalM.writeBinding env b name v image m).1 ≠ .error (.error (.reference other)) := by
  obtain ⟨location, hlocate, -⟩ := hl
  have hne := Heap.writeBinding_ne_reference hlocate name other v
  rw [writeBinding, bind_of_ok read_apply, tryHeap_apply]
  generalize Heap.writeBinding image.tree env b name v m.heap = r at hne
  obtain ⟨result, h'⟩ := r
  cases result with
  | ok a => exact fun he => by cases he
  | error e => exact fun he => hne (congrArg _ (Stop.error.inj (Except.error.inj he)))

/-- An action that finds what it looks for makes a complete moment. -/
theorem Action.Located.complete {a : Action} (ha : a.Located image m.heap) :
    (a.moment image m).Complete image := by
  cases a with
  | readIdentifier env i =>
    intro b hb
    refine ⟨ha b hb, fun name he => ?_⟩
    obtain ⟨location, hlocate, -⟩ := ha b hb
    have hne := Heap.readBinding_ne_reference hlocate i.name name
    have hrun : (EvalM.readIdentifier env i image m).1 =
        (m.heap.readBinding image.tree env b i.name).mapError .error := by
      rw [EvalM.readIdentifier, hb]
      exact congrArg Prod.fst (EvalM.ask_apply _)
    rw [perform, hrun] at he
    cases hread : m.heap.readBinding image.tree env b i.name with
    | ok v =>
      rw [hread] at he
      cases he
    | error e =>
      rw [hread] at he hne
      exact hne (congrArg _ (Stop.error.inj (Except.error.inj he)))
  | assign env i v =>
    intro b hb
    refine ⟨ha b hb, fun name => ?_⟩
    rw [perform, EvalM.assign, hb]
    exact EvalM.writeBinding_ne_reference (ha b hb) i.name v name
  | writeBinding env b name v =>
    exact ⟨ha, fun other => EvalM.writeBinding_ne_reference ha name v other⟩
  | readThis env provider =>
    obtain ⟨p, rfl, v, stop, hv, hl, hsupplies⟩ := ha
    refine ⟨p, v, stop, rfl, ?_, hl, hsupplies⟩
    have hask : EvalM.ask (fun _ h => (h.locateThis env p).mapError .heap) image m =
        (.ok (some v), m) := by
      rw [EvalM.ask_apply, hv]
      rfl
    rw [perform, EvalM.readThis, EvalM.bind_of_ok hask]
    rfl
  | _ => exact trivial

end Complete

/-! ## Safe courses -/

namespace Course

variable {α β : Type} {image : Image} {m : Machine}

/-- Every action of a course is located and sound, and what the course gives is as `P`
says. -/
def Safe (image : Image) (P : α → Machine → Prop) : Course α → Machine → Prop
  | done a, m => P a m
  | stop reason, _ => reason.isInternal = false
  | act action next, m => action.Located image m.heap ∧
    action.perform.Gives image m fun answer m' => (next answer).Safe image P m'

variable {P : α → Machine → Prop} {Q : β → Machine → Prop}

/-- One safe course after another. -/
theorem Safe.bind {c : Course α} {f : α → Course β} (hm : m.Sound image) (hc : c.Safe image P m)
    (hf : ∀ a m', m.Later image m' → P a m' → (f a).Safe image Q m') :
    (c >>= f).Safe image Q m := by
  show (c.bind f).Safe image Q m
  induction c generalizing m with
  | done a => exact hf a m (.refl hm) hc
  | stop reason => exact hc
  | act action next ih =>
    obtain ⟨hl, hg⟩ := hc
    refine ⟨hl, hg.later, fun a ha => ?_, hg.error⟩
    exact ih a hg.later.sound (hg.ok a ha) fun b m' hlater => hf b m' (hg.later.trans hlater)

/-- A safe course keeps the machine sound, and it does not fail with an internal error. -/
theorem Safe.gives {c : Course α} (hm : m.Sound image) (hc : c.Safe image P m) :
    c.run.Gives image m P := by
  induction c generalizing m with
  | done a =>
    exact .of_eq hm rfl (fun b hb => Except.ok.inj hb ▸ hc) fun e he => by cases he
  | stop reason =>
    exact .of_eq hm rfl (fun b hb => by cases hb) fun e he => Except.error.inj he ▸ hc
  | act action next ih =>
    obtain ⟨-, hlater, hok, herror⟩ := hc
    have hrun : (act action next).run image m = _ := run_act action next m
    generalize action.perform image m = r at hlater hok herror hrun
    obtain ⟨result, m'⟩ := r
    cases result with
    | error e =>
      dsimp only at hrun
      refine ⟨?_, ?_, ?_⟩
      · rw [hrun]
        exact hlater
      · rw [hrun]
        exact fun b hb => by cases hb
      · rw [hrun]
        exact fun e' he' => Except.error.inj he' ▸ herror e rfl
    | ok answer =>
      dsimp only at hrun
      obtain ⟨hlater', hok', herror'⟩ := ih answer hlater.sound (hok answer rfl)
      refine ⟨?_, ?_, ?_⟩
      · rw [hrun]
        exact hlater.trans hlater'
      · rw [hrun]
        exact hok'
      · rw [hrun]
        exact herror'

/-- Whatever a safe course looks for is found. -/
theorem Safe.complete {c : Course α} (hc : c.Safe image P m) :
    ∀ moment ∈ c.moments image m, moment.Complete image := by
  induction c generalizing m with
  | done a => exact fun moment hmoment => absurd hmoment List.not_mem_nil
  | stop reason => exact fun moment hmoment => absurd hmoment List.not_mem_nil
  | act action next ih =>
    intro moment hmoment
    obtain ⟨hl, -, hok, -⟩ := hc
    rcases mem_moments_act hmoment with rfl | ⟨answer, m', hrun, hmoment⟩
    · exact hl.complete
    · rw [hrun] at hok
      exact ih answer (hok answer rfl) moment hmoment

/-! ## Single actions -/

section Actions

variable {env : ObjectId}

/-- A course of one action. -/
theorem Safe.single {action : Action} {P : action.Answer → Machine → Prop}
    (hl : action.Located image m.heap) (hg : action.perform.Gives image m P) :
    (act action done).Safe image P m := ⟨hl, hg⟩

theorem readIdentifier_safe (hi : image.Sound) (hm : m.Sound image) {i : Identifier}
    (hs : ∀ b, i.resolution = .binding b → ∃ d, image.tree.binding? b = some d ∧
      m.heap.Sees image env (.binding b)) :
    (readIdentifier env i).Safe image (fun v m' => v.Live m'.heap) m := by
  refine .single (fun b hb => ?_) (EvalM.readIdentifier_gives hi hm hs)
  obtain ⟨d, hd, hsees⟩ := hs b hb
  exact hsees.locate hm.typed.descends hi.proper hd

theorem readThis_safe (hm : m.Sound image) {p : ScopeId} (hs : m.heap.Sees image env (.this p)) :
    (readThis env (some p)).Safe image (fun v m' => v.Live m'.heap) m :=
  .single ⟨p, rfl, hs.locateThis hm.typed.descends⟩ (EvalM.readThis_gives hm hs)

theorem assign_safe (hi : image.Sound) (hm : m.Sound image) {i : Identifier}
    (hs : ∀ b, i.resolution = .binding b → ∃ d, image.tree.binding? b = some d ∧
      m.heap.Sees image env (.binding b) ∧ d.mutable = true) {v : Value} (hv : v.Live m.heap) :
    (assign env i v).Safe image (fun _ _ => True) m := by
  refine .single (fun b hb => ?_) (EvalM.assign_gives hi hm hs hv)
  obtain ⟨d, hd, hsees, -⟩ := hs b hb
  exact hsees.locate hm.typed.descends hi.proper hd

/-- A write to a binding whose scope has an environment further out. -/
theorem writeBinding_safe (hi : image.Sound) (hm : m.Sound image) {b : BindingId} {d : Binding}
    (hb : image.tree.binding? b = some d) {x : ObjectId}
    (hl : m.heap.WalkEnds d.scope env (.environment x)) (name : String) {v : Value}
    (hv : v.Live m.heap) : (writeBinding env b name v).Safe image (fun _ _ => True) m := by
  have hlocate : m.heap.locate image.tree env b = .ok (some (.slot x d.slot)) :=
    hl.locate_eq hm.typed.descends hb
  have hfinds : m.heap.Finds image env b (.slot x d.slot) := .slot hb hl
  refine .single ⟨_, hlocate, hfinds⟩ ?_
  exact EvalM.writeBinding_gives hi hm hb hlocate (hfinds.fits hm.typed hb)
    (fun _ g i he => by cases he) name hv

theorem allocate_safe (hm : m.Sound image) {o : Object}
    (ho : ∀ y ∈ o.strongRefs, m.heap.contains y = true) (henv : ∀ e, o ≠ .environment e)
    (hfun : ∀ f, o ≠ .function f) :
    (allocate o).Safe image (fun id m' => m'.heap.contains id = true) m :=
  .single trivial (EvalM.allocate_gives hm ho henv hfun)

/-- A new object as a value. -/
theorem allocate_value_safe (hm : m.Sound image) {o : Object}
    (ho : ∀ y ∈ o.strongRefs, m.heap.contains y = true) (henv : ∀ e, o ≠ .environment e)
    (hfun : ∀ f, o ≠ .function f) :
    ((do return .object (← allocate o)) : Course Value).Safe image
      (fun v m' => v.Live m'.heap) m := by
  refine (allocate_safe hm ho henv hfun).bind hm fun id m' _ hin => ?_
  intro x hx
  obtain rfl := Option.some.inj hx
  exact hin

theorem newArray_safe (hm : m.Sound image) {elements : List Value}
    (he : ∀ v ∈ elements, v.Live m.heap) :
    (newArray elements).Safe image (fun v m' => v.Live m'.heap) m := by
  refine allocate_value_safe hm (fun y hy => ?_) (fun e he => (by cases he))
    (fun f hf => (by cases hf))
  obtain ⟨v, hv, hy⟩ := mem_objectsOf.1 hy
  exact he v hv y hy

theorem getProperty_safe (hm : m.Sound image) {target : Value} (ht : target.Live m.heap)
    (name : String) : (getProperty target name).Safe image (fun v m' => v.Live m'.heap) m :=
  .single trivial (EvalM.getProperty_gives hm ht name)

theorem setProperty_safe (hm : m.Sound image) {target v : Value} (ht : target.Live m.heap)
    (hv : v.Live m.heap) (name : String) :
    (setProperty target name v).Safe image (fun _ _ => True) m :=
  .single trivial (EvalM.setProperty_gives hm ht hv name)

theorem newEnvironment_safe (hi : image.Sound) (hm : m.Sound image) {scope : ScopeId} {sc : Scope}
    (hsc : image.tree.scope? scope = some sc) {outer : Enclosure} {this : Option Value}
    (houter : ∀ y ∈ outer.refs, m.heap.contains y = true)
    (hthis : ∀ y ∈ objectOf this, m.heap.contains y = true)
    (hprovides : sc.providesThis = true → this.isSome = true)
    (hblock : sc.kind = .block → ∃ y e, outer = .environment y ∧
      m.heap.environment y = .ok e ∧ sc.parent = some e.scope) :
    (newEnvironment scope outer this).Safe image (fun env m' => ∃ e,
      m'.heap.environment env = .ok e ∧ e.scope = scope ∧ e.outer = outer ∧ e.this = this) m :=
  .single trivial (EvalM.newEnvironment_gives hi hm hsc houter hthis hprovides hblock)

theorem instantiate_safe (hi : image.Sound) (hm : m.Sound image) {node : FunctionNode}
    (hknown : image.Knows node) {e : Environment} (he : m.heap.environment env = .ok e)
    (hbound : node.Bound image.tree e.scope)
    (hs : m.heap.SeesAll image env e.scope node.references) :
    (instantiate node env).Safe image (fun v m' => v.Live m'.heap) m :=
  .single trivial (EvalM.instantiate_gives hi hm hknown he hbound hs)

theorem callee_safe (hm : m.Sound image) {v : Value} (hv : v.Live m.heap) :
    (callee v).Safe image (fun r m' => m'.heap.function r.1 = .ok r.2) m :=
  .single trivial (EvalM.callee_gives hm hv)

theorem definition_safe (hm : m.Sound image) {f : FunctionObject} (hf : f.Fits image m.heap) :
    (definition f).Safe image (fun node _ => image.functions.get? f.site = some node) m :=
  .single trivial (EvalM.definition_gives hm hf)

/-- The value of an operator is a primitive. -/
theorem apply_safe (op : BinaryOp) (left right : Value) :
    (ofExcept (op.apply left right)).Safe image (fun v m' => v.Live m'.heap) m := by
  cases h : op.apply left right with
  | error e =>
    show e.isInternal = false
    cases op <;> cases left <;> cases right <;> cases h <;> rfl
  | ok v =>
    show ∀ id, v.object? = some id → _
    intro id hid
    cases op <;> cases left <;> cases right <;> cases h <;> cases hid

end Actions

end Course

end ClosureCache
