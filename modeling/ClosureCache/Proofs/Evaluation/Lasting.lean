/-
What outlasts the steps of a run.

`Lasts` relates a heap to a later one, across collections too: of what is still in the
heap, no environment has moved and no function has changed, and what they hold on to is
still there.  What was written to environments in the meantime, and which environments
and functions were made, is as some `Effects` say.  Every action keeps to that as long as
what it does by itself is among the effects, and so does everything else that a host may
do.
-/
import ClosureCache.Proofs.Cache.Adding
import ClosureCache.Proofs.Evaluation.Completeness

namespace ClosureCache

/-- An environment is in its place, whatever was written to its slots. -/
structure Environment.Resembles (e e' : Environment) : Prop where
  scope : e'.scope = e.scope
  outer : e'.outer = e.outer
  this : e'.this = e.this
  size : e'.slots.size = e.slots.size

def Environment.write (e : Environment) (i : Nat) (v : Value) : Environment :=
  { e with
    slots := e.slots.setIfInBounds i (some v) }

theorem Environment.resembles_write (e : Environment) (i : Nat) (v : Value) :
    e.Resembles (e.write i v) :=
  ⟨rfl, rfl, rfl, Array.size_setIfInBounds⟩

theorem Environment.Resembles.trans {e e₁ e' : Environment} (a : e.Resembles e₁)
    (b : e₁.Resembles e') : e.Resembles e' :=
  ⟨b.scope.trans a.scope, b.outer.trans a.outer, b.this.trans a.this, b.size.trans a.size⟩

theorem Environment.Resembles.refl (e : Environment) : e.Resembles e := ⟨rfl, rfl, rfl, rfl⟩

/-- What may become of environments by being written to, and which environments and
functions may be made. -/
structure Effects where
  writes : ObjectId → Environment → Environment → Prop
  opens : Environment → Prop
  makes : FunctionObject → Prop
  refl : ∀ x e, writes x e e
  trans : ∀ x e e₁ e', e.Resembles e₁ → writes x e e₁ → writes x e₁ e' → writes x e e'
  opens_of_writes : ∀ x e e', e.Resembles e' → opens e → writes x e e' → opens e'

def Effects.any : Effects where
  writes _ _ _ := True
  opens _ := True
  makes _ := True
  refl _ _ := trivial
  trans _ _ _ _ _ _ _ := trivial
  opens_of_writes _ _ _ _ _ _ := trivial

/-- Whether evaluation finds bindings through the object. -/
def Object.isReader : Object → Bool
  | environment _ => true
  | function _ => true
  | _ => false

/-- An environment as it is made for a scope: empty are the slots of the lexical bindings
without a cell. -/
structure Environment.Initial (tree : ScopeTree) (s : ScopeId) (e : Environment) : Prop where
  scope : e.scope = s
  slots : ∀ (sc : Scope) (i : Nat) (b : BindingId) (d : Binding), tree.scope? s = some sc →
    sc.bindings[i]? = some b → tree.binding? b = some d → ∃ raw, e.slots[i]? = some raw ∧
      (raw = none ↔ d.storage = .slot ∧ d.kind.isLexical = true)

/-! ## Steps that end well -/

theorem Except.mapError_eq_ok {ε ε' α : Type} {x : Except ε α} {g : ε → ε'} {a : α} :
    x.mapError g = .ok a ↔ x = .ok a := by
  cases x <;> simp [Except.mapError]

namespace HeapM

variable {ε ε' α β : Type} {h h' : Heap}

theorem bind_eq_ok {x : HeapM ε α} {f : α → HeapM ε β} {b : β} (hrun : (x >>= f) h = (.ok b, h')) :
    ∃ a h₁, x h = (.ok a, h₁) ∧ f a h₁ = (.ok b, h') := by
  rw [bind_apply] at hrun
  cases hx : x h with
  | mk r h₁ =>
    rw [hx] at hrun
    cases r with
    | ok a => exact ⟨a, h₁, rfl, hrun⟩
    | error e => cases (Prod.mk.inj hrun).1

theorem mapError_eq_ok {x : HeapM ε α} {g : ε → ε'} {a : α}
    (hrun : HeapM.mapError g x h = (.ok a, h')) : x h = (.ok a, h') := by
  rw [HeapM.mapError] at hrun
  cases hx : x h with
  | mk r h₁ =>
    rw [hx] at hrun
    cases r with
    | ok a =>
      obtain ⟨heq, rfl⟩ := Prod.mk.inj hrun
      rw [Except.ok.inj heq]
    | error e => cases (Prod.mk.inj hrun).1

end HeapM

namespace Heap

/-- What a heap has in common with an earlier one, of what is still there. -/
structure Lasts (R : Effects) (h h' : Heap) : Prop where
  size_le : h.entries.size ≤ h'.entries.size
  /-- What has been reclaimed does not come back. -/
  gone : ∀ x : ObjectId, x.index < h.entries.size → h'.contains x = true → h.contains x = true
  environment : ∀ x e, h'.contains x = true → h.environment x = .ok e →
    ∃ e', h'.environment x = .ok e' ∧ e.Resembles e' ∧ R.writes x e e'
  function : ∀ x f, h'.contains x = true → h.function x = .ok f → h'.function x = .ok f
  outer : ∀ x e y, h'.contains x = true → h.environment x = .ok e → y ∈ e.outer.refs →
    h.contains y = true → h'.contains y = true
  closure : ∀ x f y, h'.contains x = true → h.function x = .ok f → y ∈ f.closure.refs →
    h.contains y = true → h'.contains y = true
  opened : ∀ x e', h'.environment x = .ok e' →
    (∃ e, h.environment x = .ok e) ∨ h.entries.size ≤ x.index ∧ R.opens e'
  made : ∀ x f, h'.function x = .ok f →
    h.function x = .ok f ∨ h.entries.size ≤ x.index ∧ R.makes f

section Lasts

variable {R : Effects} {h h₁ h' : Heap}

theorem contains_of_function {x : ObjectId} {f : FunctionObject} (hf : h.function x = .ok f) :
    h.contains x = true := contains_of_object (function_eq_ok.1 hf)

theorem Lasts.trans (a : Lasts R h h₁) (b : Lasts R h₁ h') : Lasts R h h' where
  size_le := Nat.le_trans a.size_le b.size_le
  gone x hx hin := a.gone x hx (b.gone x (Nat.lt_of_lt_of_le hx a.size_le) hin)
  environment x e hin he := by
    have hold := contains_of_environment he
    have hin₁ := b.gone x (Nat.lt_of_lt_of_le (lt_of_contains hold) a.size_le) hin
    obtain ⟨e₁, he₁, hsame₁, hR₁⟩ := a.environment x e hin₁ he
    obtain ⟨e', he', hsame', hR'⟩ := b.environment x e₁ hin he₁
    exact ⟨e', he', hsame₁.trans hsame', R.trans x e e₁ e' hsame₁ hR₁ hR'⟩
  function x f hin hf := by
    have hold := contains_of_function hf
    have hin₁ := b.gone x (Nat.lt_of_lt_of_le (lt_of_contains hold) a.size_le) hin
    exact b.function x f hin (a.function x f hin₁ hf)
  outer x e y hin he hy hold := by
    have hlt := Nat.lt_of_lt_of_le (lt_of_contains (contains_of_environment he)) a.size_le
    have hin₁ := b.gone x hlt hin
    obtain ⟨e₁, he₁, hsame₁, -⟩ := a.environment x e hin₁ he
    exact b.outer x e₁ y hin he₁ (hsame₁.outer ▸ hy) (a.outer x e y hin₁ he hy hold)
  closure x f y hin hf hy hold := by
    have hlt := Nat.lt_of_lt_of_le (lt_of_contains (contains_of_function hf)) a.size_le
    have hin₁ := b.gone x hlt hin
    exact b.closure x f y hin (a.function x f hin₁ hf) hy (a.closure x f y hin₁ hf hy hold)
  opened x e' he' := by
    rcases b.opened x e' he' with ⟨e₁, he₁⟩ | ⟨hnew, hopens⟩
    · refine (a.opened x e₁ he₁).imp id fun ⟨hnew, hopens⟩ => ⟨hnew, ?_⟩
      obtain ⟨e'', he'', hsame, hwrites⟩ :=
        b.environment x e₁ (contains_of_environment he') he₁
      obtain rfl := Except.ok.inj (he'.symm.trans he'')
      exact R.opens_of_writes x e₁ e' hsame hopens hwrites
    · exact .inr ⟨Nat.le_trans a.size_le hnew, hopens⟩
  made x f hf := by
    rcases b.made x f hf with hf | ⟨hnew, hmakes⟩
    · exact a.made x f hf
    · exact .inr ⟨Nat.le_trans a.size_le hnew, hmakes⟩

/-- Nothing is lost, and of the old objects the environments and the functions are what
they were. -/
theorem Lasts.of_contains (hsize : h.entries.size ≤ h'.entries.size)
    (hcontains : ∀ x : ObjectId, x.index < h.entries.size → h'.contains x = h.contains x)
    (henv : ∀ x e, h.environment x = .ok e →
      ∃ e', h'.environment x = .ok e' ∧ e.Resembles e' ∧ R.writes x e e')
    (hfun : ∀ x f, h.function x = .ok f → h'.function x = .ok f)
    (hopened : ∀ x e', h'.environment x = .ok e' →
      (∃ e, h.environment x = .ok e) ∨ h.entries.size ≤ x.index ∧ R.opens e')
    (hmade : ∀ x f, h'.function x = .ok f →
      h.function x = .ok f ∨ h.entries.size ≤ x.index ∧ R.makes f) : Lasts R h h' where
  size_le := hsize
  gone x hx hin := by rwa [← hcontains x hx]
  environment x e _ he := henv x e he
  function x f _ hf := hfun x f hf
  outer _ _ y _ _ _ hold := by rwa [hcontains y (lt_of_contains hold)]
  closure _ _ y _ _ _ hold := by rwa [hcontains y (lt_of_contains hold)]
  opened := hopened
  made := hmade

theorem Adds.lasts {made : Object → Prop} (ha : Adds made h h')
    (hmade : ∀ o, made o → (∀ e, o = .environment e → R.opens e) ∧
      ∀ f, o = .function f → R.makes f) : Lasts R h h' := by
  refine .of_contains ha.size_le ha.contains (fun x e he => ⟨e, ?_, .refl e, R.refl x e⟩)
    (fun x f hf => ?_) (fun x e he => ?_) fun x f hf => ?_
  · exact environment_eq_ok.2 (ha.object x _ (environment_eq_ok.1 he) rfl)
  · exact function_eq_ok.2 (ha.object x _ (function_eq_ok.1 hf) rfl)
  · rcases ha.plain x _ (environment_eq_ok.1 he) rfl with hold | ⟨hsize, ho⟩
    · exact .inl ⟨e, environment_eq_ok.2 hold⟩
    · exact .inr ⟨hsize, (hmade _ ho).1 e rfl⟩
  · rcases ha.plain x _ (function_eq_ok.1 hf) rfl with hold | ⟨hsize, ho⟩
    · exact .inl (function_eq_ok.2 hold)
    · exact .inr ⟨hsize, (hmade _ ho).2 f rfl⟩

theorem Lasts.of_object_eq (hsize : h'.entries.size = h.entries.size)
    (heq : ∀ x, h'.object x = h.object x) : Lasts R h h' :=
  (Adds.of_object_eq hsize heq : Adds (fun _ => False) h h').lasts fun _ hmade => hmade.elim

theorem Lasts.refl (R : Effects) (h : Heap) : Lasts R h h := .of_object_eq rfl fun _ => rfl

theorem lasts_allocate {o : Object} (hopens : ∀ e, o = .environment e → R.opens e)
    (hmakes : ∀ f, o = .function f → R.makes f) : Lasts R h (h.allocate o).2 :=
  (adds_allocate h o).lasts fun _ ho => ho ▸ ⟨hopens, hmakes⟩

theorem lasts_allocate_of_not_reader {o : Object} (ho : o.isReader = false) :
    Lasts R h (h.allocate o).2 :=
  lasts_allocate (fun e he => by rw [he] at ho; cases ho) fun f hf => by rw [hf] at ho; cases ho

theorem lasts_setObject {x : ObjectId} {o o' : Object} (hx : h.object x = .ok o)
    (henv : ∀ e, o = .environment e →
      ∃ e', o' = .environment e' ∧ e.Resembles e' ∧ R.writes x e e')
    (henv' : ∀ e', o' = .environment e' → ∃ e, o = .environment e)
    (hfun : ∀ f, o ≠ .function f) (hfun' : ∀ f, o' ≠ .function f) :
    Lasts R h (h.setObject x o') := by
  have hin := contains_of_object hx
  have hother : ∀ y, y ≠ x → Heap.object (h.setObject x o') y = h.object y := fun y hyx =>
    object_setObject_of_ne _ hyx
  refine .of_contains (Nat.le_of_eq (size_setObject ..).symm)
    (fun y _ => contains_setObject h x o' y) (fun y e he => ?_) (fun y f hf => ?_)
    (fun y e he => ?_) fun y f hf => ?_
  · by_cases hyx : y = x
    · subst hyx
      rw [environment_eq_ok, hx] at he
      obtain ⟨e', rfl, hk⟩ := henv e (Except.ok.inj he)
      exact ⟨e', environment_eq_ok.2 (object_setObject_self _ hin), hk⟩
    · refine ⟨e, environment_eq_ok.2 ?_, .refl e, R.refl y e⟩
      rw [hother y hyx, environment_eq_ok.1 he]
  · by_cases hyx : y = x
    · subst hyx
      rw [function_eq_ok, hx] at hf
      exact absurd (Except.ok.inj hf) (hfun f)
    · rw [function_eq_ok, hother y hyx, function_eq_ok.1 hf]
  · by_cases hyx : y = x
    · subst hyx
      rw [environment_eq_ok, object_setObject_self _ hin] at he
      obtain ⟨e₀, rfl⟩ := henv' e (Except.ok.inj he)
      exact .inl ⟨e₀, environment_eq_ok.2 hx⟩
    · rw [environment_eq_ok, hother y hyx] at he
      exact .inl ⟨e, environment_eq_ok.2 he⟩
  · by_cases hyx : y = x
    · subst hyx
      rw [function_eq_ok, object_setObject_self _ hin] at hf
      exact absurd (Except.ok.inj hf) (hfun' f)
    · rw [function_eq_ok, hother y hyx] at hf
      exact .inl (function_eq_ok.2 hf)

theorem lasts_setObject_of_not_reader {x : ObjectId} {o o' : Object} (hx : h.object x = .ok o)
    (ho : o.isReader = false) (ho' : o'.isReader = false) : Lasts R h (h.setObject x o') :=
  lasts_setObject hx (fun e he => by rw [he] at ho; cases ho)
    (fun e he => by rw [he] at ho'; cases ho') (fun f hf => by rw [hf] at ho; cases ho)
    fun f hf => by rw [hf] at ho'; cases ho'

theorem lasts_root (h : Heap) (x : ObjectId) : Lasts R h (root x h).2 :=
  .of_object_eq (size_root h x) fun _ => object_root _ _ _

theorem lasts_unroot (h : Heap) (x : ObjectId) : Lasts R h (unroot x h).2 :=
  .of_object_eq (size_unroot h x) fun _ => object_unroot _ _ _

/-! ## Steps on the heap -/

theorem Lasts.bind {ε α β : Type} {x : HeapM ε α} {f : α → HeapM ε β}
    (hx : Lasts R h (x h).2)
    (hf : ∀ a h₁, x h = (.ok a, h₁) → Lasts R h₁ (f a h₁).2) :
    Lasts R h ((x >>= f) h).2 :=
  HeapM.ends_bind hx fun a h₁ hr => by
    rw [hr] at hx
    exact hx.trans (hf a h₁ hr)

theorem Lasts.mapError {ε ε' α : Type} {x : HeapM ε α} (hx : Lasts R h (x h).2) (g : ε → ε') :
    Lasts R h (HeapM.mapError g x h).2 :=
  HeapM.ends_mapError hx g

/-- Writing a binding from an environment is among what may be written. -/
def Writable (R : Effects) (tree : ScopeTree) (h : Heap) (env : ObjectId) (b : BindingId) :
    Prop :=
  ∀ x i e v, h.locate tree env b = .ok (some (.slot x i)) → h.environment x = .ok e →
    R.writes x e (e.write i v)

theorem lasts_setCellContents (x : ObjectId) (v : Value) :
    Lasts R h (setCellContents x v h).2 := by
  rw [setCellContents]
  cases hc : h.cellContents x with
  | error e => exact .refl ..
  | ok c =>
    exact lasts_setObject_of_not_reader (cellContents_eq_ok.1 hc) rfl rfl

theorem lasts_setEnvironmentSlot {x : ObjectId} {i : Nat} {v : Value}
    (hi : ∀ e, h.environment x = .ok e → R.writes x e (e.write i v)) :
    Lasts R h (setEnvironmentSlot x i (some v) h).2 := by
  rw [setEnvironmentSlot]
  cases he : h.environment x with
  | error e => exact .refl ..
  | ok e =>
    dsimp only
    split
    · refine lasts_setObject (environment_eq_ok.1 he) (fun e' he' => ?_)
        (fun _ _ => ⟨e, rfl⟩) (fun f hf => (by cases hf)) fun f hf => by cases hf
      obtain rfl := Object.environment.inj he'
      exact ⟨_, rfl, e.resembles_write i v, hi e he⟩
    · exact .refl ..

theorem lasts_setProperty (target : Value) (name : String) (v : Value) :
    Lasts R h (setProperty target name v h).2 := by
  rw [setProperty]
  cases target.object? with
  | none => exact .refl ..
  | some x =>
    dsimp only
    cases hx : h.object x with
    | error e => exact .refl ..
    | ok o =>
      cases o with
      | ordinary p => exact lasts_setObject_of_not_reader hx rfl rfl
      | array elements =>
        dsimp only
        cases Text.readWord? name with
        | none => exact .refl ..
        | some index =>
          dsimp only
          split
          · exact lasts_setObject_of_not_reader hx rfl rfl
          · exact .refl ..
      | _ => exact .refl ..

/-- Only for a binding without a cell an environment is written to. -/
theorem lasts_writeBinding_of_slot {tree : ScopeTree} {env : ObjectId} {b : BindingId}
    (hw : ∀ d, tree.binding? b = some d → d.storage = .slot → h.Writable R tree env b)
    (name : String) (v : Value) : Lasts R h (writeBinding tree env b name v h).2 := by
  refine .bind (.refl ..) fun declared h₁ hask => .bind ?_ fun location h₂ hlook => ?_
  · exact .refl ..
  · obtain ⟨hd, rfl⟩ := Prod.mk.inj hask
    have hd := ScopeTree.binding_eq_ok.1 (Except.mapError_eq_ok.1 hd)
    obtain ⟨hlocate, rfl⟩ := Prod.mk.inj hlook
    cases location with
    | none => exact .refl ..
    | some location =>
      dsimp only
      cases hstorage : declared.storage with
      | cell =>
        refine .bind (.refl ..) fun contents h₃ hread => ?_
        obtain rfl : h = h₃ := congrArg Prod.snd hread
        split
        · exact .mapError (lasts_setCellContents _ v) _
        · exact .refl ..
      | slot =>
        cases location with
        | slot x i =>
          exact .mapError
            (lasts_setEnvironmentSlot fun e => hw declared hd hstorage x i e v hlocate) _
        | captured g i => exact .refl ..

theorem lasts_writeBinding {tree : ScopeTree} {env : ObjectId} {b : BindingId}
    (hw : h.Writable R tree env b) (name : String) (v : Value) :
    Lasts R h (writeBinding tree env b name v h).2 :=
  lasts_writeBinding_of_slot (fun _ _ _ => hw) name v

theorem lasts_initialSlots (tree : ScopeTree) (bs : List BindingId) :
    Lasts R h (initialSlots tree bs h).2 := by
  induction bs generalizing h with
  | nil => exact .refl ..
  | cons b rest ih =>
    refine .bind (.bind (.refl ..) fun declared h₁ hask => ?_) fun contents h₁ _ =>
      .bind ih fun _ _ _ => .refl ..
    obtain rfl : h = h₁ := congrArg Prod.snd hask
    cases declared.storage with
    | slot => exact .refl ..
    | cell => exact .bind (lasts_allocate_of_not_reader rfl) fun _ _ _ => .refl ..

/-- A slot starts out empty if it is that of a lexical binding without a cell. -/
theorem initialSlot_eq_ok {tree : ScopeTree} {b : BindingId} {raw : Option Value}
    (hrun : initialSlot tree b h = (.ok raw, h')) {d : Binding} (hd : tree.binding? b = some d) :
    raw = none ↔ d.storage = .slot ∧ d.kind.isLexical = true := by
  have hask : HeapM.ask (fun _ => (tree.binding b).mapError EvalError.scope) h = (.ok d, h) := by
    rw [HeapM.ask_apply, ScopeTree.binding_eq_ok.2 hd]
    rfl
  rw [initialSlot, HeapM.bind_of_ok hask] at hrun
  cases hstorage : d.storage with
  | slot =>
    rw [hstorage] at hrun
    obtain rfl := Except.ok.inj (Prod.mk.inj hrun).1
    simp
  | cell =>
    rw [hstorage] at hrun
    obtain rfl := Except.ok.inj (Prod.mk.inj hrun).1
    simp

theorem initialSlots_eq_ok {tree : ScopeTree} {bs : List BindingId} {slots : List (Option Value)}
    (hrun : initialSlots tree bs h = (.ok slots, h')) {i : Nat} {b : BindingId}
    (hb : bs[i]? = some b) {d : Binding} (hd : tree.binding? b = some d) :
    ∃ raw, slots[i]? = some raw ∧ (raw = none ↔ d.storage = .slot ∧ d.kind.isLexical = true) := by
  induction bs generalizing h i slots with
  | nil => cases hb
  | cons c rest ih =>
    obtain ⟨raw, h₁, hslot, hrun⟩ := HeapM.bind_eq_ok hrun
    obtain ⟨slots', h₂, hrest, hrun⟩ := HeapM.bind_eq_ok hrun
    obtain ⟨heq, rfl⟩ := Prod.mk.inj hrun
    obtain rfl := Except.ok.inj heq
    cases i with
    | zero =>
      obtain rfl := Option.some.inj hb
      exact ⟨raw, rfl, initialSlot_eq_ok hslot hd⟩
    | succ i => exact ih hrest hb

/-- What is made for a scope is as an environment starts out. -/
theorem initial_of_initialSlots {tree : ScopeTree} {scope : ScopeId} {sc : Scope}
    (hsc : (tree.scope scope).mapError EvalError.scope = .ok sc) {slots : List (Option Value)}
    (hrun : initialSlots tree sc.bindings.toList h = (.ok slots, h')) (outer : Enclosure)
    (this : Option Value) :
    Environment.Initial tree scope { scope, outer, slots := slots.toArray, this } := by
  refine ⟨rfl, fun sc' i b d hsc' hb hd => ?_⟩
  obtain rfl : sc' = sc := by
    rw [ScopeTree.scope, hsc'] at hsc
    exact Except.ok.inj hsc
  rw [List.getElem?_toArray]
  exact initialSlots_eq_ok hrun (by rwa [Array.getElem?_toList]) hd

theorem lasts_newEnvironment {tree : ScopeTree} {scope : ScopeId}
    (hopens : ∀ e : Environment, e.Initial tree scope → R.opens e) (outer : Enclosure)
    (this : Option Value) : Lasts R h (newEnvironment tree scope outer this h).2 := by
  refine .bind (.refl ..) fun declared h₁ hask =>
    .bind (lasts_initialSlots tree _) fun slots h₂ hslots => lasts_allocate (fun e he => ?_)
      fun f hf => (by cases hf)
  obtain rfl := Object.environment.inj he
  exact hopens _ (initial_of_initialSlots (Prod.mk.inj hask).1 hslots outer this)

/-- A new environment is new, and as it starts out. -/
theorem newEnvironment_eq_ok {tree : ScopeTree} {scope : ScopeId} {outer : Enclosure}
    {this : Option Value} {x : ObjectId}
    (hrun : newEnvironment tree scope outer this h = (.ok x, h')) :
    h.entries.size ≤ x.index ∧ ∃ e, h'.environment x = .ok e ∧ e.Initial tree scope := by
  rw [newEnvironment] at hrun
  obtain ⟨sc, h₁, hask, hrun⟩ := HeapM.bind_eq_ok hrun
  obtain ⟨hsc, rfl⟩ := Prod.mk.inj hask
  obtain ⟨slots, h₂, hslots, hrun⟩ := HeapM.bind_eq_ok hrun
  have hsize := (lasts_initialSlots (R := .any) (h := h) tree sc.bindings.toList).size_le
  rw [hslots] at hsize
  obtain ⟨hx, rfl⟩ := Prod.mk.inj hrun
  obtain rfl := Except.ok.inj hx
  exact ⟨hsize, _, environment_eq_ok.2 (object_allocate_self h₂ _),
    initial_of_initialSlots hsc hslots outer this⟩

end Lasts

/-! ## Collections -/

section Collection

variable {R : Effects} {h h' : Heap}

/-- What survives a collection is as it was, with what it refers to. -/
theorem Collected.lasts {keep : MarkSet} (hc : Collected h h' keep) : Lasts R h h' := by
  have hobject : ∀ x o, h'.contains x = true → h.object x = .ok o → o.isPart = false →
      h'.object x = .ok o := fun x o hin ho hpart =>
    hc.object_eq ((hc.contains_iff_reachable x).1 hin) ho hpart
  have hrefs : ∀ x o y, h'.contains x = true → h.object x = .ok o → y ∈ o.strongRefs →
      h.contains y = true → h'.contains y = true := by
    intro x o y hin ho hy hold
    obtain ⟨e, he, rfl⟩ := entry?_of_object ho
    rw [hc.contains_iff_reachable] at hin ⊢
    exact .strong hin (by rwa [strongRefs_of_some he]) hold
  refine ⟨Nat.le_of_eq hc.size.symm, fun x _ hin => ?_,
    fun x e hin he => ⟨e, ?_, .refl e, R.refl x e⟩, fun x f hin hf => ?_,
    fun x e y hin he hy => ?_, fun x f y hin hf hy => ?_, fun x e he => .inl ?_,
    fun x f hf => .inl ?_⟩
  · exact ((hc.contains_iff_reachable x).1 hin).contains
  · exact environment_eq_ok.2 (hobject x _ hin (environment_eq_ok.1 he) rfl)
  · exact function_eq_ok.2 (hobject x _ hin (function_eq_ok.1 hf) rfl)
  · exact hrefs x _ y hin (environment_eq_ok.1 he) (mem_refs_of_outer hy)
  · exact hrefs x _ y hin (function_eq_ok.1 hf) hy
  · exact ⟨e, environment_eq_ok.2 (hc.object_of_left (environment_eq_ok.1 he) rfl)⟩
  · exact function_eq_ok.2 (hc.object_of_left (function_eq_ok.1 hf) rfl)

end Collection

end Heap

/-! ## Actions -/

section Actions

variable {R : Effects} {image : Image} {m : Machine}

/-- The closures that reaching a definition in an environment can make. -/
def Closure.MadeFrom (image : Image) (h : Heap) (env : ObjectId) (site : SiteId)
    (closure : Closure) : Prop :=
  closure = .chain env ∨ ∃ spec, image.analysis.get? site = some (.memoized spec) ∧
    h.captureClosure image.tree env spec = .ok closure

/-- What an action does by itself is among some effects. -/
def Action.Within (R : Effects) (image : Image) (h : Heap) : Action → Prop
  | assign env i _ => ∀ b, i.resolution = .binding b → h.Writable R image.tree env b
  | writeBinding env b _ _ => h.Writable R image.tree env b
  | newEnvironment scope _ _ => ∀ e : Environment, e.Initial image.tree scope → R.opens e
  | allocate o => (∀ e, o = .environment e → R.opens e) ∧ ∀ f, o = .function f → R.makes f
  | instantiate _ env => ∀ (site : SiteId) (closure : Closure),
    closure.MadeFrom image h env site → R.makes ⟨site, closure⟩
  | _ => True

theorem Action.within_any (a : Action) (image : Image) (h : Heap) : a.Within .any image h := by
  cases a with
  | assign env i v => exact fun _ _ _ _ _ _ _ _ => trivial
  | writeBinding env b name v => exact fun _ _ _ _ _ _ => trivial
  | newEnvironment scope outer this => exact fun _ _ => trivial
  | allocate o => exact ⟨fun _ _ => trivial, fun _ _ => trivial⟩
  | instantiate node env => exact fun _ _ _ => trivial
  | _ => trivial

theorem EvalM.writeBinding_heap (env : ObjectId) (b : BindingId) (name : String) (v : Value) :
    (EvalM.writeBinding env b name v image m).2.heap =
      (Heap.writeBinding image.tree env b name v m.heap).2 := by
  rw [writeBinding, bind_of_ok read_apply, tryHeap_apply]

theorem EvalM.instantiate_adds (image : Image) (m : Machine) (node : FunctionNode)
    (env : ObjectId) : m.heap.Adds (fun o => ∃ site closure, o = .function ⟨site, closure⟩ ∧
      closure.MadeFrom image m.heap env site) (EvalM.instantiate node env image m).2.heap := by
  have hspec := EvalM.instantiate_spec image node env m
  generalize EvalM.instantiate node env image m = r at hspec
  obtain ⟨result, m'⟩ := r
  dsimp only at hspec ⊢
  cases hspec with
  | refused e _ hheap _ => exact hheap ▸ .of_object_eq rfl fun _ => rfl
  | fresh site reason _ _ hheap _ =>
    rw [hheap]
    exact (Heap.adds_allocate ..).imp fun o ho => ⟨site, _, ho.symm, .inl rfl⟩
  | reached site spec key closure result _ hspec _ hclosure hreach =>
    have hadds := m.registry.reach_adds site spec.arity key EvalError.cache
      (.function ⟨site, closure⟩) m.heap
    rw [hreach] at hadds
    exact hadds.imp fun o ho => ⟨site, closure, ho.symm, .inr ⟨spec, hspec, hclosure⟩⟩

/-- An action keeps to the effects that what it does is among. -/
theorem Action.lasts (a : Action) (ha : a.Within R image m.heap) :
    m.heap.Lasts R (a.perform image m).2.heap := by
  have hask : ∀ {α : Type} (f : Image → Heap → Except EvalError α),
      m.heap.Lasts R (EvalM.ask f image m).2.heap := fun f => by
    rw [EvalM.ask_apply]
    exact .refl ..
  cases a with
  | readIdentifier env i =>
    rw [perform, EvalM.readIdentifier]
    cases i.resolution with
    | binding b => exact hask _
    | «global» => exact hask _
    | unresolved => exact .refl ..
  | readThis env provider =>
    cases provider with
    | none => exact .refl ..
    | some provider =>
      rw [perform, EvalM.readThis, EvalM.bind_apply, EvalM.ask_apply]
      cases (m.heap.locateThis env provider).mapError EvalError.heap <;> exact .refl ..
  | assign env i v =>
    rw [perform, EvalM.assign]
    cases hi : i.resolution with
    | binding b =>
      dsimp only
      rw [EvalM.writeBinding_heap]
      exact Heap.lasts_writeBinding (ha b hi) _ v
    | «global» =>
      dsimp only
      rw [EvalM.bind_of_ok EvalM.read_apply, EvalM.onHeap_apply]
      exact Heap.lasts_setProperty _ _ v
    | unresolved => exact .refl ..
  | writeBinding env b name v =>
    rw [perform, EvalM.writeBinding_heap]
    exact Heap.lasts_writeBinding ha name v
  | newEnvironment scope outer this =>
    rw [perform, EvalM.newEnvironment, EvalM.bind_of_ok EvalM.read_apply, EvalM.tryHeap_apply]
    exact Heap.lasts_newEnvironment ha _ _
  | allocate o => exact Heap.lasts_allocate ha.1 ha.2
  | getProperty target name => exact hask _
  | setProperty target name v => exact Heap.lasts_setProperty _ _ v
  | instantiate node env =>
    refine (EvalM.instantiate_adds _ _ node env).lasts ?_
    rintro o ⟨site, closure, rfl, hmade⟩
    refine ⟨fun e he => (by cases he), fun f hf => ?_⟩
    obtain rfl := Object.function.inj hf
    exact ha site closure hmade
  | callee v =>
    rw [perform, EvalM.callee]
    cases v.object? with
    | none => exact .refl ..
    | some id =>
      dsimp only
      rw [EvalM.bind_apply, EvalM.ask_apply]
      cases m.heap.object id with
      | error e => exact .refl ..
      | ok o => cases o <;> exact .refl ..
  | definition f =>
    rw [perform, EvalM.definition, EvalM.bind_of_ok EvalM.read_apply]
    cases image.functions.get? f.site <;> exact .refl ..

/-- No action takes anything away. -/
theorem Action.contains_eq (a : Action) {x : ObjectId} (hx : x.index < m.heap.entries.size) :
    (a.perform image m).2.heap.contains x = m.heap.contains x := by
  by_cases ha : ∃ node env, a = .instantiate node env
  · obtain ⟨node, env, rfl⟩ := ha
    exact (EvalM.instantiate_adds _ _ node env).contains x hx
  · exact (a.sparesCaches (fun node env e => ha ⟨node, env, e⟩) image m).2.contains x hx

end Actions

/-! ## What else a host does -/

section Host

variable {R : Effects} {s : Session}

theorem EvalM.collectGarbage_lasts {image : Image} {m : Machine} :
    m.heap.Lasts R (EvalM.collectGarbage image m).2.heap := by
  rcases EvalM.collectGarbage_spec image m rfl with ⟨hheap, -⟩ | ⟨keep, h, hc, hend⟩
  · exact hheap ▸ .refl ..
  · refine hc.lasts.trans ?_
    rcases hend with ⟨hheap, -⟩ | hcompact
    · exact hheap ▸ .refl ..
    · have hadds := m.registry.compactAll_adds h
      rw [hcompact] at hadds
      exact hadds.lasts fun _ hmade => hmade.elim

/-- So does an operation of the host that starts no evaluation, if what it writes may be
written. -/
theorem HostAction.lasts (a : HostAction) (hcourse : a.course? s = none)
    (hwrites : ∀ name v b, a = .setGlobal name v →
      s.image.tree.lookupLocal ScopeTree.global name = some b →
      s.machine.heap.Writable R s.image.tree s.image.globalEnvironment b) :
    s.machine.heap.Lasts R (s.perform a.perform).2.machine.heap := by
  show s.machine.heap.Lasts R (a.perform s.image s.machine).2.heap
  cases a with
  | run steps =>
    rw [perform_run_of_ran (ran_of_course?_none hcourse)]
    exact .refl ..
  | call => cases hcourse
  | callGlobal steps name arguments =>
    rw [perform_callGlobal_of_none (Option.map_eq_none_iff.1 hcourse)]
    exact .refl ..
  | setGlobal name v =>
    rw [perform, EvalM.map_apply, EvalM.setGlobal, EvalM.bind_of_ok EvalM.read_apply]
    cases hb : s.image.tree.lookupLocal ScopeTree.global name with
    | none => exact Heap.lasts_setProperty (.object s.image.globalObject) name v
    | some b =>
      dsimp only
      rw [EvalM.writeBinding_heap]
      exact Heap.lasts_writeBinding (hwrites name v b rfl hb) name v
  | newObject properties => exact Heap.lasts_allocate_of_not_reader rfl
  | newArray elements => exact Heap.lasts_allocate_of_not_reader rfl
  | retain v =>
    rw [perform, EvalM.map_apply, retain_heap]
    cases v.object? with
    | none => exact .refl ..
    | some id => exact Heap.lasts_root _ _
  | release v =>
    rw [perform, EvalM.map_apply, release_heap]
    cases v.object? with
    | none => exact .refl ..
    | some id => exact Heap.lasts_unroot _ _
  | collectGarbage =>
    rw [perform, EvalM.map_apply]
    exact EvalM.collectGarbage_lasts

end Host

end ClosureCache
