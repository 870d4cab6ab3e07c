/-
What a step of evaluation does to the machine.

A step is run with `EvalM.bind_apply` and the equations beside it, as a step on the
heap is.  `Instantiates` says everything that reaching a definition may do; every other
action leaves the caches alone and of the old objects changes none that is part of a
trie, which is `Action.frame`.
-/
import ClosureCache.Evaluation.Course
import ClosureCache.Proofs.Cache.HeapRelations

namespace ClosureCache

namespace EvalM

variable {α β : Type} {image : Image} {m m' : Machine}

/-! ## Running steps -/

theorem bind_apply (x : EvalM α) (f : α → EvalM β) (image : Image) (m : Machine) :
    (x >>= f) image m =
      match x image m with
      | (.ok a, m') => f a image m'
      | (.error e, m') => (.error e, m') := by
  show ExceptT.bindCont (fun a => f a image) (x image m).1 (x image m).2 = _
  cases hx : x image m with
  | mk r m' =>
    cases r with
    | ok a => rfl
    | error e => rfl

theorem bind_of_ok {x : EvalM α} {f : α → EvalM β} {a : α} (hx : x image m = (.ok a, m')) :
    (x >>= f) image m = f a image m' := by
  rw [bind_apply, hx]

theorem bind_of_error {x : EvalM α} {f : α → EvalM β} {e : Stop EvalError}
    (hx : x image m = (.error e, m')) : (x >>= f) image m = (.error e, m') := by
  rw [bind_apply, hx]

theorem map_apply (f : α → β) (x : EvalM α) (image : Image) (m : Machine) :
    (f <$> x) image m = ((x image m).1.map f, (x image m).2) := by
  show ExceptT.bindCont (fun a => (pure (f a) : EvalM β) image) (x image m).1 (x image m).2 = _
  cases hx : x image m with
  | mk r m' => cases r <;> rfl

@[simp] theorem fail_apply (e : EvalError) :
    (fail e : EvalM α) image m = (.error (.error e), m) := rfl

@[simp] theorem read_apply : (read : EvalM Image) image m = (.ok image, m) := rfl

@[simp] theorem heap_apply : heap image m = (.ok m.heap, m) := rfl

@[simp] theorem get_apply : (get : EvalM Machine) image m = (.ok m, m) := rfl

@[simp] theorem emit_apply (n : Notice) :
    emit n image m = (.ok (), { m with
      log := m.log.emit n }) := rfl

/-- A question is answered from the heap and leaves the machine alone. -/
theorem ask_apply (f : Image → Heap → Except EvalError α) :
    ask f image m = ((f image m.heap).mapError .error, m) := by
  rw [ask, bind_of_ok read_apply, bind_of_ok heap_apply]
  cases f image m.heap <;> rfl

/-- A step on the heap. -/
theorem onHeap_apply (x : HeapM (Stop EvalError) α) :
    onHeap x image m = ((x m.heap).1, { m with
      heap := (x m.heap).2 }) := rfl

theorem tryHeap_apply (x : HeapM EvalError α) :
    tryHeap x image m = ((x m.heap).1.mapError .error, { m with
      heap := (x m.heap).2 }) := by
  rw [tryHeap, onHeap_apply, HeapM.mapError]
  cases x m.heap with
  | mk r h => cases r <;> rfl

theorem allocate_apply (o : Object) :
    allocate o image m = (.ok ⟨m.heap.entries.size⟩, { m with
      heap := (m.heap.allocate o).2 }) := rfl

end EvalM

/-! ## What evaluation does to the heap -/

namespace HeapM.Keeps

variable {T : Heap.EvalRelation}

theorem setCellContents (x : ObjectId) (v : Value) : Keeps T (Heap.setCellContents x v) := by
  intro h
  rw [Heap.setCellContents, Heap.cellContents]
  cases hx : h.object x with
  | error e => exact T.refl h
  | ok o =>
    cases o with
    | cell c => exact T.setObject h x _ _ hx rfl rfl (T.plain _ rfl)
    | _ => exact T.refl h

theorem setEnvironmentSlot (x : ObjectId) (index : Nat) (v : Option Value) :
    Keeps T (Heap.setEnvironmentSlot x index v) := by
  intro h
  rw [Heap.setEnvironmentSlot, Heap.environment]
  cases hx : h.object x with
  | error e => exact T.refl h
  | ok o =>
    cases o with
    | environment e =>
      dsimp only
      split
      · exact T.setObject h x _ _ hx rfl rfl (T.plain _ rfl)
      · exact T.refl h
    | _ => exact T.refl h

theorem setProperty (target : Value) (name : String) (v : Value) :
    Keeps T (Heap.setProperty target name v) := by
  intro h
  rw [Heap.setProperty]
  cases target.object? with
  | none => exact T.refl h
  | some x =>
    dsimp only
    cases hx : h.object x with
    | error e => exact T.refl h
    | ok o =>
      cases o with
      | ordinary p => exact T.setObject h x _ _ hx rfl rfl (T.plain _ rfl)
      | array elements =>
        dsimp only
        cases Text.readWord? name with
        | none => exact T.refl h
        | some index =>
          dsimp only
          split
          · exact T.setObject h x _ _ hx rfl rfl (T.plain _ rfl)
          · exact T.refl h
      | _ => exact T.refl h

theorem writeBinding (tree : ScopeTree) (env : ObjectId) (b : BindingId) (name : String)
    (v : Value) : Keeps T (Heap.writeBinding tree env b name v) := by
  refine (ask _).bind fun declared => (ask _).bind fun location => ?_
  cases location with
  | none => exact throw _
  | some location =>
    dsimp only
    cases declared.storage with
    | cell =>
      refine (ask _).bind fun contents => ?_
      split
      · exact (setCellContents _ v).mapError _
      · exact throw _
    | slot =>
      cases location with
      | slot env index => exact (setEnvironmentSlot env index (some v)).mapError _
      | captured f index => exact throw _

theorem initialSlot (tree : ScopeTree) (b : BindingId) : Keeps T (Heap.initialSlot tree b) := by
  refine (ask _).bind fun declared => ?_
  dsimp only
  cases declared.storage with
  | slot => exact pure _
  | cell => exact (allocate (T.plain _ rfl)).bind fun _ => pure _

theorem initialSlots (tree : ScopeTree) (bs : List BindingId) :
    Keeps T (Heap.initialSlots tree bs) := by
  induction bs with
  | nil => exact pure _
  | cons b rest ih => exact (initialSlot tree b).bind fun contents => ih.bind fun _ => pure _

theorem newEnvironment (tree : ScopeTree) (scope : ScopeId) (outer : Enclosure)
    (this : Option Value) : Keeps T (Heap.newEnvironment tree scope outer this) :=
  (ask _).bind fun _ => (initialSlots tree _).bind fun _ => allocate (T.plain _ rfl)

end HeapM.Keeps

/-- A step of evaluation that leaves the caches alone and keeps to a relation between
heaps. -/
def EvalM.Keeps {α : Type} (T : Heap.EvalRelation) (x : EvalM α) : Prop := ∀ image m,
  (x image m).2.registry = m.registry ∧ T.Holds m.heap (x image m).2.heap

namespace EvalM.Keeps

variable {α β : Type} {T : Heap.EvalRelation}

theorem bind {x : EvalM α} {f : α → EvalM β} (hx : Keeps T x) (hf : ∀ a, Keeps T (f a)) :
    Keeps T (x >>= f) := fun image m => by
  obtain ⟨hr₁, hs₁⟩ := hx image m
  rw [bind_apply]
  cases hr : x image m with
  | mk r m' =>
    rw [hr] at hr₁ hs₁
    cases r with
    | ok a =>
      obtain ⟨hr₂, hs₂⟩ := hf a image m'
      exact ⟨hr₂.trans hr₁, T.trans hs₁ hs₂⟩
    | error e => exact ⟨hr₁, hs₁⟩

theorem of_eq {x : EvalM α} (hx : ∀ image m, (x image m).2 = m) : Keeps T x :=
  fun image m => by
    rw [hx]
    exact ⟨rfl, T.refl _⟩

theorem pure (a : α) : Keeps T (pure a : EvalM α) := of_eq fun _ _ => rfl

theorem fail (e : EvalError) : Keeps T (EvalM.fail e : EvalM α) := of_eq fun _ _ => rfl

theorem ask (f : Image → Heap → Except EvalError α) : Keeps T (EvalM.ask f) :=
  of_eq fun image m => by rw [ask_apply]

theorem map {x : EvalM α} (hx : Keeps T x) (f : α → β) : Keeps T (f <$> x) :=
  fun image m => by
    rw [map_apply]
    exact hx image m

theorem onHeap {x : HeapM (Stop EvalError) α} (hx : x.Keeps T) : Keeps T (EvalM.onHeap x) :=
  fun _ m => ⟨rfl, hx m.heap⟩

theorem tryHeap {x : HeapM EvalError α} (hx : x.Keeps T) : Keeps T (EvalM.tryHeap x) :=
  onHeap (hx.mapError _)

theorem read : Keeps T (read : EvalM Image) := of_eq fun _ _ => rfl

theorem allocate {o : Object} (ho : T.makes o) : Keeps T (EvalM.allocate o) := onHeap (.allocate ho)

theorem writeBinding (env : ObjectId) (b : BindingId) (name : String) (v : Value) :
    Keeps T (EvalM.writeBinding env b name v) :=
  read.bind fun image => tryHeap (.writeBinding image.tree env b name v)

theorem setProperty (target : Value) (name : String) (v : Value) :
    Keeps T (EvalM.onHeap (Heap.setProperty target name v)) := onHeap (.setProperty _ _ _)

theorem newEnvironment (scope : ScopeId) (outer : Enclosure) (this : Option Value) :
    Keeps T (EvalM.newEnvironment scope outer this) :=
  read.bind fun _ => .tryHeap (.newEnvironment _ _ _ _)

end EvalM.Keeps

/-- Every action but reaching a definition keeps to the relation, if the objects that it
adds may be made. -/
theorem Action.keeps (T : Heap.EvalRelation) (a : Action)
    (ha : ∀ node env, a ≠ .instantiate node env) (hmakes : ∀ o, a = .allocate o → T.makes o) :
    EvalM.Keeps T a.perform := by
  cases a with
  | readIdentifier env i =>
    rw [Action.perform, EvalM.readIdentifier]
    cases i.resolution with
    | binding b => exact .ask _
    | «global» => exact .ask _
    | unresolved => exact .fail _
  | readThis env provider =>
    cases provider with
    | none => exact .pure _
    | some provider => exact (EvalM.Keeps.ask _).bind fun _ => .pure _
  | assign env i v =>
    rw [Action.perform, EvalM.assign]
    cases i.resolution with
    | binding b => exact .writeBinding _ _ _ _
    | «global» => exact EvalM.Keeps.read.bind fun _ => .setProperty _ _ _
    | unresolved => exact .fail _
  | writeBinding env b name v => exact .writeBinding _ _ _ _
  | newEnvironment scope outer this => exact .newEnvironment _ _ _
  | allocate o => exact .allocate (hmakes o rfl)
  | getProperty target name => exact .ask _
  | setProperty target name v => exact .setProperty _ _ _
  | instantiate node env => exact absurd rfl (ha node env)
  | callee v =>
    rw [Action.perform, EvalM.callee]
    cases v.object? with
    | none => exact .fail _
    | some id =>
      refine (EvalM.Keeps.ask _).bind fun o => ?_
      split
      · exact .pure _
      · exact .fail _
  | definition f =>
    refine EvalM.Keeps.read.bind fun image => ?_
    split
    · exact .pure _
    · exact .fail _

/-! ## Steps that leave the caches alone -/

def EvalM.SparesCaches {α : Type} (x : EvalM α) : Prop := ∀ image m,
  (x image m).2.registry = m.registry ∧ m.heap.Spares m.heap.IsPart (x image m).2.heap

theorem EvalM.Keeps.sparesCaches {α : Type} {x : EvalM α} (hx : x.Keeps .sparing) :
    x.SparesCaches := hx

/-- Every action but reaching a definition leaves the caches alone. -/
theorem Action.sparesCaches (a : Action) (ha : ∀ node env, a ≠ .instantiate node env) :
    EvalM.SparesCaches a.perform := (a.keeps .sparing ha fun _ _ => trivial).sparesCaches

end ClosureCache
