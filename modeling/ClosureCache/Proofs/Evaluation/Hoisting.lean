/-
Hoisting the functions of a body.

An environment has a place for every binding of its scope, and a write from there puts a
value in that place and in no other.  Hoisting reaches the definitions of the function
statements in a body one after the other and writes what each gives under its name, so that
in the end every name has the function of the last statement with the name.  This needs that
the names are bound in the scope of the body.  Resolution binds them so, unless the definition
is a function expression: such a name is bound a second time, inside of the function.
-/
import ClosureCache.Proofs.Evaluation.PrivateCells
import ClosureCache.Proofs.Program.Bodies

namespace ClosureCache

/-! ## Places of bindings -/

/-- An environment has a place for every binding of its scope: a slot and, if the binding is
kept in a cell, a cell of the heap that is in no other slot. -/
structure Environment.HasPlaces (tree : ScopeTree) (h : Heap) (e : Environment) : Prop where
  slot : ∀ b d, tree.binding? b = some d → d.scope = e.scope → d.slot < e.slots.size
  cell : ∀ b d, tree.binding? b = some d → d.scope = e.scope → d.storage = .cell →
    ∃ c contents, e.HoldsCell tree b c ∧ h.cellContents c = .ok contents
  one : ∀ b b' c, e.HoldsCell tree b c → e.HoldsCell tree b' c → b = b'

/-- A value is in the place that an environment has for a binding. -/
inductive Heap.Stores (tree : ScopeTree) (h : Heap) (env : ObjectId) (b : BindingId)
    (v : Value) : Prop
  | slot {e : Environment} {d : Binding} : h.environment env = .ok e →
    tree.binding? b = some d → d.scope = e.scope → d.storage = .slot →
    e.slots[d.slot]? = some (some v) → Stores tree h env b v
  | cell {e : Environment} {c : ObjectId} : h.environment env = .ok e →
    e.HoldsCell tree b c → h.cellContents c = .ok (some v) → Stores tree h env b v

/-- A value has been put in the place of one binding, and the others have their values. -/
structure Heap.Puts (tree : ScopeTree) (env : ObjectId) (b : BindingId) (v : Value)
    (h h' : Heap) : Prop where
  environment : ∀ e, h.environment env = .ok e →
    ∃ e', h'.environment env = .ok e' ∧ e'.scope = e.scope ∧ e'.HasPlaces tree h'
  stored : h'.Stores tree env b v
  others : ∀ b' v', b' ≠ b → h.Stores tree env b' v' → h'.Stores tree env b' v'

section Places

variable {tree : ScopeTree} {h h' : Heap} {env : ObjectId} {e : Environment} {b : BindingId}
  {d : Binding} {v : Value}

/-- Where no environment and no cell changes, everything stays in its place. -/
theorem Environment.HasPlaces.of_object (hh : e.HasPlaces tree h)
    (hkeep : ∀ x o, h.object x = .ok o → o.isPart = false → h'.object x = .ok o) :
    e.HasPlaces tree h' := by
  refine ⟨hh.slot, fun b d hd hscope hcell => ?_, hh.one⟩
  obtain ⟨c, contents, hholds, hc⟩ := hh.cell b d hd hscope hcell
  exact ⟨c, contents, hholds, Heap.cellContents_eq_ok.2
    (hkeep c _ (Heap.cellContents_eq_ok.1 hc) rfl)⟩

namespace Heap

theorem Stores.of_object (hs : h.Stores tree env b v)
    (hkeep : ∀ x o, h.object x = .ok o → o.isPart = false → h'.object x = .ok o) :
    h'.Stores tree env b v := by
  cases hs with
  | slot he hd hscope hslot hv =>
    exact .slot (environment_eq_ok.2 (hkeep _ _ (environment_eq_ok.1 he) rfl)) hd hscope hslot hv
  | cell he hc hv =>
    exact .cell (environment_eq_ok.2 (hkeep _ _ (environment_eq_ok.1 he) rfl)) hc
      (cellContents_eq_ok.2 (hkeep _ _ (cellContents_eq_ok.1 hv) rfl))

/-- An environment is no cell. -/
theorem ne_of_cellContents {c : ObjectId} {contents : Option Value}
    (he : h.environment env = .ok e) (hc : h.cellContents c = .ok contents) : c ≠ env := by
  rintro rfl
  have ho := environment_eq_ok.1 he
  rw [cellContents_eq_ok.1 hc] at ho
  cases ho

/-- Writing the slot of a binding that is kept in one. -/
theorem puts_slot (ht : tree.Proper) (he : h.environment env = .ok e) (hh : e.HasPlaces tree h)
    (hd : tree.binding? b = some d) (hscope : d.scope = e.scope) (hslot : d.storage = .slot) :
    h.Puts tree env b v (h.setObject env (.environment (e.write d.slot v))) := by
  have hin := contains_of_environment he
  have henv : Heap.environment (h.setObject env (.environment (e.write d.slot v))) env =
      .ok (e.write d.slot v) := environment_eq_ok.2 (object_setObject_self _ hin)
  have hcontents : ∀ c contents, h.cellContents c = .ok contents →
      Heap.cellContents (h.setObject env (.environment (e.write d.slot v))) c = .ok contents :=
    fun c contents hc => by
      rw [cellContents_eq_ok, object_setObject_of_ne _ (ne_of_cellContents he hc)]
      exact cellContents_eq_ok.1 hc
  -- the slots of the other bindings of the scope are others
  have hother : ∀ b' d', tree.binding? b' = some d' → d'.scope = e.scope → b' ≠ b →
      (e.write d.slot v).slots[d'.slot]? = e.slots[d'.slot]? := fun b' d' hd' hscope' hne => by
    rw [e.write_slots, if_neg]
    rintro ⟨heq, -⟩
    exact hne (ht.eq_of_slot hd' hd (hscope'.trans hscope.symm) heq.symm)
  have hholds : ∀ {b' c}, (e.write d.slot v).HoldsCell tree b' c ↔ e.HoldsCell tree b' c :=
    (e.resembles_write d.slot v).holdsCell_iff fun b' d' hd' hscope' hcell => by
      refine hother b' d' hd' hscope' ?_
      rintro rfl
      obtain rfl := Option.some.inj (hd.symm.trans hd')
      cases hslot.symm.trans hcell
  refine ⟨fun e₀ he₀ => ?_, ?_, fun b' v' hne hs => ?_⟩
  · obtain rfl := Except.ok.inj (he.symm.trans he₀)
    refine ⟨_, henv, rfl, fun b' d' hd' hscope' => ?_, fun b' d' hd' hscope' hcell => ?_,
      fun b' b'' c hc hc' => hh.one b' b'' c (hholds.1 hc) (hholds.1 hc')⟩
    · rw [(e.resembles_write d.slot v).size]
      exact hh.slot b' d' hd' hscope'
    · obtain ⟨c, contents, hc, hcell⟩ := hh.cell b' d' hd' hscope' hcell
      exact ⟨c, contents, hholds.2 hc, hcontents c contents hcell⟩
  · refine .slot henv hd hscope hslot ?_
    rw [e.write_slots, if_pos ⟨rfl, hh.slot b d hd hscope⟩]
  · cases hs with
    | slot he₀ hd' hscope' hslot' hv =>
      obtain rfl := Except.ok.inj (he.symm.trans he₀)
      exact .slot henv hd' hscope' hslot' ((hother b' _ hd' hscope' hne).trans hv)
    | cell he₀ hc hv =>
      obtain rfl := Except.ok.inj (he.symm.trans he₀)
      exact .cell henv (hholds.2 hc) (hcontents _ _ hv)

/-- Writing the cell of a binding that is kept in one. -/
theorem puts_cell (he : h.environment env = .ok e) (hh : e.HasPlaces tree h) {c : ObjectId}
    {contents : Option Value} (hc : e.HoldsCell tree b c)
    (hcell : h.cellContents c = .ok contents) :
    h.Puts tree env b v (h.setObject c (.cell (some v))) := by
  have henv : Heap.environment (h.setObject c (.cell (some v))) env = .ok e := by
    rw [environment_eq_ok, object_setObject_of_ne _ (ne_of_cellContents he hcell).symm]
    exact environment_eq_ok.1 he
  have hself : Heap.cellContents (h.setObject c (.cell (some v))) c = .ok (some v) :=
    cellContents_eq_ok.2 (object_setObject_self _ (contains_of_object (cellContents_eq_ok.1 hcell)))
  have hother : ∀ c' contents', c' ≠ c → h.cellContents c' = .ok contents' →
      Heap.cellContents (h.setObject c (.cell (some v))) c' = .ok contents' :=
    fun c' contents' hne hc' => by
      rw [cellContents_eq_ok, object_setObject_of_ne _ hne]
      exact cellContents_eq_ok.1 hc'
  refine ⟨fun e₀ he₀ => ?_, .cell henv hc hself, fun b' v' hne hs => ?_⟩
  · obtain rfl := Except.ok.inj (he.symm.trans he₀)
    refine ⟨e, henv, rfl, hh.slot, fun b' d' hd' hscope' hkept => ?_, hh.one⟩
    obtain ⟨c', contents', hc', hcell'⟩ := hh.cell b' d' hd' hscope' hkept
    rcases eq_or_ne c' c with rfl | hne
    · exact ⟨c', _, hc', hself⟩
    · exact ⟨c', contents', hc', hother c' contents' hne hcell'⟩
  · cases hs with
    | slot he₀ hd' hscope' hslot' hv =>
      obtain rfl := Except.ok.inj (he.symm.trans he₀)
      exact .slot henv hd' hscope' hslot' hv
    | @cell _ c' he₀ hc' hv =>
      obtain rfl := Except.ok.inj (he.symm.trans he₀)
      refine .cell henv hc' (hother c' _ ?_ hv)
      rintro rfl
      exact hne (hh.one b' b c' hc' hc)

/-- From an environment of its scope a binding is written in its place. -/
theorem writeBinding_puts (ht : tree.Proper) (he : h.environment env = .ok e)
    (hh : e.HasPlaces tree h) (hd : tree.binding? b = some d) (hscope : d.scope = e.scope)
    (name : String) : ∃ h', Heap.writeBinding tree env b name v h = (.ok (), h') ∧
      h.Puts tree env b v h' := by
  have hask : HeapM.ask (fun _ => (tree.binding b).mapError EvalError.scope) h = (.ok d, h) := by
    rw [HeapM.ask_apply, ScopeTree.binding_eq_ok.2 hd]
    rfl
  have hlook : HeapM.ask (fun h => h.locate tree env b) h =
      (.ok (some (.slot env d.slot)), h) := by
    rw [HeapM.ask_apply, locate_of_scope he hd hscope]
  rw [writeBinding, HeapM.bind_of_ok hask, HeapM.bind_of_ok hlook]
  dsimp only
  cases hstorage : d.storage with
  | slot =>
    refine ⟨_, HeapM.mapError_of_ok ?_, puts_slot ht he hh hd hscope hstorage⟩
    rw [setEnvironmentSlot, he]
    exact if_pos (hh.slot b d hd hscope)
  | cell =>
    obtain ⟨c, contents, hc, hcell⟩ := hh.cell b d hd hscope hstorage
    have hread : HeapM.ask (fun h => (h.contentsAt (.slot env d.slot)).mapError EvalError.heap) h =
        (.ok (some (.object c)), h) := by
      obtain ⟨d', hd', -, -, hslot⟩ := hc
      obtain rfl := Option.some.inj (hd.symm.trans hd')
      have hcontents : h.contentsAt (.slot env d.slot) = .ok (some (.object c)) :=
        slotAt_eq_ok.2 ⟨e, he, hslot⟩
      rw [HeapM.ask_apply, hcontents]
      rfl
    dsimp only
    rw [HeapM.bind_of_ok hread]
    refine ⟨_, HeapM.mapError_of_ok ?_, puts_cell he hh hc hcell⟩
    rw [setCellContents, hcell]

end Heap

end Places

/-! ## Hoisting -/

def Statement.Names (name : String) (stmt : Statement) : Prop :=
  ∃ node i, stmt = .function node ∧ node.name = some i ∧ i.name = name

/-- An environment waits for the functions of a body with the scope `s`. -/
structure Machine.Awaits (image : Image) (s : ScopeId) (env : ObjectId) (m : Machine) : Prop where
  environment : ∃ e, m.heap.environment env = .ok e ∧ e.scope = s ∧ e.HasPlaces image.tree m.heap

/-- The names of the function statements among some statements are bound in a scope. -/
def BindsFunctions (tree : ScopeTree) (s : ScopeId) (l : List Statement) : Prop :=
  ∀ node i, .function node ∈ l → node.name = some i → ∃ b d, tree.lookupLocal s i.name = some b ∧
    tree.binding? b = some d ∧ d.scope = s ∧ i.resolution = .binding b

/-- References to a binding that lead to its place in an environment, through environments
further out or through the captures of a shared function, read the value. -/
def Machine.Reads (image : Image) (env : ObjectId) (b : BindingId) (v : Value)
    (m : Machine) : Prop :=
  ∃ d, image.tree.binding? b = some d ∧
    m.heap.locate image.tree env b = .ok (some (.slot env d.slot)) ∧
    ∀ y i location, i.resolution = .binding b →
      m.heap.locate image.tree y b = .ok (some location) →
      m.heap.contentsAt location = m.heap.contentsAt (.slot env d.slot) →
      EvalM.readIdentifier y i image m = (.ok v, m)

/-- What hoisting the functions of some statements does, which comes to a result on the machine
at the end in some moments. -/
structure Hoists (image : Image) (s : ScopeId) (env : ObjectId) (l : List Statement)
    (m : Machine) (result : Except (Stop EvalError) Unit) (m' : Machine)
    (moments : List Moment) : Prop where
  awaits : m'.Awaits image s env
  /-- Names that none of the statements has keep their values. -/
  kept : result = .ok () → ∀ b v name, image.tree.lookupLocal s name = some b →
    (∀ stmt ∈ l, ¬ stmt.Names name) → m.heap.Stores image.tree env b v →
    m'.heap.Stores image.tree env b v
  /-- Each name has what its last statement gave. -/
  stored : result = .ok () → ∀ earlier node later i b, l = earlier ++ .function node :: later →
    node.name = some i → image.tree.lookupLocal s i.name = some b →
    (∀ stmt ∈ later, ¬ stmt.Names i.name) → ∃ v before after,
      ⟨.instantiate node env, before, .ok v, after⟩ ∈ moments ∧
        m'.heap.Stores image.tree env b v
  failed : ∀ reason, result = .error reason → ∃ node before, .function node ∈ l ∧
    ⟨.instantiate node env, before, .error reason, m'⟩ ∈ moments

section Hoisting

variable {image : Image} {s : ScopeId} {env : ObjectId} {m : Machine}

/-! ### Single actions -/

theorem Course.act_of_ok {α : Type} (action : Action) (next : action.Answer → Course α)
    {answer : action.Answer} {m₁ : Machine} (h : action.perform image m = (.ok answer, m₁)) :
    (act action next).run image m = (next answer).run image m₁ ∧
      (act action next).moments image m =
        ⟨action, m, .ok answer, m₁⟩ :: (next answer).moments image m₁ := by
  rw [run_act, moments, Action.moment, h]
  exact ⟨rfl, rfl⟩

theorem Course.act_of_error {α : Type} (action : Action) (next : action.Answer → Course α)
    {reason : Stop EvalError} {m₁ : Machine} (h : action.perform image m = (.error reason, m₁)) :
    (act action next).run image m = (.error reason, m₁) ∧
      (act action next).moments image m = [⟨action, m, .error reason, m₁⟩] := by
  rw [run_act, moments, Action.moment, h]
  exact ⟨rfl, rfl⟩

/-- Reaching a definition changes no environment and no cell. -/
theorem Machine.Awaits.instantiate (hm : m.Awaits image s env) (node : FunctionNode) :
    (EvalM.instantiate node env image m).2.Awaits image s env ∧ ∀ b v,
      m.heap.Stores image.tree env b v →
        (EvalM.instantiate node env image m).2.heap.Stores image.tree env b v := by
  obtain ⟨e, he, hscope, hh⟩ := hm.environment
  have hkeep := (EvalM.instantiate_adds image m node env).object
  refine ⟨⟨e, ?_, hscope, hh.of_object hkeep⟩,
    fun b v hs => hs.of_object hkeep⟩
  exact Heap.environment_eq_ok.2 (hkeep _ _ (Heap.environment_eq_ok.1 he) rfl)

/-- Writing a binding of the scope succeeds. -/
theorem Machine.Awaits.writeBinding (hm : m.Awaits image s env) (ht : image.tree.Proper)
    {b : BindingId} {d : Binding} (hd : image.tree.binding? b = some d) (hscope : d.scope = s)
    (name : String) (v : Value) : ∃ m', EvalM.writeBinding env b name v image m = (.ok (), m') ∧
      m'.Awaits image s env ∧ m.heap.Puts image.tree env b v m'.heap := by
  obtain ⟨e, he, rfl, hh⟩ := hm.environment
  obtain ⟨h', hwrite, hputs⟩ := Heap.writeBinding_puts (v := v) ht he hh hd hscope name
  have hrun : EvalM.writeBinding env b name v image m = (.ok (), { m with
      heap := h' }) := by
    rw [EvalM.writeBinding, EvalM.bind_of_ok EvalM.read_apply, EvalM.tryHeap_apply, hwrite]
    rfl
  exact ⟨_, hrun, ⟨hputs.environment e he⟩, hputs⟩

/-! ### One statement after another -/

section Statements

variable {rest : List Statement} {node : FunctionNode} {i : Identifier} {b : BindingId}

theorem Course.hoistFunctions_function (env : ObjectId) (node : FunctionNode)
    (rest : List Statement) :
    ∃ next, hoistFunctions env (.function node :: rest) = act (.instantiate node env) next :=
  ⟨_, by rw [hoistFunctions]; rfl⟩

theorem Course.hoistFunctions_unnamed (hname : node.name = none) :
    hoistFunctions env (.function node :: rest) =
      act (.instantiate node env) fun _ => hoistFunctions env rest := by
  rw [hoistFunctions, hname]
  rfl

theorem Course.hoistFunctions_named (hname : node.name = some i)
    (hb : i.resolution = .binding b) :
    hoistFunctions env (.function node :: rest) =
      act (.instantiate node env) fun v =>
        act (.writeBinding env b i.name v) fun _ => hoistFunctions env rest := by
  have hwrite : ∀ v, writeBound env i v = writeBinding env b i.name v := fun v => by
    rw [writeBound, Identifier.binding?, hb]
  rw [hoistFunctions, hname]
  exact congrArg (act _) (funext fun v => congrArg (· >>= fun _ => hoistFunctions env rest)
    (hwrite v))

theorem hoists_nil (hm : m.Awaits image s env) : Hoists image s env [] m (.ok ()) m [] where
  awaits := hm
  kept _ _ _ _ _ _ hs := hs
  stored _ _ _ _ _ _ hl := absurd hl.symm (List.append_ne_nil_of_right_ne_nil _ nofun)
  failed _ hresult := nomatch hresult

variable {result : Except (Stop EvalError) Unit} {m₁ m' : Machine} {moments : List Moment}

/-- One more statement before others. -/
theorem Hoists.cons (hrest : Hoists image s env rest m₁ result m' moments) {stmt : Statement}
    (new : List Moment)
    (hkept : ∀ b v name, image.tree.lookupLocal s name = some b → ¬ stmt.Names name →
      m.heap.Stores image.tree env b v → m₁.heap.Stores image.tree env b v)
    (hstored : ∀ node i b, stmt = .function node → node.name = some i →
      image.tree.lookupLocal s i.name = some b → ∃ v before after,
        ⟨.instantiate node env, before, .ok v, after⟩ ∈ new ∧
          m₁.heap.Stores image.tree env b v) :
    Hoists image s env (stmt :: rest) m result m' (new ++ moments) where
  awaits := hrest.awaits
  kept hok b v name hb hnone hs :=
    hrest.kept hok b v name hb (fun other hmem => hnone other (List.mem_cons_of_mem _ hmem))
      (hkept b v name hb (hnone stmt List.mem_cons_self) hs)
  stored hok earlier node later i b hl hname hb hlast := by
    cases earlier with
    | nil =>
      obtain ⟨rfl, rfl⟩ := List.cons.inj hl
      obtain ⟨v, before, after, hmem, hs⟩ := hstored node i b rfl hname hb
      exact ⟨v, before, after, List.mem_append_left _ hmem, hrest.kept hok b v i.name hb hlast hs⟩
    | cons _ earlier =>
      obtain ⟨-, hl⟩ := List.cons.inj hl
      obtain ⟨v, before, after, hmem, hs⟩ :=
        hrest.stored hok earlier node later i b hl hname hb hlast
      exact ⟨v, before, after, List.mem_append_right _ hmem, hs⟩
  failed reason hresult := by
    obtain ⟨node, before, hnode, hmem⟩ := hrest.failed reason hresult
    exact ⟨node, before, List.mem_cons_of_mem _ hnode, List.mem_append_right _ hmem⟩

/-- A definition that cannot be reached ends it. -/
theorem hoists_refused (hm : m.Awaits image s env) {reason : Stop EvalError}
    (hrun : EvalM.instantiate node env image m = (.error reason, m')) :
    Hoists image s env (.function node :: rest) m (.error reason) m'
      [⟨.instantiate node env, m, .error reason, m'⟩] where
  awaits := by
    have h := (hm.instantiate node).1
    rwa [hrun] at h
  kept hok := nomatch hok
  stored hok := nomatch hok
  failed other hresult := by
    obtain rfl := Except.error.inj hresult
    exact ⟨node, m, List.mem_cons_self, List.mem_singleton.2 rfl⟩

section Reached

variable {v : Value} (hm : m.Awaits image s env)
  (hinst : EvalM.instantiate node env image m = (.ok v, m₁))

include hm hinst

/-- What a definition without a name gives goes nowhere. -/
theorem Hoists.unnamed (hname : node.name = none)
    (hrest : Hoists image s env rest m₁ result m' moments) :
    Hoists image s env (.function node :: rest) m result m'
      (⟨.instantiate node env, m, .ok v, m₁⟩ :: moments) := by
  have hkeep := (hm.instantiate node).2
  rw [hinst] at hkeep
  refine hrest.cons [_] (fun b v _ _ _ => hkeep b v) fun node' i b heq hi => ?_
  obtain rfl := Statement.function.inj heq
  cases hname.symm.trans hi

/-- What a definition with a name gives is put in the place of the name. -/
theorem Hoists.named {d : Binding} {m₂ : Machine} (hname : node.name = some i)
    (hb : image.tree.lookupLocal s i.name = some b) (hd : image.tree.binding? b = some d)
    (hputs : m₁.heap.Puts image.tree env b v m₂.heap)
    (hrest : Hoists image s env rest m₂ result m' moments) :
    Hoists image s env (.function node :: rest) m result m'
      (⟨.instantiate node env, m, .ok v, m₁⟩ ::
        ⟨.writeBinding env b i.name v, m₁, .ok (), m₂⟩ :: moments) := by
  have hkeep := (hm.instantiate node).2
  rw [hinst] at hkeep
  refine hrest.cons [_, _] (fun b' v' name hb' hother hs => ?_) fun node' i' b' heq hi hb' => ?_
  · refine hputs.others b' v' ?_ (hkeep b' v' hs)
    -- one binding does not have two names
    rintro rfl
    refine hother ⟨node, i, rfl, hname, ?_⟩
    rw [← image.tree.name_of_lookupLocal hb hd, image.tree.name_of_lookupLocal hb' hd]
  · obtain rfl := Statement.function.inj heq
    obtain rfl := Option.some.inj (hname.symm.trans hi)
    obtain rfl := Option.some.inj (hb.symm.trans hb')
    exact ⟨v, m, m₁, List.mem_cons_self, hputs.stored⟩

end Reached

end Statements

/-- Hoisting goes from one statement to the next and writes what their definitions give.  It
ends early only where a definition cannot be reached. -/
theorem Course.hoistFunctions_hoists (ht : image.tree.Proper) {l : List Statement}
    (hm : m.Awaits image s env) (hl : BindsFunctions image.tree s l) :
    Hoists image s env l m ((hoistFunctions env l).run image m).1
      ((hoistFunctions env l).run image m).2 ((hoistFunctions env l).moments image m) := by
  induction l generalizing m with
  | nil => exact hoists_nil hm
  | cons stmt rest ih =>
    have hrest : BindsFunctions image.tree s rest := fun node i hmem =>
      hl node i (List.mem_cons_of_mem _ hmem)
    cases stmt with
    | function node =>
      have hafter := (hm.instantiate node).1
      cases hinst : EvalM.instantiate node env image m with
      | mk result m₁ =>
        rw [hinst] at hafter
        cases result with
        | error reason =>
          obtain ⟨next, hnext⟩ := hoistFunctions_function env node rest
          obtain ⟨hrun, hmoments⟩ := act_of_error (.instantiate node env) next hinst
          rw [hnext, hrun, hmoments]
          exact hoists_refused hm hinst
        | ok v =>
          cases hname : node.name with
          | none =>
            obtain ⟨hrun, hmoments⟩ :=
              act_of_ok (.instantiate node env) (fun _ => hoistFunctions env rest) hinst
            rw [hoistFunctions_unnamed hname, hrun, hmoments]
            exact (ih hafter hrest).unnamed hm hinst hname
          | some i =>
            obtain ⟨b, d, hb, hd, hscope, hresolution⟩ := hl node i List.mem_cons_self hname
            obtain ⟨m₂, hwrite, hafter₂, hputs⟩ := hafter.writeBinding ht hd hscope i.name v
            obtain ⟨hrun, hmoments⟩ := act_of_ok (.instantiate node env)
              (fun v => act (.writeBinding env b i.name v) fun _ => hoistFunctions env rest) hinst
            obtain ⟨hrun₂, hmoments₂⟩ :=
              act_of_ok (.writeBinding env b i.name v) (fun _ => hoistFunctions env rest) hwrite
            rw [hoistFunctions_named hname hresolution, hrun, hmoments, hrun₂, hmoments₂]
            exact (ih hafter₂ hrest).named hm hinst hname hb hd hputs
    | _ => exact (ih hm hrest).cons [] (fun _ _ _ _ _ hs => hs) (fun _ _ _ heq => nomatch heq)

/-- What is in the place of a binding is read. -/
theorem Heap.Stores.reads {b : BindingId} {v : Value} (hs : m.heap.Stores image.tree env b v) :
    m.Reads image env b v := by
  suffices hread : ∃ d, image.tree.binding? b = some d ∧
      m.heap.locate image.tree env b = .ok (some (.slot env d.slot)) ∧
      ∀ y name location, m.heap.locate image.tree y b = .ok (some location) →
        m.heap.contentsAt location = m.heap.contentsAt (.slot env d.slot) →
        m.heap.readBinding image.tree y b name = .ok v by
    obtain ⟨d, hd, hlocate, hread⟩ := hread
    refine ⟨d, hd, hlocate, fun y i location hi hlocated hsame => ?_⟩
    rw [EvalM.readIdentifier, hi]
    refine (EvalM.ask_apply _).trans ?_
    rw [hread y i.name location hlocated hsame]
    rfl
  cases hs with
  | @slot e d he hd hscope hslot hv =>
    refine ⟨d, hd, Heap.locate_of_scope he hd hscope, fun y name location hlocated hsame => ?_⟩
    have hraw : m.heap.contentsAt (.slot env d.slot) = .ok (some v) :=
      Heap.slotAt_eq_ok.2 ⟨e, he, hv⟩
    rw [Heap.readBinding, hlocated]
    dsimp only [bind, Except.bind]
    rw [hsame, hraw, ScopeTree.binding_eq_ok.2 hd]
    dsimp only [Except.mapError_ok]
    rw [hslot]
    rfl
  | @cell e c he hc hv =>
    obtain ⟨d, hd, hscope, hcell, hslot⟩ := hc
    refine ⟨d, hd, Heap.locate_of_scope he hd hscope, fun y name location hlocated hsame => ?_⟩
    have hraw : m.heap.contentsAt (.slot env d.slot) = .ok (some (.object c)) :=
      Heap.slotAt_eq_ok.2 ⟨e, he, hslot⟩
    rw [Heap.readBinding, hlocated]
    dsimp only [bind, Except.bind]
    rw [hsame, hraw, ScopeTree.binding_eq_ok.2 hd]
    dsimp only [Except.mapError_ok]
    rw [hcell]
    dsimp only
    rw [hv]
    rfl

end Hoisting

/-! ## Runs -/

def Environment.HasSlots (tree : ScopeTree) (e : Environment) : Prop :=
  ∀ b d, tree.binding? b = some d → d.scope = e.scope → d.slot < e.slots.size

section Rooms

variable {tree : ScopeTree} {e e' : Environment}

theorem Environment.Initial.hasSlots (ht : tree.Proper) {s : ScopeId} (he : e.Initial tree s) :
    e.HasSlots tree := by
  intro b d hd hscope
  obtain ⟨raw, hraw, -⟩ := he.slot ht hd (hscope.trans he.scope)
  exact (Array.getElem?_eq_some_iff.1 hraw).1

theorem Environment.Resembles.hasSlots_iff (h : e.Resembles e') :
    e'.HasSlots tree ↔ e.HasSlots tree := by
  rw [Environment.HasSlots, Environment.HasSlots, h.scope, h.size]

/-- The environment that loading makes has slots for the bindings at top level. -/
theorem Session.hasSlots_of_load {p : Program} {config : Config} {s : Session}
    (hload : Session.load p config = .ok s) {x : ObjectId}
    (he : s.machine.heap.environment x = .ok e) : e.HasSlots s.image.tree := by
  obtain ⟨ht, -⟩ := confined_of_load hload
  obtain ⟨-, -, hone⟩ := Session.furnished_of_load hload
  obtain ⟨resolved, hloaded⟩ := Session.loaded hload
  obtain ⟨-, h₀, h₁, -, hnew, hheap⟩ := setUpGlobals_eq_ok hloaded.globals
  obtain ⟨-, e₀, he₀, hinitial⟩ := Heap.newEnvironment_eq_ok hnew
  rw [(hone x e he).1, Heap.environment_eq_ok, hheap, Heap.object_root,
    ← Heap.environment_eq_ok] at he
  obtain rfl := Except.ok.inj (he.symm.trans he₀)
  exact (hloaded.tree ▸ hinitial).hasSlots ht

end Rooms

section Runs

variable {image : Image} {past : List Moment} {m : Machine}

/-- The moments of a course are what its actions do. -/
theorem Course.moments_real {α : Type} (c : Course α) (m : Machine) :
    ∀ x ∈ c.moments image m, x = x.action.moment image x.before := by
  induction c generalizing m with
  | done a => exact fun x hx => absurd hx List.not_mem_nil
  | stop reason => exact fun x hx => absurd hx List.not_mem_nil
  | act action next ih =>
    intro x hx
    rcases mem_moments_act hx with rfl | ⟨answer, m', -, hx⟩
    · rfl
    · exact ih answer m' x hx

/-- So are the moments of a run. -/
theorem DiscreetRun.moments_real {s₀ s : Session} (hrun : DiscreetRun s₀ s past) :
    ∀ x ∈ past, x = x.action.moment s₀.image x.before := by
  induction hrun with
  | start => exact fun x hx => absurd hx List.not_mem_nil
  | @step s past r hrun _ ih =>
    refine List.forall_mem_append.2 ⟨ih, ?_⟩
    rw [← hrun.image_eq]
    cases r with
    | act a =>
      show ∀ x ∈ a.moments s, _
      rw [HostAction.moments]
      cases hcourse : a.course? s with
      | none => exact fun x hx => absurd hx List.not_mem_nil
      | some start =>
        obtain ⟨c, m⟩ := start
        exact c.moments_real m
    | _ => exact fun x hx => absurd hx List.not_mem_nil

/-- In every heap of a run environments have slots for the bindings of their scopes: they are
made so, and keep their size. -/
theorem CellHistory.hasSlots {first : Heap} {heaps : List Heap}
    (hh : CellHistory image first past heaps m) (ht : image.tree.Proper)
    (hreal : ∀ x ∈ past, x = x.action.moment image x.before)
    (hfirst : ∀ x e, first.environment x = .ok e → e.HasSlots image.tree) {h : Heap}
    (hmem : h ∈ heaps) {x : ObjectId} {e : Environment} (he : h.environment x = .ok e) :
    e.HasSlots image.tree := by
  have hsame : ∀ h' ∈ heaps, ∀ e', h'.environment x = .ok e' →
      (e.HasSlots image.tree ↔ e'.HasSlots image.tree) := by
    intro h' hmem' e' he'
    rcases hh.lasts_or hmem hmem' with hl | hl
    · obtain ⟨e₁, he₁, hsame, -⟩ := hl.environment x e (Heap.contains_of_environment he') he
      obtain rfl := Except.ok.inj (he'.symm.trans he₁)
      exact hsame.hasSlots_iff.symm
    · obtain ⟨e₁, he₁, hsame, -⟩ := hl.environment x e' (Heap.contains_of_environment he) he'
      obtain rfl := Except.ok.inj (he.symm.trans he₁)
      exact hsame.hasSlots_iff
  rcases hh.opened h hmem x e he with ⟨e₀, he₀⟩ | ⟨a, ha, hopens⟩
  · exact (hsame first hh.first_mem e₀ he₀).2 (hfirst x e₀ he₀)
  · obtain ⟨scope, outer, this, before, after, rfl⟩ := hopens.action
    obtain ⟨-, -, hresult, hafter⟩ := Moment.mk.inj (hreal _ ha)
    have hrun : (Action.newEnvironment scope outer this).perform image before = (.ok x, after) :=
      Prod.ext (eq_of_heq hresult).symm hafter.symm
    obtain ⟨-, e', he', hinitial⟩ := Heap.newEnvironment_eq_ok (Action.newEnvironment_eq_ok hrun)
    exact (hsame after.heap (hh.recorded _ ha).2 e' he').2 (hinitial.hasSlots ht)

/-- Before every moment of a run the environments wait for functions. -/
theorem DiscreetRun.awaits {p : Program} {config : Config} {s₀ s : Session}
    (hload : Session.load p config = .ok s₀) (hrun : DiscreetRun s₀ s past) {x : Moment}
    (hx : x ∈ past) {env : ObjectId} {e : Environment}
    (he : x.before.heap.environment env = .ok e) :
    x.before.Awaits s₀.image e.scope env := by
  obtain ⟨ht, hc⟩ := confined_of_load hload
  have hreal := hrun.moments_real
  obtain ⟨heaps, hrecorded⟩ := hrun.recorded
  have hh := hrecorded.cellHistory ht (cellHistory_of_load hload)
  rw [hrun.image_eq] at hh
  have hcelled := hh.celled _ (hh.recorded x hx).1
  refine ⟨e, he, rfl, ?_, fun b d hd hscope hcell => ?_, (hcelled.furnished env e he).one⟩
  · exact hh.hasSlots ht hreal (fun x e => Session.hasSlots_of_load hload) (hh.recorded x hx).1 he
  · obtain ⟨c, ⟨e', contents, he', hholds, hcontents⟩, -⟩ :=
      hcelled.furnished.exists_holdsCell ht hcelled.sealed he hd hscope hcell
    obtain rfl := Except.ok.inj (he.symm.trans he')
    exact ⟨c, contents, hholds, hcontents⟩

end Runs

/-! ## Function statements -/

/-- What hoisting the functions of a body in an environment comes to. -/
structure Hoisted (image : Image) (env : ObjectId) (l : List Statement) (m : Machine) : Prop where
  /-- If it ends well, references to a name read the function that the last statement with the
  name has given. -/
  read : ∀ m', (Course.hoistFunctions env l).run image m = (.ok (), m') →
    ∀ earlier node later i, l = earlier ++ .function node :: later → node.name = some i →
      (∀ stmt ∈ later, ¬ stmt.Names i.name) → ∃ b v before after, i.resolution = .binding b ∧
        ⟨.instantiate node env, before, .ok v, after⟩ ∈
          (Course.hoistFunctions env l).moments image m ∧ m'.Reads image env b v
  /-- If it fails, it fails in reaching a definition, and not for a name. -/
  failed : ∀ reason m', (Course.hoistFunctions env l).run image m = (.error reason, m') →
    ∃ node before, .function node ∈ l ∧ ⟨.instantiate node env, before, .error reason, m'⟩ ∈
      (Course.hoistFunctions env l).moments image m

/-- What becomes of the function statements of a program. -/
structure Program.PlacesFunctions (p : Program) (r : ResolvedProgram) : Prop where
  /-- Each of them stands in a body. -/
  stands : ∀ node, r.program.Contains (.statement (.function node)) →
    ∃ s l, r.program.Body s l ∧ .function node ∈ l
  /-- The scope of the body holds the name, and the name is bound to what is held there unless
  the definition is a function expression. -/
  bound : ∀ s l node i, r.program.Body s l → .function node ∈ l → node.name = some i →
    ∃ b d, r.tree.lookupLocal s i.name = some b ∧ r.tree.binding? b = some d ∧ d.scope = s ∧
      (i.resolution = .binding b ↔ node.kind ≠ .expression)
  /-- So the functions of a body with no named function expression among its statements are
  hoisted, at any time of a run and in any environment for the body. -/
  hoisted : ∀ config s₀ s past, Session.load p config = .ok s₀ → DiscreetRun s₀ s past →
    ∀ x ∈ past, ∀ env e l, x.before.heap.environment env = .ok e → r.program.Body e.scope l →
      (∀ node i, .function node ∈ l → node.name = some i → node.kind ≠ .expression) →
        Hoisted s₀.image env l x.before

theorem Hoists.hoisted {image : Image} {s : ScopeId} {env : ObjectId} {l : List Statement}
    {m : Machine} (hbinds : BindsFunctions image.tree s l)
    (h : Hoists image s env l m ((Course.hoistFunctions env l).run image m).1
      ((Course.hoistFunctions env l).run image m).2
      ((Course.hoistFunctions env l).moments image m)) : Hoisted image env l m := by
  constructor
  case read =>
    intro m' hrun earlier node later i hl hname hlast
    rw [hrun] at h
    obtain ⟨b, d, hb, -, -, hresolution⟩ := hbinds node i (by simp [hl]) hname
    obtain ⟨v, before, after, hmem, hs⟩ := h.stored rfl earlier node later i b hl hname hb hlast
    exact ⟨b, v, before, after, hresolution, hmem, hs.reads⟩
  case failed =>
    intro reason m' hrun
    rw [hrun] at h
    exact h.failed reason rfl

/-- Function statements are bound and hoisted in the scopes of their bodies, apart from those
whose definition is a function expression with a name. -/
theorem Program.placesFunctions_of_resolve {p : Program} {r : ResolvedProgram}
    (hr : p.resolve = .ok r) : p.PlacesFunctions r := by
  have hresolved := Program.resolved_of_resolve hr
  have hbound : ∀ s l node i, r.program.Body s l → .function node ∈ l → node.name = some i →
      ∃ b d, r.tree.lookupLocal s i.name = some b ∧ r.tree.binding? b = some d ∧ d.scope = s ∧
        (i.resolution = .binding b ↔ node.kind ≠ .expression) := by
    intro s l node i hl hnode hname
    obtain ⟨source, hsource⟩ := hl.elaborates hresolved.body
    exact hsource.functionName hresolved.proper hnode hname
  constructor
  case stands => exact fun node hnode => hnode.exists_body hresolved.body
  case bound => exact hbound
  case hoisted =>
    intro config s₀ s past hload hrun x hx env e l he hl hkind
    obtain ⟨resolved, hloaded⟩ := Session.loaded hload
    obtain rfl := Except.ok.inj (hr.symm.trans hloaded.resolve)
    have hbinds : BindsFunctions s₀.image.tree e.scope l := by
      intro node i hnode hname
      obtain ⟨b, d, hb, hd, hscope, hiff⟩ := hbound e.scope l node i hl hnode hname
      rw [hloaded.tree]
      exact ⟨b, d, hb, hd, hscope, hiff.2 (hkind node i hnode hname)⟩
    have hproper : s₀.image.tree.Proper := hloaded.tree ▸ hresolved.proper
    exact (Course.hoistFunctions_hoists hproper (hrun.awaits hload hx he) hbinds).hoisted hbinds

/-! ## Two programs

In the first one two function declarations at top level refer to each other.  In the second one
a function expression stands as a statement. -/

/-- The definition of a function that gives the value of an expression. -/
def givingFunction (name : String) (kind : FunctionKind) (value : Expression) : FunctionNode :=
  ⟨some ⟨name, .unresolved⟩, kind, .plain, false, [], none, [.returning (some value)],
    ⟨0, 0, 0, 0, 0, 0⟩, none, none, none⟩

def mutualProgram : Program where
  body := [.function (givingFunction "f" .declaration (.identifier ⟨"g", .unresolved⟩)),
    .function (givingFunction "g" .declaration (.identifier ⟨"f", .unresolved⟩))]

theorem isSome_load_mutual :
    (Session.load mutualProgram .deterministic).toOption.isSome = true := by
  decide +kernel

theorem isSome_resolve_mutual : mutualProgram.resolve.toOption.isSome = true := by
  decide +kernel

/-- Both functions are hoisted. -/
theorem placesFunctions_mutual : ∃ r s₀ s past, mutualProgram.resolve = .ok r ∧
    Session.load mutualProgram .deterministic = .ok s₀ ∧ DiscreetRun s₀ s past ∧
      (∃ x ∈ past, ((Course.hoistFunctions s₀.image.globalEnvironment s₀.image.program.body).run
        s₀.image x.before).1.toOption.isSome = true) ∧ mutualProgram.PlacesFunctions r := by
  have hload : Session.load mutualProgram .deterministic =
      .ok ((Session.load mutualProgram .deterministic).toOption.get isSome_load_mutual) :=
    Except.eq_ok_get isSome_load_mutual
  have hresolve : mutualProgram.resolve =
      .ok (mutualProgram.resolve.toOption.get isSome_resolve_mutual) :=
    Except.eq_ok_get isSome_resolve_mutual
  have hrun : DiscreetRun
      ((Session.load mutualProgram .deterministic).toOption.get isSome_load_mutual) _ _ :=
    .step (.act (.run 10)) .start (fun v hv => absurd hv List.not_mem_nil)
  exact ⟨_, _, _, _, hresolve, hload, hrun, by decide +kernel,
    Program.placesFunctions_of_resolve hresolve⟩

def expressionProgram : Program where
  body := [.function (givingFunction "f" .expression (.literal (.number 1)))]

theorem isSome_load_expression :
    (Session.load expressionProgram .deterministic).toOption.isSome = true := by
  decide +kernel

theorem isSome_resolve_expression : expressionProgram.resolve.toOption.isSome = true := by
  decide +kernel

/-- Whether a body begins with a function expression that has a name. -/
def beginsWithExpression : List Statement → Bool
  | .function node :: _ => node.kind = .expression && node.name.isSome
  | _ => false

theorem exists_of_beginsWithExpression {l : List Statement} (h : beginsWithExpression l = true) :
    ∃ node i, .function node ∈ l ∧ node.kind = .expression ∧ node.name = some i := by
  unfold beginsWithExpression at h
  split at h
  · next node rest =>
    obtain ⟨hkind, hname⟩ := Bool.and_eq_true_iff.1 h
    obtain ⟨i, hi⟩ := Option.isSome_iff_exists.1 hname
    exact ⟨node, i, List.mem_cons_self, of_decide_eq_true hkind, hi⟩
  · cases h

/-- Whether evaluation fails because a name has no binding. -/
def failsForName (name : String) {α : Type} : Except (Stop EvalError) α → Bool
  | .error (.error (.reference other)) => other == name
  | _ => false

/-- The name of the function expression is not bound to what the scope of the body holds, and
hoisting fails for want of that binding. -/
theorem not_functionStatements_bound :
    (¬ ∀ (p : Program) (r : ResolvedProgram), p.resolve = .ok r → ∀ s l node i,
      r.program.Body s l → .function node ∈ l → node.name = some i →
        ∃ b, r.tree.lookupLocal s i.name = some b ∧ i.resolution = .binding b) ∧
      ∃ s₀, Session.load expressionProgram .deterministic = .ok s₀ ∧
        failsForName "f" ((Course.hoistFunctions s₀.image.globalEnvironment
          s₀.image.program.body).run s₀.image s₀.machine).1 = true := by
  constructor
  · intro hall
    have hresolve : expressionProgram.resolve =
        .ok (expressionProgram.resolve.toOption.get isSome_resolve_expression) :=
      Except.eq_ok_get isSome_resolve_expression
    obtain ⟨node, i, hnode, hkind, hname⟩ := exists_of_beginsWithExpression
      (l := (expressionProgram.resolve.toOption.get isSome_resolve_expression).program.body)
      (by decide +kernel)
    have hresolved := Program.resolved_of_resolve hresolve
    obtain ⟨b, d, hb, -, -, hiff⟩ :=
      hresolved.body.functionName hresolved.proper hnode hname
    obtain ⟨b', hb', hresolution⟩ := hall _ _ hresolve _ _ node i .top hnode hname
    obtain rfl := Option.some.inj (hb.symm.trans hb')
    exact hiff.1 hresolution hkind
  · exact ⟨_, Except.eq_ok_get isSome_load_expression, by decide +kernel⟩

end ClosureCache
