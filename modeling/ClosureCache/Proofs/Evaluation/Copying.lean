/-
Captures by value.

An instance copies a slot binding that has its value and is neither a `var` nor a function
declaration.  A `let` or `const` with a value keeps it.  Any other such binding was written
on entering its function, before a definition was reached there, and is not written again
unless a `var` initializer has its name.  `Watches` says where such a binding may still be
written: in environments of its scope that are newer than the one that is watched.
-/
import ClosureCache.Proofs.Evaluation.Agreement
import ClosureCache.Proofs.Evaluation.Guarding

namespace ClosureCache

open Heap

/-- A slot of an environment is not written. -/
def Effects.holding (x : ObjectId) (i : Nat) : Effects where
  writes y e e' := y = x → e'.slots[i]? = e.slots[i]?
  opens _ := True
  makes _ := True
  refl _ _ _ := rfl
  trans _ _ _ _ _ h h' hx := (h' hx).trans (h hx)
  opens_of_writes _ _ _ _ _ _ := trivial

namespace Heap

variable {tree : ScopeTree} {h h' : Heap} {x : ObjectId} {i : Nat} {b : BindingId} {d : Binding}

theorem Lasts.slotAt_holding (hl : Lasts (.holding x i) h h') {raw : Option Value}
    (hraw : h.slotAt x i = .ok raw) (hin : h'.contains x = true) : h'.slotAt x i = .ok raw := by
  obtain ⟨e, he, hslot⟩ := slotAt_eq_ok.1 hraw
  obtain ⟨e', he', -, hw⟩ := hl.environment x e hin he
  exact slotAt_eq_ok.2 ⟨e', he', (hw rfl).trans hslot⟩

/-- Writing another binding does not write the slot of this one. -/
theorem writable_of_ne (ht : tree.Proper) (hd : tree.binding? b = some d)
    (hx : h.OfScope d.scope x) {c : BindingId} (hne : c ≠ b) (env : ObjectId) :
    h.Writable (.holding x d.slot) tree env c := by
  rintro y i e v hlocate he rfl
  obtain ⟨target, htarget, hwalk⟩ := locate_eq_some hlocate
  rcases locateFrom_eq_some hwalk with ⟨y', e', heq, he', hscope⟩ | ⟨g, i', _, _, _, _, heq, -⟩
  · obtain ⟨rfl, rfl⟩ := Location.slot.inj heq
    obtain rfl := Except.ok.inj (he.symm.trans he')
    rw [e.write_slots, if_neg]
    rintro ⟨hslot, -⟩
    exact hne (ht.eq_of_slot htarget hd (hscope.symm.trans (hx.2 e he)) hslot)
  · cases heq

/-- Writing a binding from another environment of its scope writes there. -/
theorem writable_of_apart (hd : tree.binding? b = some d) {env : ObjectId}
    (henv : h.OfScope d.scope env) (hne : env ≠ x) :
    h.Writable (.holding x d.slot) tree env b := by
  intro y i e v hlocate he hyx
  obtain ⟨target, -, hwalk⟩ := locate_eq_some hlocate
  obtain ⟨e', he'⟩ := environment_of_locateFrom hwalk
  rw [locate_of_scope he' hd (henv.2 e' he').symm] at hlocate
  obtain ⟨rfl, -⟩ := Location.slot.inj (Option.some.inj (Except.ok.inj hlocate))
  exact absurd hyx hne

/-- A slot binding that is copied from a slot has its value there, and is neither a `var`
nor a function declaration. -/
theorem copied_spec {env : ObjectId} {raw : Option Value} (hd : tree.binding? b = some d)
    (hstorage : d.storage = .slot) (hlocate : h.locate tree env b = .ok (some (.slot x i)))
    (hcopied : h.captureBinding tree env b = .ok (.value raw)) :
    i = d.slot ∧ h.OfScope d.scope x ∧ h.slotAt x i = .ok raw ∧ raw ≠ none ∧
      d.kind.isProvisional = false := by
  obtain ⟨d', location, hd', hlocate', hcapture⟩ := captureBinding_eq_ok hcopied
  obtain rfl := Option.some.inj (hd.symm.trans hd')
  obtain rfl := Option.some.inj (Except.ok.inj (hlocate.symm.trans hlocate'))
  obtain ⟨target, htarget, hwalk⟩ := locate_eq_some hlocate
  obtain rfl := Option.some.inj (hd.symm.trans htarget)
  rcases locateFrom_eq_some hwalk with ⟨y, e, heq, he, hscope⟩ | ⟨g, j, _, _, _, _, heq, -⟩
  · obtain ⟨rfl, rfl⟩ := Location.slot.inj heq
    have hof : h.OfScope d.scope x := hscope ▸ ofScope_of_environment he
    rcases captureSlot_cases hcapture with hrefers | ⟨raw', heq, hraw, hcell | ⟨hsome, hkind⟩⟩
    · cases hrefers
    · rw [hstorage] at hcell
      cases hcell
    · obtain rfl := CapturedSlot.value.inj heq
      exact ⟨rfl, hof, hraw, Option.isSome_iff_ne_none.1 hsome, hkind⟩
  · cases heq

end Heap

/-- An instance reads a copied binding as it was copied. -/
theorem Moment.Makes.storedFor?_of_copied {image : Image} {a : Moment} {env : ObjectId}
    {spec : CaptureSpec} {y : Reach} {closure : Closure} (hm : a.Makes image env spec y closure)
    {c : Capture} (hc : c ∈ spec.captures) {b : BindingId} (hb : c.binding = some b)
    {raw : Option Value}
    (hcopied : a.before.heap.captureBinding image.tree env b = .ok (.value raw)) {h : Heap}
    (hf : h.function y.function = .ok ⟨y.site, closure⟩) :
    h.storedFor? y.function b = some raw := by
  obtain ⟨bindings, this, slot, rfl, hmem, hcapture, hsame⟩ := hm.entry hc hb
  obtain rfl := Except.ok.inj (hcopied.symm.trans hcapture)
  rw [Heap.storedFor?_eq hf rfl hmem hsame]
  rfl

/-! ## Watching an environment -/

/-- A machine with an environment of the scope `s`, and with others that are newer. -/
structure Machine.Watches (image : Image) (s : ScopeId) (x : ObjectId) (fresh : List ObjectId)
    (m : Machine) : Prop where
  watched : m.heap.OfScope s x
  newer : ∀ y ∈ fresh, m.heap.OfScope s y
  apart : x ∉ fresh

section Watching

variable {image : Image} {b : BindingId} {d : Binding} {x : ObjectId} {fresh : List ObjectId}
  {m m' : Machine}

namespace Machine.Watches

theorem forget {s : ScopeId} (hw : m.Watches image s x fresh) : m.Watches image s x [] :=
  ⟨hw.watched, fun _ hy => absurd hy List.not_mem_nil, List.not_mem_nil⟩

theorem lasts {R : Effects} {s : ScopeId} (hw : m.Watches image s x fresh)
    (hl : m.heap.Lasts R m'.heap) : m'.Watches image s x fresh :=
  ⟨hw.watched.lasts hl, fun y hy => (hw.newer y hy).lasts hl, hw.apart⟩

/-- A guarded action leaves the watched slot alone. -/
theorem within (hw : m.Watches image d.scope x fresh) (ht : image.tree.Proper)
    (hd : image.tree.binding? b = some d) {a : Action} (ha : a.Guards b fresh) :
    a.Within (.holding x d.slot) image m.heap := by
  cases a with
  | assign env i v => exact fun c hc => writable_of_ne ht hd hw.watched (fun h => ha (h ▸ hc)) env
  | writeBinding env c name v =>
    by_cases hc : c = b
    · subst hc
      exact writable_of_apart hd (hw.newer env (ha rfl)) fun h => hw.apart (h ▸ ha rfl)
    · exact writable_of_ne ht hd hw.watched hc env
  | newEnvironment scope outer this => exact fun _ _ => trivial
  | allocate o => exact ⟨fun _ _ => trivial, fun _ _ => trivial⟩
  | instantiate node env => exact fun _ _ _ => trivial
  | _ => trivial

theorem lasts_action (hw : m.Watches image d.scope x fresh) (ht : image.tree.Proper)
    (hd : image.tree.binding? b = some d) {a : Action} (ha : a.Guards b fresh) :
    m.heap.Lasts (.holding x d.slot) (a.perform image m).2.heap :=
  a.lasts (hw.within ht hd ha)

/-- After a guarded action the same environment is watched. -/
theorem action {s : ScopeId} {R : Effects} (hw : m.Watches image s x fresh) {a : Action}
    {answer : a.Answer} (hrun : a.perform image m = (.ok answer, m'))
    (hl : m.heap.Lasts R m'.heap) : m'.Watches image s x (a.refresh s fresh answer) := by
  have hm' : m'.Watches image s x fresh := hw.lasts hl
  cases a with
  | newEnvironment scope outer this =>
    rw [Action.refresh]
    split
    · next hscope =>
      obtain ⟨hsize, e, he, hinitial⟩ := newEnvironment_eq_ok (Action.newEnvironment_eq_ok hrun)
      refine ⟨hm'.watched, fun y hy => ?_, fun hin => ?_⟩
      · rcases List.mem_cons.1 hy with rfl | hy
        · exact (hinitial.scope.trans hscope) ▸ ofScope_of_environment he
        · exact hm'.newer y hy
      · rcases List.mem_cons.1 hin with rfl | hin
        · exact Nat.not_lt_of_le hsize hw.watched.1
        · exact hm'.apart hin
    · exact hm'
  | instantiate node env => exact hm'.forget
  | _ => exact hm'

end Machine.Watches

/-- A heap is outlasted by the machines of some moments and by a machine after them. -/
structure Heap.LastsThrough (R : Effects) (h : Heap) (l : List Moment) (m : Machine) : Prop where
  last : h.Lasts R m.heap
  moments : ∀ y ∈ l, h.Lasts R y.before.heap ∧ h.Lasts R y.after.heap

namespace Heap.LastsThrough

variable {R : Effects} {h : Heap} {l l' : List Moment}

theorem nil (hl : h.Lasts R m.heap) : h.LastsThrough R [] m :=
  ⟨hl, fun _ hy => absurd hy List.not_mem_nil⟩

theorem append (a : h.LastsThrough R l m) (a' : m.heap.LastsThrough R l' m') :
    h.LastsThrough R (l ++ l') m' := by
  refine ⟨a.last.trans a'.last, fun y hy => ?_⟩
  rcases List.mem_append.1 hy with hy | hy
  · exact a.moments y hy
  · exact ⟨a.last.trans (a'.moments y hy).1, a.last.trans (a'.moments y hy).2⟩

theorem of_mem (a : h.LastsThrough R l m) {n : Machine}
    (hn : n ∈ m :: l.flatMap fun y => [y.before, y.after]) : h.Lasts R n.heap := by
  rcases List.mem_cons.1 hn with rfl | hn
  · exact a.last
  · obtain ⟨y, hy, hn⟩ := List.mem_flatMap.1 hn
    rcases List.mem_cons.1 hn with rfl | hn
    · exact (a.moments y hy).1
    · obtain rfl := List.mem_singleton.1 hn
      exact (a.moments y hy).2

end Heap.LastsThrough

namespace Course.Guards

variable {α : Type} {P : α → List ObjectId → Prop} {c : Course α}

/-- All machines of a guarded course hold the watched slot as it was. -/
theorem lasts (hc : c.Guards image b d.scope P fresh) (ht : image.tree.Proper)
    (hd : image.tree.binding? b = some d) (hw : m.Watches image d.scope x fresh) :
    m.heap.LastsThrough (.holding x d.slot) (c.moments image m) (c.run image m).2 := by
  induction c generalizing m fresh with
  | done a => exact .nil (.refl ..)
  | stop reason => exact .nil (.refl ..)
  | act action next ih =>
    have hl := hw.lasts_action ht hd hc.1
    have hfirst : m.heap.LastsThrough (.holding x d.slot) [action.moment image m]
        (action.perform image m).2 := by
      refine ⟨hl, fun y hy => ?_⟩
      obtain rfl := List.mem_singleton.1 hy
      exact ⟨.refl .., hl⟩
    rw [run_act, Course.moments]
    cases hrun : action.perform image m with
    | mk result m₁ =>
      rw [hrun] at hl hfirst
      cases result with
      | error e => exact hfirst
      | ok answer =>
        exact hfirst.append
          (ih answer (hc.2 answer (Action.perform_gives hrun)) (hw.action hrun hl))

/-- From a moment on in which a definition is reached, all machines of a guarded course hold
the slots of the environments that there are. -/
theorem lasts_since (hc : c.Guards image b d.scope P fresh) (ht : image.tree.Proper)
    (hd : image.tree.binding? b = some d) {earlier later : List Moment} {a : Moment}
    (hsplit : c.moments image m = earlier ++ a :: later)
    (ha : ∃ node env, a.action = .instantiate node env) (hw : a.after.Watches image d.scope x []) :
    a.after.heap.LastsThrough (.holding x d.slot) later (c.run image m).2 := by
  induction c generalizing m fresh earlier with
  | done _ => exact absurd hsplit.symm (List.append_ne_nil_of_right_ne_nil _ (List.cons_ne_nil _ _))
  | stop _ => exact absurd hsplit.symm (List.append_ne_nil_of_right_ne_nil _ (List.cons_ne_nil _ _))
  | act action next ih =>
    rw [Course.moments] at hsplit
    rw [run_act]
    cases earlier with
    | nil =>
      obtain ⟨rfl, rfl⟩ := List.cons.inj hsplit
      obtain ⟨node, env, rfl⟩ : ∃ node env, action = .instantiate node env := ha
      rw [Action.moment] at hw ⊢
      cases hrun : (Action.instantiate node env).perform image m with
      | mk result m₁ =>
        rw [hrun] at hw
        cases result with
        | error e => exact .nil (.refl ..)
        | ok answer =>
          -- reaching a definition leaves nothing fresh
          exact (hc.2 answer trivial).lasts ht hd hw
    | cons first earlier =>
      obtain ⟨-, hrest⟩ := List.cons.inj hsplit
      cases hrun : action.perform image m with
      | mk result m₁ =>
        rw [hrun] at hrest
        cases result with
        | error e =>
          exact absurd hrest.symm (List.append_ne_nil_of_right_ne_nil _ (List.cons_ne_nil _ _))
        | ok answer => exact ih answer (hc.2 answer (Action.perform_gives hrun)) hrest

end Course.Guards

end Watching

/-! ## Runs -/

section Runs

variable {p : Program} {config : Config} {s₀ s : Session} {past : List Moment}

/-- From a moment on in which a definition is reached, a run in which no `var` initializer
writes a binding that is written on entry holds the slots of the binding that there are. -/
theorem SparingRun.holds (hi : s₀.image.Settled) {b : BindingId} {d : Binding}
    (hb : s₀.image.WritesOnEntry b d) (hrun : SparingRun s₀ s past) {earlier later : List Moment}
    {a : Moment} (hpast : past = earlier ++ a :: later)
    (ha : ∃ node env, a.action = .instantiate node env)
    {x : ObjectId} (hw : a.after.Watches s₀.image d.scope x []) :
    a.after.heap.LastsThrough (.holding x d.slot) later s.machine := by
  induction hrun generalizing earlier later with
  | start => exact absurd hpast.symm (List.append_ne_nil_of_right_ne_nil _ (List.cons_ne_nil _ _))
  | @step s past r hrun hsparing ih =>
    have himage := hrun.image_eq
    have hidle : past = earlier ++ a :: later → s.machine.heap.Lasts (.holding x d.slot)
        (s.perform r.perform).2.machine.heap → a.after.heap.LastsThrough (.holding x d.slot) later
          (s.perform r.perform).2.machine := by
      intro hpast hl
      rw [← List.append_nil later]
      exact (ih hpast).append (.nil hl)
    rcases r.act_or_sameState s with ⟨act, hend, hmoments, hact⟩ | ⟨hstate, hmoments⟩
    · rw [hmoments] at hpast
      have hend : (s.perform r.perform).2.machine = (act.perform s.image s.machine).2 := hend
      rw [hend] at hidle ⊢
      cases hcourse : act.course? s with
      | none =>
        rw [HostAction.moments, hcourse, List.append_nil] at hpast
        exact hidle hpast (act.lasts hcourse (hsparing.act hact).writable)
      | some start =>
        obtain ⟨c, m⟩ := start
        have hheap := (HostAction.machine_of_course hcourse).1
        have hguarded := HostAction.course_guarded (himage ▸ hi) (himage ▸ hb) hcourse []
        rw [HostAction.moments, hcourse] at hpast
        rw [HostAction.perform_of_course hcourse, himage]
        rw [himage] at hguarded hpast
        -- the moment is one of this evaluation, or of an earlier one
        rcases List.append_eq_append_iff.1 hpast with ⟨l, rfl, hsplit⟩ | ⟨l, hbefore, hafter⟩
        · exact hguarded.lasts_since hi.proper hb.declared hsplit ha hw
        · cases l with
          | nil =>
            have hsplit : c.moments s₀.image m = [] ++ a :: later := hafter.symm
            exact hguarded.lasts_since hi.proper hb.declared hsplit ha hw
          | cons a' l =>
            obtain ⟨rfl, rfl⟩ := List.cons.inj hafter
            have hpassed := ih hbefore
            refine hpassed.append ?_
            rw [← hheap]
            exact hguarded.lasts hi.proper hb.declared (hw.lasts (hheap ▸ hpassed.last))
    · rw [hmoments, List.append_nil] at hpast
      exact hidle hpast (.of_object_eq (congrArg Array.size hstate.entries) hstate.object_eq)

/-- The slot of a binding that is written on entry is not written after a reach from which it
is seen. -/
theorem SparingRun.slotAt_of_entry (hload : Session.load p config = .ok s₀)
    (hi : s₀.image.Settled) {b : BindingId} {d : Binding} (hb : s₀.image.WritesOnEntry b d)
    {earlier later : List Moment} {a : Moment}
    (hrun : SparingRun s₀ s (earlier ++ a :: later))
    (ha : ∃ node env, a.action = .instantiate node env) {x : ObjectId}
    (hx : a.before.heap.OfScope d.scope x) {raw : Option Value}
    (hraw : a.before.heap.slotAt x d.slot = .ok raw) {m : Machine}
    (hm : m ∈ a.after :: s.machine :: later.flatMap fun y => [y.before, y.after])
    (hin : m.heap.contains x = true) : m.heap.slotAt x d.slot = .ok raw := by
  obtain ⟨-, -, hc, -⟩ := hrun.steady hload hi
  rw [hrun.image_eq] at hc
  have hmem : a ∈ earlier ++ a :: later := List.mem_append_right _ List.mem_cons_self
  have hreal := hc.real a hmem
  have hafter : (a.action.perform s₀.image a.before).2 = a.after :=
    (congrArg Moment.after hreal).symm
  obtain ⟨node, env, haction⟩ := ha
  -- the reach itself changes no environment
  have hraw' : a.after.heap.slotAt x d.slot = .ok raw := by
    rw [← hafter, haction]
    exact (EvalM.instantiate_adds _ _ node env).slotAt_eq hraw
  rcases List.mem_cons.1 hm with rfl | hm
  · exact hraw'
  · have hw : a.after.Watches s₀.image d.scope x [] :=
      ⟨hx.lasts (hc.during a hmem), fun _ hy => absurd hy List.not_mem_nil, List.not_mem_nil⟩
    have hl := hrun.holds hi hb rfl ⟨node, env, haction⟩ hw
    exact (hl.of_mem hm).slotAt_holding hraw' hin

/-- What a reach of a shared definition copies from the slot of a binding stays there for the
rest of the run, unless a `var` initializer has the name of a parameter or of the arguments
collection: the slot of a `let` or `const`, and that of any other binding that is not
rewritten.  An instance that the reach makes goes on reading what its environment holds. -/
theorem SparingRun.copied_stays (hload : Session.load p config = .ok s₀)
    (hp : ∀ f ∈ p.functions, f.arguments = none) {earlier later : List Moment}
    {node : FunctionNode} {env : ObjectId} {before after : Machine}
    {result : Except (Stop EvalError) Value}
    (hrun : SparingRun s₀ s
      (earlier ++ ⟨.instantiate node env, before, result, after⟩ :: later))
    {site : SiteId} (hsite : node.site = some site) {spec : CaptureSpec}
    (hspec : s₀.image.analysis.get? site = some (.memoized spec)) {c : Capture}
    (hcapture : c ∈ spec.captures) {b : BindingId} (hcb : c.binding = some b) {d : Binding}
    (hd : s₀.image.tree.binding? b = some d) (hstorage : d.storage = .slot) {x : ObjectId} {i : Nat}
    (hlocate : before.heap.locate s₀.image.tree env b = .ok (some (.slot x i)))
    {raw : Option Value}
    (hcopied : before.heap.captureBinding s₀.image.tree env b = .ok (.value raw))
    (hkept : d.kind.isLexical = false → b ∉ s₀.image.program.rewritten) :
    ∀ m ∈ after :: s.machine :: later.flatMap fun y => [y.before, y.after],
      (m.heap.contains x = true → m.heap.slotAt x i = .ok raw) ∧
      ∀ f, result = .ok (.object f) → before.heap.entries.size ≤ f.index →
        m.heap.contains env = true → m.heap.contains f = true →
        m.heap.stored? s₀.image.tree env b = some raw ∧ m.heap.storedFor? f b = some raw := by
  obtain ⟨resolved, hloaded⟩ := Session.loaded hload
  have hi := hloaded.settled hp
  obtain ⟨rfl, hx, hraw, hvalue, hsettled⟩ := copied_spec hd hstorage hlocate hcopied
  obtain ⟨d', hd', htakes⟩ := (hloaded.regular hspec).takes c hcapture b hcb
  obtain rfl := Option.some.inj (hd.symm.trans hd')
  have hmutable := htakes.mutable_eq hstorage
  obtain ⟨-, -, hc, -⟩ := hrun.steady hload hi
  rw [hrun.image_eq] at hc
  have hduring := hc.during _ (List.mem_append_right _ List.mem_cons_self)
  intro m hm
  have hafter := hc.outlasts (List.mem_append_right _ List.mem_cons_self) hm
  have hbefore := hduring.trans hafter
  have hslot : m.heap.contains x = true → m.heap.slotAt x d.slot = .ok raw := fun hin => by
    cases hkind : d.kind.isLexical with
    | true => exact hbefore.slotAt_final hd ⟨hstorage, hmutable, hkind⟩ hraw hvalue hx.2 hin
    | false =>
      have hb := hloaded.writesOnEntry hd hmutable hkind hsettled (hkept hkind)
      exact hrun.slotAt_of_entry hload hi hb ⟨node, env, rfl⟩ hx hraw hm hin
  refine ⟨hslot, fun f hf hnew henv hin => ?_⟩
  subst hf
  obtain ⟨key, closure, hmakes⟩ := hc.makes_of_new hsite hspec hnew
  obtain ⟨hlocate', hholder⟩ := hbefore.locate_eq henv hlocate
  exact ⟨stored?_eq_some.2 ⟨_, hlocate', hslot hholder⟩,
    hmakes.storedFor?_of_copied hcapture hcb hcopied (hafter.function f _ hin hmakes.made)⟩

end Runs

/-! ## Copying a parameter

The arrow of `arrowsOverArguments` copies the argument of `f`, which nothing writes again.
That of `redeclaredParameter` copies the argument of `outer`, to which a `var` of the same
name gives another value. -/

/-- A reach of an arrow that makes an instance and copies the argument 1 from the slot of its
environment.  In the end the slot holds `own`, and the instance reads 1. -/
structure CopiesOne (image : Image) (final : Machine) (own : Int64) (node : FunctionNode)
    (env f : ObjectId) (before : Machine) : Prop where
  site : node.site = some ⟨1⟩
  located : before.heap.locate image.tree env ⟨1⟩ = .ok (some (.slot env 0))
  copied : before.heap.captureBinding image.tree env ⟨1⟩ = .ok (.value (some (.number 1)))
  new : before.heap.entries.size ≤ f.index
  alive : final.heap.contains f = true
  own : final.heap.slotAt env 0 = .ok (some (.number own))
  seen : final.heap.storedFor? f ⟨1⟩ = some (some (.number 1))

instance (image : Image) (final : Machine) (own : Int64) (node : FunctionNode) (env f : ObjectId)
    (before : Machine) : Decidable (CopiesOne image final own node env f before) :=
  decidable_of_iff
    (node.site = some ⟨1⟩ ∧
      before.heap.locate image.tree env ⟨1⟩ = .ok (some (.slot env 0)) ∧
      before.heap.captureBinding image.tree env ⟨1⟩ = .ok (.value (some (.number 1))) ∧
      before.heap.entries.size ≤ f.index ∧ final.heap.contains f = true ∧
      final.heap.slotAt env 0 = .ok (some (.number own)) ∧
      final.heap.storedFor? f ⟨1⟩ = some (some (.number 1)))
    ⟨fun ⟨h₁, h₂, h₃, h₄, h₅, h₆, h₇⟩ => ⟨h₁, h₂, h₃, h₄, h₅, h₆, h₇⟩,
      fun h => ⟨h.site, h.located, h.copied, h.new, h.alive, h.own, h.seen⟩⟩

def Moment.copiesOne (image : Image) (final : Machine) (own : Int64) : Moment → Bool
  | ⟨.instantiate node env, before, .ok (.object f), _⟩ =>
    decide (CopiesOne image final own node env f before)
  | _ => false

theorem exists_copiesOne {image : Image} {past : List Moment} {final : Machine} {own : Int64}
    (h : past.any (Moment.copiesOne image final own) = true) :
    ∃ earlier node env before f after later,
      past = earlier ++ ⟨.instantiate node env, before, .ok (.object f), after⟩ :: later ∧
        CopiesOne image final own node env f before := by
  obtain ⟨a, ha, hcopies⟩ := List.any_eq_true.1 h
  obtain ⟨earlier, later, rfl⟩ := List.append_of_mem ha
  rw [Moment.copiesOne.eq_def] at hcopies
  split at hcopies
  · next node env before f after =>
    exact ⟨earlier, node, env, before, f, after, later, rfl, of_decide_eq_true hcopies⟩
  · cases hcopies

theorem arrows_copy : ∃ s past, SparingRun arrowsSession s past ∧
    past.any (Moment.copiesOne arrowsSession.image s.machine 1) = true := by
  have hrun : SparingRun arrowsSession _ _ :=
    .step (.act (.run 9)) .start fun name v hv => by cases hv
  exact ⟨_, _, hrun, by decide +kernel⟩

theorem arrow_binding : arrowsSession.image.tree.binding? ⟨1⟩ =
    some ⟨⟨1⟩, "x", ⟨1⟩, .parameter, .slot, 0, 0, false⟩ := by
  decide +kernel

/-- The argument of `f` stays in the environment of the first call, and the instance that is
made there reads it. -/
theorem copied_stays_arrows : ∃ s₀ s earlier node env before f after later,
    Session.load arrowsOverArguments .deterministic = .ok s₀ ∧
      (∀ f ∈ arrowsOverArguments.functions, f.arguments = none) ∧
      SparingRun s₀ s
        (earlier ++ ⟨.instantiate node env, before, .ok (.object f), after⟩ :: later) ∧
      node.site = some ⟨1⟩ ∧
      s₀.image.analysis.get? ⟨1⟩ = some (.memoized ⟨⟨1⟩, [arrowCapture]⟩) ∧
      before.heap.locate s₀.image.tree env ⟨1⟩ = .ok (some (.slot env 0)) ∧
      before.heap.captureBinding s₀.image.tree env ⟨1⟩ = .ok (.value (some (.number 1))) ∧
      ⟨1⟩ ∉ s₀.image.program.rewritten ∧
      s.machine.heap.slotAt env 0 = .ok (some (.number 1)) ∧
      s.machine.heap.stored? s₀.image.tree env ⟨1⟩ = some (some (.number 1)) ∧
      s.machine.heap.storedFor? f ⟨1⟩ = some (some (.number 1)) := by
  obtain ⟨s, past, hrun, hcopies⟩ := arrows_copy
  obtain ⟨earlier, node, env, before, f, after, later, rfl, h⟩ := exists_copiesOne hcopies
  have hp : ∀ f ∈ arrowsOverArguments.functions, f.arguments = none := fun f hf => by
    simp only [arrowsOverArguments, Program.functions, functionsInStatements, Statement.functions,
      FunctionNode.functions, Expression.functions, functionsInExpressions, List.append_nil,
      List.mem_cons, List.not_mem_nil, or_false] at hf
    rcases hf with rfl | rfl <;> rfl
  have hkept : ⟨1⟩ ∉ arrowsSession.image.program.rewritten := by decide +kernel
  obtain ⟨e, he, -⟩ := slotAt_eq_ok.1 h.own
  have henv := contains_of_environment he
  obtain ⟨hslot, hreads⟩ := hrun.copied_stays load_arrows hp h.site arrow_analysis
    (c := arrowCapture) List.mem_cons_self rfl arrow_binding rfl h.located h.copied
    (fun _ => hkept) s.machine (List.mem_cons_of_mem _ List.mem_cons_self)
  obtain ⟨hstored, hseen⟩ := hreads f rfl h.new henv h.alive
  exact ⟨_, s, earlier, node, env, before, f, after, later, load_arrows, hp, hrun, h.site,
    arrow_analysis, h.located, h.copied, hkept, hslot henv, hstored, hseen⟩

/-- A function that gives a shared arrow over its parameter, after a `var` of the same name
has written the parameter. -/
def redeclaredParameter : Program where
  body :=
    let name (s : String) : Identifier := ⟨s, .unresolved⟩
    let span : SourceSpan := ⟨0, 0, 0, 0, 0, 0⟩
    let arrow : FunctionNode := ⟨none, .arrow, .plain, true, [], none,
      [.returning (some (.identifier (name "p")))], span, none, none, none⟩
    [.function ⟨some (name "outer"), .declaration, .plain, false, [name "p"], none,
      [.declaration .constDeclaration (name "f") (some (.function arrow)) .slot,
        .declaration .var (name "p") (some (.literal (.number 5))) .slot,
        .returning (some (.identifier (name "f")))], span, none, none, none⟩]

theorem isSome_load_redeclared :
    (Session.load redeclaredParameter .deterministic).toOption.isSome = true := by
  decide +kernel

def redeclaredSession : Session :=
  (Session.load redeclaredParameter .deterministic).toOption.get isSome_load_redeclared

theorem load_redeclared : Session.load redeclaredParameter .deterministic = .ok redeclaredSession :=
  Except.eq_ok_get isSome_load_redeclared

def redeclaredCapture : Capture := ⟨some ⟨1⟩, "p", .value, ⟨1⟩⟩

theorem redeclared_analysis : redeclaredSession.image.analysis.get? ⟨1⟩ =
    some (.memoized ⟨⟨1⟩, [redeclaredCapture]⟩) := by
  decide +kernel

theorem redeclared_binding : redeclaredSession.image.tree.binding? ⟨1⟩ =
    some ⟨⟨1⟩, "p", ⟨1⟩, .parameter, .slot, 0, 0, false⟩ := by
  decide +kernel

theorem redeclared_copies : ∃ s past, SparingRun redeclaredSession s past ∧
    past.any (Moment.copiesOne redeclaredSession.image s.machine 5) = true := by
  have hran : SparingRun redeclaredSession _ _ :=
    .step (.act (.run 30)) .start fun name v hv => by cases hv
  have hcalled := hran.step (.act (.callGlobal 30 "outer" [.number 1])) fun name v hv => by cases hv
  exact ⟨_, _, hcalled, by decide +kernel⟩

/-- A call of `outer` with 1 copies the parameter into the captures of the arrow, and writes
5 to its slot afterwards.  The instance goes on reading 1. -/
theorem overwritten_redeclaredParameter : ∃ s₀ s past,
    Session.load redeclaredParameter .deterministic = .ok s₀ ∧
    (∀ f ∈ redeclaredParameter.functions, f.arguments = none) ∧ SparingRun s₀ s past ∧
    ∃ node env before f after site spec c b d x i,
      ⟨.instantiate node env, before, .ok (.object f), after⟩ ∈ past ∧ node.site = some site ∧
      s₀.image.analysis.get? site = some (.memoized spec) ∧ c ∈ spec.captures ∧
      c.binding = some b ∧ s₀.image.tree.binding? b = some d ∧ d.storage = .slot ∧
      before.heap.locate s₀.image.tree env b = .ok (some (.slot x i)) ∧
      before.heap.captureBinding s₀.image.tree env b = .ok (.value (some (.number 1))) ∧
      s.machine.heap.slotAt x i = .ok (some (.number 5)) ∧
      s.machine.heap.storedFor? f b = some (some (.number 1)) := by
  obtain ⟨s, past, hrun, hcopies⟩ := redeclared_copies
  obtain ⟨earlier, node, env, before, f, after, later, rfl, h⟩ := exists_copiesOne hcopies
  refine ⟨_, s, _, load_redeclared, fun f hf => ?_, hrun, node, env, before, f, after, ⟨1⟩,
    _, redeclaredCapture, ⟨1⟩, _, env, 0, List.mem_append_right _ List.mem_cons_self, h.site,
    redeclared_analysis, List.mem_cons_self, rfl, redeclared_binding, rfl, h.located, h.copied,
    h.own, h.seen⟩
  simp only [redeclaredParameter, Program.functions, functionsInStatements, Statement.functions,
    FunctionNode.functions, Expression.functions, List.append_nil, List.mem_cons,
    List.not_mem_nil, or_false] at hf
  rcases hf with rfl | rfl <;> rfl

end ClosureCache
