/-
Cells are private to one environment, and permanent.

A run passes through many heaps: one after another, each outlasted by those that follow.
`CellHistory` is the account of a run with all of its heaps.  Every environment in any of
them was opened by one moment of the run, together with its cells, or is the environment at
top level; so cells of different environments were made at different times, and an
environment has the same cells in all heaps that it is in.  Every action and every request
of a client adds to the account, and `PrivateCells` is read off it.
-/
import ClosureCache.Proofs.Evaluation.Cells

namespace ClosureCache

/-! ## Runs with their heaps -/

def Moment.heaps (a : Moment) : List Heap := [a.before.heap, a.after.heap]

/-- The heaps that a request passes through: those before and after the actions of its
evaluation, and the one that it ends with. -/
def Request.heaps (s : Session) (r : Request) : List Heap :=
  (r.moments s).flatMap Moment.heaps ++ [(r.perform s.image s.machine).2.heap]

/-- A run in which only what may be known is passed, with the heaps that it passes through. -/
inductive RecordedRun (s₀ : Session) : Session → List Moment → List Heap → Prop where
  | start : RecordedRun s₀ s₀ [] [s₀.machine.heap]
  | step {s : Session} {past : List Moment} {heaps : List Heap} (r : Request) :
    RecordedRun s₀ s past heaps →
    Value.AllAmong (s.machine.heap.known s.image) r.values →
    RecordedRun s₀ (s.perform r.perform).2 (past ++ r.moments s) (heaps ++ r.heaps s)

/-- A moment in which an environment is opened.  Its cells are made before it, in the same
moment. -/
structure Moment.Opens (tree : ScopeTree) (a : Moment) (x : ObjectId) : Prop where
  action : ∃ scope outer this before after,
    a = ⟨.newEnvironment scope outer this, before, .ok x, after⟩
  opened : ∃ e, a.after.heap.environment x = .ok e
  cells : ∀ b c, a.after.heap.HoldsCell tree x b c →
    a.before.heap.entries.size ≤ c.index ∧ c.index < x.index

theorem Moment.Opens.unique {tree : ScopeTree} {a : Moment} {x x' : ObjectId}
    (hx : a.Opens tree x) (hx' : a.Opens tree x') : x = x' := by
  obtain ⟨_, _, _, _, _, rfl⟩ := hx.action
  obtain ⟨_, _, _, _, _, heq⟩ := hx'.action
  cases heq
  rfl

theorem Action.newEnvironment_apply (image : Image) (m : Machine) (scope : ScopeId)
    (outer : Enclosure) (this : Option Value) :
    (newEnvironment scope outer this).perform image m =
      ((Heap.newEnvironment image.tree scope outer this m.heap).1.mapError Stop.error,
        { m with
          heap := (Heap.newEnvironment image.tree scope outer this m.heap).2 }) :=
  (EvalM.bind_of_ok EvalM.read_apply).trans (EvalM.tryHeap_apply _)

theorem Moment.opens_newEnvironment {image : Image} {m : Machine} {scope : ScopeId}
    {outer : Enclosure} {this : Option Value} {h : Heap} {e : Environment}
    (hrun : Heap.newEnvironment image.tree scope outer this m.heap =
      (.ok ⟨h.entries.size⟩, (h.allocate (.environment e)).2))
    (hcells : ∀ b c, e.HoldsCell image.tree b c →
      m.heap.entries.size ≤ c.index ∧ c.index < h.entries.size) :
    ((Action.newEnvironment scope outer this).moment image m).Opens image.tree
      ⟨h.entries.size⟩ := by
  have henv : Heap.environment (h.allocate (.environment e)).2 ⟨h.entries.size⟩ = .ok e :=
    Heap.environment_eq_ok.2 (Heap.object_allocate_self h _)
  rw [Action.moment, Action.newEnvironment_apply, hrun]
  refine ⟨⟨scope, outer, this, m, _, rfl⟩, ⟨e, henv⟩, ?_⟩
  rintro b c ⟨e', -, he', hholds, -⟩
  obtain rfl := Except.ok.inj (henv.symm.trans he')
  exact hcells b c hholds

/-- The account of a run from a session with the heap `first`, with the heaps that it has
passed through so far. -/
structure CellHistory (image : Image) (first : Heap) (past : List Moment) (heaps : List Heap)
    (m : Machine) : Prop where
  confined : Confined image past m
  last : m.heap ∈ heaps
  lasts : heaps.Pairwise (Heap.Lasts (.keepingCells image.tree))
  since : ∀ h ∈ heaps, h.Lasts (.keepingCells image.tree) m.heap
  celled : ∀ h ∈ heaps, h.Celled image heaps
  recorded : ∀ a ∈ past, a.before.heap ∈ heaps ∧ a.after.heap ∈ heaps
  /-- Moments do not overlap. -/
  apart : past.Pairwise fun a a' => a.after.heap.entries.size ≤ a'.before.heap.entries.size
  first_mem : first ∈ heaps
  first_le : ∀ h ∈ heaps, first.entries.size ≤ h.entries.size
  opened : ∀ h ∈ heaps, ∀ x e, h.environment x = .ok e →
    (∃ e, first.environment x = .ok e) ∨ ∃ a ∈ past, a.Opens image.tree x

namespace CellHistory

section Steps

variable {image : Image} {first : Heap} {past : List Moment} {heaps : List Heap}
  {m m' : Machine} (hh : CellHistory image first past heaps m)

include hh

/-- A machine with the same heap. -/
theorem same (hc : Confined image past m') (hheap : m'.heap = m.heap) :
    CellHistory image first past heaps m' :=
  ⟨hc, hheap ▸ hh.last, hh.lasts, hheap ▸ hh.since, hh.celled, hh.recorded, hh.apart,
    hh.first_mem, hh.first_le, hh.opened⟩

/-- One more heap, and possibly the moment that leads to it. -/
theorem extend (new : Option Moment) (hc : Confined image (past ++ new.toList) m')
    (hl : m.heap.Lasts (.keepingCells image.tree) m'.heap)
    (hcelled : m'.heap.Celled image heaps)
    (hnew : ∀ a ∈ new, a.before.heap = m.heap ∧ a.after.heap = m'.heap)
    (hopened : ∀ x e, m'.heap.environment x = .ok e →
      (∃ e, m.heap.environment x = .ok e) ∨ ∃ a ∈ new, a.Opens image.tree x) :
    CellHistory image first (past ++ new.toList) (heaps ++ [m'.heap]) m' := by
  have hsub : ∀ h ∈ heaps, h ∈ heaps ++ [m'.heap] := fun _ => List.mem_append_left _
  have hend : m'.heap ∈ heaps ++ [m'.heap] := List.mem_append_right _ (List.mem_singleton.2 rfl)
  have hsince : ∀ h ∈ heaps, h.Lasts (.keepingCells image.tree) m'.heap := fun h hmem =>
    (hh.since h hmem).trans hl
  refine ⟨hc, hend, ?_, ?_, ?_, ?_, ?_, hsub _ hh.first_mem, ?_, ?_⟩
  · refine List.pairwise_append.2 ⟨hh.lasts, List.pairwise_singleton .., fun h hmem h' hmem' => ?_⟩
    exact List.mem_singleton.1 hmem' ▸ hsince h hmem
  · refine List.forall_mem_append.2 ⟨hsince, List.forall_mem_singleton.2 (.refl ..)⟩
  · exact List.forall_mem_append.2 ⟨fun h hmem => (hh.celled h hmem).mono hsub,
      List.forall_mem_singleton.2 (hcelled.mono hsub)⟩
  · refine List.forall_mem_append.2 ⟨fun a ha => ?_, fun a ha => ?_⟩
    · exact ⟨hsub _ (hh.recorded a ha).1, hsub _ (hh.recorded a ha).2⟩
    · obtain ⟨hbefore, hafter⟩ := hnew a (Option.mem_toList.1 ha)
      exact ⟨hbefore ▸ hsub _ hh.last, hafter ▸ hend⟩
  · refine List.pairwise_append.2 ⟨hh.apart, ?_, fun a ha a' ha' => ?_⟩
    · cases new with
      | none => exact .nil
      | some a => exact List.pairwise_singleton ..
    · obtain ⟨hbefore, -⟩ := hnew a' (Option.mem_toList.1 ha')
      exact hbefore ▸ (hh.since _ (hh.recorded a ha).2).size_le
  · refine List.forall_mem_append.2 ⟨hh.first_le, List.forall_mem_singleton.2 ?_⟩
    exact Nat.le_trans (hh.first_le _ hh.last) hl.size_le
  · have hold : ∀ h ∈ heaps, ∀ x e, h.environment x = .ok e →
        (∃ e, first.environment x = .ok e) ∨
          ∃ a ∈ past ++ new.toList, a.Opens image.tree x := fun h hmem x e he =>
      (hh.opened h hmem x e he).imp id fun ⟨a, ha, hopens⟩ =>
        ⟨a, List.mem_append_left _ ha, hopens⟩
    refine List.forall_mem_append.2 ⟨hold, List.forall_mem_singleton.2 fun x e he => ?_⟩
    rcases hopened x e he with ⟨e, he⟩ | ⟨a, ha, hopens⟩
    · exact hold _ hh.last x e he
    · exact .inr ⟨a, List.mem_append_right _ (Option.mem_toList.2 ha), hopens⟩

/-- A step that makes no environment and no function. -/
theorem quiet (new : Option Moment) (hc : Confined image (past ++ new.toList) m')
    (hl : m.heap.Lasts (.sparingCells image.tree fun _ => False) m'.heap)
    (hs : m.heap.Sustains m'.heap)
    (hnew : ∀ a ∈ new, a.before.heap = m.heap ∧ a.after.heap = m'.heap) :
    CellHistory image first (past ++ new.toList) (heaps ++ [m'.heap]) m' := by
  have hcelled := hh.celled _ hh.last
  refine hh.extend new hc hl.keepingCells ?_ hnew fun x e he => ?_
  · exact hcelled.lasts hc.sealed (hcelled.furnished.lasts hl hs) hl
      fun _ _ _ hmade => hmade.elim
  · exact .inl ((hl.opened x e he).resolve_right fun hnew => hnew.2)

/-- Such a step without a moment. -/
theorem later (hc : Confined image past m')
    (hl : m.heap.Lasts (.sparingCells image.tree fun _ => False) m'.heap)
    (hs : m.heap.Sustains m'.heap) :
    CellHistory image first past (heaps ++ [m'.heap]) m' := by
  have hend := hh.quiet none (by rwa [Option.toList_none, List.append_nil]) hl hs
    fun a ha => by cases ha
  rwa [Option.toList_none, List.append_nil] at hend

/-- The last heap once more. -/
theorem still : CellHistory image first past (heaps ++ [m.heap]) m :=
  hh.later hh.confined (.refl ..) (.of_mono fun _ hy => hy)

end Steps

section Actions

variable {image : Image} {first : Heap} {past : List Moment} {heaps : List Heap}
  {m : Machine} (ht : image.tree.Proper) (hh : CellHistory image first past heaps m)

include ht hh

theorem instantiate (node : FunctionNode) (env : ObjectId)
    (hc : Confined image (past ++ [(Action.instantiate node env).moment image m])
      (EvalM.instantiate node env image m).2) :
    CellHistory image first (past ++ [(Action.instantiate node env).moment image m])
      (heaps ++ [(EvalM.instantiate node env image m).2.heap])
      (EvalM.instantiate node env image m).2 := by
  have hadds := EvalM.instantiate_adds image m node env
  have hl : m.heap.Lasts
      (.sparingCells image.tree fun f => f.closure.MadeFrom image m.heap env f.site)
      (EvalM.instantiate node env image m).2.heap := by
    refine hadds.lasts ?_
    rintro o ⟨site, closure, rfl, hmade⟩
    refine ⟨fun e he => (by cases he), fun f hf => ?_⟩
    obtain rfl := Object.function.inj hf
    exact hmade
  have hs : m.heap.Sustains (EvalM.instantiate node env image m).2.heap :=
    .of_mono fun y hy => by rwa [hadds.contains y (Heap.lt_of_contains hy)]
  have hcelled := hh.celled _ hh.last
  refine hh.extend (some _) hc hl.keepingCells ?_ ?_ fun x e he => ?_
  · refine hcelled.lasts hc.sealed (hcelled.furnished.lasts hl hs) hl ?_
    rintro f bindings this (hchain | ⟨spec, -, hmade⟩) hclosure
    · rw [hclosure] at hchain
      cases hchain
    · rw [hclosure] at hmade
      exact hcelled.captureClosure ht hh.last hmade
  · intro a ha
    obtain rfl := Option.some.inj ha
    exact ⟨rfl, rfl⟩
  · exact .inl ((hl.opened x e he).resolve_right fun hnew => hnew.2)

theorem newEnvironment (scope : ScopeId) (outer : Enclosure) (this : Option Value)
    (hc : Confined image (past ++ [(Action.newEnvironment scope outer this).moment image m])
      ((Action.newEnvironment scope outer this).perform image m).2) :
    CellHistory image first (past ++ [(Action.newEnvironment scope outer this).moment image m])
      (heaps ++ [((Action.newEnvironment scope outer this).perform image m).2.heap])
      ((Action.newEnvironment scope outer this).perform image m).2 := by
  have happly := Action.newEnvironment_apply image m scope outer this
  have hnew : ∀ a ∈ some ((Action.newEnvironment scope outer this).moment image m),
      a.before.heap = m.heap ∧ a.after.heap =
        ((Action.newEnvironment scope outer this).perform image m).2.heap := by
    intro a ha
    obtain rfl := Option.some.inj ha
    exact ⟨rfl, rfl⟩
  have hcelled := hh.celled _ hh.last
  obtain ⟨h₁, hl, hs, ⟨error, hrun⟩ | ⟨e, hrun, hfurnished, hcells⟩⟩ :=
    Heap.newEnvironment_furnishes (h := m.heap) ht scope outer this
  · refine hh.quiet (some _) hc ?_ ?_ hnew
    · rwa [happly, hrun]
    · rwa [happly, hrun]
  · have hopens := Moment.opens_newEnvironment hrun hcells
    have hmakes : m.heap.Lasts .withoutFunctions
        (Heap.newEnvironment image.tree scope outer this m.heap).2 :=
      Heap.lasts_newEnvironment (fun _ _ => trivial) outer this
    have hkeeps : m.heap.Lasts (.keepingCells image.tree) (h₁.allocate (.environment e)).2 :=
      hl.keepingCells.trans (Heap.lasts_allocate (fun _ _ => trivial) fun _ _ => trivial)
    rw [hrun] at happly hmakes
    rw [happly] at hc hnew ⊢
    refine hh.extend (some _) hc hkeeps ?_ hnew fun x e' he' => ?_
    · exact hcelled.lasts hc.sealed ((hcelled.furnished.lasts hl hs).allocate hfurnished) hmakes
        fun _ _ _ hmade => hmade.elim
    · by_cases hx : x = ⟨h₁.entries.size⟩
      · exact .inr ⟨_, rfl, hx ▸ hopens⟩
      · have hold : h₁.environment x = .ok e' := by
          rw [Heap.environment_eq_ok, ← Heap.environment_eq_ok.1 he']
          exact (Heap.object_allocate_of_ne _ hx).symm
        exact .inl ((hl.opened x e' hold).resolve_right fun hnew => hnew.2)

/-- Every action of a discreet evaluation keeps the account. -/
theorem action (a : Action) (ha : a.InputsKnown (m.heap.known image)) :
    CellHistory image first (past ++ [a.moment image m])
      (heaps ++ (a.moment image m).heaps) (a.perform image m).2 := by
  have hc := (hh.confined.action ht a ha).2.1
  have hassoc : heaps ++ (a.moment image m).heaps =
      heaps ++ [m.heap] ++ [(a.perform image m).2.heap] :=
    (List.append_assoc heaps [m.heap] _).symm
  rw [hassoc]
  by_cases hreach : ∃ node env, a = .instantiate node env
  · obtain ⟨node, env, rfl⟩ := hreach
    exact hh.still.instantiate ht node env hc
  · by_cases hopen : ∃ scope outer this, a = .newEnvironment scope outer this
    · obtain ⟨scope, outer, this, rfl⟩ := hopen
      exact hh.still.newEnvironment ht scope outer this hc
    · refine hh.still.quiet (some _) hc ?_ ?_ fun b hb => ?_
      · exact a.lasts_sparingCells ht (fun node env he => hreach ⟨node, env, he⟩)
          (fun scope outer this he => hopen ⟨scope, outer, this, he⟩) ha
      · exact .of_mono fun y hy => by rwa [a.contains_eq (Heap.lt_of_contains hy)]
      · obtain rfl := Option.some.inj hb
        exact ⟨rfl, rfl⟩

/-- So does a discreet course. -/
theorem course {α : Type} {out : Known → α → Prop} {c : Course α}
    (hdiscreet : c.Discreet out (m.heap.known image)) :
    CellHistory image first (past ++ c.moments image m)
      (heaps ++ (c.moments image m).flatMap Moment.heaps) (c.run image m).2 := by
  have hinputs := (hh.confined.course ht hdiscreet).2.1.moments
  refine Course.history_along
    (J := fun new m => CellHistory image first (past ++ new) (heaps ++ new.flatMap Moment.heaps) m)
    (Q := fun a m => a.InputsKnown (m.heap.known image)) (fun new a m hh ha => ?_) c [] m
    (fun a ha => (hinputs a (List.mem_append_right _ ha)).inputsKnown) ?_
  · rw [← List.append_assoc, List.flatMap_append, ← List.append_assoc, List.flatMap_singleton]
    exact hh.action ht a ha
  · rwa [List.flatMap_nil, List.append_nil, List.append_nil]

end Actions

end CellHistory

/-! ## Requests -/

section Requests

variable {s : Session} {first : Heap} {past : List Moment} {heaps : List Heap}
  (ht : s.image.tree.Proper) (hh : CellHistory s.image first past heaps s.machine)

include hh

theorem CellHistory.collectGarbage : CellHistory s.image first past
    (heaps ++ [(EvalM.collectGarbage s.image s.machine).2.heap])
    (EvalM.collectGarbage s.image s.machine).2 := by
  exact hh.later hh.confined.collectGarbage.2 EvalM.collectGarbage_lasts
    EvalM.collectGarbage_sustains

/-- A change of neither the objects nor the caches. -/
theorem CellHistory.sameEntries {m : Machine} (hheap : m.heap.entries = s.machine.heap.entries)
    (hregistry : m.registry = s.machine.registry) :
    CellHistory s.image first past (heaps ++ [m.heap]) m := by
  have hobject : ∀ x, m.heap.object x = s.machine.heap.object x := fun x => by
    rw [Heap.object, Heap.object, Heap.entry?, Heap.entry?, hheap]
  exact hh.later (hh.confined.same hheap hregistry).2 (.of_object_eq (by rw [hheap]) hobject)
    (.of_mono fun y hy => by rwa [Heap.contains_eq_of_object_eq (hobject y)])

include ht

theorem HostAction.cellHistory (a : HostAction)
    (ha : Value.AllAmong (s.machine.heap.known s.image) (Request.act a).values) :
    CellHistory s.image first (past ++ a.moments s) (heaps ++ (Request.act a).heaps s)
      (a.perform s.image s.machine).2 := by
  have hc := (a.confined ht hh.confined ha).2.1
  have hassoc : heaps ++ (Request.act a).heaps s = heaps ++ (a.moments s).flatMap Moment.heaps ++
      [(a.perform s.image s.machine).2.heap] := (List.append_assoc ..).symm
  rw [hassoc]
  cases hcourse : a.course? s with
  | some start =>
    obtain ⟨c, m⟩ := start
    obtain ⟨hheap, hregistry⟩ := machine_of_course hcourse
    have hdiscreet := a.course_discreet ht hh.confined ha hcourse
    have hstart := (hh.confined.same (congrArg Heap.entries hheap) hregistry).2
    rw [perform_of_course hcourse, moments, hcourse]
    exact ((hh.same hstart hheap).course ht (hheap ▸ hdiscreet)).still
  | none =>
    have hmoments : a.moments s = [] := by rw [moments, hcourse]
    rw [hmoments, List.append_nil] at hc ⊢
    rw [List.flatMap_nil, List.append_nil]
    by_cases hcollect : a = .collectGarbage
    · subst hcollect
      rw [perform, EvalM.map_apply]
      exact hh.collectGarbage
    · refine hh.later hc (a.lasts_sparingCells ht hcourse) (.of_mono ?_)
      exact (a.keeps .keepingIntact (fun h => h.keepsIntact_unroot) (fun v _ =>
        (EvalM.Keeps.retain Heap.EvalRelation.roots_keepingIntact v _ _).2) hcollect).mono

/-- Every request of a client that passes what may be known keeps the account. -/
theorem Request.cellHistory (r : Request)
    (hr : Value.AllAmong (s.machine.heap.known s.image) r.values) :
    CellHistory s.image first (past ++ r.moments s) (heaps ++ r.heaps s)
      (r.perform s.image s.machine).2 := by
  rcases r.act_or_sameState s with ⟨a, heq, hmoments, ha⟩ | ⟨hstate, hmoments⟩
  · rw [Request.heaps, heq, hmoments]
    exact a.cellHistory ht hh fun v hv => hr v (values_of_act ha v hv)
  · rw [Request.heaps, hmoments, List.append_nil]
    exact hh.sameEntries hstate.entries hstate.registry

end Requests

/-! ## Runs -/

section Runs

variable {s₀ s : Session} {past : List Moment} {heaps : List Heap}

/-- The last object that loading makes is the environment at top level, after the global
object and cells for its slots. -/
theorem Session.opened_of_load {p : Program} {config : Config}
    (hload : Session.load p config = .ok s) : ∃ (h : Heap) (e : Environment),
      Heap.empty.Lasts (.sparingCells s.image.tree fun _ => False) h ∧
        s.image.globalEnvironment = ⟨h.entries.size⟩ ∧
        s.machine.heap = (Heap.root ⟨h.entries.size⟩ (h.allocate (.environment e)).2).2 ∧
        e.Furnished s.image.tree h ∧ ∀ b c, e.HoldsCell s.image.tree b c →
          s.image.globalObject.index < c.index ∧ c.index < h.entries.size := by
  obtain ⟨ht, -⟩ := confined_of_load hload
  obtain ⟨resolved, hloaded⟩ := Session.loaded hload
  have hglobals := hloaded.globals
  rw [← hloaded.tree] at hglobals
  obtain ⟨hobject, h₀, h₁, hpinned, hrun, hheap⟩ := setUpGlobals_eq_ok hglobals
  have hsize : h₀.entries.size = s.image.globalObject.index + 1 := by
    rw [hpinned, Heap.size_root, Heap.size_allocate, hobject]
  have hfirst : Heap.empty.Lasts (.sparingCells s.image.tree fun _ => False) h₀ :=
    hpinned ▸ (Heap.lasts_allocate_of_not_reader rfl).trans (Heap.lasts_root _ _)
  obtain ⟨h₂, hl, -, ⟨error, herror⟩ | ⟨e, hnew, hfurnished, hcells⟩⟩ :=
    Heap.newEnvironment_furnishes (h := h₀) ht ScopeTree.global .outermost (some .undefined)
  · cases hrun.symm.trans herror
  · obtain ⟨hx, rfl⟩ := Prod.mk.inj (hrun.symm.trans hnew)
    have hx := Except.ok.inj hx
    refine ⟨h₂, e, hfirst.trans hl, hx, hx ▸ hheap, hfurnished, fun b c hc => ?_⟩
    obtain ⟨hge, hlt⟩ := hcells b c hc
    exact ⟨by omega, hlt⟩

/-- After loading there are no functions and only one environment. -/
theorem Session.furnished_of_load {p : Program} {config : Config}
    (hload : Session.load p config = .ok s) : s.machine.heap.Furnished s.image.tree ∧
      (∀ g f, s.machine.heap.function g ≠ .ok f) ∧
      ∀ x e, s.machine.heap.environment x = .ok e → x = s.image.globalEnvironment ∧
        ∀ b c, e.HoldsCell s.image.tree b c →
          s.image.globalObject.index < c.index ∧ c.index < x.index := by
  obtain ⟨h, e, hl, hglobal, hheap, hfurnished, hcells⟩ := opened_of_load hload
  rw [hglobal, hheap]
  have hroot : ∀ x, Heap.object (Heap.root ⟨h.entries.size⟩ (h.allocate (.environment e)).2).2 x =
      Heap.object (h.allocate (.environment e)).2 x := Heap.object_root _ _
  have hnone : ∀ x e', h.environment x ≠ .ok e' := fun x e' he' => by
    obtain ⟨e₀, he₀⟩ := (hl.opened x e' he').resolve_right fun hnew => hnew.2
    exact Nat.not_lt_zero _ (Heap.lt_of_contains (Heap.contains_of_environment he₀))
  refine ⟨?_, fun g f hg => ?_, fun x e' he' => ?_⟩
  · have hbefore : h.Furnished s.image.tree := fun x e' he' => absurd he' (hnone x e')
    have hroots : (h.allocate (.environment e)).2.Lasts
        (.sparingCells s.image.tree fun _ => False)
        (Heap.root ⟨h.entries.size⟩ (h.allocate (.environment e)).2).2 := Heap.lasts_root _ _
    refine (hbefore.allocate hfurnished).lasts hroots (.of_mono fun y hy => ?_)
    rwa [Heap.contains_eq_of_object_eq (hroot y)]
  · rw [Heap.function_eq_ok, hroot] at hg
    rcases Heap.object_of_allocate hg with heq | hold
    · cases heq
    · have hf := (hl.made g f (Heap.function_eq_ok.2 hold)).resolve_right fun hnew => hnew.2
      exact Nat.not_lt_zero _ (Heap.lt_of_contains (Heap.contains_of_function hf))
  · rw [Heap.environment_eq_ok, hroot] at he'
    by_cases hx : x = ⟨h.entries.size⟩
    · subst hx
      rw [Heap.object_allocate_self] at he'
      obtain rfl := Object.environment.inj (Except.ok.inj he')
      exact ⟨rfl, hcells⟩
    · rw [Heap.object_allocate_of_ne _ hx] at he'
      exact absurd (Heap.environment_eq_ok.2 he') (hnone x e')

theorem cellHistory_of_load {p : Program} {config : Config}
    (hload : Session.load p config = .ok s) :
    CellHistory s.image s.machine.heap [] [s.machine.heap] s.machine := by
  obtain ⟨-, hc⟩ := confined_of_load hload
  obtain ⟨hfurnished, hnone, -⟩ := Session.furnished_of_load hload
  have hcelled : s.machine.heap.Celled s.image [s.machine.heap] :=
    ⟨hc.sealed, hfurnished, fun g f bindings this hg => absurd hg (hnone g f)⟩
  exact {
    confined := hc
    last := List.mem_singleton.2 rfl
    lasts := List.pairwise_singleton ..
    since := List.forall_mem_singleton.2 (.refl ..)
    celled := List.forall_mem_singleton.2 hcelled
    recorded := fun a ha => absurd ha List.not_mem_nil
    apart := .nil
    first_mem := List.mem_singleton.2 rfl
    first_le := List.forall_mem_singleton.2 (Nat.le_refl _)
    opened := List.forall_mem_singleton.2 fun x e he => .inl ⟨e, he⟩ }

theorem RecordedRun.image_eq (hrun : RecordedRun s₀ s past heaps) : s.image = s₀.image := by
  induction hrun with
  | start => rfl
  | step r _ _ ih => exact ih

/-- Every run can be recorded. -/
theorem DiscreetRun.recorded (hrun : DiscreetRun s₀ s past) :
    ∃ heaps, RecordedRun s₀ s past heaps := by
  induction hrun with
  | start => exact ⟨_, .start⟩
  | step r _ hr ih =>
    obtain ⟨heaps, hrun⟩ := ih
    exact ⟨_, hrun.step r hr⟩

/-- So can every run of a host. -/
theorem HostRun.recorded {held : List Value} {p : Program} {config : Config}
    (hload : Session.load p config = .ok s₀) (hrun : HostRun s₀ s held past) :
    ∃ heaps, RecordedRun s₀ s past heaps := by
  obtain ⟨ht, hc⟩ := confined_of_load hload
  exact (hrun.discreet ht hc).1.recorded

theorem RecordedRun.cellHistory {first : Heap} (hrun : RecordedRun s₀ s past heaps)
    (ht : s₀.image.tree.Proper)
    (hh : CellHistory s₀.image first [] [s₀.machine.heap] s₀.machine) :
    CellHistory s.image first past heaps s.machine := by
  induction hrun with
  | start => exact hh
  | step r hrun hr ih => exact r.cellHistory (hrun.image_eq ▸ ht) ih hr

end Runs

/-! ## What the account says -/

/-- Of two items of a list one comes before the other. -/
theorem List.rel_or_rel_of_pairwise {α : Type} {R : α → α → Prop} {l : List α}
    (hl : l.Pairwise R) {a b : α} (ha : a ∈ l) (hb : b ∈ l) (hne : a ≠ b) : R a b ∨ R b a := by
  have hsymm : Std.Symm fun a b => R a b ∨ R b a := ⟨fun _ _ => Or.symm⟩
  have hl : l.Pairwise fun a b => R a b ∨ R b a := hl.imp Or.inl
  exact hl.forall ha hb hne

namespace CellHistory

variable {image : Image} {first : Heap} {past : List Moment} {heaps : List Heap} {m : Machine}
  (ht : image.tree.Proper) (hh : CellHistory image first past heaps m) {h h' : Heap}
  {x x' c : ObjectId} {b b' : BindingId}

include hh

theorem lasts_or (hmem : h ∈ heaps) (hmem' : h' ∈ heaps) :
    h.Lasts (.keepingCells image.tree) h' ∨ h'.Lasts (.keepingCells image.tree) h := by
  rcases eq_or_ne h h' with rfl | hne
  · exact .inl (.refl ..)
  · exact List.rel_or_rel_of_pairwise hh.lasts hmem hmem' hne

include ht

/-- An environment holds the same cells in all heaps that it is in. -/
theorem holdsCell (hmem : h ∈ heaps) (hmem' : h' ∈ heaps) (hc : h.HoldsCell image.tree x b c)
    {e' : Environment} (he' : h'.environment x = .ok e') : h'.HoldsCell image.tree x b c := by
  obtain ⟨e, he⟩ := hc.environment
  rcases hh.lasts_or hmem hmem' with hl | hl
  · exact (hl.holdsCell_iff (hh.celled _ hmem) (hh.celled _ hmem') ht he he').2 hc
  · exact (hl.holdsCell_iff (hh.celled _ hmem') (hh.celled _ hmem) ht he' he).1 hc

/-- A cell comes with its environment: from the start, or in the moment that opens it. -/
theorem origin (hmem : h ∈ heaps) (hc : h.HoldsCell image.tree x b c) :
    first.HoldsCell image.tree x b c ∨
      ∃ a ∈ past, a.Opens image.tree x ∧ a.after.heap.HoldsCell image.tree x b c := by
  obtain ⟨e, he⟩ := hc.environment
  rcases hh.opened h hmem x e he with ⟨e₀, he₀⟩ | ⟨a, ha, hopens⟩
  · exact .inl (hh.holdsCell ht hmem hh.first_mem hc he₀)
  · obtain ⟨e', he'⟩ := hopens.opened
    exact .inr ⟨a, ha, hopens, hh.holdsCell ht hmem (hh.recorded a ha).2 hc he'⟩

/-- Environments that hold the same cell are the same, if there is only one to start with:
cells that are made in different moments differ. -/
theorem environment_eq_of_holdsCell
    (hone : ∀ x x' e e', first.environment x = .ok e → first.environment x' = .ok e' → x = x')
    (hmem : h ∈ heaps) (hmem' : h' ∈ heaps) (hc : h.HoldsCell image.tree x b c)
    (hc' : h'.HoldsCell image.tree x' b' c) : x = x' := by
  have hlater : ∀ {a : Moment} {x : ObjectId} {b}, a ∈ past → a.Opens image.tree x →
      a.after.heap.HoldsCell image.tree x b c → first.entries.size ≤ c.index := by
    intro a x b ha hopens hc
    exact Nat.le_trans (hh.first_le _ (hh.recorded a ha).1) (hopens.cells b c hc).1
  rcases hh.origin ht hmem hc with hfirst | ⟨a, ha, hopens, hafter⟩ <;>
    rcases hh.origin ht hmem' hc' with hfirst' | ⟨a', ha', hopens', hafter'⟩
  · obtain ⟨e, he⟩ := hfirst.environment
    obtain ⟨e', he'⟩ := hfirst'.environment
    exact hone x x' e e' he he'
  · exact absurd hfirst.lt (Nat.not_lt_of_le (hlater ha' hopens' hafter'))
  · exact absurd hfirst'.lt (Nat.not_lt_of_le (hlater ha hopens hafter))
  · rcases eq_or_ne a a' with rfl | hne
    · exact hopens.unique hopens'
    · have hge := (hopens.cells b c hafter).1
      have hge' := (hopens'.cells b' c hafter').1
      have hlt := hafter.lt
      have hlt' := hafter'.lt
      rcases List.rel_or_rel_of_pairwise hh.apart ha ha' hne with hle | hle <;> omega

/-- So are the bindings that they hold it for. -/
theorem binding_eq_of_holdsCell (hmem : h ∈ heaps) (hmem' : h' ∈ heaps)
    (hc : h.HoldsCell image.tree x b c) (hc' : h'.HoldsCell image.tree x b' c) : b = b' := by
  obtain ⟨e', he'⟩ := hc'.environment
  have hcelled := hh.celled _ hmem'
  refine (hcelled.furnished x e' he').one b b' c ?_ ?_
  · exact (hcelled.holdsCell_iff ht he').1 (hh.holdsCell ht hmem hmem' hc he')
  · exact (hcelled.holdsCell_iff ht he').1 hc'

/-- Keys that are built from one environment, whenever, have the same cells in them. -/
theorem component_eq (hmem : h ∈ heaps) (hmem' : h' ∈ heaps) {env : ObjectId} {a : Capture}
    (hmode : a.mode = .cell) {k k' : KeyComponent}
    (hk : a.component (h.liveScope image.tree env) = .ok k)
    (hk' : a.component (h'.liveScope image.tree env) = .ok k') :
    k = k' ∧ ∃ b x cell, ∃ h₁ ∈ heaps, a.binding = some b ∧ k = .cellRef cell ∧
      h₁.HoldsCell image.tree x b cell := by
  have hcelled := hh.celled h hmem
  have hcelled' := hh.celled h' hmem'
  rcases hh.lasts_or hmem hmem' with hl | hl
  · exact hl.component_eq ht hcelled hcelled' hmem hmode hk hk'
  · obtain ⟨heq, hcell⟩ := hl.component_eq ht hcelled' hcelled hmem' hmode hk' hk
    exact ⟨heq.symm, heq ▸ hcell⟩

/-- Slots that have the same cell in them are the same. -/
theorem slot_eq_of_cellAt
    (hone : ∀ x x' e e', first.environment x = .ok e → first.environment x' = .ok e' → x = x')
    (hmem : h ∈ heaps) (hmem' : h' ∈ heaps) {i i' : Nat} (hc : h.CellAt x i c)
    (hc' : h'.CellAt x' i' c) : x = x' ∧ i = i' := by
  obtain ⟨b, d, hd, rfl, hholds⟩ := hc.holdsCell (hh.celled h hmem).sealed
  obtain ⟨b', d', hd', rfl, hholds'⟩ := hc'.holdsCell (hh.celled h' hmem').sealed
  obtain rfl := hh.environment_eq_of_holdsCell ht hone hmem hmem' hholds hholds'
  obtain rfl := hh.binding_eq_of_holdsCell ht hmem hmem' hholds hholds'
  obtain rfl := Option.some.inj (hd.symm.trans hd')
  exact ⟨rfl, rfl⟩

/-- Reaches of a definition from one environment have the same cell in their keys. -/
theorem reaches_cell {a a' : Moment} (ha : a ∈ past) (ha' : a' ∈ past) {env : ObjectId}
    {spec : CaptureSpec} {r r' : Reach} (hr : a.Reaches image env spec r)
    (hr' : a'.Reaches image env spec r') (hregular : spec.Regular image.tree) {i : Nat}
    {c : Capture} (hi : spec.captures[i]? = some c) {d : Binding} (hb : c.binding = some b)
    (hd : image.tree.binding? b = some d) (hcell : d.storage = .cell) :
    ∃ y cell, ∃ h ∈ heaps, h.HoldsCell image.tree y b cell ∧
      r.key.components[i]? = some (.cellRef cell) ∧
      r'.key.components[i]? = some (.cellRef cell) := by
  obtain ⟨d', hd', htakes⟩ := hregular.takes c (List.mem_of_getElem? hi) b hb
  obtain rfl := Option.some.inj (hd.symm.trans hd')
  have hmode : c.mode = .cell := by
    cases htakes with
    | cell _ _ hmode => exact hmode
    | value _ hslot => cases hcell.symm.trans hslot
  obtain ⟨k, hk, hi₁⟩ :=
    Except.getElem?_of_mapM_eq_ok (CaptureSpec.components_of_buildKey hr.key) hi
  obtain ⟨k', hk', hi₂⟩ :=
    Except.getElem?_of_mapM_eq_ok (CaptureSpec.components_of_buildKey hr'.key) hi
  obtain ⟨rfl, b', y, cell, h, hmem, hb', rfl, hholds⟩ :=
    hh.component_eq ht (hh.recorded a ha).1 (hh.recorded a' ha').1 hmode hk hk'
  obtain rfl := Option.some.inj (hb.symm.trans hb')
  exact ⟨y, cell, h, hmem, hholds, hi₁, hi₂⟩

end CellHistory

/-- Cells are private and permanent in the heaps of a run. -/
structure PrivateCells (image : Image) (past : List Moment) (heaps : List Heap) : Prop where
  /-- The heaps are those before and after each moment, among others. -/
  recorded : ∀ a ∈ past, a.before.heap ∈ heaps ∧ a.after.heap ∈ heaps
  /-- Every environment has a cell in the slot of each binding that is kept in one. -/
  held : ∀ h ∈ heaps, ∀ x e b d, h.environment x = .ok e → image.tree.binding? b = some d →
    d.scope = e.scope → d.storage = .cell → ∃ c, h.HoldsCell image.tree x b c
  /-- The cell was made when the environment was: in the moment that opened it, or, if it is
  the one at top level, by loading. -/
  made : ∀ h ∈ heaps, ∀ x b c, h.HoldsCell image.tree x b c →
    (x = image.globalEnvironment ∧ image.globalObject.index < c.index ∧ c.index < x.index) ∨
      ∃ a ∈ past, a.Opens image.tree x ∧ a.before.heap.entries.size ≤ c.index ∧
        c.index < x.index ∧ x.index < a.after.heap.entries.size
  /-- It stays where it is as long as the environment is there. -/
  permanent : ∀ h ∈ heaps, ∀ h' ∈ heaps, ∀ x b c e', h.HoldsCell image.tree x b c →
    h'.environment x = .ok e' → h'.HoldsCell image.tree x b c
  /-- No other slot has it in it, of this or another environment, then or at another time. -/
  apart : ∀ h ∈ heaps, ∀ h' ∈ heaps, ∀ x x' i i' c, h.CellAt x i c → h'.CellAt x' i' c →
    x = x' ∧ i = i'
  /-- A shared function that captures the binding has the cell of an environment. -/
  table : ∀ h ∈ heaps, ∀ g f bindings this, h.function g = .ok f →
    f.closure = .captured bindings this →
      ∀ entry ∈ bindings, entry.2.FromCell image.tree heaps entry.1
  /-- Reaches of a definition from one environment have the same cell in their keys. -/
  reached : ∀ a ∈ past, ∀ a' ∈ past, ∀ env spec x x', a.Reaches image env spec x →
    a'.Reaches image env spec x' → ∀ (i : Nat) c b d, spec.captures[i]? = some c →
      c.binding = some b → image.tree.binding? b = some d → d.storage = .cell →
        ∃ y cell, ∃ h ∈ heaps, h.HoldsCell image.tree y b cell ∧
          x.key.components[i]? = some (.cellRef cell) ∧
          x'.key.components[i]? = some (.cellRef cell)

section Runs

variable {s₀ s : Session} {past : List Moment} {heaps : List Heap}

/-- In every run of a loaded program cells are private to one environment and permanent. -/
theorem RecordedRun.privateCells {p : Program} {config : Config}
    (hload : Session.load p config = .ok s₀) (hrun : RecordedRun s₀ s past heaps) :
    PrivateCells s.image past heaps := by
  have himage := hrun.image_eq
  obtain ⟨resolved, hloaded⟩ := Session.loaded hload
  have ht : s.image.tree.Proper := himage ▸ (confined_of_load hload).1
  obtain ⟨-, -, hstart⟩ := Session.furnished_of_load hload
  have hh := hrun.cellHistory (himage ▸ ht) (cellHistory_of_load hload)
  rw [← himage] at hstart
  constructor
  case recorded => exact hh.recorded
  case held =>
    intro h hmem x e b d he hd hscope hcell
    obtain ⟨c, hc, -⟩ := (hh.celled h hmem).furnished.exists_holdsCell ht (hh.celled h hmem).sealed
      he hd hscope hcell
    exact ⟨c, hc⟩
  case made =>
    intro h hmem x b c hc
    rcases hh.origin ht hmem hc with ⟨e, _, he, hholds, -⟩ | ⟨a, ha, hopens, hafter⟩
    · obtain ⟨hx, hcells⟩ := hstart x e he
      exact .inl ⟨hx, hcells b c hholds⟩
    · obtain ⟨hge, hlt⟩ := hopens.cells b c hafter
      obtain ⟨e, he⟩ := hopens.opened
      exact .inr ⟨a, ha, hopens, hge, hlt, Heap.lt_of_contains (Heap.contains_of_environment he)⟩
  case permanent => exact fun h hmem h' hmem' x b c e' hc => hh.holdsCell ht hmem hmem' hc
  case apart =>
    intro h hmem h' hmem' x x' i i' c
    exact hh.slot_eq_of_cellAt ht (fun x x' e e' he he' =>
      (hstart x e he).1.trans (hstart x' e' he').1.symm) hmem hmem'
  case table => exact fun h hmem => (hh.celled h hmem).tables
  case reached =>
    intro a ha a' ha' env spec x x' hx hx' i c b d hi hb hd hcell
    have hregular := hloaded.regular (himage ▸ hx.shared)
    exact hh.reaches_cell ht ha ha' hx hx' (himage ▸ hregular) hi hb hd hcell

end Runs

/-! ## A cell that is written between two reaches

At top level `y` has a cell, and the test of a loop calls a shared arrow that counts `y` up. -/

def countingProgram : Program where
  body :=
    let y : Identifier := ⟨"y", .unresolved⟩
    let next : Expression := .assign y (.binary .add (.identifier y) (.literal (.number 1)))
    let arrow : FunctionNode := ⟨none, .arrow, .plain, true, [], none, [.returning (some next)],
      ⟨0, 0, 0, 0, 0, 0⟩, none, none, none⟩
    [.declaration .letDeclaration y (some (.literal (.number 0))) .cell,
      .whileLoop (.binary .lt (.call (.function arrow) []) (.literal (.number 2))) ⟨[], none⟩]

theorem isSome_load_counting :
    (Session.load countingProgram .deterministic).toOption.isSome = true := by
  decide +kernel

/-- The arrow is reached twice with the cell of `y` in its key, which then contains 2. -/
theorem privateCells_counting : ∃ s₀ s past heaps,
    Session.load countingProgram .deterministic = .ok s₀ ∧ RecordedRun s₀ s past heaps ∧
      reaches s.image past = [⟨⟨0⟩, ⟨[.cellRef ⟨1⟩]⟩, ⟨4⟩⟩, ⟨⟨0⟩, ⟨[.cellRef ⟨1⟩]⟩, ⟨4⟩⟩] ∧
      s.machine.heap.cellContents ⟨1⟩ = .ok (some (.number 2)) ∧
      PrivateCells s.image past heaps := by
  have hload : Session.load countingProgram .deterministic =
      .ok ((Session.load countingProgram .deterministic).toOption.get isSome_load_counting) :=
    Except.eq_ok_get isSome_load_counting
  have hrun : RecordedRun
      ((Session.load countingProgram .deterministic).toOption.get isSome_load_counting) _ _ _ :=
    .step (.act (.run 40)) .start (fun v hv => absurd hv List.not_mem_nil)
  exact ⟨_, _, _, _, hload, hrun, by decide +kernel, by decide +kernel, hrun.privateCells hload⟩

end ClosureCache
