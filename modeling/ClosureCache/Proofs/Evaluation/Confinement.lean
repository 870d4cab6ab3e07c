/-
The machine's own objects never escape.

A client of a session knows the objects that it made and the values that it was given,
and passes nothing else but primitives.  By induction over its requests the heap is sealed
in every state, also between the actions of an evaluation, and whatever the client and
the program come to know is a value of the program.  So no action but reaching a
definition touches a cache, and reaching one does it through the cache alone.

The invariant of the states is `Confined`.  Closures that the caches hold are given out
again, so it keeps in view what was given out before.
-/
import ClosureCache.Proofs.Evaluation.Collections
import ClosureCache.Proofs.Evaluation.Sealing

namespace ClosureCache

namespace Heap

variable {image : Image} {h h' : Heap}

/-- A step of the caches changes no role. -/
theorem Adds.keepsRoles {made : Object → Prop} (ha : Adds made h h') : h.KeepsRoles h' := by
  refine ⟨ha.size_le, fun x o' hx ho' => ?_⟩
  have hin : h.contains x = true := by
    rw [← ha.contains x hx]
    exact contains_of_object ho'
  obtain ⟨e, he⟩ := contains_iff.1 hin
  have ho := object_of_some he
  refine ⟨e.object, ho, ?_⟩
  cases hpart : e.object.isPart with
  | false =>
    rw [ha.object x _ ho hpart] at ho'
    rw [Except.ok.inj ho']
  | true =>
    cases hpart' : o'.isPart with
    | false =>
      rcases ha.plain x o' ho' hpart' with hold | ⟨hnew, -⟩
      · rw [ho] at hold
        rw [Except.ok.inj hold]
      · exact absurd hx (Nat.not_lt_of_le hnew)
    | true => rw [Object.role_eq_part.2 hpart, Object.role_eq_part.2 hpart']

theorem Sealed.adds (hs : h.Sealed image) {made : Object → Prop} (ha : Adds made h h')
    (hmade : ∀ o, made o → o.Sealed image h) : h'.Sealed image := by
  refine hs.keepsRoles ha.keepsRoles fun x o ho => ?_
  cases hpart : o.isPart with
  | true => exact .inr (.of_isPart hpart)
  | false =>
    exact (ha.plain x o ho hpart).imp id fun hnew => (hmade o hnew.2).keepsRoles ha.keepsRoles

theorem Sealed.collected (hs : h.Sealed image) {keep : MarkSet} (hc : Collected h h' keep) :
    h'.Sealed image := by
  refine hs.keepsRoles hc.keepsRoles fun x o ho => ?_
  cases hpart : o.isPart with
  | true => exact .inr (.of_isPart hpart)
  | false => exact .inl (hc.object_of_left ho hpart)

end Heap

/-- A reach is of a definition, and gives what the action is answered with. -/
theorem Moment.function_of_reach? {image : Image} {a : Action} {m : Machine} {x : Reach}
    (hx : (a.moment image m).reach? image = some x) : ∃ node env, a = .instantiate node env ∧
      (EvalM.instantiate node env image m).1 = .ok (.object x.function) := by
  cases a with
  | instantiate node env =>
    refine ⟨node, env, rfl, ?_⟩
    have hmoment : (Action.instantiate node env).moment image m =
        ⟨.instantiate node env, m, (EvalM.instantiate node env image m).1,
          (EvalM.instantiate node env image m).2⟩ := rfl
    rw [hmoment] at hx
    generalize EvalM.instantiate node env image m = r at hx
    obtain ⟨result, m'⟩ := r
    cases result with
    | error e => cases hx
    | ok v =>
      cases v with
      | object f =>
        obtain ⟨site, -, hmatch⟩ := Option.bind_eq_some_iff.1 hx
        split at hmatch
        · obtain ⟨key, -, rfl⟩ := Option.map_eq_some_iff.1 hmatch
          rfl
        · cases hmatch
      | _ => cases hx
  | _ => cases hx

/-- The machine's own objects are those that are no values of the program. -/
theorem Object.role_eq_value {o : Object} : o.role = .value ↔ o.isInternal = false := by
  cases o <;> simp [role, isInternal, isPart]

/-! ## States -/

/-- A moment in which only what may be known is given and answered, and only reaching a
definition touches the caches. -/
structure Moment.Confined (image : Image) (a : Moment) : Prop where
  before : a.before.heap.Sealed image
  after : a.after.heap.Sealed image
  keepsRoles : a.before.heap.KeepsRoles a.after.heap
  inputsKnown : a.action.InputsKnown (a.before.heap.known image)
  answerKnown : ∀ answer, a.result = .ok answer →
    a.action.AnswerKnown (a.after.heap.known image) answer
  untouched : (∀ node env, a.action ≠ .instantiate node env) →
    a.after.registry = a.before.registry ∧ a.before.heap.Spares a.before.heap.IsPart a.after.heap

/-- A state in which nothing of the machine's own has escaped. -/
structure Confined (image : Image) (past : List Moment) (m : Machine) : Prop where
  orderly : ∃ labels, Orderly image [] past m labels
  accounted : m.Accounted image past
  sealed : m.heap.Sealed image
  globalEnvironment : (m.heap.known image).environments image.globalEnvironment
  /-- The closures that were given out. -/
  given : ∀ x ∈ reaches image past, (m.heap.known image).objects x.function
  moments : ∀ a ∈ past, a.Confined image

namespace Confined

variable {image : Image} {past : List Moment} {m m' : Machine}

/-- A later machine without further moments. -/
theorem later (hc : Confined image past m) (ha : m.heap.KeepsRoles m'.heap)
    (ho : ∃ labels, Orderly image [] past m' labels) (hacc : m'.Accounted image past)
    (hs : m'.heap.Sealed image) : Confined image past m' :=
  ⟨ho, hacc, hs, (ha.known_le image).environments _ hc.globalEnvironment,
    fun x hx => (ha.known_le image).objects _ (hc.given x hx), hc.moments⟩

/-- A step that leaves the caches alone and the heap sealed. -/
theorem step {α : Type} (hc : Confined image past m) {x : EvalM α}
    (hx : ∀ T : Heap.EvalRelation, T.Roots → x.Keeps T) (hs : (x image m).2.heap.Sealed image) :
    m.heap.KeepsRoles (x image m).2.heap ∧ Confined image past (x image m).2 := by
  obtain ⟨labels, ho⟩ := hc.orderly
  obtain ⟨hregistry, hroles⟩ := hx .keepingRoles Heap.EvalRelation.roots_keepingRoles image m
  have hspares := (hx .sparing Heap.EvalRelation.roots_sparing image m).2
  exact ⟨hroles, hc.later hroles ⟨labels, ho.spareParts hregistry hspares⟩
    (hc.accounted.spare hregistry hspares) hs⟩

/-- A change of neither the objects nor the caches. -/
theorem same (hc : Confined image past m) (hheap : m'.heap.entries = m.heap.entries)
    (hregistry : m'.registry = m.registry) :
    m.heap.KeepsRoles m'.heap ∧ Confined image past m' := by
  obtain ⟨labels, ho⟩ := hc.orderly
  have hentry : ∀ x, m'.heap.entry? x = m.heap.entry? x := fun x => by
    rw [Heap.entry?, Heap.entry?, hheap]
  have hobject : ∀ x, m'.heap.object x = m.heap.object x := fun x => by
    rw [Heap.object, Heap.object, hentry]
  have hsize : m'.heap.entries.size = m.heap.entries.size := by rw [hheap]
  have hroles : m.heap.KeepsRoles m'.heap := .of_object_eq hsize hobject
  have hspares : m.heap.Spares m.heap.IsPart m'.heap :=
    ⟨Nat.le_of_eq hsize.symm, fun x _ => by rw [Heap.contains, hentry, Heap.contains],
      fun x e _ he => ⟨e.roots, by rw [hentry, he], Nat.le_refl _⟩⟩
  exact ⟨hroles, hc.later hroles ⟨labels, ho.spareParts hregistry hspares⟩
    (hc.accounted.spare hregistry hspares) (hc.sealed.of_object_eq hsize hobject)⟩

/-- What may be known may be released: it is no part of a trie. -/
theorem release (hc : Confined image past m) {v : Value} (hv : v.Among (m.heap.known image)) :
    m.heap.KeepsRoles (EvalM.release v image m).2.heap ∧
      Confined image past (EvalM.release v image m).2 := by
  obtain ⟨labels, ho⟩ := hc.orderly
  have hheap : (∀ x, (EvalM.release v image m).2.heap.object x = m.heap.object x) ∧
      (EvalM.release v image m).2.heap.entries.size = m.heap.entries.size := by
    rw [HostAction.release_heap]
    cases v.object? with
    | none => exact ⟨fun _ => rfl, rfl⟩
    | some id => exact ⟨Heap.object_unroot _ _, Heap.size_unroot _ _⟩
  have hroles : m.heap.KeepsRoles (EvalM.release v image m).2.heap := .of_object_eq hheap.2 hheap.1
  have hheld : Orderly image [v] past m labels := by
    refine ⟨ho.proper, ho.fits, ho.sharing, fun w hw id hid => ?_⟩
    obtain rfl := List.mem_singleton.1 hw
    obtain ⟨-, hwas⟩ := hv id hid
    refine ⟨?_, hwas.lt⟩
    cases hl : labels id with
    | none => rfl
    | some p =>
      obtain ⟨o, ho', hpart⟩ := ho.proper.isPart hl
      have hrole := hwas.role o ho'
      rw [Object.role_eq_part.2 hpart] at hrole
      cases hrole
  exact ⟨hroles, hc.later hroles ⟨labels, (hheld.release List.mem_cons_self).weaken
    fun w hw => absurd hw List.not_mem_nil⟩
    (hc.accounted.shrink (HostAction.release_registry image m v) (.of_object_eq hheap.2 hheap.1))
    (hc.sealed.of_object_eq hheap.2 hheap.1)⟩

theorem collectGarbage (hc : Confined image past m) :
    m.heap.KeepsRoles (EvalM.collectGarbage image m).2.heap ∧
      Confined image past (EvalM.collectGarbage image m).2 := by
  obtain ⟨labels, ho⟩ := hc.orderly
  have hend : m.heap.KeepsRoles (EvalM.collectGarbage image m).2.heap ∧
      (EvalM.collectGarbage image m).2.heap.Sealed image := by
    rcases EvalM.collectGarbage_spec image m rfl with ⟨hheap, -⟩ | ⟨keep, h, hcollected, hend⟩
    · rw [hheap]
      exact ⟨.refl _, hc.sealed⟩
    · have hs := hc.sealed.collected hcollected
      rcases hend with ⟨hheap, -⟩ | hcompact
      · rw [hheap]
        exact ⟨hcollected.keepsRoles, hs⟩
      · have hadds := m.registry.compactAll_adds h
        rw [hcompact] at hadds
        exact ⟨hcollected.keepsRoles.trans hadds.keepsRoles,
          hs.adds hadds fun _ hmade => hmade.elim⟩
  exact ⟨hend.1, hc.later hend.1 ho.collectGarbage hc.accounted.collectGarbage hend.2⟩

variable (ht : image.tree.Proper)

include ht

/-- Reaching a definition leaves the heap sealed. -/
theorem instantiate_sealed (hc : Confined image past m) (node : FunctionNode) {env : ObjectId}
    (henv : (m.heap.known image).environments env) :
    m.heap.KeepsRoles (EvalM.instantiate node env image m).2.heap ∧
      (EvalM.instantiate node env image m).2.heap.Sealed image := by
  have hadds := EvalM.instantiate_adds image m node env
  refine ⟨hadds.keepsRoles, hc.sealed.adds hadds ?_⟩
  rintro o ⟨site, closure, rfl, hmade⟩
  rcases hmade with rfl | ⟨spec, -, hclosure⟩
  · exact henv
  · exact hc.sealed.captureClosure ht hclosure

/-- The closure that it gives is new, or was given out before. -/
theorem instantiate_known (hc : Confined image past m) (node : FunctionNode) {env : ObjectId}
    (henv : (m.heap.known image).environments env) {v : Value}
    (hv : (EvalM.instantiate node env image m).1 = .ok v) :
    v.Among ((EvalM.instantiate node env image m).2.heap.known image) := by
  have hroles := (hc.instantiate_sealed ht node henv).1
  have hend := EvalM.instantiate_spec image node env m
  cases hrun : EvalM.instantiate node env image m with
  | mk result m' =>
    rw [hrun] at hend hroles
    dsimp only at hend hroles ⊢
    cases hend with
    | refused e _ _ _ =>
      rw [hrun] at hv
      cases hv
    | fresh site reason _ _ hheap _ =>
      rw [hrun] at hv
      obtain rfl := Except.ok.inj hv
      rw [hheap]
      exact Value.among_object (hc.sealed.known_allocate rfl)
    | reached site spec _ _ _ hsite hspec _ _ _ =>
      obtain ⟨key, f, rfl, hx⟩ := Moment.exists_reach hv hsite hspec
      refine Value.among_object ?_
      rcases (hc.accounted.instantiate node env).2 _ hx with ⟨_, _, hmakes⟩ | ⟨hmem, -⟩
      · have hmade : (EvalM.instantiate node env image m).2.heap.function f = .ok ⟨site, _⟩ :=
          hmakes.made
        rw [hrun] at hmade
        refine ⟨fun heq => ?_, .of_object (Heap.function_eq_ok.1 hmade)⟩
        exact Nat.not_lt_of_le hmakes.new (heq ▸ hc.sealed.globalObject.lt)
      · exact (hroles.known_le image).objects f (hc.given _ hmem)

/-- An action that is given what may be known keeps everything confined. -/
theorem action (hc : Confined image past m) (a : Action) (ha : a.InputsKnown (m.heap.known image)) :
    m.heap.KeepsRoles (a.perform image m).2.heap ∧ Confined image (past ++ [a.moment image m])
      (a.perform image m).2 ∧ ∀ answer, (a.perform image m).1 = .ok answer →
        a.AnswerKnown ((a.perform image m).2.heap.known image) answer := by
  obtain ⟨labels, ho⟩ := hc.orderly
  have hstep : m.heap.KeepsRoles (a.perform image m).2.heap ∧
      (a.perform image m).2.heap.Sealed image ∧ ∀ answer, (a.perform image m).1 = .ok answer →
        a.AnswerKnown ((a.perform image m).2.heap.known image) answer := by
    by_cases hreach : ∃ node env, a = .instantiate node env
    · obtain ⟨node, env, rfl⟩ := hreach
      obtain ⟨hroles, hs⟩ := hc.instantiate_sealed ht node ha
      exact ⟨hroles, hs, fun v hv => hc.instantiate_known ht node ha hv⟩
    · have hreach : ∀ node env, a ≠ .instantiate node env := fun node env he =>
        hreach ⟨node, env, he⟩
      exact ⟨((a.keeps .keepingRoles hreach fun _ _ => trivial) image m).2,
        a.sealed ht hc.sealed hreach ha, fun answer => a.answerKnown ht hc.sealed hreach ha⟩
  obtain ⟨hroles, hs, htells⟩ := hstep
  refine ⟨hroles, ⟨ho.action a, hc.accounted.action a, hs,
    (hroles.known_le image).environments _ hc.globalEnvironment,
    fun x hx => ?_, fun b hb => ?_⟩, htells⟩
  · obtain ⟨b, hb, hbx⟩ := List.mem_filterMap.1 hx
    rcases List.mem_append.1 hb with hb | hb
    · exact (hroles.known_le image).objects _ (hc.given x (List.mem_filterMap.2 ⟨b, hb, hbx⟩))
    · obtain rfl := List.mem_singleton.1 hb
      obtain ⟨node, env, rfl, hanswer⟩ := Moment.function_of_reach? hbx
      exact htells _ hanswer x.function rfl
  · rcases List.mem_append.1 hb with hb | hb
    · exact hc.moments b hb
    · obtain rfl := List.mem_singleton.1 hb
      exact ⟨hc.sealed, hs, hroles, ha, htells, fun hreach => a.sparesCaches hreach image m⟩

/-- A discreet course keeps everything confined, and its result is as said. -/
theorem course {α : Type} {out : Known → α → Prop} {c : Course α} (hc : Confined image past m)
    (hdiscreet : c.Discreet out (m.heap.known image)) :
    m.heap.KeepsRoles (c.run image m).2.heap ∧
      Confined image (past ++ c.moments image m) (c.run image m).2 ∧
      ∀ a, (c.run image m).1 = .ok a → out ((c.run image m).2.heap.known image) a := by
  induction c generalizing past m with
  | done a =>
    rw [Course.moments, List.append_nil]
    exact ⟨.refl _, hc, fun b hb => Except.ok.inj hb ▸ hdiscreet⟩
  | stop reason =>
    rw [Course.moments, List.append_nil]
    exact ⟨.refl _, hc, fun b hb => by cases hb⟩
  | act action next ih =>
    obtain ⟨hroles, hc', htells⟩ := hc.action ht action hdiscreet.1
    rw [Course.moments, Course.run_act]
    generalize action.moment image m = moment at hc'
    cases hrun : action.perform image m with
    | mk result m' =>
      rw [hrun] at hroles hc' htells
      cases result with
      | error e => exact ⟨hroles, hc', fun b hb => by cases hb⟩
      | ok answer =>
        have hnext := hdiscreet.2 answer _ (hroles.known_le image) (htells answer rfl)
        obtain ⟨hages', hc'', hout⟩ := ih answer hc' hnext
        rw [List.append_assoc] at hc''
        exact ⟨hroles.trans hages', hc'', hout⟩

end Confined

/-! ## Requests -/

theorem Request.values_of_act {r : Request} {a : HostAction}
    (ha : r = .act a ∨ a = .collectGarbage) : ∀ v ∈ (Request.act a).values, v ∈ r.values := by
  rcases ha with rfl | rfl
  · exact fun v hv => hv
  · exact fun v hv => absurd hv List.not_mem_nil

/-- An operation without a result. -/
theorem Confined.silent {image : Image} {past : List Moment} {m : Machine} {α : Type}
    {x : EvalM α} (hroles : m.heap.KeepsRoles (x image m).2.heap)
    (hc : Confined image past (x image m).2) :
    m.heap.KeepsRoles (((fun _ => (none : Option Value)) <$> x) image m).2.heap ∧
      Confined image past (((fun _ => (none : Option Value)) <$> x) image m).2 ∧
      ∀ v, (((fun _ => (none : Option Value)) <$> x) image m).1 = .ok (some v) →
        v.Among ((((fun _ => (none : Option Value)) <$> x) image m).2.heap.known image) := by
  rw [EvalM.map_apply]
  refine ⟨hroles, hc, fun v hv => ?_⟩
  dsimp only at hv
  cases hrun : (x image m).1 with
  | error e =>
    rw [hrun] at hv
    cases hv
  | ok a =>
    rw [hrun] at hv
    cases hv

section Requests

variable {s₀ s : Session} {past : List Moment} (ht : s.image.tree.Proper)
  (hc : Confined s.image past s.machine)

include ht hc

/-- A name at top level has a value that may be known. -/
theorem Session.global?_known {name : String} {v : Value} (hv : s.global? name = some v) :
    v.Among (s.machine.heap.known s.image) := by
  rw [global?] at hv
  split at hv
  · next b _ =>
    cases hread : s.machine.heap.readBinding s.image.tree s.image.globalEnvironment b name with
    | error e =>
      rw [hread] at hv
      cases hv
    | ok w =>
      rw [hread] at hv
      obtain rfl := Option.some.inj hv
      exact hc.sealed.readBinding ht hread
  · split at hv
    · next properties ho =>
      exact hc.sealed.object _ _ ho v (SortedMap.mem_values_iff.2 ⟨name, hv⟩)
    · cases hv

/-- The evaluations that a client starts are discreet. -/
theorem HostAction.course_discreet {a : HostAction}
    (ha : Value.AllAmong (s.machine.heap.known s.image) (Request.act a).values) {c : Course Value}
    {m : Machine} (hcourse : a.course? s = some (c, m)) :
    c.Discreet Course.GivesValue (s.machine.heap.known s.image) := by
  cases a with
  | run steps =>
    rw [course?] at hcourse
    split at hcourse
    · cases hcourse
    · obtain ⟨rfl, -⟩ := Prod.mk.inj (Option.some.inj hcourse)
      exact Course.discreet_program steps hc.globalEnvironment _
  | call steps function this arguments =>
    obtain ⟨rfl, -⟩ := Prod.mk.inj (Option.some.inj hcourse)
    exact (Course.evaluatesDiscreetly steps).call (ha _ List.mem_cons_self)
      (ha _ (List.mem_cons_of_mem _ List.mem_cons_self))
      fun v hv => ha v (List.mem_cons_of_mem _ (List.mem_cons_of_mem _ hv))
  | callGlobal steps name arguments =>
    obtain ⟨function, hfunction, hcm⟩ := Option.map_eq_some_iff.1 hcourse
    obtain ⟨rfl, -⟩ := Prod.mk.inj hcm
    exact (Course.evaluatesDiscreetly steps).call (Session.global?_known ht hc hfunction)
      (Value.among_of_primitive rfl _) ha
  | _ => cases hcourse

/-- An operation that is passed values that may be known keeps everything confined, and
its result may be known. -/
theorem HostAction.confined (a : HostAction)
    (ha : Value.AllAmong (s.machine.heap.known s.image) (Request.act a).values) :
    s.machine.heap.KeepsRoles (a.perform s.image s.machine).2.heap ∧
      Confined s.image (past ++ a.moments s) (a.perform s.image s.machine).2 ∧
      ∀ v, (a.perform s.image s.machine).1 = .ok (some v) →
        v.Among ((a.perform s.image s.machine).2.heap.known s.image) := by
  cases hcourse : a.course? s with
  | some start =>
    obtain ⟨c, m⟩ := start
    obtain ⟨hheap, hregistry⟩ := machine_of_course hcourse
    have hdiscreet := a.course_discreet ht hc ha hcourse
    rw [perform_of_course hcourse, moments, hcourse]
    obtain ⟨-, hstart⟩ := hc.same (congrArg Heap.entries hheap) hregistry
    obtain ⟨hroles, hend, hout⟩ := hstart.course ht (hheap ▸ hdiscreet)
    refine ⟨hheap ▸ hroles, hend, fun v hv => ?_⟩
    dsimp only at hv ⊢
    cases hrun : (c.run s.image m).1 with
    | error e =>
      rw [hrun] at hv
      cases hv
    | ok w =>
      rw [hrun] at hv
      obtain rfl := Option.some.inj (Except.ok.inj hv)
      exact hout _ hrun
  | none =>
    rw [moments, hcourse]
    dsimp only
    rw [List.append_nil]
    cases a with
    | run steps =>
      rw [perform_run_of_ran (ran_of_course?_none hcourse)]
      exact ⟨.refl _, hc, fun v hv => by cases hv⟩
    | call => cases hcourse
    | callGlobal steps name arguments =>
      rw [perform_callGlobal_of_none (Option.map_eq_none_iff.1 hcourse)]
      exact ⟨.refl _, hc, fun v hv => by cases hv⟩
    | setGlobal name v =>
      have hv : v.Among (s.machine.heap.known s.image) := ha v List.mem_cons_self
      have hs : (EvalM.setGlobal name v s.image s.machine).2.heap.Sealed s.image := by
        rw [EvalM.setGlobal, EvalM.bind_of_ok EvalM.read_apply]
        cases s.image.tree.lookupLocal ScopeTree.global name with
        | none => exact hc.sealed.setProperty hv (.object s.image.globalObject) name
        | some b =>
          dsimp only
          rw [EvalM.writeBinding_heap]
          exact hc.sealed.writeBinding ht hv _ b name
      obtain ⟨hroles, hend⟩ := hc.step (fun _ _ => EvalM.Keeps.setGlobal name v) hs
      exact Confined.silent hroles hend
    | newObject properties =>
      have hs : (EvalM.newObject properties s.image s.machine).2.heap.Sealed s.image :=
        hc.sealed.allocate (o := .ordinary _) (Course.allAmong_values_ofList ha)
      obtain ⟨hroles, hend⟩ := hc.step (fun _ _ => EvalM.Keeps.newObject properties) hs
      refine ⟨hroles, hend, fun v hv => ?_⟩
      obtain rfl := Option.some.inj (Except.ok.inj hv)
      exact Value.among_object (hc.sealed.known_allocate rfl)
    | newArray elements =>
      have hs : (EvalM.newArray elements s.image s.machine).2.heap.Sealed s.image :=
        hc.sealed.allocate (o := .array _) ha
      obtain ⟨hroles, hend⟩ := hc.step (fun _ _ => EvalM.Keeps.newArray elements) hs
      refine ⟨hroles, hend, fun v hv => ?_⟩
      obtain rfl := Option.some.inj (Except.ok.inj hv)
      exact Value.among_object (hc.sealed.known_allocate rfl)
    | retain v =>
      have hs : (EvalM.retain v s.image s.machine).2.heap.Sealed s.image := by
        rw [retain_heap]
        cases v.object? with
        | none => exact hc.sealed
        | some id => exact hc.sealed.of_object_eq (Heap.size_root _ _) (Heap.object_root _ _)
      obtain ⟨hroles, hend⟩ := hc.step (fun _ hT => EvalM.Keeps.retain hT v) hs
      exact Confined.silent hroles hend
    | release v =>
      obtain ⟨hroles, hend⟩ := hc.release (ha v List.mem_cons_self)
      exact Confined.silent hroles hend
    | collectGarbage =>
      obtain ⟨hroles, hend⟩ := hc.collectGarbage
      exact Confined.silent hroles hend

/-- A request that is passed values that may be known keeps everything confined, and its
answer may be known. -/
theorem Request.confined (r : Request)
    (hr : Value.AllAmong (s.machine.heap.known s.image) r.values) :
    s.machine.heap.KeepsRoles (r.perform s.image s.machine).2.heap ∧
      Confined s.image (past ++ r.moments s) (r.perform s.image s.machine).2 ∧
      ∀ v, (r.perform s.image s.machine).1 = .ok (some v) →
        v.Among ((r.perform s.image s.machine).2.heap.known s.image) := by
  cases r with
  | act a => exact a.confined ht hc hr
  | «global» name =>
    rw [moments, List.append_nil]
    refine ⟨.refl _, hc, fun v hv => ?_⟩
    exact Session.global?_known ht hc (Except.ok.inj hv)
  | property target name =>
    rw [moments, List.append_nil, perform, EvalM.map_apply, EvalM.ask_apply]
    refine ⟨.refl _, hc, fun v hv => ?_⟩
    dsimp only at hv
    cases hread : s.machine.heap.getProperty target name with
    | error e =>
      rw [hread] at hv
      cases hv
    | ok w =>
      rw [hread] at hv
      obtain rfl := Option.some.inj (Except.ok.inj hv)
      exact hc.sealed.getProperty hread
  | registerWeak target token =>
    rw [moments, List.append_nil]
    obtain ⟨hroles, hend⟩ := hc.same (EvalM.registerWeak_entries target token)
      (EvalM.registerWeak_registry target token)
    exact Confined.silent hroles hend
  | drainFinalizations =>
    rw [moments, List.append_nil]
    obtain ⟨hroles, hend⟩ :
        s.machine.heap.KeepsRoles (EvalM.drainFinalizations s.image s.machine).2.heap ∧
        Confined s.image past (EvalM.drainFinalizations s.image s.machine).2 := hc.same rfl rfl
    exact Confined.silent hroles hend
  | collectIfNeeded =>
    rw [moments, List.append_nil]
    obtain ⟨hroles, hend⟩ :
        s.machine.heap.KeepsRoles (EvalM.collectIfNeeded s.image s.machine).2.heap ∧
        Confined s.image past (EvalM.collectIfNeeded s.image s.machine).2 := by
      rcases EvalM.collectIfNeeded_machine (s := s) with heq | heq
      · rw [heq]
        exact ⟨.refl _, hc⟩
      · rw [heq]
        exact hc.collectGarbage
    exact Confined.silent hroles hend

end Requests

/-! ## Runs -/

variable {s₀ s : Session} {known : List Value} {past : List Moment}

/-- The global object and the environment at top level are made one after the other, and
pinned. -/
theorem setUpGlobals_eq_ok {tree : ScopeTree} {h h' : Heap} {object environment : ObjectId}
    (hrun : setUpGlobals tree h = (.ok (object, environment), h')) :
    object = ⟨h.entries.size⟩ ∧ ∃ h₀ h₁, h₀ = (Heap.root object (h.allocate (.ordinary ∅)).2).2 ∧
      Heap.newEnvironment tree ScopeTree.global .outermost (some .undefined) h₀ =
        (.ok environment, h₁) ∧
      h' = (Heap.root environment h₁).2 := by
  obtain ⟨x, h₁, hallocate, hrun⟩ := HeapM.bind_eq_ok hrun
  obtain ⟨_, h₂, hroot, hrun⟩ := HeapM.bind_eq_ok hrun
  obtain ⟨y, h₃, hnew, hrun⟩ := HeapM.bind_eq_ok hrun
  obtain ⟨_, h₄, hroot', hrun⟩ := HeapM.bind_eq_ok hrun
  rw [HeapM.pure_apply] at hrun
  obtain ⟨heq, rfl⟩ := Prod.mk.inj hrun
  obtain ⟨rfl, rfl⟩ := Prod.mk.inj (Except.ok.inj heq)
  obtain ⟨hx, rfl⟩ := Prod.mk.inj hallocate
  exact ⟨(Except.ok.inj hx).symm, h₂, h₃, (congrArg Prod.snd (HeapM.mapError_eq_ok hroot)).symm,
    hnew, (congrArg Prod.snd (HeapM.mapError_eq_ok hroot')).symm⟩

/-- After loading nothing has escaped. -/
theorem confined_of_load {p : Program} {config : Config} (hload : Session.load p config = .ok s) :
    s.image.tree.Proper ∧ Confined s.image [] s.machine := by
  obtain ⟨resolved, hloaded⟩ := Session.loaded hload
  have ht : s.image.tree.Proper := by
    rw [hloaded.tree]
    exact (Program.settled_of_resolve (P := fun _ => True) hloaded.resolve
      fun _ _ _ _ => trivial).proper
  have hglobals := hloaded.globals
  rw [← hloaded.tree] at hglobals
  obtain ⟨hobject, h₀, h₁, hpinned, hnew, hheap⟩ := setUpGlobals_eq_ok hglobals
  have hempty : ∀ (x : ObjectId) o, Heap.empty.object x ≠ .ok o := fun x o ho => by
    obtain ⟨e, he, -⟩ := Heap.entry?_of_object ho
    cases he
  have hs : Heap.Sealed s.image (Heap.empty.allocate (.ordinary ∅)).2 := by
    refine ⟨hobject ▸ Heap.hasRole_allocate .empty _, fun z o ho => ?_⟩
    rcases Heap.object_of_allocate ho with rfl | hold
    · exact fun v hv => absurd hv List.not_mem_nil
    · exact absurd hold (hempty z o)
  have hrooted : ∀ (h : Heap) x, h.Sealed s.image → (Heap.root x h).2.Sealed s.image :=
    fun h x hs => hs.of_object_eq (Heap.size_root h x) (Heap.object_root h x)
  have hs₁ : h₁.Sealed s.image := by
    have hundefined : ∀ K, Value.AllAmong K (some Value.undefined).toList := fun K v hv =>
      List.mem_singleton.1 hv ▸ Value.among_of_primitive rfl K
    have hend := (hrooted _ s.image.globalObject hs).newEnvironment ht ScopeTree.global
      (show Enclosure.Among _ .outermost from trivial) (hundefined _)
    rwa [← hpinned, hnew] at hend
  obtain ⟨-, e, he, -⟩ := Heap.newEnvironment_eq_ok hnew
  have henv : (h₁.known s.image).environments s.image.globalEnvironment :=
    ⟨e.scope, .of_object (Heap.environment_eq_ok.1 he)⟩
  have hroles := Heap.keepsRoles_root h₁ s.image.globalEnvironment
  rw [← hheap] at hroles
  exact ⟨ht, ⟨_, orderly_of_load hload⟩, accounted_of_load hload, hheap ▸ hrooted h₁ _ hs₁,
    (hroles.known_le s.image).environments _ henv, fun x hx => absurd hx List.not_mem_nil,
    fun a ha => absurd ha List.not_mem_nil⟩

/-- A run in which only what may be known is passed. -/
inductive DiscreetRun (s₀ : Session) : Session → List Moment → Prop where
  | start : DiscreetRun s₀ s₀ []
  | step {s : Session} {past : List Moment} (r : Request) : DiscreetRun s₀ s past →
    Value.AllAmong (s.machine.heap.known s.image) r.values →
    DiscreetRun s₀ (s.perform r.perform).2 (past ++ r.moments s)

/-- A run of a client with the values that it has come to know: it passes these and
primitives. -/
inductive ClientRun (s₀ : Session) : Session → List Value → List Moment → Prop where
  | start : ClientRun s₀ s₀ [] []
  | step {s : Session} {known : List Value} {past : List Moment} (r : Request) :
    ClientRun s₀ s known past → (∀ v ∈ r.values, v.object? = none ∨ v ∈ known) →
    ClientRun s₀ (s.perform r.perform).2 (known ++ (r.answer s).toList) (past ++ r.moments s)

theorem DiscreetRun.image_eq (hrun : DiscreetRun s₀ s past) : s.image = s₀.image := by
  induction hrun with
  | start => rfl
  | step r _ _ ih => exact ih

theorem DiscreetRun.confined (hrun : DiscreetRun s₀ s past) (ht : s₀.image.tree.Proper)
    (hc : Confined s₀.image [] s₀.machine) : Confined s.image past s.machine := by
  induction hrun with
  | start => exact hc
  | step r hrun hr ih => exact (r.confined (hrun.image_eq ▸ ht) ih hr).2.1

/-- What a host may pass may be known. -/
theorem Session.Passable.among {v : Value} (hv : s.Passable v) :
    v.Among (s.machine.heap.known s.image) := by
  intro id hid
  obtain ⟨hne, o, ho, hinternal⟩ := hv id hid
  exact ⟨hne, Object.role_eq_value.2 hinternal ▸ .of_object ho⟩

/-- A host that passes values that are in the heap and not the machine's own is discreet. -/
theorem HostRun.discreet {held : List Value} (hrun : HostRun s₀ s held past)
    (ht : s₀.image.tree.Proper) (hc : Confined s₀.image [] s₀.machine) :
    DiscreetRun s₀ s past ∧ Value.AllAmong (s.machine.heap.known s.image) held := by
  induction hrun with
  | start => exact ⟨.start, fun v hv => absurd hv List.not_mem_nil⟩
  | @step s held past a hrun ha ih =>
    obtain ⟨hdiscreet, hheld⟩ := ih
    have hvalues : Value.AllAmong (s.machine.heap.known s.image) (Request.act a).values := by
      cases a with
      | release v => exact fun w hw => List.mem_singleton.1 hw ▸ hheld v (ha.2 v rfl)
      | _ => exact fun w hw => (ha.1 w hw).among
    obtain ⟨hroles, -⟩ := (Request.act a).confined (hrun.image_eq ▸ ht) (hdiscreet.confined ht hc)
      hvalues
    refine ⟨hdiscreet.step (.act a) hvalues, fun v hv => ?_⟩
    have hbefore : v.Among (s.machine.heap.known s.image) := by
      cases a with
      | retain w =>
        rcases List.mem_cons.1 hv with rfl | hv
        · exact hvalues v List.mem_cons_self
        · exact hheld v hv
      | release w => exact hheld v (List.mem_of_mem_erase hv)
      | _ => exact hheld v hv
    exact hbefore.mono (hroles.known_le s.image)

/-- A client that passes what it has come to know passes only what may be known. -/
theorem ClientRun.discreet (hrun : ClientRun s₀ s known past) (ht : s₀.image.tree.Proper)
    (hc : Confined s₀.image [] s₀.machine) :
    DiscreetRun s₀ s past ∧ Value.AllAmong (s.machine.heap.known s.image) known := by
  induction hrun with
  | start => exact ⟨.start, fun v hv => absurd hv List.not_mem_nil⟩
  | @step s known past r _ hr ih =>
    obtain ⟨hrun, hknown⟩ := ih
    have hvalues : Value.AllAmong (s.machine.heap.known s.image) r.values := fun v hv =>
      (hr v hv).elim (fun hprimitive => Value.among_of_primitive hprimitive _) (hknown v)
    obtain ⟨hroles, -, hanswer⟩ := r.confined (hrun.image_eq ▸ ht) (hrun.confined ht hc) hvalues
    refine ⟨hrun.step r hvalues, fun v hv => ?_⟩
    rcases List.mem_append.1 hv with hv | hv
    · exact (hknown v hv).mono (hroles.known_le s.image)
    · refine hanswer v ?_
      rw [Option.mem_toList, Request.answer] at hv
      split at hv
      · next w hw =>
        rw [← hv]
        exact hw
      · cases hv

/-- In every run of a client everything stays confined: what it has come to know and what
the heap holds are values of the program, and so is all that the actions of evaluations
are given and answered with; no action but reaching a definition touches a cache. -/
theorem ClientRun.internal_objects_confined {p : Program} {config : Config}
    (hload : Session.load p config = .ok s₀) (hrun : ClientRun s₀ s known past) :
    (∀ v ∈ known, ∀ id, v.object? = some id → id ≠ s.image.globalObject ∧
        ∀ o, s.machine.heap.object id = .ok o → o.isInternal = false) ∧
      s.machine.heap.Sealed s.image ∧ ∀ a ∈ past, a.Confined s.image := by
  obtain ⟨ht, hc⟩ := confined_of_load hload
  obtain ⟨hdiscreet, hknown⟩ := hrun.discreet ht hc
  have hend := hdiscreet.confined ht hc
  refine ⟨fun v hv id hid => ?_, hend.sealed, hend.moments⟩
  obtain ⟨hne, hwas⟩ := hknown v hv id hid
  exact ⟨hne, fun o ho => Object.role_eq_value.1 (hwas.role o ho)⟩

/-- A client runs the program of `arrowsOverArguments`, makes an object, keeps it, calls `f`
with it and collects: the heap has a weak map with an entry for the object. -/
theorem internal_objects_confined_arrows : ∃ s₀ s known past,
    Session.load arrowsOverArguments .deterministic = .ok s₀ ∧ ClientRun s₀ s known past ∧
      passedObject ∈ known ∧ (⟨13⟩, .object ⟨17⟩) ∈ s.machine.heap.weakLinks ⟨18⟩ ∧
      (∀ v ∈ known, ∀ id, v.object? = some id → id ≠ s.image.globalObject ∧
        ∀ o, s.machine.heap.object id = .ok o → o.isInternal = false) ∧
      s.machine.heap.Sealed s.image ∧ ∀ a ∈ past, a.Confined s.image := by
  have hload : Session.load arrowsOverArguments .deterministic = .ok arrowsSession :=
    Except.eq_ok_get isSome_load_arrows
  have hprimitive : ∀ {known : List Value} (r : Request), r.values = [] →
      ∀ v ∈ r.values, v.object? = none ∨ v ∈ known := fun r hr v hv => by
    rw [hr] at hv
    exact absurd hv List.not_mem_nil
  have hpassed : ∀ {known : List Value} (r : Request), r.values = [passedObject] →
      passedObject ∈ known → ∀ v ∈ r.values, v.object? = none ∨ v ∈ known := by
    intro known r hr hknown v hv
    rw [hr] at hv
    exact .inr (List.mem_singleton.1 hv ▸ hknown)
  have hran : ClientRun arrowsSession _ _ _ := .step (.act (.run 9)) .start (hprimitive _ rfl)
  have hmade := hran.step (.act (.newObject [])) (hprimitive _ rfl)
  have hkept := hmade.step (.act (.retain passedObject)) (hpassed _ rfl (by decide +kernel))
  have hcalled := hkept.step (.act (.callGlobal 9 "f" [passedObject]))
    (hpassed _ rfl (by decide +kernel))
  have hcollected := hcalled.step (.act .collectGarbage) (hprimitive _ rfl)
  exact ⟨_, _, _, _, hload, hcollected, by decide +kernel, by decide +kernel,
    hcollected.internal_objects_confined hload⟩

end ClosureCache
