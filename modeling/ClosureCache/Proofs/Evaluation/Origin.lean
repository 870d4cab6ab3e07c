/-
Where the closure of a reach comes from.

Whatever a reach of a shared definition gives was made by a reach of it with the same
key, at that moment or before.  `Chronicle` is the account of a run that says so: its
moments in their order, each heap outlasted by those that follow.  That the caches give out
nothing else (`Machine.Accounted`) holds whatever the host passes, roots and releases.
-/
import ClosureCache.Proofs.Cache.Provenance
import ClosureCache.Proofs.Capture.Specs
import ClosureCache.Proofs.Evaluation.Reading

namespace ClosureCache

/-- A moment in which a shared definition is reached from an environment. -/
structure Moment.Reaches (image : Image) (a : Moment) (env : ObjectId) (spec : CaptureSpec)
    (x : Reach) : Prop where
  action : ∃ node, a.action = .instantiate node env
  reach : a.reach? image = some x
  shared : image.analysis.get? x.site = some (.memoized spec)
  key : spec.buildKey (a.before.heap.liveScope image.tree env) = .ok x.key

structure Moment.Makes (image : Image) (a : Moment) (env : ObjectId) (spec : CaptureSpec)
    (x : Reach) (closure : Closure) : Prop extends a.Reaches image env spec x where
  new : a.before.heap.entries.size ≤ x.function.index
  captures : a.before.heap.captureClosure image.tree env spec = .ok closure
  made : a.after.heap.function x.function = .ok ⟨x.site, closure⟩

section Reaches

variable {image : Image} {past : List Moment} {a : Moment} {x : Reach}

theorem Moment.Reaches.spec_eq {env : ObjectId} {spec spec' : CaptureSpec}
    (hx : a.Reaches image env spec' x)
    (hspec : image.analysis.get? x.site = some (.memoized spec)) : spec = spec' := by
  rw [hx.shared] at hspec
  exact (SiteAnalysis.memoized.inj (Option.some.inj hspec)).symm

theorem Moment.Makes.table {env : ObjectId} {spec : CaptureSpec} {closure : Closure}
    (hm : a.Makes image env spec x closure) : ∃ bindings this, closure = .captured bindings this ∧
      a.before.heap.captureTable image.tree env spec.captures none = .ok (bindings, this) := by
  obtain ⟨⟨bindings, this⟩, htable, hclosure⟩ := Except.bind_eq_ok.1 hm.captures
  exact ⟨bindings, this, (Except.ok.inj hclosure).symm, htable⟩

/-- Each capture of a binding has its entry in the table of the closure. -/
theorem Moment.Makes.entry {env : ObjectId} {spec : CaptureSpec} {closure : Closure}
    (hm : a.Makes image env spec x closure) {c : Capture} (hc : c ∈ spec.captures) {b : BindingId}
    (hb : c.binding = some b) : ∃ bindings this slot, closure = .captured bindings this ∧
      (b, slot) ∈ bindings ∧ a.before.heap.captureBinding image.tree env b = .ok slot ∧
      ∀ entry ∈ bindings, entry.1 = b → entry.2 = slot := by
  obtain ⟨bindings, this, rfl, htable⟩ := hm.table
  obtain ⟨hfound, hentries, -⟩ := Heap.captureTable_spec htable
  obtain ⟨slot, hmem⟩ := hfound c hc b hb
  have hslot := (hentries _ hmem).1
  refine ⟨bindings, this, slot, rfl, hmem, hslot, fun entry hentry he => ?_⟩
  have hentry := (hentries entry hentry).1
  rw [he, hslot] at hentry
  exact (Except.ok.inj hentry).symm

/-- The closure that a reach makes reads a captured binding as the reach found it. -/
theorem Moment.Makes.storedFor?_eq {env : ObjectId} {spec : CaptureSpec} {closure : Closure}
    (hm : a.Makes image env spec x closure) {c : Capture} (hc : c ∈ spec.captures) {b : BindingId}
    (hb : c.binding = some b) {d : Binding} (hd : image.tree.binding? b = some d)
    {raw : Option Value} (hraw : a.before.heap.stored? image.tree env b = some raw) :
    ∃ location slot, a.before.heap.locate image.tree env b = .ok (some location) ∧
      a.before.heap.contentsAt location = .ok raw ∧
      a.before.heap.captureSlot d location = .ok slot ∧ (∀ y ∈ slot.refs, y ∈ closure.refs) ∧
      ∀ h : Heap, h.function x.function = .ok ⟨x.site, closure⟩ →
        h.storedFor? x.function b = (h.capturedContents slot).toOption := by
  obtain ⟨bindings, this, slot, rfl, hmem, hcapture, hsame⟩ := hm.entry hc hb
  obtain ⟨d', location, hd', hlocate, hslot⟩ := Heap.captureBinding_eq_ok hcapture
  obtain rfl := Option.some.inj (hd.symm.trans hd')
  obtain ⟨location', hlocate', hcontents⟩ := Heap.stored?_eq_some.1 hraw
  obtain rfl : location = location' := by
    rw [hlocate] at hlocate'
    exact Option.some.inj (Except.ok.inj hlocate')
  refine ⟨location, slot, hlocate, hcontents, hslot, fun y hy => ?_,
    fun h hf => Heap.storedFor?_eq hf rfl hmem hsame⟩
  exact List.mem_append_left _ (List.mem_flatMap.2 ⟨_, hmem, hy⟩)

theorem Moment.reaches_of_reach? (hx : a.reach? image = some x) :
    ∃ env spec, a.Reaches image env spec x := by
  have hreach := hx
  rw [Moment.reach?.eq_def] at hreach
  split at hreach
  · next node env before f after =>
    obtain ⟨site, hsite, hmatch⟩ := Option.bind_eq_some_iff.1 hreach
    split at hmatch
    · next spec hspec =>
      obtain ⟨key, hkey, rfl⟩ := Option.map_eq_some_iff.1 hmatch
      refine ⟨env, spec, ⟨node, rfl⟩, hx, hspec, ?_⟩
      cases hk : spec.buildKey (before.heap.liveScope image.tree env) with
      | error e =>
        rw [hk] at hkey
        cases hkey
      | ok k =>
        rw [hk] at hkey
        exact congrArg Except.ok (Option.some.inj hkey)
    · cases hmatch
  · cases hreach

end Reaches

/-! ## What the caches give out -/

/-- Whatever the caches lead to was given out for its key. -/
def Machine.Accounted (m : Machine) (image : Image) (past : List Moment) : Prop :=
  ∃ chart, m.registry.Charted (given (reaches image past)) chart m.heap

namespace Machine.Accounted

variable {image : Image} {past : List Moment} {m m' : Machine}

/-- A change that leaves the caches alone. -/
theorem spare (ha : m.Accounted image past) (hregistry : m'.registry = m.registry)
    (hs : m.heap.Spares m.heap.IsPart m'.heap) : m'.Accounted image past := by
  obtain ⟨chart, hc⟩ := ha
  exact ⟨chart, hregistry ▸ hc.extend (.refl chart) (hc.heap.spare hs)⟩

/-- A change that only takes away, or roots and unroots. -/
theorem shrink (ha : m.Accounted image past) (hregistry : m'.registry = m.registry)
    (hf : m.heap.Shrinks m'.heap) : m'.Accounted image past := by
  obtain ⟨chart, hc⟩ := ha
  exact ⟨chart, hregistry ▸ hc.extend (.refl chart) (hc.heap.shrink hf)⟩

theorem congr (ha : m.Accounted image past) (hheap : m'.heap = m.heap)
    (hregistry : m'.registry = m.registry) : m'.Accounted image past :=
  ha.spare hregistry (hheap ▸ .refl ..)

/-- A moment that is no reach is as good as none. -/
theorem past_of_none (ha : m.Accounted image past) {moment : Moment}
    (hnone : moment.reach? image = none) : m.Accounted image (past ++ [moment]) := by
  rwa [Accounted, given_of_none hnone]

/-- At a reach its closure is given out. -/
theorem past_of_some {moment : Moment} {x : Reach} (hsome : moment.reach? image = some x)
    (chart : Chart) (hc : m.registry.Charted
      ((given (reaches image past)).add x.site x.key.path x.function) chart m.heap) :
    m.Accounted image (past ++ [moment]) :=
  ⟨chart, (given_of_some hsome past).symm ▸ hc⟩

/-- Reaching a definition makes the closure that it gives, or the closure was given out for
the same key before. -/
theorem instantiate (ha : m.Accounted image past) (node : FunctionNode) (env : ObjectId) :
    (EvalM.instantiate node env image m).2.Accounted image
        (past ++ [(Action.instantiate node env).moment image m]) ∧
      ∀ x, ((Action.instantiate node env).moment image m).reach? image = some x →
        (∃ spec closure,
          ((Action.instantiate node env).moment image m).Makes image env spec x closure) ∨
        x ∈ reaches image past ∧
          (EvalM.instantiate node env image m).2.heap.contains x.function = true := by
  have hend := EvalM.instantiate_spec image node env m
  have hmoment : (Action.instantiate node env).moment image m =
      ⟨.instantiate node env, m, (EvalM.instantiate node env image m).1,
        (EvalM.instantiate node env image m).2⟩ := rfl
  rw [hmoment]
  generalize EvalM.instantiate node env image m = r at hend
  obtain ⟨result, m'⟩ := r
  dsimp only at hend ⊢
  cases hend with
  | refused e _ hheap hregistry =>
    exact ⟨(ha.congr hheap hregistry).past_of_none rfl, fun x hx => by cases hx⟩
  | fresh site reason hsite hfresh hheap hregistry =>
    have hnone : Moment.reach? image ⟨.instantiate node env, m,
        .ok (.object ⟨m.heap.entries.size⟩), m'⟩ = none := by
      show node.site.bind _ = _
      rw [hsite, Option.bind_some, hfresh]
    refine ⟨(ha.spare hregistry ?_).past_of_none hnone, fun x hx => ?_⟩
    · rw [hheap]
      exact Heap.spares_allocate ..
    · cases hnone.symm.trans hx
  | reached site spec key closure result hsite hspec hkey hclosure hreach =>
    obtain ⟨chart, hc⟩ := ha
    obtain ⟨result', r', h', hrun, given', chart', hc', hsupplies⟩ := hc.reach site spec.arity key
      EvalError.cache (o := .function ⟨site, closure⟩) rfl
    rw [hreach] at hrun
    obtain ⟨rfl, hm'⟩ := Prod.mk.inj hrun
    obtain ⟨rfl, rfl⟩ := Prod.mk.inj hm'
    cases result with
    | error e =>
      cases hsupplies
      exact ⟨past_of_none ⟨chart', hc'⟩ rfl, fun x hx => by cases hx⟩
    | ok reached =>
      have hreach? : Moment.reach? image ⟨.instantiate node env, m,
          ((Except.ok reached).map fun r => Value.object r.function).mapError Stop.error, m'⟩ =
          some ⟨site, key, reached.function⟩ := by
        show node.site.bind _ = _
        rw [hsite, Option.bind_some, hspec]
        dsimp only
        rw [hkey]
        rfl
      refine ⟨past_of_some hreach? chart' ?_, fun x hx => ?_⟩
      · cases hsupplies with
        | old f _ _ => exact ⟨hc'.heap.given_mono fun _ _ _ => .inl, hc'.root⟩
        | new f _ _ => exact hc'
      · obtain rfl := Option.some.inj (hreach?.symm.trans hx)
        cases hsupplies with
        | new f hnew hobject =>
          exact .inl ⟨spec, closure, ⟨⟨node, rfl⟩, hx, hspec, hkey⟩, hnew, hclosure,
            Heap.function_eq_ok.2 hobject⟩
        | old f hgiven hin =>
          -- what was given out under the path was given out for the same key
          obtain ⟨⟨s, k, g⟩, hy, rfl, hpath, rfl⟩ := hgiven
          obtain ⟨b, hb, hby⟩ := List.mem_filterMap.1 hy
          have hmem : ⟨_, key, _⟩ ∈ reaches image (past ++ [_]) :=
            List.mem_filterMap.2 ⟨_, List.mem_append_right _ (List.mem_singleton.2 rfl), hx⟩
          obtain rfl : k = key := key_eq_of_path_eq
            (List.mem_filterMap.2 ⟨b, List.mem_append_left _ hb, hby⟩) hmem rfl hpath
          exact .inr ⟨hy, hin⟩

/-- Every action keeps the account. -/
theorem action (ha : m.Accounted image past) (a : Action) :
    (a.perform image m).2.Accounted image (past ++ [a.moment image m]) := by
  by_cases hreach : ∃ node env, a = .instantiate node env
  · obtain ⟨node, env, rfl⟩ := hreach
    exact (ha.instantiate node env).1
  · obtain ⟨hregistry, hs⟩ := a.sparesCaches (fun node env e => hreach ⟨node, env, e⟩) image m
    refine (ha.spare hregistry hs).past_of_none ?_
    cases a with
    | instantiate node env => exact absurd ⟨node, env, rfl⟩ hreach
    | _ => rfl

/-- So does a collection, with compaction after it or without. -/
theorem collectGarbage (ha : m.Accounted image past) :
    (EvalM.collectGarbage image m).2.Accounted image past := by
  rcases EvalM.collectGarbage_spec image m rfl with ⟨hheap, hregistry, -⟩ | ⟨keep, h, hc, hend⟩
  · exact ha.congr hheap hregistry
  · obtain ⟨chart, hcharted⟩ : Accounted { m with
      heap := h } image past := ha.shrink rfl hc.shrinks
    rcases hend with ⟨hheap, hregistry⟩ | hcompact
    · exact congr ⟨chart, hcharted⟩ hheap hregistry
    · have hcompacted := hcharted.compactAll
      rw [hcompact] at hcompacted
      exact ⟨chart, hcompacted⟩

/-- And whatever else a host does. -/
theorem host {s : Session} (ha : s.machine.Accounted s.image past) (a : HostAction)
    (hcourse : a.course? s = none) : (a.perform s.image s.machine).2.Accounted s.image past := by
  have hspare : ∀ {x : EvalM (Option Value)}, x.SparesCaches →
      (x s.image s.machine).2.Accounted s.image past := fun hx =>
    ha.spare (hx s.image s.machine).1 (hx s.image s.machine).2
  cases a with
  | run steps =>
    rwa [HostAction.perform_run_of_ran (HostAction.ran_of_course?_none hcourse)]
  | call => cases hcourse
  | callGlobal steps name arguments =>
    rwa [HostAction.perform_callGlobal_of_none (Option.map_eq_none_iff.1 hcourse)]
  | setGlobal name v => exact hspare (EvalM.Keeps.map (T := .sparing) (.setGlobal name v) _)
  | newObject properties =>
    exact hspare (EvalM.Keeps.map (T := .sparing) (.newObject properties) _)
  | newArray elements => exact hspare (EvalM.Keeps.map (T := .sparing) (.newArray elements) _)
  | retain v =>
    exact hspare (EvalM.Keeps.map (T := .sparing) (.retain Heap.EvalRelation.roots_sparing v) _)
  | release v =>
    rw [HostAction.perform, EvalM.map_apply]
    refine ha.shrink (HostAction.release_registry s.image s.machine v) ?_
    rw [HostAction.release_heap]
    cases v.object? with
    | none => exact .refl _
    | some id => exact .of_object_eq (Heap.size_unroot _ _) (Heap.object_unroot _ _)
  | collectGarbage =>
    rw [HostAction.perform, EvalM.map_apply]
    exact ha.collectGarbage

end Machine.Accounted

theorem accounted_of_load {p : Program} {config : Config} {s : Session}
    (hload : Session.load p config = .ok s) : s.machine.Accounted s.image [] := by
  obtain ⟨resolved, hloaded⟩ := Session.loaded hload
  rw [Machine.Accounted, hloaded.registry, given_reaches_nil]
  exact ⟨_, Registry.charted_empty _⟩

/-! ## Accounts of runs -/

structure Chronicle (R : Effects) (image : Image) (past : List Moment) (m : Machine) : Prop where
  real : ∀ a ∈ past, a = a.action.moment image a.before
  accounted : m.Accounted image past
  during : ∀ a ∈ past, a.before.heap.Lasts R a.after.heap
  kept : ∀ a ∈ past, ∀ x : ObjectId, a.before.heap.contains x = true →
    a.after.heap.contains x = true
  between : past.Pairwise fun a b => a.after.heap.Lasts R b.before.heap
  since : ∀ a ∈ past, a.after.heap.Lasts R m.heap
  origin : ∀ l a, l ++ [a] <+: past → ∀ x, a.reach? image = some x →
    (∃ made ∈ l ++ [a], ∃ env spec closure, made.Makes image env spec x closure) ∧
      a.after.heap.contains x.function = true

namespace Chronicle

variable {R : Effects} {image : Image} {past : List Moment} {m m' : Machine}

/-- A later machine without further moments. -/
theorem later (hc : Chronicle R image past m) (hl : m.heap.Lasts R m'.heap)
    (ha : m'.Accounted image past) : Chronicle R image past m' where
  real := hc.real
  accounted := ha
  during := hc.during
  kept := hc.kept
  between := hc.between
  since a ha := (hc.since a ha).trans hl
  origin := hc.origin

/-- One more action. -/
theorem action (hc : Chronicle R image past m) (a : Action)
    (ha : a.Within R image m.heap) :
    Chronicle R image (past ++ [a.moment image m]) (a.perform image m).2 := by
  have hlasts : m.heap.Lasts R (a.perform image m).2.heap := a.lasts ha
  have hkept : ∀ x : ObjectId, m.heap.contains x = true →
      (a.perform image m).2.heap.contains x = true := fun x hx => by
    rwa [a.contains_eq (Heap.lt_of_contains hx)]
  refine ⟨fun b hb => ?_, hc.accounted.action a, fun b hb => ?_, fun b hb => ?_, ?_,
    fun b hb => ?_, fun l b hl x hx => ?_⟩
  · rcases List.mem_append.1 hb with hb | hb
    · exact hc.real b hb
    · obtain rfl := List.mem_singleton.1 hb
      rfl
  · rcases List.mem_append.1 hb with hb | hb
    · exact hc.during b hb
    · obtain rfl := List.mem_singleton.1 hb
      exact hlasts
  · rcases List.mem_append.1 hb with hb | hb
    · exact hc.kept b hb
    · obtain rfl := List.mem_singleton.1 hb
      exact hkept
  · refine List.pairwise_append.2 ⟨hc.between, List.pairwise_singleton _ _, fun b hb c hc' => ?_⟩
    obtain rfl := List.mem_singleton.1 hc'
    exact hc.since b hb
  · rcases List.mem_append.1 hb with hb | hb
    · exact (hc.since b hb).trans hlasts
    · obtain rfl := List.mem_singleton.1 hb
      exact .refl ..
  · rcases List.prefix_concat_iff.1 hl with heq | hl
    · obtain ⟨rfl, hb⟩ := List.append_inj' heq rfl
      obtain rfl := List.singleton_inj.1 hb
      obtain ⟨env, spec, ⟨node, hnode⟩, -⟩ := Moment.reaches_of_reach? hx
      obtain rfl : a = .instantiate node env := hnode
      rcases (hc.accounted.instantiate node env).2 x hx with
        ⟨spec, closure, hmakes⟩ | ⟨hmem, halive⟩
      · exact ⟨⟨_, List.mem_append_right _ (List.mem_singleton.2 rfl), env, spec, closure, hmakes⟩,
          Heap.contains_of_function hmakes.made⟩
      · obtain ⟨c, hc', hcx⟩ := List.mem_filterMap.1 hmem
        obtain ⟨l₁, l₂, rfl⟩ := List.append_of_mem hc'
        obtain ⟨⟨made, hmade, hmakes⟩, -⟩ := hc.origin l₁ c ⟨l₂, by simp⟩ x hcx
        refine ⟨⟨made, List.mem_append_left _ ?_, hmakes⟩, halive⟩
        rcases List.mem_append.1 hmade with hmade | hmade
        · exact List.mem_append_left _ hmade
        · obtain rfl := List.mem_singleton.1 hmade
          exact List.mem_append_right _ List.mem_cons_self
    · exact hc.origin l b hl x hx

/-- A course whose actions write only what may be written. -/
theorem course (hc : Chronicle R image past m) {α : Type} (c : Course α)
    (hwrites : ∀ a ∈ c.moments image m, a.action.Within R image a.before.heap) :
    Chronicle R image (past ++ c.moments image m) (c.run image m).2 :=
  Course.history_along (J := Chronicle R image) (fun _ a _ hc ha => hc.action a ha) c past m
    hwrites hc

/-- What is still in the heap after a moment `a` has outlasted every moment up to `a`. -/
theorem outlasts {earlier later : List Moment} {a made : Moment}
    (hc : Chronicle R image (earlier ++ a :: later) m) (hmade : made ∈ earlier ++ [a])
    {m' : Machine} (hm' : m' ∈ a.after :: m :: later.flatMap fun x => [x.before, x.after]) :
    made.after.heap.Lasts R m'.heap := by
  have hpast : earlier ++ a :: later = (earlier ++ [a]) ++ later := by simp
  have hbetween := hc.between
  rcases List.mem_cons.1 hm' with rfl | hm'
  · rcases List.mem_append.1 hmade with hmade | hmade
    · have hbefore := (List.pairwise_append.1 hbetween).2.2 made hmade a List.mem_cons_self
      exact hbefore.trans (hc.during a (List.mem_append_right _ List.mem_cons_self))
    · obtain rfl := List.mem_singleton.1 hmade
      exact .refl ..
  rcases List.mem_cons.1 hm' with rfl | hm'
  · exact hc.since made (hpast ▸ List.mem_append_left _ hmade)
  obtain ⟨x, hx, hm'⟩ := List.mem_flatMap.1 hm'
  rw [hpast] at hbetween
  have hbefore := (List.pairwise_append.1 hbetween).2.2 made hmade x hx
  rcases List.mem_cons.1 hm' with rfl | hm'
  · exact hbefore
  · obtain rfl := List.mem_singleton.1 hm'
    exact hbefore.trans (hc.during x (hpast ▸ List.mem_append_right _ hx))

/-- Whenever reaching a shared definition gives a value, that is a reach. -/
theorem reaches (hc : Chronicle R image past m) {node : FunctionNode} {env : ObjectId} {v : Value}
    {before after : Machine} (hmem : ⟨.instantiate node env, before, .ok v, after⟩ ∈ past)
    {site : SiteId} (hsite : node.site = some site) {spec : CaptureSpec}
    (hspec : image.analysis.get? site = some (.memoized spec)) :
    ∃ key f, v = .object f ∧
      Moment.Reaches image ⟨.instantiate node env, before, .ok v, after⟩ env spec
        ⟨site, key, f⟩ := by
  have hreal := hc.real _ hmem
  obtain ⟨-, -, hresult, -⟩ := Moment.mk.inj hreal
  obtain ⟨key, f, rfl, hx⟩ := Moment.exists_reach (eq_of_heq hresult.symm) hsite hspec
  obtain ⟨env', spec', hreaches⟩ := Moment.reaches_of_reach? (hreal.symm ▸ hx)
  obtain ⟨node', hnode⟩ := hreaches.action
  obtain rfl : env = env' := (Action.instantiate.inj hnode).2
  obtain rfl := hreaches.spec_eq hspec
  exact ⟨key, f, rfl, hreaches⟩

/-- What a shared definition gives at a moment was made at that moment or before, by a
reach with the same key. -/
theorem maker {earlier later : List Moment} {node : FunctionNode} {env : ObjectId} {v : Value}
    {before after : Machine}
    (hc : Chronicle R image (earlier ++ ⟨.instantiate node env, before, .ok v, after⟩ :: later) m)
    {site : SiteId} (hsite : node.site = some site) {spec : CaptureSpec}
    (hspec : image.analysis.get? site = some (.memoized spec)) :
    ∃ key f, v = .object f ∧ spec.buildKey (before.heap.liveScope image.tree env) = .ok key ∧
      after.heap.contains f = true ∧
      ∃ made ∈ earlier ++ [⟨.instantiate node env, before, .ok v, after⟩],
        ∃ maker closure, made.Makes image maker spec ⟨site, key, f⟩ closure := by
  obtain ⟨key, f, rfl, hreaches⟩ :=
    hc.reaches (List.mem_append_right _ List.mem_cons_self) hsite hspec
  obtain ⟨⟨made, hmade, maker, spec', closure, hmakes⟩, halive⟩ :=
    hc.origin earlier _ ⟨later, by simp⟩ _ hreaches.reach
  obtain rfl := hmakes.spec_eq hspec
  exact ⟨key, f, rfl, hreaches.key, halive, made, hmade, maker, closure, hmakes⟩

/-- An instance that is new after a reach was made by it. -/
theorem makes_of_new {earlier later : List Moment} {node : FunctionNode} {env f : ObjectId}
    {before after : Machine}
    (hc : Chronicle R image
      (earlier ++ ⟨.instantiate node env, before, .ok (.object f), after⟩ :: later) m)
    {site : SiteId} (hsite : node.site = some site) {spec : CaptureSpec}
    (hspec : image.analysis.get? site = some (.memoized spec))
    (hnew : before.heap.entries.size ≤ f.index) : ∃ key closure,
      Moment.Makes image ⟨.instantiate node env, before, .ok (.object f), after⟩ env spec
        ⟨site, key, f⟩ closure := by
  obtain ⟨key, f', hf, -, -, made, hmade, maker, closure, hmakes⟩ := hc.maker hsite hspec
  obtain rfl := Value.object.inj hf
  rcases List.mem_append.1 hmade with hmade | hmade
  · -- what was made before is older
    have hbefore := (List.pairwise_append.1 hc.between).2.2 made hmade _ List.mem_cons_self
    have hlt := Heap.lt_of_contains (Heap.contains_of_function hmakes.made)
    exact absurd (Nat.lt_of_lt_of_le hlt hbefore.size_le) (Nat.not_lt_of_le hnew)
  · obtain rfl := List.mem_singleton.1 hmade
    obtain ⟨node', hnode⟩ := hmakes.action
    obtain rfl := (Action.instantiate.inj hnode).2
    exact ⟨key, closure, hmakes⟩

end Chronicle

section Runs

variable {R : Effects} {s₀ s : Session} {past : List Moment}

/-- An operation of the host that writes only what may be written. -/
theorem HostAction.chronicle (hc : Chronicle R s.image past s.machine) (a : HostAction)
    (hmoments : ∀ x ∈ a.moments s, x.action.Within R s.image x.before.heap)
    (hwrites : ∀ name v b, a = .setGlobal name v →
      s.image.tree.lookupLocal ScopeTree.global name = some b →
      s.machine.heap.Writable R s.image.tree s.image.globalEnvironment b) :
    Chronicle R s.image (past ++ a.moments s) (s.perform a.perform).2.machine := by
  cases hcourse : a.course? s with
  | some start =>
    obtain ⟨c, m⟩ := start
    obtain ⟨hheap, hregistry⟩ := machine_of_course hcourse
    have hm : Chronicle R s.image past m :=
      hc.later (hheap ▸ .refl ..) (hc.accounted.congr hheap hregistry)
    rw [moments, hcourse] at hmoments ⊢
    show Chronicle R s.image _ (a.perform s.image s.machine).2
    rw [perform_of_course hcourse]
    exact hm.course c hmoments
  | none =>
    rw [moments, hcourse]
    dsimp only
    rw [List.append_nil]
    exact hc.later (a.lasts hcourse hwrites) (hc.accounted.host a hcourse)

theorem chronicle_of_load {p : Program} {config : Config}
    (hload : Session.load p config = .ok s) : Chronicle R s.image [] s.machine where
  real _ ha := absurd ha List.not_mem_nil
  accounted := accounted_of_load hload
  during _ ha := absurd ha List.not_mem_nil
  kept _ ha := absurd ha List.not_mem_nil
  between := .nil
  since _ ha := absurd ha List.not_mem_nil
  origin l a hl := absurd (List.prefix_nil.1 hl) (List.append_ne_nil_of_right_ne_nil _ (by simp))

theorem Session.Loaded.regular {p : Program} {resolved : ResolvedProgram}
    (h : s.Loaded p resolved) {site : SiteId} {spec : CaptureSpec}
    (hspec : s.image.analysis.get? site = some (.memoized spec)) : spec.Regular s.image.tree := by
  have hsettled := Program.settled_of_resolve (P := fun _ => True) h.resolve
    fun _ _ _ _ => trivial
  rw [h.tree]
  exact hsettled.regular h.analyze hspec

/-- A request that leaves the objects and the caches as they are. -/
theorem Chronicle.sameState {image : Image} {m m' : Machine} (hc : Chronicle R image past m)
    (hstate : m.SameState m') : Chronicle R image past m' :=
  have hsize := congrArg Array.size hstate.entries
  hc.later (.of_object_eq hsize hstate.object_eq)
    (hc.accounted.shrink hstate.registry (.of_object_eq hsize hstate.object_eq))

/-- Every run has its account, whatever the host does. -/
theorem FreeRun.chronicle {p : Program} {config : Config}
    (hload : Session.load p config = .ok s₀) (hrun : FreeRun s₀ s past) :
    Chronicle .any s.image past s.machine := by
  induction hrun with
  | start => exact chronicle_of_load hload
  | @step s past r _ ih =>
    show Chronicle .any s.image _ (r.perform s.image s.machine).2
    rcases r.act_or_sameState s with ⟨a, heq, hmoments, -⟩ | ⟨hstate, hmoments⟩
    · rw [heq, hmoments]
      exact a.chronicle ih (fun x _ => x.action.within_any _ _)
        fun _ _ _ _ _ _ _ _ _ _ _ => trivial
    · rw [hmoments, List.append_nil]
      exact ih.sameState hstate

end Runs

end ClosureCache
