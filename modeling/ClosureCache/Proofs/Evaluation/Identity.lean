/-
The identity of shared closures over whole runs.

`Orderly` is what a session keeps up: its caches are proper, they fit the definitions,
and they agree with all closures that were given out so far.  Every action keeps it,
with the closure that it gives out added, and so does everything else that a host may
do.
-/
import ClosureCache.Evaluation.Session
import ClosureCache.Proofs.Cache.Sharing
import ClosureCache.Proofs.Capture
import ClosureCache.Proofs.Evaluation.Instantiation
import ClosureCache.Proofs.Evaluation.Runs

namespace ClosureCache

/-! ## Reaches -/

/-- What reaching a shared definition gave. -/
structure Reach where
  site : SiteId
  key : Key
  function : ObjectId
deriving DecidableEq, Repr

/-- The reach of a shared definition in a moment that gave a closure. -/
def Moment.reach? (image : Image) : Moment → Option Reach
  | ⟨.instantiate node env, before, .ok (.object f), _⟩ =>
    node.site.bind fun site =>
      match image.analysis.get? site with
      | some (.memoized spec) =>
        (spec.buildKey (before.heap.liveScope image.tree env)).toOption.map fun key =>
          ⟨site, key, f⟩
      | _ => none
  | _ => none

def reaches (image : Image) (past : List Moment) : List Reach :=
  past.filterMap (Moment.reach? image)

/-- The key of a reach was built for its definition. -/
theorem buildKey_of_mem_reaches {image : Image} {past : List Moment} {a : Reach}
    (ha : a ∈ reaches image past) : ∃ spec live,
      image.analysis.get? a.site = some (.memoized spec) ∧ spec.buildKey live = .ok a.key := by
  obtain ⟨moment, -, hreach⟩ := List.mem_filterMap.1 ha
  rw [Moment.reach?.eq_def] at hreach
  split at hreach
  · next node env before f after =>
    obtain ⟨site, hsite, hmatch⟩ := Option.bind_eq_some_iff.1 hreach
    split at hmatch
    · next spec hspec =>
      obtain ⟨key, hkey, rfl⟩ := Option.map_eq_some_iff.1 hmatch
      refine ⟨spec, before.heap.liveScope image.tree env, hspec, ?_⟩
      cases hk : spec.buildKey (before.heap.liveScope image.tree env) with
      | error e =>
        rw [hk] at hkey
        cases hkey
      | ok k =>
        rw [hk] at hkey
        exact congrArg Except.ok (Option.some.inj hkey)
    · cases hmatch
  · cases hreach

/-- Whenever a shared definition is reached and gives a closure, that is a reach. -/
theorem Moment.exists_reach {image : Image} {node : FunctionNode} {env : ObjectId} {m : Machine}
    {v : Value} (hv : (EvalM.instantiate node env image m).1 = .ok v) {site : SiteId}
    (hsite : node.site = some site) {spec : CaptureSpec}
    (hspec : image.analysis.get? site = some (.memoized spec)) :
    ∃ key f, v = .object f ∧
      ((Action.instantiate node env).moment image m).reach? image = some ⟨site, key, f⟩ := by
  have hend := EvalM.instantiate_spec image node env m
  have hmoment : (Action.instantiate node env).moment image m =
      ⟨.instantiate node env, m, (EvalM.instantiate node env image m).1,
        (EvalM.instantiate node env image m).2⟩ := rfl
  rw [hmoment]
  generalize EvalM.instantiate node env image m = r at hend hv
  obtain ⟨result, m'⟩ := r
  dsimp only at hend hv ⊢
  cases hend with
  | refused e _ _ _ => cases hv
  | fresh site' reason hsite' hspec' _ _ =>
    rw [hsite'] at hsite
    rw [Option.some.inj hsite, hspec] at hspec'
    cases hspec'
  | reached site' spec' key closure result hsite' hspec' hkey _ _ =>
    rw [hsite'] at hsite
    obtain rfl := Option.some.inj hsite
    cases result with
    | error e => cases hv
    | ok reached =>
      refine ⟨key, reached.function, (Except.ok.inj hv).symm, ?_⟩
      show node.site.bind _ = _
      rw [hsite', Option.bind_some, hspec']
      dsimp only
      rw [hkey]
      rfl

/-- The keys of two reaches of one definition are equal when their paths are. -/
theorem key_eq_of_path_eq {image : Image} {past : List Moment} {a b : Reach}
    (ha : a ∈ reaches image past) (hb : b ∈ reaches image past) (hsite : a.site = b.site)
    (hpath : a.key.path = b.key.path) : a.key = b.key := by
  obtain ⟨spec, live, hspec, hkey⟩ := buildKey_of_mem_reaches ha
  obtain ⟨spec', live', hspec', hkey'⟩ := buildKey_of_mem_reaches hb
  rw [hsite, hspec'] at hspec
  obtain rfl : spec' = spec := by simpa using hspec
  exact (CaptureSpec.key_eq_of_path_eq hkey hkey').1 hpath

def given (l : List Reach) : Given := fun s q f =>
  ∃ x ∈ l, x.site = s ∧ x.key.path = q ∧ x.function = f

theorem given_append (l : List Reach) (x : Reach) :
    given (l ++ [x]) = (given l).add x.site x.key.path x.function := by
  funext s q f
  refine propext ⟨?_, ?_⟩
  · rintro ⟨y, hy, rfl, rfl, rfl⟩
    rcases List.mem_append.1 hy with hy | hy
    · exact .inl ⟨y, hy, rfl, rfl, rfl⟩
    · obtain rfl := List.mem_singleton.1 hy
      exact .inr ⟨rfl, rfl, rfl⟩
  · rintro (⟨y, hy, rfl, rfl, rfl⟩ | ⟨rfl, rfl, rfl⟩)
    · exact ⟨y, List.mem_append_left _ hy, rfl, rfl, rfl⟩
    · exact ⟨x, List.mem_append_right _ (List.mem_singleton.2 rfl), rfl, rfl, rfl⟩

theorem given_reaches_nil (image : Image) : given (reaches image []) = fun _ _ _ => False := by
  funext s q f
  exact propext ⟨fun ⟨x, hx, _⟩ => absurd hx List.not_mem_nil, False.elim⟩

theorem given_of_none {image : Image} {moment : Moment} (hnone : moment.reach? image = none)
    (past : List Moment) :
    given (reaches image (past ++ [moment])) = given (reaches image past) := by
  rw [reaches, List.filterMap_append, List.filterMap_cons_none hnone, List.filterMap_nil,
    List.append_nil, reaches]

theorem given_of_some {image : Image} {moment : Moment} {x : Reach}
    (hsome : moment.reach? image = some x) (past : List Moment) :
    given (reaches image (past ++ [moment])) =
      (given (reaches image past)).add x.site x.key.path x.function := by
  rw [reaches, List.filterMap_append, List.filterMap_cons_some hsome, List.filterMap_nil,
    given_append, reaches]

def Image.arity? (image : Image) (site : SiteId) : Option Nat :=
  match image.analysis.get? site with
  | some (.memoized spec) => some spec.arity
  | _ => none

/-! ## The invariant -/

/-- What a session keeps up, with the values that the host holds and the moments so
far. -/
structure Orderly (image : Image) (held : List Value) (past : List Moment) (m : Machine)
    (labels : Labels) : Prop where
  proper : m.registry.Proper m.heap labels
  fits : m.registry.Fits image.arity?
  sharing : m.registry.Sharing (given (reaches image past)) m.heap
  held : ∀ v ∈ held, ∀ id, v.object? = some id →
    labels id = none ∧ id.index < m.heap.entries.size

namespace Orderly

variable {image : Image} {held : List Value} {past : List Moment} {m m' : Machine} {labels : Labels}

/-- A change that leaves the caches alone. -/
theorem spare (ho : Orderly image held past m labels) (hregistry : m'.registry = m.registry)
    (hs : m.heap.Spares (fun x => ∃ p, labels x = some p) m'.heap) :
    Orderly image held past m' labels := by
  obtain ⟨hP, hview⟩ := ho.proper.spare hs
  rw [← hregistry] at hP hview
  refine ⟨hP, hregistry ▸ ho.fits, ?_, fun v hv id hid => ?_⟩
  · exact ho.sharing.of_view_eq hs.size_le hs.contains fun s q => by rw [hview, hregistry]
  · obtain ⟨hnone, hlt⟩ := ho.held v hv id hid
    exact ⟨hnone, Nat.lt_of_lt_of_le hlt hs.size_le⟩

theorem spareParts (ho : Orderly image held past m labels) (hregistry : m'.registry = m.registry)
    (hs : m.heap.Spares m.heap.IsPart m'.heap) : Orderly image held past m' labels :=
  ho.spare hregistry (hs.weaken fun _ ⟨_, hp⟩ => ho.proper.isPart hp)

/-- A step of the registry. -/
theorem extend (ho : Orderly image held past m labels) {made : Object → Prop} {labels' : Labels}
    (hext : Registry.Extends made m.registry m.heap labels m'.registry m'.heap labels')
    (hfits : m'.registry.Fits image.arity?) {past' : List Moment}
    (hsharing : m'.registry.Sharing (given (reaches image past')) m'.heap) :
    Orderly image held past' m' labels' := by
  refine ⟨hext.proper, hfits, hsharing, fun v hv id hid => ?_⟩
  obtain ⟨hnone, hlt⟩ := ho.held v hv id hid
  refine ⟨?_, Nat.lt_of_lt_of_le hlt hext.frame.size_le⟩
  cases hl : labels' id with
  | none => rfl
  | some p =>
    rw [hext.old id p hl hlt] at hnone
    cases hnone

/-- A moment that is no reach is as good as none. -/
theorem past_of_none (ho : Orderly image held past m labels) {moment : Moment}
    (hnone : moment.reach? image = none) : Orderly image held (past ++ [moment]) m labels := by
  refine ⟨ho.proper, ho.fits, ?_, ho.held⟩
  rw [given_of_none hnone]
  exact ho.sharing

/-- Reaching a definition keeps order. -/
theorem instantiate (ho : Orderly image held past m labels) (node : FunctionNode) (env : ObjectId) :
    ∃ labels', Orderly image held (past ++ [(Action.instantiate node env).moment image m])
      ((Action.instantiate node env).perform image m).2 labels' := by
  have hspec := EvalM.instantiate_spec image node env m
  rw [Action.moment]
  have hperform : (Action.instantiate node env).perform = EvalM.instantiate node env := rfl
  rw [hperform]
  generalize EvalM.instantiate node env image m = r at hspec
  obtain ⟨result, m'⟩ := r
  dsimp only at hspec ⊢
  cases hspec with
  | refused e _ hheap hregistry =>
    exact ⟨labels, (ho.spare hregistry (hheap ▸ .refl ..)).past_of_none rfl⟩
  | fresh site reason hsite hspec hheap hregistry =>
    refine ⟨labels, (ho.spare hregistry ?_).past_of_none ?_⟩
    · rw [hheap]
      exact Heap.spares_allocate ..
    · show node.site.bind _ = _
      rw [hsite, Option.bind_some, hspec]
  | reached site spec key closure result hsite hspec hkey hclosure hreach =>
    have harity := CaptureSpec.arity_of_buildKey hkey
    obtain ⟨result', r', h', labels', hrun, hfits, hext, hout⟩ := ho.proper.reach_spec ho.fits
      site key (by rw [Image.arity?, hspec, harity]) (.function ⟨site, closure⟩) rfl EvalError.cache
    rw [harity, hreach] at hrun
    obtain ⟨rfl, hm'⟩ := Prod.mk.inj hrun
    obtain ⟨rfl, rfl⟩ := Prod.mk.inj hm'
    obtain ⟨hok, herr⟩ := ho.sharing.reach hext hout
    refine ⟨labels', ?_⟩
    cases result with
    | error e => exact (ho.extend hext hfits (herr e rfl)).past_of_none rfl
    | ok reached =>
      refine ho.extend hext hfits ?_
      have hreach? : Moment.reach? image ⟨.instantiate node env, m,
          ((Except.ok reached).map fun r => Value.object r.function).mapError Stop.error, m'⟩ =
          some ⟨site, key, reached.function⟩ := by
        show node.site.bind _ = _
        rw [hsite, Option.bind_some, hspec]
        dsimp only
        rw [hkey]
        rfl
      exact (given_of_some hreach? past).symm ▸ hok _ rfl

/-- Every action keeps order. -/
theorem action (ho : Orderly image held past m labels) (a : Action) :
    ∃ labels', Orderly image held (past ++ [a.moment image m]) (a.perform image m).2 labels' := by
  by_cases ha : ∃ node env, a = .instantiate node env
  · obtain ⟨node, env, rfl⟩ := ha
    exact ho.instantiate node env
  · obtain ⟨hregistry, hs⟩ := a.sparesCaches (fun node env e => ha ⟨node, env, e⟩) image m
    refine ⟨labels, (ho.spareParts hregistry hs).past_of_none ?_⟩
    cases a with
    | instantiate node env => exact absurd ⟨node, env, rfl⟩ ha
    | _ => rfl

/-- A course keeps order. -/
theorem course (ho : Orderly image held past m labels) {α : Type} (c : Course α) :
    ∃ labels', Orderly image held (past ++ c.moments image m) (c.run image m).2 labels' :=
  Course.history (J := fun past m => ∃ labels, Orderly image held past m labels)
    (fun _ a _ ⟨_, ho⟩ => ho.action a) c past m ⟨labels, ho⟩

/-! ## What else a host does -/

theorem hold (ho : Orderly image held past m labels) {v : Value}
    (hv : ∀ id, v.object? = some id → ∃ o, m.heap.object id = .ok o ∧ o.isPart = false) :
    Orderly image (v :: held) past m labels := by
  refine ⟨ho.proper, ho.fits, ho.sharing, fun w hw id hid => ?_⟩
  rcases List.mem_cons.1 hw with rfl | hw
  · obtain ⟨o, hobject, hpart⟩ := hv id hid
    exact ⟨ho.proper.unlabelled hobject hpart,
      Heap.lt_of_contains (Heap.contains_of_object hobject)⟩
  · exact ho.held w hw id hid

theorem weaken (ho : Orderly image held past m labels) {held' : List Value}
    (hsub : ∀ v ∈ held', v ∈ held) : Orderly image held' past m labels :=
  ⟨ho.proper, ho.fits, ho.sharing, fun v hv => ho.held v (hsub v hv)⟩

/-- A retained value is no part of a trie, so it may be released. -/
theorem release (ho : Orderly image held past m labels) {v : Value} (hv : v ∈ held) :
    Orderly image held past (EvalM.release v image m).2 labels := by
  rw [EvalM.release]
  cases hid : v.object? with
  | none => exact ho
  | some id =>
    dsimp only
    rw [EvalM.tryHeap_apply]
    refine ho.spare rfl ?_
    show m.heap.Spares _ (HeapM.mapError EvalError.heap (Heap.unroot id) m.heap).2
    have hsnd : (HeapM.mapError EvalError.heap (Heap.unroot id) m.heap).2 =
        (HeapOp.unroot id).perform m.heap := by
      rw [HeapM.mapError, HeapOp.perform]
      cases Heap.unroot id m.heap with
      | mk r h => cases r <;> rfl
    rw [hsnd]
    refine HeapOp.spares _ _ fun x hx hpart => ?_
    obtain rfl := Option.some.inj hx
    obtain ⟨p, hp⟩ := hpart
    rw [(ho.held v hv id hid).1] at hp
    cases hp

/-- A collection keeps order, with compaction after it or without. -/
theorem collectGarbage (ho : Orderly image held past m labels) :
    ∃ labels', Orderly image held past (EvalM.collectGarbage image m).2 labels' := by
  rcases EvalM.collectGarbage_spec image m rfl with ⟨hheap, hregistry, -⟩ | ⟨keep, h, hc, hend⟩
  · exact ⟨labels, ho.spare hregistry (hheap ▸ .refl ..)⟩
  · obtain ⟨hP, -⟩ := ho.proper.collect hc
    have hheld : ∀ v ∈ held, ∀ id, v.object? = some id →
        Trie.keptLabels keep labels id = none ∧ id.index < h.entries.size := by
      intro v hv id hid
      obtain ⟨hnone, hlt⟩ := ho.held v hv id hid
      refine ⟨?_, by rw [hc.size]; exact hlt⟩
      rw [Trie.keptLabels, hnone, ite_self]
    have ho₁ : Orderly image held past { m with
        heap := h } (Trie.keptLabels keep labels) :=
      ⟨hP, ho.fits, ho.sharing.collect ho.proper hc, hheld⟩
    rcases hend with ⟨hheap, hregistry⟩ | hcompact
    · exact ⟨_, ho₁.spare hregistry (hheap ▸ .refl ..)⟩
    · obtain ⟨n, r', h', hrun, hfits, hext, hview⟩ :=
        hP.compactAll_spec (fun _ => False) ho.fits
      rw [hrun] at hcompact
      obtain ⟨rfl, rfl⟩ := Prod.mk.inj hcompact
      refine ⟨_, ho₁.extend hext hfits ?_⟩
      exact ho₁.sharing.of_view_eq hext.frame.size_le (fun x hx => hext.frame.contains_eq hx) hview

end Orderly

/-! ## Runs -/

variable {s₀ s : Session} {held : List Value} {past : List Moment}

/-- After loading nothing was given out. -/
theorem orderly_of_load {p : Program} {config : Config} (hload : Session.load p config = .ok s) :
    Orderly s.image [] [] s.machine (fun _ => none) := by
  obtain ⟨resolved, hloaded⟩ := Session.loaded hload
  have hregistry := hloaded.registry
  refine ⟨hregistry ▸ Registry.proper_empty _, fun site c hc => ?_, ?_, fun v hv => ?_⟩
  · rw [hregistry, Registry.get?_empty] at hc
    cases hc
  · rw [hregistry, given_reaches_nil]
    exact Registry.sharing_empty _
  · exact absurd hv List.not_mem_nil

/-- Every operation of a host keeps order. -/
theorem HostAction.orderly {labels : Labels} (ho : Orderly s.image held past s.machine labels)
    (a : HostAction) (ha : a.Allowed s held) :
    ∃ labels', Orderly s.image (a.holds held) (past ++ a.moments s)
      (s.perform a.perform).2.machine labels' := by
  show ∃ labels', Orderly s.image (a.holds held) (past ++ a.moments s)
    (a.perform s.image s.machine).2 labels'
  cases hcourse : a.course? s with
  | some start =>
    obtain ⟨c, m⟩ := start
    have hheld : a.holds held = held := by
      cases a <;> first | rfl | cases hcourse
    have hm := HostAction.machine_of_course hcourse
    rw [HostAction.perform_of_course hcourse, HostAction.moments, hcourse, hheld]
    exact (ho.spare hm.2 (hm.1 ▸ .refl ..)).course c
  | none =>
    rw [HostAction.moments, hcourse]
    dsimp only
    rw [List.append_nil]
    have hspare : ∀ {x : EvalM (Option Value)}, x.SparesCaches →
        Orderly s.image held past (x s.image s.machine).2 labels := fun hx =>
      ho.spareParts (hx s.image s.machine).1 (hx s.image s.machine).2
    cases a with
    | run steps =>
      rw [HostAction.perform_run_of_ran (HostAction.ran_of_course?_none hcourse)]
      exact ⟨labels, ho⟩
    | call => cases hcourse
    | callGlobal steps name arguments =>
      rw [HostAction.perform_callGlobal_of_none (Option.map_eq_none_iff.1 hcourse)]
      exact ⟨labels, ho⟩
    | setGlobal name v =>
      exact ⟨labels, hspare (EvalM.Keeps.map (T := .sparing) (.setGlobal name v) _)⟩
    | newObject properties =>
      exact ⟨labels, hspare (EvalM.Keeps.map (T := .sparing) (.newObject properties) _)⟩
    | newArray elements =>
      exact ⟨labels, hspare (EvalM.Keeps.map (T := .sparing) (.newArray elements) _)⟩
    | retain v =>
      have hv := ho.hold (v := v) fun id hid => by
        obtain ⟨-, o, hobject, hinternal⟩ := ha.1 v List.mem_cons_self id hid
        exact ⟨o, hobject, Object.isPart_of_not_internal hinternal⟩
      have hx : EvalM.SparesCaches (HostAction.perform (.retain v)) :=
        EvalM.Keeps.map (T := .sparing) (.retain Heap.EvalRelation.roots_sparing v) _
      exact ⟨labels, hv.spareParts (hx s.image s.machine).1 (hx s.image s.machine).2⟩
    | release v =>
      rw [HostAction.perform, EvalM.map_apply]
      exact ⟨labels, (ho.release (ha.2 v rfl)).weaken fun w hw => List.mem_of_mem_erase hw⟩
    | collectGarbage =>
      rw [HostAction.perform, EvalM.map_apply]
      exact ho.collectGarbage

theorem HostRun.orderly (hrun : HostRun s₀ s held past) {labels : Labels}
    (ho : Orderly s₀.image [] [] s₀.machine labels) :
    ∃ labels', Orderly s.image held past s.machine labels' := by
  induction hrun with
  | start => exact ⟨labels, ho⟩
  | step a _ ha ih =>
    obtain ⟨labels', ho'⟩ := ih
    exact a.orderly ho' ha

/-- Over a whole run, two reaches of a shared definition give the same closure if and
only if their keys are equal, and reaches of two definitions never do. -/
theorem HostRun.function_eq_iff {p : Program} {config : Config}
    (hload : Session.load p config = .ok s₀) (hrun : HostRun s₀ s held past) {a b : Reach}
    (ha : a ∈ reaches s₀.image past) (hb : b ∈ reaches s₀.image past) :
    (a.site = b.site → (a.function = b.function ↔ a.key = b.key)) ∧
      (a.site ≠ b.site → a.function ≠ b.function) := by
  obtain ⟨labels, ho⟩ := hrun.orderly (orderly_of_load hload)
  have himage := hrun.image_eq
  have hs := ho.sharing
  rw [himage] at hs
  have hga : given (reaches s₀.image past) a.site a.key.path a.function := ⟨a, ha, rfl, rfl, rfl⟩
  have hgb : given (reaches s₀.image past) b.site b.key.path b.function := ⟨b, hb, rfl, rfl, rfl⟩
  refine ⟨fun hsite => ⟨fun hf => ?_, fun hkey => ?_⟩, fun hsite hf => hsite ?_⟩
  · rw [hf] at hga
    exact key_eq_of_path_eq ha hb hsite (hs.injective _ _ _ _ _ hga hgb).2
  · rw [hsite, hkey] at hga
    exact hs.unique _ _ _ _ hga hgb
  · rw [hf] at hga
    exact (hs.injective _ _ _ _ _ hga hgb).1

/-- A function `f` that gives a shared arrow over its argument, called with 1 and 2. -/
def arrowsOverArguments : Program where
  body :=
    let name (s : String) : Identifier := ⟨s, .unresolved⟩
    let span : SourceSpan := ⟨0, 0, 0, 0, 0, 0⟩
    let arrow : FunctionNode := ⟨none, .arrow, .plain, true, [], none,
      [.returning (some (.identifier (name "x")))], span, none, none, none⟩
    let call (n : Int64) : Statement :=
      .expression (.call (.identifier (name "f")) [.literal (.number n)])
    [.function ⟨some (name "f"), .declaration, .plain, false, [name "x"], none,
      [.returning (some (.function arrow))], span, none, none, none⟩, call 1, call 2]

theorem isSome_load_arrows :
    (Session.load arrowsOverArguments .deterministic).toOption.isSome = true := by
  decide +kernel

def arrowsSession : Session :=
  (Session.load arrowsOverArguments .deterministic).toOption.get isSome_load_arrows

/-- A run in which one definition is reached with two keys. -/
theorem function_ne_of_argument_ne : ∃ s₀ s held past, ∃ a b : Reach,
    Session.load arrowsOverArguments .deterministic = .ok s₀ ∧ HostRun s₀ s held past ∧
      a ∈ reaches s₀.image past ∧ b ∈ reaches s₀.image past ∧ a.site = b.site ∧
      a.key ≠ b.key ∧ a.function ≠ b.function := by
  have hload : Session.load arrowsOverArguments .deterministic = .ok arrowsSession :=
    Except.eq_ok_get isSome_load_arrows
  have hrun : HostRun arrowsSession _ _ ([] ++ (HostAction.run 9).moments arrowsSession) :=
    .step (.run 9) .start ⟨fun v hv => absurd hv List.not_mem_nil, fun v hv => by cases hv⟩
  have ha : ⟨⟨1⟩, ⟨[.primitive (.number 1)]⟩, ⟨6⟩⟩ ∈
      reaches arrowsSession.image ([] ++ (HostAction.run 9).moments arrowsSession) := by
    decide +kernel
  have hb : ⟨⟨1⟩, ⟨[.primitive (.number 2)]⟩, ⟨11⟩⟩ ∈
      reaches arrowsSession.image ([] ++ (HostAction.run 9).moments arrowsSession) := by
    decide +kernel
  have hkey : (⟨[.primitive (.number 1)]⟩ : Key) ≠ ⟨[.primitive (.number 2)]⟩ := by decide
  refine ⟨arrowsSession, _, _, _, _, _, hload, hrun, ha, hb, rfl, hkey, fun hf => hkey ?_⟩
  exact ((hrun.function_eq_iff hload ha hb).1 rfl).1 hf

end ClosureCache
