/-
What every action of an evaluation keeps up.

A machine is sound when its heap fits the program, its caches are in order and hold only
what is in the heap, and its globals are pinned.  Every action that the program calls for
leaves a sound machine, gives live values, and fails at most for a reason that lies in the
program.
-/
import ClosureCache.Proofs.Evaluation.Capturing
import ClosureCache.Proofs.Evaluation.Identity

namespace ClosureCache

open Heap

/-! ## Errors -/

/-- Whether an error speaks of the machine and not of the program that it runs. -/
def EvalError.isInternal : EvalError → Bool
  | unknownSite _ => true
  | unannotated _ => true
  | immutableCapture _ => true
  | key _ => true
  | cache _ => true
  | heap _ => true
  | scope _ => true
  | _ => false

def Stop.isInternal : Stop EvalError → Bool
  | error e => e.isInternal
  | _ => false

/-! ## Sound machines -/

/-- What an evaluation keeps up. -/
structure Machine.Sound (image : Image) (m : Machine) : Prop where
  typed : m.heap.Typed image
  orderly : ∃ held past labels, Orderly image held past m labels
  environment : ∃ e, m.heap.environment image.globalEnvironment = .ok e ∧
    e.scope = ScopeTree.global
  pinned : ∀ x, x = image.globalEnvironment ∨ x = image.globalObject →
    ∃ e, m.heap.entry? x = some e ∧ 0 < e.roots

/-- A sound machine in which nothing of an earlier one is lost. -/
structure Machine.Later (image : Image) (m m' : Machine) : Prop where
  sound : m'.Sound image
  continues : Continues m.heap m'.heap

section Sound

variable {image : Image} {m m₁ m' : Machine}

theorem Machine.Later.refl (hm : m.Sound image) : m.Later image m := ⟨hm, .refl _⟩

theorem Machine.Later.trans (a : m.Later image m₁) (b : m₁.Later image m') : m.Later image m' :=
  ⟨b.sound, a.continues.trans b.continues⟩

/-- Pinned globals stay pinned. -/
theorem Machine.Sound.pinned_of_continues (hm : m.Sound image) {h : Heap}
    (hp : Continues m.heap h) {x : ObjectId}
    (hx : x = image.globalEnvironment ∨ x = image.globalObject) :
    ∃ e, h.entry? x = some e ∧ 0 < e.roots := by
  obtain ⟨e, he, hpos⟩ := hm.pinned x hx
  obtain ⟨e', he', hroots⟩ := hp.roots x e he
  exact ⟨e', he', hroots ▸ hpos⟩

/-- A step that leaves the caches alone keeps a machine sound. -/
theorem Machine.Sound.step (hm : m.Sound image) (hregistry : m'.registry = m.registry)
    (hs : m.heap.Spares m.heap.IsPart m'.heap) (ht : m'.heap.Typed image)
    (hp : Continues m.heap m'.heap) : m.Later image m' := by
  obtain ⟨held, past, labels, ho⟩ := hm.orderly
  obtain ⟨e, he, hscope⟩ := hm.environment
  obtain ⟨e', he', hscope', -⟩ := hp.persists.environment _ e trivial he
  exact ⟨⟨ht, ⟨held, past, labels, ho.spareParts hregistry hs⟩, ⟨e', he', hscope'.trans hscope⟩,
    fun x hx => hm.pinned_of_continues hp hx⟩, hp⟩

/-- A step of the registry that makes only what fits keeps the heap typed. -/
theorem Registry.Extends.continues {made : Object → Prop} {r r' : Registry} {h h' : Heap}
    {labels labels' : Labels} (hP : r.Proper h labels)
    (hext : Extends made r h labels r' h' labels') : Continues h h' := by
  have hobject : ∀ x o, h.object x = .ok o → o.isPart = false → h'.object x = .ok o := by
    intro x o hx ho
    rw [hext.frame.object_eq (lt_of_contains (contains_of_object hx)), hx]
    rintro ⟨p, hp⟩
    rw [hP.unlabelled hx ho] at hp
    cases hp
  refine ⟨⟨fun {x} _ hx => ?_, fun x e _ he => ⟨e, ?_, rfl, rfl, rfl⟩, fun x f _ hf => ?_,
    fun x c _ hc => ⟨c, ?_⟩⟩, fun x e he => ?_⟩
  · rwa [hext.frame.contains_eq (lt_of_contains hx)]
  · exact environment_eq_ok.2 (hobject _ _ (environment_eq_ok.1 he) rfl)
  · exact function_eq_ok.2 (hobject _ _ (function_eq_ok.1 hf) rfl)
  · exact cellContents_eq_ok.2 (hobject _ _ (cellContents_eq_ok.1 hc) rfl)
  · have hroots := hext.frame.roots x (lt_of_some he)
    rw [he] at hroots
    obtain ⟨e', he', hr⟩ := Option.map_eq_some_iff.1 hroots
    exact ⟨e', he', hr⟩

end Sound

/-! ## Steps with what they give -/

/-- A step on a sound machine leaves a later one.  What it gives is as `P` says, and it
does not fail with an internal error. -/
structure EvalM.Gives {α : Type} (image : Image) (m : Machine) (x : EvalM α)
    (P : α → Machine → Prop) : Prop where
  later : m.Later image (x image m).2
  ok : ∀ a, (x image m).1 = .ok a → P a (x image m).2
  error : ∀ e, (x image m).1 = .error e → e.isInternal = false

namespace EvalM

variable {α : Type} {image : Image} {m : Machine} {P : α → Machine → Prop}

theorem Gives.of_spares {x : EvalM α} (hx : x.SparesCaches) (hm : m.Sound image)
    {result : Except (Stop EvalError) α} {m' : Machine} (hrun : x image m = (result, m'))
    (ht : m'.heap.Typed image) (hp : Continues m.heap m'.heap)
    (hok : ∀ a, result = .ok a → P a m') (herror : ∀ e, result = .error e → e.isInternal = false) :
    Gives image m x P := by
  obtain ⟨hregistry, hs⟩ := hx image m
  rw [hrun] at hregistry hs
  refine ⟨?_, ?_, ?_⟩
  · rw [hrun]
    exact hm.step hregistry hs ht hp
  · rw [hrun]
    exact hok
  · rw [hrun]
    exact herror

/-- A step that changes nothing. -/
theorem Gives.of_eq {x : EvalM α} (hm : m.Sound image) {result : Except (Stop EvalError) α}
    (hrun : x image m = (result, m)) (hok : ∀ a, result = .ok a → P a m)
    (herror : ∀ e, result = .error e → e.isInternal = false) : Gives image m x P := by
  refine ⟨?_, ?_, ?_⟩
  · rw [hrun]
    exact .refl hm
  · rw [hrun]
    exact hok
  · rw [hrun]
    exact herror

theorem Gives.congr {x y : EvalM α} (h : x image m = y image m) (hy : Gives image m y P) :
    Gives image m x P := by
  refine ⟨?_, ?_, ?_⟩
  · rw [h]
    exact hy.later
  · rw [h]
    exact hy.ok
  · rw [h]
    exact hy.error

variable {env : ObjectId}

/-! ## Reading -/

theorem readBinding_gives (hi : image.Sound) (hm : m.Sound image) {b : BindingId} {d : Binding}
    (hb : image.tree.binding? b = some d) (hs : m.heap.Sees image env (.binding b))
    (name : String) : Gives image m (readBinding env b name) fun v m' => v.Live m'.heap := by
  have hrun : readBinding env b name image m =
      ((m.heap.readBinding image.tree env b name).mapError .error, m) := ask_apply _
  rcases hm.typed.readBinding hi hb hs name with ⟨v, hv, hlive⟩ | hv
  · rw [hv] at hrun
    exact .of_eq hm hrun (fun a ha => Except.ok.inj ha ▸ hlive) fun e he => by cases he
  · rw [hv] at hrun
    exact .of_eq hm hrun (fun a ha => by cases ha) fun e he => by cases he; rfl

theorem readGlobal_gives (hm : m.Sound image) (name : String) :
    Gives image m (readGlobal name) fun v m' => v.Live m'.heap := by
  obtain ⟨entry, he, -⟩ := hm.pinned _ (.inr rfl)
  have ho := object_of_some he
  have hrun : readGlobal name image m = _ := ask_apply _
  rw [ho] at hrun
  cases hobject : entry.object with
  | ordinary properties =>
    rw [hobject] at hrun ho
    dsimp only at hrun
    cases hget : properties.get? name with
    | none =>
      rw [hget] at hrun
      exact .of_eq hm hrun (fun a ha => by cases ha) fun e he => by cases he; rfl
    | some v =>
      rw [hget] at hrun
      refine .of_eq hm hrun (fun a ha id hid => ?_) fun e he => by cases he
      obtain rfl := Except.ok.inj ha
      refine (hm.typed _ _ ho rfl).live id (mem_objectsOf.2 ⟨v, ?_, hid⟩)
      exact List.mem_map.2 ⟨_, SortedMap.mem_toList_iff.2 hget, rfl⟩
  | _ =>
    rw [hobject] at hrun
    exact .of_eq hm hrun (fun a ha => by cases ha) fun e he => by cases he; rfl

/-- An identifier whose binding is in sight. -/
theorem readIdentifier_gives (hi : image.Sound) (hm : m.Sound image) {i : Identifier}
    (hs : ∀ b, i.resolution = .binding b → ∃ d, image.tree.binding? b = some d ∧
      m.heap.Sees image env (.binding b)) :
    Gives image m (readIdentifier env i) fun v m' => v.Live m'.heap := by
  rw [readIdentifier]
  cases hr : i.resolution with
  | binding b =>
    obtain ⟨d, hb, hsees⟩ := hs b hr
    exact readBinding_gives hi hm hb hsees i.name
  | «global» => exact readGlobal_gives hm i.name
  | unresolved =>
    exact .of_eq hm (fail_apply _) (fun a ha => by cases ha) fun e he => by cases he; rfl

/-- A `this` in sight. -/
theorem readThis_gives (hm : m.Sound image) {p : ScopeId}
    (hs : m.heap.Sees image env (.this p)) :
    Gives image m (readThis env (some p)) fun v m' => v.Live m'.heap := by
  obtain ⟨v, stop, hv, -, -, hlive⟩ := hm.typed.locateThis hs
  have hask : ask (fun _ h => (h.locateThis env p).mapError .heap) image m =
      (.ok (some v), m) := by
    rw [ask_apply, hv]
    rfl
  have hrun : readThis env (some p) image m = (.ok v, m) := by
    rw [readThis, bind_of_ok hask]
    rfl
  exact .of_eq hm hrun (fun a ha => Except.ok.inj ha ▸ hlive) fun e he => by cases he

theorem getProperty_gives (hm : m.Sound image) {target : Value} (ht : target.Live m.heap)
    (name : String) :
    Gives image m (ask fun _ h => h.getProperty target name) fun v m' => v.Live m'.heap := by
  have hrun : ask (fun _ h => h.getProperty target name) image m =
      ((m.heap.getProperty target name).mapError .error, m) := ask_apply _
  rcases getProperty_spec hm.typed ht name with ⟨v, hv, hlive⟩ | ⟨detail, hv⟩
  · rw [hv] at hrun
    exact .of_eq hm hrun (fun a ha => Except.ok.inj ha ▸ hlive) fun e he => by cases he
  · rw [hv] at hrun
    exact .of_eq hm hrun (fun a ha => by cases ha) fun e he => by cases he; rfl

/-- The function object that a call names is in the heap. -/
theorem callee_gives (hm : m.Sound image) {v : Value} (hv : v.Live m.heap) :
    Gives image m (callee v) fun r m' => m'.heap.function r.1 = .ok r.2 := by
  rw [callee]
  cases hid : v.object? with
  | none => exact .of_eq hm (fail_apply _) (fun a ha => by cases ha) fun e he => by cases he; rfl
  | some id =>
    obtain ⟨entry, he⟩ := contains_iff.1 (hv id hid)
    have ho := object_of_some he
    have hask : ask (fun _ h => (h.object id).mapError .heap) image m =
        (.ok entry.object, m) := by
      rw [ask_apply, ho]
      rfl
    refine .congr (bind_of_ok hask) ?_
    cases hobject : entry.object with
    | function f =>
      rw [hobject] at ho
      refine .of_eq hm rfl (fun a ha => ?_) fun e he => by cases he
      obtain rfl := Except.ok.inj ha
      exact function_eq_ok.2 ho
    | _ => exact .of_eq hm rfl (fun a ha => by cases ha) fun e he => by cases he; rfl

/-- The definition of a function object is known. -/
theorem definition_gives (hm : m.Sound image) {f : FunctionObject} (hf : f.Fits image m.heap) :
    Gives image m (definition f) fun node _ => image.functions.get? f.site = some node := by
  obtain ⟨node, hnode⟩ : ∃ node, image.functions.get? f.site = some node := by
    cases hf with
    | chain hdef => exact ⟨_, hdef.found⟩
    | captured hdef => exact ⟨_, hdef.found⟩
  have hrun : definition f image m = (.ok node, m) := by
    rw [definition, bind_of_ok read_apply, hnode]
    rfl
  exact .of_eq hm hrun (fun a ha => Except.ok.inj ha ▸ hnode) fun e he => by cases he

/-! ## Writing -/

/-- A write to a location where it is not refused. -/
theorem writeBinding_gives (hi : image.Sound) (hm : m.Sound image) {b : BindingId} {d : Binding}
    (hb : image.tree.binding? b = some d) {location : Location}
    (hlocate : m.heap.locate image.tree env b = .ok (some location))
    (hl : location.Fits image m.heap d)
    (hw : d.storage = .slot → ∀ g i, location ≠ .captured g i) (name : String) {v : Value}
    (hv : v.Live m.heap) : Gives image m (writeBinding env b name v) fun _ _ => True := by
  obtain ⟨h', hrun, ht, hp⟩ := writeBinding_spec hm.typed hi hb hlocate hl hw name hv
  have hstep : writeBinding env b name v image m = (.ok (), { m with
      heap := h' }) := by
    rw [writeBinding, bind_of_ok read_apply, tryHeap_apply, hrun]
    rfl
  exact .of_spares (Keeps.writeBinding env b name v).sparesCaches hm hstep ht hp
    (fun _ _ => trivial) fun e he => by cases he

theorem setProperty_gives (hm : m.Sound image) {target v : Value} (ht : target.Live m.heap)
    (hv : v.Live m.heap) (name : String) :
    Gives image m (onHeap (Heap.setProperty target name v)) fun _ _ => True := by
  obtain ⟨result, h', hrun, ht', hp, herror⟩ := setProperty_spec hm.typed ht hv name
  have hstep : onHeap (Heap.setProperty target name v) image m = (result, { m with
      heap := h' }) := by
    rw [onHeap_apply, hrun]
  refine .of_spares (Keeps.setProperty target name v).sparesCaches hm hstep ht' hp
    (fun _ _ => trivial) fun e he => ?_
  cases e with
  | error e =>
    rcases herror e he with ⟨detail, rfl⟩ | ⟨detail, rfl⟩
    · rfl
    · rfl
  | _ => rfl

/-- An assignment to what may be assigned. -/
theorem assign_gives (hi : image.Sound) (hm : m.Sound image) {i : Identifier}
    (hs : ∀ b, i.resolution = .binding b → ∃ d, image.tree.binding? b = some d ∧
      m.heap.Sees image env (.binding b) ∧ d.mutable = true) {v : Value} (hv : v.Live m.heap) :
    Gives image m (assign env i v) fun _ _ => True := by
  rw [assign]
  cases hr : i.resolution with
  | binding b =>
    obtain ⟨d, hb, hsees, hmutable⟩ := hs b hr
    obtain ⟨location, hlocate, hl⟩ := hm.typed.locate hi hb hsees
    refine writeBinding_gives hi hm hb hlocate hl (fun hslot g i he => ?_) i.name hv
    -- what a function captures without a cell is never assigned
    subst he
    cases hl with
    | captured _ _ _ _ himmutable =>
      rw [himmutable hslot] at hmutable
      cases hmutable
  | «global» =>
    have htarget : Value.Live m.heap (.object image.globalObject) := by
      intro id hid
      obtain rfl := Option.some.inj hid
      obtain ⟨entry, he, -⟩ := hm.pinned _ (.inr rfl)
      exact contains_of_some he
    exact .congr (bind_of_ok read_apply) (setProperty_gives hm htarget hv i.name)
  | unresolved =>
    exact .of_eq hm (fail_apply _) (fun a ha => by cases ha) fun e he => by cases he; rfl

/-! ## New objects -/

theorem allocate_gives (hm : m.Sound image) {o : Object}
    (ho : ∀ y ∈ o.strongRefs, m.heap.contains y = true) (henv : ∀ e, o ≠ .environment e)
    (hfun : ∀ f, o ≠ .function f) :
    Gives image m (allocate o) fun id m' => m'.heap.contains id = true := by
  have hp := continues_allocate m.heap o
  refine .of_spares (Keeps.allocate trivial).sparesCaches hm (allocate_apply o) ?_ hp
    (fun a ha => ?_) fun e he => by cases he
  · exact hm.typed.allocate fun _ => Object.fits_of_live
      (fun y hy => hp.contains (ho y hy)) henv hfun
  · obtain rfl := Except.ok.inj ha
    exact contains_of_object (object_allocate_self m.heap o)

theorem newEnvironment_gives (hi : image.Sound) (hm : m.Sound image) {scope : ScopeId} {sc : Scope}
    (hsc : image.tree.scope? scope = some sc) {outer : Enclosure} {this : Option Value}
    (houter : ∀ y ∈ outer.refs, m.heap.contains y = true)
    (hthis : ∀ y ∈ objectOf this, m.heap.contains y = true)
    (hprovides : sc.providesThis = true → this.isSome = true)
    (hblock : sc.kind = .block → ∃ y e, outer = .environment y ∧
      m.heap.environment y = .ok e ∧ sc.parent = some e.scope) :
    Gives image m (newEnvironment scope outer this) fun env m' => ∃ e,
      m'.heap.environment env = .ok e ∧ e.scope = scope ∧ e.outer = outer ∧ e.this = this := by
  obtain ⟨env, e, h', hrun, ht, hp, he⟩ :=
    newEnvironment_spec hm.typed hi hsc houter hthis hprovides hblock
  have hstep : newEnvironment scope outer this image m = (.ok env, { m with
      heap := h' }) := by
    rw [newEnvironment, bind_of_ok read_apply, tryHeap_apply, hrun]
    rfl
  have hspares : SparesCaches (newEnvironment scope outer this) :=
    (Keeps.newEnvironment scope outer this).sparesCaches
  refine .of_spares hspares hm hstep ht hp (fun a ha => ?_) fun e he => by cases he
  obtain rfl := Except.ok.inj ha
  exact ⟨e, he⟩

/-! ## Reaching definitions -/

/-- A shared definition can be reached: its key can be built, and its captures are there. -/
structure Shares (image : Image) (h : Heap) (env : ObjectId) (site : SiteId) (spec : CaptureSpec)
    (key : Key) (closure : Closure) : Prop where
  buildKey : spec.buildKey (h.liveScope image.tree env) = .ok key
  live : ∀ id, .object id ∈ key.path → h.contains id = true
  capture : h.captureClosure image.tree env spec = .ok closure
  refs : ∀ y ∈ closure.refs, h.contains y = true
  fits : FunctionObject.Fits image h ⟨site, closure⟩

section Reaching

variable {node : FunctionNode} {site : SiteId} {own : ScopeId} {e : Environment}

theorem exists_shares (hi : image.Sound) (hm : m.Sound image)
    (hfound : image.functions.get? site = some node) (hplaced : node.Placed image.tree e.scope own)
    (hbody : BoundStatements image.tree own node.body)
    (hs : m.heap.SeesAll image env e.scope node.references) {spec : CaptureSpec}
    (hspec : image.analysis.get? site = some (.memoized spec)) :
    ∃ key closure, Shares image m.heap env site spec key closure := by
  have hcovers := hi.covers hfound hplaced hbody hspec
  have hsight := hcovers.inSight hi hplaced hbody hs
  obtain ⟨key, hkey, hids⟩ := CaptureSpec.buildKey_spec hm.typed hi hsight
  obtain ⟨closure, hclosure, hrefs, hfits⟩ :=
    hm.typed.captureClosure hi hspec hfound hplaced hbody hs
  exact ⟨key, closure, hkey, hids, hclosure, hrefs, hfits⟩

/-- Nothing stands in the way of reaching a definition that is found under its site. -/
theorem not_refuses (hsite : node.site = some site) {a : SiteAnalysis}
    (hanalysis : image.analysis.get? site = some a)
    (hshares : ∀ spec, image.analysis.get? site = some (.memoized spec) →
      ∃ key closure, Shares image m.heap env site spec key closure) {error : EvalError} :
    ¬ Refuses image node env m.heap error := by
  intro hrefused
  cases hrefused with
  | unannotated hnone =>
    rw [hsite] at hnone
    cases hnone
  | unknown site' hsite' hnone =>
    rw [hsite] at hsite'
    obtain rfl := Option.some.inj hsite'
    rw [hanalysis] at hnone
    cases hnone
  | keyless site' spec e hsite' hspec hfail =>
    rw [hsite] at hsite'
    obtain rfl := Option.some.inj hsite'
    obtain ⟨key, closure, h⟩ := hshares spec hspec
    rw [h.buildKey] at hfail
    cases hfail
  | captureless site' spec key e hsite' hspec _ hfail =>
    rw [hsite] at hsite'
    obtain rfl := Option.some.inj hsite'
    obtain ⟨key, closure, h⟩ := hshares spec hspec
    rw [h.capture] at hfail
    cases hfail

/-- A closure of its own for a definition that is not shared. -/
theorem fresh_later (hm : m.Sound image) (he : m.heap.environment env = .ok e)
    (hfound : image.functions.get? site = some node) (hplaced : node.Placed image.tree e.scope own)
    (hbody : BoundStatements image.tree own node.body)
    (hs : m.heap.SeesAll image env e.scope node.references) {m' : Machine}
    (hheap : m'.heap = (m.heap.allocate (.function ⟨site, .chain env⟩)).2)
    (hregistry : m'.registry = m.registry) : m.Later image m' := by
  have hp := continues_allocate m.heap (.function ⟨site, .chain env⟩)
  obtain ⟨e', he', hscope, -⟩ := hp.persists.environment env e trivial he
  have hfits : FunctionObject.Fits image (m.heap.allocate (.function ⟨site, .chain env⟩)).2
      ⟨site, .chain env⟩ := by
    refine .chain ⟨hfound, hscope ▸ hplaced, hbody⟩ rfl he' ?_
    rw [hscope]
    exact hs.persists hp.persists (closed_true _) trivial
  refine hm.step hregistry ?_ ?_ ?_
  · rw [hheap]
    exact spares_allocate _ m.heap _
  · rw [hheap]
    refine hm.typed.allocate fun _ => ⟨fun y hy => ?_, fun e he => (by cases he), fun f hf => ?_⟩
    · obtain rfl := List.mem_singleton.1 hy
      exact contains_of_environment he'
    · exact Object.function.inj hf ▸ hfits
  · rw [hheap]
    exact hp

/-- The closure that the caches give for a shared definition. -/
theorem reached_later (hm : m.Sound image) {spec : CaptureSpec}
    (hspec : image.analysis.get? site = some (.memoized spec)) {key : Key} {closure : Closure}
    (hshares : Shares image m.heap env site spec key closure) {m' : Machine}
    (hm' : (instantiate node env image m).2 = m') {result : Except EvalError Registry.Reached}
    (hreach : m.registry.reach site spec.arity key .cache
      (HeapM.change fun h => h.allocate (.function ⟨site, closure⟩)) m.heap =
        (result, m'.registry, m'.heap)) :
    m.Later image m' ∧ ∃ r, result = .ok r ∧ m'.heap.contains r.function = true := by
  obtain ⟨held, past, labels, ho⟩ := hm.orderly
  obtain ⟨labels'', horder⟩ := ho.instantiate node env
  have hperform : (Action.instantiate node env).perform = instantiate node env := rfl
  rw [hperform, hm'] at horder
  have harity := CaptureSpec.arity_of_buildKey hshares.buildKey
  obtain ⟨result', r', h', labels', hrun, -, hext, hout⟩ := ho.proper.reach_spec ho.fits
    site key (by rw [Image.arity?, hspec, harity]) (.function ⟨site, closure⟩) rfl EvalError.cache
  rw [harity, hreach] at hrun
  obtain ⟨rfl, hrest⟩ := Prod.mk.inj hrun
  obtain ⟨rfl, rfl⟩ := Prod.mk.inj hrest
  have hp := hext.continues ho.proper
  have ht : m'.heap.Typed image := by
    refine hm.typed.step hp.persists fun x o hx hpart =>
      (hext.plain x o hx hpart).imp_right fun hmade => ?_
    obtain ⟨-, rfl⟩ := hmade
    refine ⟨fun y hy => hp.contains (hshares.refs y hy), fun e he => (by cases he), fun f hf => ?_⟩
    obtain rfl := Object.function.inj hf
    exact hshares.fits.persists hp.persists (closed_true _) fun _ _ => trivial
  obtain ⟨e₀, he₀, hscope₀⟩ := hm.environment
  obtain ⟨e', he', hscope', -⟩ := hp.persists.environment _ _ trivial he₀
  refine ⟨⟨⟨ht, ⟨held, _, labels'', horder⟩, ⟨e', he', hscope'.trans hscope₀⟩,
    fun x hx => hm.pinned_of_continues hp hx⟩, hp⟩, ?_⟩
  obtain ⟨f, hf, hin⟩ : ∃ f, result.map Registry.Reached.function = .ok f ∧
      m'.heap.contains f = true := by
    generalize result.map Registry.Reached.function = given at hout
    cases hout with
    | hit f hf hsame => exact ⟨f, rfl, hp.contains (ho.sharing.live _ _ f hf)⟩
    | miss f _ _ hobject hadd => exact ⟨f, rfl, contains_of_object hobject⟩
    | refused id hid hnot _ =>
      rw [hp.contains (hshares.live id hid)] at hnot
      cases hnot
  cases result with
  | error e => cases hf
  | ok r =>
    obtain rfl := Except.ok.inj hf
    exact ⟨r, rfl, hin⟩

/-- Reaching a known definition where everything outside of it is in sight gives a
function. -/
theorem instantiate_gives (hi : image.Sound) (hm : m.Sound image) (hknown : image.Knows node)
    (he : m.heap.environment env = .ok e) (hbound : node.Bound image.tree e.scope)
    (hs : m.heap.SeesAll image env e.scope node.references) :
    Gives image m (instantiate node env) fun v m' => v.Live m'.heap := by
  obtain ⟨site, hsite, hfound⟩ := hknown
  obtain ⟨own, hplaced, hbody⟩ := FunctionNode.bound_iff.1 hbound
  obtain ⟨a, -, hanalysis⟩ := hi.analyzed site node hfound
  have hshares : ∀ spec, image.analysis.get? site = some (.memoized spec) →
      ∃ key closure, Shares image m.heap env site spec key closure := fun _ hspec =>
    exists_shares hi hm hfound hplaced hbody hs hspec
  have hend := instantiate_spec image node env m
  suffices hall : m.Later image (instantiate node env image m).2 ∧
      ∃ f, (instantiate node env image m).1 = .ok (.object f) ∧
        (instantiate node env image m).2.heap.contains f = true by
    obtain ⟨hlater, f, hf, hin⟩ := hall
    refine ⟨hlater, fun v hv id hid => ?_, fun error herror => ?_⟩
    · rw [hf] at hv
      obtain rfl := Except.ok.inj hv
      obtain rfl := Option.some.inj hid
      exact hin
    · rw [hf] at herror
      cases herror
  generalize hr : instantiate node env image m = r at hend
  obtain ⟨result, m'⟩ := r
  dsimp only at hend ⊢
  cases hend with
  | refused error hrefused _ _ => exact absurd hrefused (not_refuses hsite hanalysis hshares)
  | fresh site' reason hsite' hspec hheap hregistry =>
    rw [hsite] at hsite'
    obtain rfl := Option.some.inj hsite'
    refine ⟨fresh_later hm he hfound hplaced hbody hs hheap hregistry, _, rfl, ?_⟩
    rw [hheap]
    exact contains_of_object (object_allocate_self m.heap _)
  | reached site' spec key closure result hsite' hspec hkey hclosure hreach =>
    rw [hsite] at hsite'
    obtain rfl := Option.some.inj hsite'
    obtain ⟨key', closure', h⟩ := hshares spec hspec
    obtain rfl := Except.ok.inj (hkey.symm.trans h.buildKey)
    obtain rfl := Except.ok.inj (hclosure.symm.trans h.capture)
    obtain ⟨hlater, r, rfl, hin⟩ := reached_later hm hspec h (congrArg Prod.snd hr) hreach
    exact ⟨hlater, r.function, rfl, hin⟩

end Reaching

end EvalM

end ClosureCache
