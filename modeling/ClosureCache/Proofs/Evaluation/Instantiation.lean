/-
What reaching a definition does.

`Instantiates` lists every way in which it can end, with the heap and the caches that
it leaves.  What it writes to the log is not said.
-/
import ClosureCache.Proofs.Evaluation.Machine
import ClosureCache.Proofs.Key

namespace ClosureCache

/-- Why reaching a definition fails before the caches are asked. -/
inductive Refuses (image : Image) (node : FunctionNode) (env : ObjectId) (h : Heap) :
    EvalError → Prop where
  | unannotated : node.site = none →
    Refuses image node env h (.unannotated ("function '" ++ node.displayName ++ "'"))
  | unknown (site : SiteId) : node.site = some site → image.analysis.get? site = none →
    Refuses image node env h (.unknownSite site)
  | keyless (site : SiteId) (spec : CaptureSpec) (e : KeyError) : node.site = some site →
    image.analysis.get? site = some (.memoized spec) →
    spec.buildKey (h.liveScope image.tree env) = .error e → Refuses image node env h (.key e)
  | captureless (site : SiteId) (spec : CaptureSpec) (key : Key) (e : EvalError) :
    node.site = some site → image.analysis.get? site = some (.memoized spec) →
    spec.buildKey (h.liveScope image.tree env) = .ok key →
    h.captureClosure image.tree env spec = .error e → Refuses image node env h e

/-- How reaching a definition in an environment can end. -/
inductive Instantiates (image : Image) (node : FunctionNode) (env : ObjectId) (m : Machine) :
    Except (Stop EvalError) Value → Machine → Prop where
  | refused {m' : Machine} (e : EvalError) : Refuses image node env m.heap e →
    m'.heap = m.heap → m'.registry = m.registry →
    Instantiates image node env m (.error (.error e)) m'
  /-- The definition is not shared. -/
  | fresh {m' : Machine} (site : SiteId) (reason : UnmemoizedReason) : node.site = some site →
    image.analysis.get? site = some (.unmemoized reason) →
    m'.heap = (m.heap.allocate (.function ⟨site, .chain env⟩)).2 → m'.registry = m.registry →
    Instantiates image node env m (.ok (.object ⟨m.heap.entries.size⟩)) m'
  /-- The caches are asked for the closure. -/
  | reached {m' : Machine} (site : SiteId) (spec : CaptureSpec) (key : Key) (closure : Closure)
    (result : Except EvalError Registry.Reached) : node.site = some site →
    image.analysis.get? site = some (.memoized spec) →
    spec.buildKey (m.heap.liveScope image.tree env) = .ok key →
    m.heap.captureClosure image.tree env spec = .ok closure →
    m.registry.reach site spec.arity key .cache
      (HeapM.change fun h => h.allocate (.function ⟨site, closure⟩)) m.heap =
        (result, m'.registry, m'.heap) →
    Instantiates image node env m
      ((result.map fun r => .object r.function).mapError .error) m'

namespace EvalM

variable {image : Image} {node : FunctionNode} {env : ObjectId} {m : Machine}

theorem reachRegistry_apply (site : SiteId) (arity : Nat) (key : Key) (closure : Closure) :
    reachRegistry site arity key closure image m =
      let reached := m.registry.reach site arity key EvalError.cache
        (HeapM.change fun h => h.allocate (.function ⟨site, closure⟩)) m.heap
      (reached.1.mapError .error, { m with
        registry := reached.2.1, heap := reached.2.2 }) := by
  obtain ⟨heap, registry, log, ran⟩ := m
  rw [reachRegistry]
  dsimp only
  split
  · next e r h hreach => rw [hreach]; rfl
  · next reached r h hreach => rw [hreach]; rfl

theorem freshClosure_spec {site : SiteId} {reason : UnmemoizedReason}
    (hsite : node.site = some site)
    (hspec : image.analysis.get? site = some (.unmemoized reason)) :
    Instantiates image node env m (freshClosure site env reason image m).1
      (freshClosure site env reason image m).2 := by
  rw [freshClosure, bind_of_ok read_apply]
  dsimp only
  split
  · rw [bind_of_ok (emit_apply _), bind_of_ok (allocate_apply _)]
    exact .fresh site reason hsite hspec rfl rfl
  · rw [bind_of_ok (allocate_apply _)]
    exact .fresh site reason hsite hspec rfl rfl

theorem sharedClosure_spec {site : SiteId} {spec : CaptureSpec} (hsite : node.site = some site)
    (hspec : image.analysis.get? site = some (.memoized spec)) :
    Instantiates image node env m (sharedClosure site env spec image m).1
      (sharedClosure site env spec image m).2 := by
  rw [sharedClosure, bind_of_ok read_apply, bind_of_ok heap_apply]
  cases hkey : spec.buildKey (m.heap.liveScope image.tree env) with
  | error e =>
    dsimp only
    rw [bind_of_ok (emit_apply _)]
    exact .refused _ (.keyless site spec e hsite hspec hkey) rfl rfl
  | ok key =>
    dsimp only
    cases hclosure : m.heap.captureClosure image.tree env spec with
    | error e =>
      rw [bind_of_error (by rw [ask_apply, hclosure]; rfl)]
      exact .refused _ (.captureless site spec key e hsite hspec hkey hclosure) rfl rfl
    | ok closure =>
      rw [bind_of_ok (by rw [ask_apply, hclosure]; rfl), bind_apply, reachRegistry_apply]
      generalize hreach : m.registry.reach site spec.arity key EvalError.cache
        (HeapM.change fun h => h.allocate (.function ⟨site, closure⟩)) m.heap = reached
      obtain ⟨result, registry, heap⟩ := reached
      have hend : ∀ m' : Machine, m'.registry = registry ∧ m'.heap = heap →
          Instantiates image node env m
            ((result.map fun r => .object r.function).mapError .error) m' := fun m' hm =>
        .reached site spec key closure result hsite hspec hkey hclosure
          (by rw [hreach, hm.1, hm.2])
      cases result with
      | error e => exact hend { m with
          registry, heap } ⟨rfl, rfl⟩
      | ok r =>
        dsimp only [Except.mapError_ok]
        -- with the log or without, the rest only writes to it
        split
        · rw [bind_of_ok (emit_apply _)]
          split
          · rw [bind_of_ok (emit_apply _)]
            exact hend _ ⟨rfl, rfl⟩
          · exact hend _ ⟨rfl, rfl⟩
        · split
          · rw [bind_of_ok (emit_apply _)]
            exact hend _ ⟨rfl, rfl⟩
          · exact hend _ ⟨rfl, rfl⟩

/-- Reaching a definition ends in one of the ways that are listed. -/
theorem instantiate_spec (image : Image) (node : FunctionNode) (env : ObjectId) (m : Machine) :
    Instantiates image node env m (instantiate node env image m).1
      (instantiate node env image m).2 := by
  rw [instantiate]
  cases hsite : node.site with
  | none => exact .refused _ (.unannotated hsite) rfl rfl
  | some site =>
    dsimp only
    rw [bind_of_ok read_apply]
    cases hspec : image.analysis.get? site with
    | none => exact .refused _ (.unknown site hsite hspec) rfl rfl
    | some analysis =>
      cases analysis with
      | unmemoized reason => exact freshClosure_spec hsite hspec
      | memoized spec => exact sharedClosure_spec hsite hspec

end EvalM

end ClosureCache
