/-
Loading a program, and what a host does with it.

A session is an image and a machine.  Loading resolves and analyses the program,
so that an error of either comes before anything runs, and sets up the global
object and the global environment, which stay rooted.  Each host operation is a
step of evaluation or a question to the session.

Collections happen only when the host asks for one.  A value that the host holds
survives a collection only while it is retained.
-/
import ClosureCache.Evaluation.Evaluator
import ClosureCache.Heap.Collection

namespace ClosureCache

structure Session where
  image : Image
  machine : Machine

/-! ## Loading -/

/-- The notice of the analysis of a definition; one that is not marked for
sharing is not mentioned. -/
def SiteAnalysis.notice? (site : SiteId) : SiteAnalysis → Option Notice
  | memoized spec =>
    some (.ok "capture_analyzer" "analyze" (some site)
      ("captures=[" ++ ",".intercalate spec.names ++ "] " ++ spec.fingerprint))
  | unmemoized .dynamicBody =>
    some { component := "capture_analyzer", event := "analyze", outcome := "unmemoized",
           errorCode := "", site := some site, detail := UnmemoizedReason.dynamicBody.name }
  | unmemoized .notMemoized => none

def ResolvedProgram.notice (r : ResolvedProgram) : Notice :=
  .ok "resolver" "resolve" none
    ("sites=" ++ r.sites.size.repr ++ " scopes=" ++ r.tree.scopes.size.repr ++
      " bindings=" ++ r.tree.bindings.size.repr)

/-- The definitions of a resolved program by their site. -/
def ResolvedProgram.functionTable (r : ResolvedProgram) : SortedMap SiteId FunctionNode :=
  .ofList (r.program.functions.filterMap fun f => f.site.map fun site => (site, f))

/-- Makes the global object and the global environment, and roots both. -/
def setUpGlobals (tree : ScopeTree) : HeapM EvalError (ObjectId × ObjectId) := do
  let object ← HeapM.change fun h => h.allocate (.ordinary ∅)
  HeapM.mapError .heap (Heap.root object)
  let environment ←
    Heap.newEnvironment tree ScopeTree.global .outermost (some .undefined)
  HeapM.mapError .heap (Heap.root environment)
  return (object, environment)

def Session.load (p : Program) (config : Config) : Except LoadError Session := do
  config.validate.mapError .config
  let resolved ← p.resolve.mapError .resolve
  let analysis ← resolved.analyze.mapError .analysis
  let notices := resolved.notice :: analysis.toList.filterMap fun (site, a) => a.notice? site
  let log := notices.foldl EventLog.emit (.empty config.traceId config.eventCapacity)
  match setUpGlobals resolved.tree .empty with
  | (.error e, _) => throw (.eval e)
  | (.ok (globalObject, globalEnvironment), heap) =>
    return {
      image := {
        program := resolved.program, tree := resolved.tree, sites := resolved.sites,
        functions := resolved.functionTable, analysis, config, globalEnvironment, globalObject }
      machine := { heap, registry := .empty, log, ran := false } }

namespace Session

def perform {α : Type} (s : Session) (x : EvalM α) : Except (Stop EvalError) α × Session :=
  let (result, machine) := x s.image s.machine
  (result, { s with machine })

/-! ## Questions -/

/-- The value of a name at top level: a binding, or a property of the global
object. -/
def global? (s : Session) (name : String) : Option Value :=
  let tree := s.image.tree
  match tree.lookupLocal ScopeTree.global name with
  | some b => (s.machine.heap.readBinding tree s.image.globalEnvironment b name).toOption
  | none =>
    match s.machine.heap.object s.image.globalObject with
    | .ok (.ordinary properties) => properties.get? name
    | _ => none

def property (s : Session) (target : Value) (name : String) : Except EvalError Value :=
  s.machine.heap.getProperty target name

/-- The target of a weak reference, until it is reclaimed. -/
def derefWeak (s : Session) (handle : WeakHandle) : Option Value :=
  (s.machine.heap.derefWeak handle).map .object

def siteNamed (s : Session) (name : String) : Option SiteId :=
  (s.image.sites.find? fun info => info.name == some name).map SiteInfo.site

def site? (s : Session) (site : SiteId) : Option SiteInfo :=
  s.image.sites.find? fun info => info.site == site

def functionSite (s : Session) (value : Value) : Option SiteId := do
  let id ← value.object?
  let f ← (s.machine.heap.function id).toOption
  return f.site

/-- The contents of the first capture with a name that gives any. -/
def capturedNamed (s : Session) (name : String) (bindings : List (BindingId × CapturedSlot)) :
    Option Value :=
  bindings.findSome? fun (b, slot) => do
    let declared ← s.image.tree.binding? b
    if declared.name = name then (s.machine.heap.capturedContents slot).toOption.join else none

/-- What a shared function captured under a name: for a binding with a cell the
cell itself. -/
def captured (s : Session) (value : Value) (name : String) : Option Value := do
  let id ← value.object?
  let f ← (s.machine.heap.function id).toOption
  match f.closure with
  | .chain _ => none
  | .captured bindings this => if name = "this" then this else s.capturedNamed name bindings

def cacheEntries (s : Session) (site : SiteId) : Except (Stop CacheError) Nat :=
  match s.machine.registry.get? site with
  | some c => c.trie.liveEntries s.machine.heap
  | none => .ok 0

end Session

/-! ## Steps -/

namespace EvalM

/-- Runs the statements at top level, once. -/
def run (steps : Nat) : EvalM Value := do
  if (← get).ran then
    fail .alreadyRan
  else
    modify fun m => { m with ran := true }
    let image ← read
    (Course.program steps image.globalEnvironment image.program.body).run

def global? (name : String) : EvalM (Option Value) := do
  return Session.global? ⟨← read, ← get⟩ name

def setGlobal (name : String) (value : Value) : EvalM Unit := do
  let image ← read
  match image.tree.lookupLocal ScopeTree.global name with
  | some b => writeBinding image.globalEnvironment b name value
  | none => onHeap (Heap.setProperty (.object image.globalObject) name value)

/-- Calls the function that a name at top level holds, without a `this`. -/
def callGlobal (steps : Nat) (name : String) (arguments : List Value) : EvalM Value := do
  match ← global? name with
  | none => fail (.reference name)
  | some function => call steps function .undefined arguments

def newObject (properties : List (String × Value)) : EvalM Value := do
  return .object (← allocate (.ordinary (.ofList properties)))

/-- Keeps a value alive until it is released. -/
def retain (value : Value) : EvalM Unit :=
  match value.object? with
  | some id => tryHeap (HeapM.mapError .heap (Heap.root id))
  | none => return

def release (value : Value) : EvalM Unit :=
  match value.object? with
  | some id => tryHeap (HeapM.mapError .heap (Heap.unroot id))
  | none => return

def collectHeap : EvalM CollectionStats := do
  match (← heap).collect? with
  | none => throw .endless
  | some (stats, h) =>
    modify fun m => { m with heap := h }
    return stats

def collectNotice (stats : CollectionStats) : Notice :=
  .ok "heap" "collect" none
    ("marked=" ++ stats.marked.repr ++ " swept=" ++ stats.swept.repr ++
      " weak_cleared=" ++ stats.weakCleared.repr ++ " finalizations=" ++ stats.finalized.repr ++
      " rounds=" ++ stats.rounds.repr)

/-- The error of a walk through a cache as an error of evaluation. -/
def cacheStop : Stop CacheError → Stop EvalError
  | .error e => .error (.cache e)
  | .endless => .endless
  | .overflow => .overflow

def compactCaches : EvalM Nat := fun _ ⟨heap, registry, log, ran⟩ =>
  let (result, registry, heap) := registry.compactAll heap
  (result.mapError cacheStop, ⟨heap, registry, log, ran⟩)

/-- One collection, after which the caches are compacted if the configuration
says so. -/
def collectGarbage : EvalM CollectionStats := do
  let stats ← collectHeap
  emit (collectNotice stats)
  if (← read).config.pruneAfterCollect then
    let pruned ← compactCaches
    if 0 < pruned then
      emit (.ok "cache_registry" "compact" none ("pruned=" ++ pruned.repr))
  return stats

/-- A collection if enough was allocated since the last one. -/
def collectIfNeeded : EvalM (Option CollectionStats) := do
  if (← read).config.shouldCollect (← heap).allocationsSinceCollect then
    return some (← collectGarbage)
  else
    return none

def registerWeak (value : Value) (token : Nat) : EvalM WeakHandle :=
  match value.object? with
  | some id => tryHeap (HeapM.mapError .heap (Heap.registerWeak id token))
  | none => fail (.notAnObject ("cannot weakly reference a " ++ value.typeName))

def drainFinalizations : EvalM (List FinalizationRecord) :=
  onHeap (HeapM.change Heap.drainFinalizations)

end EvalM

end ClosureCache
